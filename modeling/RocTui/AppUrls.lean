import RocTui.Cargo

namespace RocTui.AppUrls

open RocTui.Cargo (Str isSpace)

/-- What stands before the quote where `PLATFORM_RE` matches, from `platform` on. -/
def IsGroup (group : Str) : Prop :=
  group.take 8 = "platform".toList ∧ group.drop 8 ≠ [] ∧ (group.drop 8).all isSpace = true

instance (group : Str) : Decidable (IsGroup group) := inferInstanceAs (Decidable (_ ∧ _ ∧ _))

section
variable (isWord : Char → Bool)

def Boundary (before : Option Char) : Prop := ∀ c, before = some c → isWord c = false

instance (before : Option Char) : Decidable (Boundary isWord before) :=
  match before with
  | none => isTrue fun _ h => by cases h
  | some c => decidable_of_iff (isWord c = false)
    ⟨fun h _ heq => Option.some.inj heq ▸ h, fun h => h c rfl⟩

/-- `PLATFORM_RE.match` after the character `before`: the group, and what follows the match. -/
def matchAt (before : Option Char) (s : Str) : Option (Str × Str) :=
  match s.dropWhile (· ≠ '"') with
  | [] => none
  | _ :: text => match text.dropWhile (· ≠ '"') with
    | [] => none
    | _ :: rest =>
      let group := s.takeWhile (· ≠ '"')
      if Boundary isWord before ∧ IsGroup group ∧ text.takeWhile (· ≠ '"') ≠ [] then
        some (group, rest)
      else none

/-- `PLATFORM_RE.subn` with `count=1`, where there is something to replace. -/
def subn (platformUrl : Str) (before : Option Char) : Str → Option Str
  | [] => none
  | c :: s => match matchAt isWord before (c :: s) with
    | some (group, rest) => some (group ++ '"' :: platformUrl ++ '"' :: rest)
    | none => (subn platformUrl (some c) s).map (c :: ·)

end

variable {isWord : Char → Bool} {before : Option Char} {s s' group rest url url' : Str}

theorem split_first {q : Char} {xs ys xs' ys' : Str} (h : xs ++ q :: ys = xs' ++ q :: ys')
    (hq : q ∉ xs) : xs' = xs ∧ ys' = ys ∨ ∃ b, xs' = xs ++ q :: b ∧ ys = b ++ q :: ys' := by
  rcases List.append_eq_append_iff.mp h with ⟨a, rfl, htail⟩ | ⟨a, rfl, htail⟩
  · cases a with
    | nil => exact .inl ⟨by simp, by simpa using htail.symm⟩
    | cons c b =>
      obtain ⟨rfl, rfl⟩ := List.cons.inj htail
      exact .inr ⟨b, rfl, rfl⟩
  · cases a with
    | nil => exact .inl ⟨by simp, by simpa using htail⟩
    | cons c b =>
      obtain ⟨rfl, -⟩ := List.cons.inj htail
      exact absurd (List.mem_append_right _ List.mem_cons_self) hq

theorem split_quote (h : '"' ∉ group) :
    (group ++ '"' :: s).takeWhile (· ≠ '"') = group ∧
      (group ++ '"' :: s).dropWhile (· ≠ '"') = '"' :: s := by
  have all : ∀ c ∈ group, decide (c ≠ '"') = true := fun c hc =>
    decide_eq_true fun heq => h (heq ▸ hc)
  rw [List.takeWhile_append_of_pos all, List.dropWhile_append_of_pos all]
  simp

theorem of_dropWhile {q : Char} (h : s.dropWhile (· ≠ '"') = q :: rest) :
    s = s.takeWhile (· ≠ '"') ++ '"' :: rest ∧ '"' ∉ s.takeWhile (· ≠ '"') := by
  have quote : q = '"' := by
    have hnot := List.head?_dropWhile_not (· ≠ '"') s
    rw [h] at hnot
    simpa using hnot
  subst quote
  constructor
  · rw [← h, List.takeWhile_append_dropWhile]
  · intro hmem
    simpa using List.mem_takeWhile_imp hmem

theorem matchAt_eq_some : matchAt isWord before s = some (group, rest) ↔
    ∃ u, s = group ++ '"' :: (u ++ '"' :: rest) ∧ '"' ∉ group ∧ '"' ∉ u ∧ u ≠ [] ∧
      Boundary isWord before ∧ IsGroup group := by
  constructor
  · intro h
    unfold matchAt at h
    split at h
    · cases h
    · next q text hs =>
      split at h
      · cases h
      · next q' rest' htext =>
        dsimp only at h
        split at h
        · next hcond =>
          cases h
          obtain ⟨hb, hg, hu⟩ := hcond
          obtain ⟨heq, hfree⟩ := of_dropWhile hs
          obtain ⟨heq', hfree'⟩ := of_dropWhile htext
          exact ⟨_, heq' ▸ heq, hfree, hfree', hu, hb, hg⟩
        · cases h
  · rintro ⟨u, rfl, hfree, hfree', hu, hb, hg⟩
    obtain ⟨htake, hdrop⟩ := split_quote (s := u ++ '"' :: rest) hfree
    obtain ⟨htake', hdrop'⟩ := split_quote (s := rest) hfree'
    unfold matchAt
    simp only [hdrop, hdrop', htake, htake']
    exact if_pos ⟨hb, hg, hu⟩

theorem IsGroup.alone {pre : Str} {c : Char} (h : IsGroup group) :
    ¬IsGroup (c :: (pre ++ group)) := by
  intro hlong
  obtain ⟨htake, -, -⟩ := h
  have split : c :: (pre ++ group) = (c :: (pre ++ "platfor".toList)) ++ 'm' :: group.drop 8 := by
    conv_lhs => rw [← List.take_append_drop 8 group, htake]
    simp
  have mem : 'm' ∈ (c :: (pre ++ group)).drop 8 := by
    rw [split, List.drop_append_of_le_length (by simp)]
    exact List.mem_append_right _ List.mem_cons_self
  exact absurd (List.all_eq_true.mp hlong.2.2 'm' mem) (by decide)

structure Replaced (url s s' : Str) : Prop where
  split : ∃ pre group old rest, s = pre ++ group ++ '"' :: (old ++ '"' :: rest) ∧
    s' = pre ++ group ++ '"' :: (url ++ '"' :: rest) ∧ IsGroup group ∧ '"' ∉ old ∧ old ≠ []

theorem replaced (h : subn isWord url before s = some s') : Replaced url s s' := by
  induction s generalizing before s' with
  | nil => cases h
  | cons c s ih =>
    rw [subn] at h
    split at h
    · next group rest hmatch =>
      obtain ⟨u, heq, -, hfree, hsome, -, hgroup⟩ := matchAt_eq_some.mp hmatch
      cases h
      exact ⟨[], group, u, rest, by simpa using heq, by simp, hgroup, hfree, hsome⟩
    · obtain ⟨tail, htail, rfl⟩ := Option.map_eq_some_iff.mp h
      obtain ⟨pre, group, old, rest, rfl, rfl, hgroup, hfree, hsome⟩ := (ih htail).split
      exact ⟨c :: pre, group, old, rest, rfl, rfl, hgroup, hfree, hsome⟩

theorem matchAt_none (hr : Replaced url s s') (h : matchAt isWord before (c :: s) = none) :
    matchAt isWord before (c :: s') = none := by
  obtain ⟨pre, group, old, rest, rfl, rfl, hgroup, -, -⟩ := hr.split
  cases hm : matchAt isWord before (c :: (pre ++ group ++ '"' :: (url ++ '"' :: rest))) with
  | none => rfl
  | some found =>
    obtain ⟨g, r⟩ := found
    obtain ⟨v, heq, hfree, hfree', hsome, hb, hg⟩ := matchAt_eq_some.mp hm
    have still (r' : Str) (h' : c :: (pre ++ group ++ '"' :: (old ++ '"' :: rest)) =
        g ++ '"' :: (v ++ '"' :: r')) : False := by
      rw [matchAt_eq_some.mpr ⟨v, h', hfree, hfree', hsome, hb, hg⟩] at h
      cases h
    rw [← List.cons_append] at heq
    rcases split_first heq.symm hfree with ⟨hsame, -⟩ | ⟨b, hhead, htail⟩
    · rw [← hsame] at hg
      exact absurd hg hgroup.alone
    · rcases split_first htail hfree' with ⟨rfl, -⟩ | ⟨d, rfl, -⟩
      · refine (still (old ++ '"' :: rest) ?_).elim
        rw [← List.cons_append, hhead]
        simp
      · refine (still (d ++ '"' :: (old ++ '"' :: rest)) ?_).elim
        rw [← List.cons_append, hhead]
        simp

structure Findable (url : Str) : Prop where
  free : '"' ∉ url
  nonempty : url ≠ []
  line : '\r' ∉ url

theorem subn_of_match (h : matchAt isWord before s = some (group, rest)) (url : Str) :
    subn isWord url before s = some (group ++ '"' :: url ++ '"' :: rest) := by
  cases s with
  | nil => cases h
  | cons c s => rw [subn, h]

theorem subn_again (hurl : Findable url) (url' : Str) (h : subn isWord url before s = some s') :
    subn isWord url' before s' = subn isWord url' before s := by
  induction s generalizing before s' with
  | nil => cases h
  | cons c s ih =>
    rw [subn] at h
    split at h
    · next group rest hmatch =>
      obtain ⟨u, heq, hfree, -, -, hb, hgroup⟩ := matchAt_eq_some.mp hmatch
      cases h
      have again : matchAt isWord before (group ++ '"' :: (url ++ '"' :: rest)) =
          some (group, rest) :=
        matchAt_eq_some.mpr ⟨url, rfl, hfree, hurl.free, hurl.nonempty, hb, hgroup⟩
      rw [List.append_assoc, List.cons_append, subn_of_match again, subn_of_match hmatch]
    · next hmatch =>
      obtain ⟨tail, htail, rfl⟩ := Option.map_eq_some_iff.mp h
      rw [subn, subn, matchAt_none (replaced htail) hmatch, hmatch, ih htail]

inductive Raised
  | SystemExit (text : String)
  | OSError
  deriving DecidableEq, Repr

/-- What the script sees of the file system; `glob` is `sorted(path.glob("*.roc"))`. -/
structure Tree where
  isDir : String → Bool
  glob : String → List String
  isRoc : String → Bool
  contents : String → Option Str

/-- How a write comes out: done, refused when the file is opened, or cut short, which leaves the
first `kept` characters, and nothing that can be read if the next one is `torn`. -/
inductive Written
  | done
  | refused
  | cut (kept : Nat) (torn : Bool)
  deriving DecidableEq, Repr

def newlines : Str → Str
  | [] => []
  | '\r' :: '\n' :: s => '\n' :: newlines s
  | c :: s => (if c = '\r' then '\n' else c) :: newlines s

namespace Tree

def readText (t : Tree) (file : String) : Option Str := (t.contents file).map newlines

def put (t : Tree) (file : String) (content : Option Str) : Tree :=
  { t with contents := fun name => if name = file then content else t.contents name }

def writeText (t : Tree) (file : String) (text : Str) : Written → Tree × Except Raised Unit
  | .done => (t.put file (some text), .ok ())
  | .refused => (t, .error .OSError)
  | .cut kept torn => (t.put file (if torn then none else some (text.take kept)), .error .OSError)

end Tree

def rocFiles (t : Tree) : List String → Except Raised (List String)
  | [] => .ok []
  | path :: paths =>
    if t.isDir path then (rocFiles t paths).map (t.glob path ++ ·)
    else if t.isRoc path then (rocFiles t paths).map (path :: ·)
    else .error (.SystemExit s!"Expected a Roc app or directory: {path}")

section
variable (isWord : Char → Bool)

def rewrite (platformUrl : Str) (t : Tree) (rocFile : String) : Except Raised (Str × Str) :=
  match t.readText rocFile with
  | none => .error .OSError
  | some source => match subn isWord platformUrl none source with
    | none => .error (.SystemExit s!"Expected exactly one platform URL in {rocFile}, found 0")
    | some rewritten => .ok (source, rewritten)

variable (disk : Tree → String → Written)

def updateEach (platformUrl : Str) : List String → Tree → Tree × Except Raised (List String)
  | [], t => (t, .ok [])
  | rocFile :: files, t => match rewrite isWord platformUrl t rocFile with
    | .error e => (t, .error e)
    | .ok (source, rewritten) =>
      if rewritten ≠ source then
        match t.writeText rocFile rewritten (disk t rocFile) with
        | (t', .error e) => (t', .error e)
        | (t', .ok ()) =>
          let (t'', updated) := updateEach platformUrl files t'
          (t'', updated.map (rocFile :: ·))
      else updateEach platformUrl files t

def updateApps (paths : List String) (platformUrl : Str) (t : Tree) :
    Tree × Except Raised (List String) :=
  match rocFiles t paths with
  | .error e => (t, .error e)
  | .ok [] => (t, .error (.SystemExit "No Roc apps found"))
  | .ok files => updateEach isWord disk platformUrl files t

end

theorem free_newlines (s : Str) : '\r' ∉ newlines s := by
  fun_induction newlines s with
  | case1 => exact List.not_mem_nil
  | case2 s ih => simpa using ih
  | case3 c s _ ih =>
    rw [List.mem_cons, not_or]
    refine ⟨?_, ih⟩
    split
    · decide
    · next hne => exact fun heq => hne heq.symm

theorem newlines_of_free (h : '\r' ∉ s) : newlines s = s := by
  fun_induction newlines s with
  | case1 => rfl
  | case2 s => exact absurd List.mem_cons_self h
  | case3 c s _ ih =>
    rw [List.mem_cons, not_or] at h
    rw [if_neg fun heq => h.1 heq.symm, ih h.2]

theorem Replaced.free (hr : Replaced url s s') (hurl : '\r' ∉ url) (hs : '\r' ∉ s) :
    '\r' ∉ s' := by
  obtain ⟨pre, group, old, rest, rfl, rfl, -⟩ := hr.split
  simp only [List.mem_append, List.mem_cons, not_or] at hs ⊢
  exact ⟨hs.1, hs.2.1, hurl, hs.2.2.2⟩

section
variable {t t' t'' : Tree} {rocFile : String} {files paths updated : List String}
  {source text : Str} {disk : Tree → String → Written}

theorem readText_put (h : '\r' ∉ text) :
    (t.put rocFile (some text)).readText rocFile = some text := by
  simp [Tree.readText, Tree.put, newlines_of_free h]

theorem contents_writeText {name : String} (hne : name ≠ rocFile) (answer : Written) :
    (t.writeText rocFile text answer).1.contents name = t.contents name := by
  cases answer with
  | refused => rfl
  | done | cut => exact if_neg hne

theorem readText_congr {file : String} (h : t'.contents file = t.contents file) :
    t'.readText file = t.readText file := congrArg (Option.map newlines) h

theorem free_of_readText {file : String} (h : t.readText file = some text) : '\r' ∉ text := by
  obtain ⟨raw, -, rfl⟩ := Option.map_eq_some_iff.mp h
  exact free_newlines raw

theorem rewrite_eq_ok : rewrite isWord url t rocFile = .ok (source, text) ↔
    t.readText rocFile = some source ∧ subn isWord url none source = some text := by
  unfold rewrite
  cases t.readText rocFile with
  | none => simp
  | some source' =>
    dsimp only
    cases hs : subn isWord url none source' with
    | none =>
      simp only [reduceCtorEq, false_iff, not_and, Option.some.injEq]
      rintro rfl
      simp [hs]
    | some text' =>
      simp only [Except.ok.injEq, Prod.mk.injEq, Option.some.injEq]
      constructor
      · rintro ⟨rfl, rfl⟩
        exact ⟨rfl, hs⟩
      · rintro ⟨rfl, h⟩
        exact ⟨rfl, Option.some.inj (hs.symm.trans h)⟩

structure Updated (isWord : Char → Bool) (url : Str) (t t' : Tree) (file : String) : Prop where
  rewritten : ∃ source text, t.readText file = some source ∧
    subn isWord url none source = some text ∧ t'.readText file = some text

structure SameBut (rocFile : String) (t t' : Tree) : Prop where
  isDir : t'.isDir = t.isDir
  glob : t'.glob = t.glob
  isRoc : t'.isRoc = t.isRoc
  contents : ∀ name, name ≠ rocFile → t'.contents name = t.contents name

theorem updateEach_cons (disk : Tree → String → Written) (hurl : Findable url)
    (h : rewrite isWord url t rocFile = .ok (source, text)) (files : List String) :
    (∃ t', SameBut rocFile t t' ∧ t'.readText rocFile = some text ∧
      ∃ f : List String → List String, updateEach isWord disk url (rocFile :: files) t =
        ((updateEach isWord disk url files t').1, (updateEach isWord disk url files t').2.map f)) ∨
    ∃ t' e, text ≠ source ∧ t.writeText rocFile text (disk t rocFile) = (t', .error e) ∧
      updateEach isWord disk url (rocFile :: files) t = (t', .error e) := by
  obtain ⟨hread, hsubn⟩ := rewrite_eq_ok.mp h
  have free := (replaced hsubn).free hurl.line (free_of_readText hread)
  rw [updateEach, h]
  dsimp only
  by_cases hsame : text = source
  · subst hsame
    rw [if_neg (not_not.mpr rfl)]
    refine .inl ⟨t, ⟨rfl, rfl, rfl, fun _ _ => rfl⟩, hread, id, ?_⟩
    cases (updateEach isWord disk url files t) with
    | mk t' result => cases result <;> rfl
  · rw [if_pos hsame]
    cases disk t rocFile with
    | done =>
      exact .inl ⟨t.put rocFile (some text), ⟨rfl, rfl, rfl, fun name hne => if_neg hne⟩,
        readText_put free, (rocFile :: ·), rfl⟩
    | refused => exact .inr ⟨_, _, hsame, rfl, rfl⟩
    | cut kept torn => exact .inr ⟨_, _, hsame, rfl, rfl⟩

structure Ran (isWord : Char → Bool) (url : Str) (t : Tree) (done : List String) (t' : Tree) :
    Prop where
  isDir : t'.isDir = t.isDir
  glob : t'.glob = t.glob
  isRoc : t'.isRoc = t.isRoc
  updated : ∀ file ∈ done, Updated isWord url t t' file
  others : ∀ file, file ∉ done → t'.contents file = t.contents file

inductive Stops (isWord : Char → Bool) (disk : Tree → String → Written) (url : Str) (t : Tree) :
    List String → Tree → Except Raised (List String) → Prop
  | through {names : List String} : Stops isWord disk url t [] t (.ok names)
  | raises {file : String} {left : List String} {e : Raised} :
      rewrite isWord url t file = .error e →
      Stops isWord disk url t (file :: left) t (.error e)
  | writeFails {file : String} {left : List String} {source text : Str} {e : Raised}
      {t' : Tree} : rewrite isWord url t file = .ok (source, text) → text ≠ source →
      t.writeText file text (disk t file) = (t', .error e) →
      Stops isWord disk url t (file :: left) t' (.error e)

theorem Stops.map {left : List String} {result : Except Raised (List String)}
    (f : List String → List String) (h : Stops isWord disk url t left t' result) :
    Stops isWord disk url t left t' (result.map f) := by
  cases h with
  | through => exact .through
  | raises herror => exact .raises herror
  | writeFails hok hne hwrite => exact .writeFails hok hne hwrite

theorem Ran.cons (hurl : Findable url) {done : List String}
    (h : rewrite isWord url t rocFile = .ok (source, text)) (hsame : SameBut rocFile t t'')
    (hread : t''.readText rocFile = some text) (hr : Ran isWord url t'' done t') :
    Ran isWord url t (rocFile :: done) t' := by
  obtain ⟨hsource, hsubn⟩ := rewrite_eq_ok.mp h
  refine ⟨hr.isDir.trans hsame.isDir, hr.glob.trans hsame.glob, hr.isRoc.trans hsame.isRoc,
    fun file hfile => ?_, fun file hfile => ?_⟩
  · by_cases hdone : file ∈ done
    · obtain ⟨source', text', hsource', hsubn', htext'⟩ := (hr.updated file hdone).rewritten
      by_cases heq : file = rocFile
      · subst heq
        rw [hread] at hsource'
        obtain rfl := Option.some.inj hsource'
        exact ⟨source, text', hsource, (subn_again hurl url hsubn).symm.trans hsubn', htext'⟩
      · refine ⟨source', text', ?_, hsubn', htext'⟩
        rw [← hsource']
        exact (readText_congr (hsame.contents file heq)).symm
    · obtain rfl : file = rocFile := (List.mem_cons.mp hfile).resolve_right hdone
      exact ⟨source, text, hsource, hsubn, (readText_congr (hr.others file hdone)).trans hread⟩
  · rw [List.mem_cons, not_or] at hfile
    exact (hr.others file hfile.2).trans (hsame.contents file hfile.1)

theorem Ran.nil (isWord : Char → Bool) (url : Str) (t : Tree) : Ran isWord url t [] t :=
  ⟨rfl, rfl, rfl, fun _ h => absurd h List.not_mem_nil, fun _ _ => rfl⟩

theorem ran (isWord : Char → Bool) (disk : Tree → String → Written) (hurl : Findable url)
    (files : List String) (t : Tree) :
    ∃ done left t', files = done ++ left ∧ Ran isWord url t done t' ∧
      Stops isWord disk url t' left (updateEach isWord disk url files t).1
        (updateEach isWord disk url files t).2 := by
  induction files generalizing t with
  | nil => exact ⟨[], [], t, rfl, .nil isWord url t, .through⟩
  | cons rocFile files ih =>
    cases h : rewrite isWord url t rocFile with
    | error e =>
      have stopped : updateEach isWord disk url (rocFile :: files) t = (t, .error e) := by
        rw [updateEach, h]
      rw [stopped]
      exact ⟨[], rocFile :: files, t, rfl, .nil isWord url t, .raises h⟩
    | ok found =>
      obtain ⟨source, text⟩ := found
      rcases updateEach_cons disk hurl h files with
        ⟨t', hsame, hread, f, hrun⟩ | ⟨t', e, hne, hwrite, hrun⟩
      · obtain ⟨done, left, t'', rfl, hr, hstops⟩ := ih t'
        rw [hrun]
        exact ⟨rocFile :: done, left, t'', rfl, hr.cons hurl h hsame hread, hstops.map f⟩
      · rw [hrun]
        exact ⟨[], rocFile :: files, t, rfl, .nil isWord url t, .writeFails h hne hwrite⟩

theorem updateEach_still
    (h : ∀ file ∈ files, ∃ text, t.readText file = some text ∧
      subn isWord url none text = some text) :
    updateEach isWord disk url files t = (t, .ok []) := by
  induction files with
  | nil => rfl
  | cons rocFile files ih =>
    obtain ⟨text, hread, hsubn⟩ := h rocFile List.mem_cons_self
    rw [updateEach, rewrite_eq_ok.mpr ⟨hread, hsubn⟩]
    dsimp only
    rw [if_neg (not_not.mpr rfl)]
    exact ih fun file hfile => h file (List.mem_cons_of_mem _ hfile)

theorem rocFiles_congr (hdir : t'.isDir = t.isDir) (hglob : t'.glob = t.glob)
    (hroc : t'.isRoc = t.isRoc) (paths : List String) : rocFiles t' paths = rocFiles t paths := by
  induction paths with
  | nil => rfl
  | cons path paths ih => rw [rocFiles, rocFiles, ih, hdir, hglob, hroc]

theorem updateApps_cases (isWord : Char → Bool) (url : Str) (paths : List String) (t : Tree) :
    (∃ e, ∀ disk, updateApps isWord disk paths url t = (t, .error e)) ∨
    ∃ files, rocFiles t paths = .ok files ∧ ∀ disk t', rocFiles t' paths = .ok files →
      updateApps isWord disk paths url t' = updateEach isWord disk url files t' := by
  cases hfiles : rocFiles t paths with
  | error e => exact .inl ⟨e, fun disk => by rw [updateApps, hfiles]⟩
  | ok files =>
    cases files with
    | nil => exact .inl ⟨_, fun disk => by rw [updateApps, hfiles]⟩
    | cons first files => exact .inr ⟨first :: files, rfl, fun disk t' h => by rw [updateApps, h]⟩

/-- What a write that fails can leave of the file: what it was, some of the new text, or nothing
that can be read. -/
def Spoilt (t t' : Tree) (file : String) (text : Str) : Prop :=
  t'.contents file = t.contents file ∨ t'.contents file = none ∨
    ∃ kept, t'.contents file = some (text.take kept)

theorem spoilt_of_writeText {answer : Written} {e : Raised}
    (h : t.writeText rocFile text answer = (t', .error e)) :
    e = .OSError ∧ Spoilt t t' rocFile text := by
  cases answer with
  | done => cases h
  | refused =>
    cases h
    exact ⟨rfl, .inl rfl⟩
  | cut kept torn =>
    cases h
    cases torn with
    | true => exact ⟨rfl, .inr (.inl (if_pos rfl))⟩
    | false => exact ⟨rfl, .inr (.inr ⟨kept, if_pos rfl⟩)⟩

theorem Ran.fresh (hurl : Findable url) {done : List String} {file : String}
    (hr : Ran isWord url t done t') (h : rewrite isWord url t' file = .ok (source, text))
    (hne : text ≠ source) : file ∉ done := by
  intro hmem
  obtain ⟨hread, hsubn⟩ := rewrite_eq_ok.mp h
  obtain ⟨source', text', -, hsubn', htext'⟩ := (hr.updated file hmem).rewritten
  obtain rfl := Option.some.inj (hread.symm.trans htext')
  rw [subn_again hurl url hsubn', hsubn'] at hsubn
  exact hne (Option.some.inj hsubn).symm

theorem Ran.writeFails (hurl : Findable url) {done : List String} {file : String}
    {answer : Written} {e : Raised} (hr : Ran isWord url t done t'')
    (h : rewrite isWord url t'' file = .ok (source, text)) (hne : text ≠ source)
    (hwrite : t''.writeText file text answer = (t', .error e)) :
    e = .OSError ∧ file ∉ done ∧ rewrite isWord url t file = .ok (source, text) ∧
      Spoilt t t' file text ∧ ∀ name, name ≠ file → t'.contents name = t''.contents name := by
  have hfresh := hr.fresh hurl h hne
  have hsame := hr.others file hfresh
  obtain ⟨rfl, hspoilt⟩ := spoilt_of_writeText hwrite
  obtain ⟨hsource, hsubn⟩ := rewrite_eq_ok.mp h
  rw [readText_congr hsame] at hsource
  rw [Spoilt, hsame] at hspoilt
  refine ⟨rfl, hfresh, rewrite_eq_ok.mpr ⟨hsource, hsubn⟩, hspoilt, fun name hname => ?_⟩
  have hkept : (t''.writeText file text answer).1.contents name = t''.contents name :=
    contents_writeText hname answer
  rwa [hwrite] at hkept

/-- An update that succeeds puts the URL in the place of one string in each app and changes nothing
else, so that another one finds nothing to do.  One that fails stops at the first app it cannot
update, with those before updated and all others as they were; that app is as it was, too, unless
the write of it failed. -/
theorem updates_apps (isWord : Char → Bool) (disk : Tree → String → Written)
    (hurl : Findable url) (paths : List String) (t : Tree) :
    (∀ t' updated, updateApps isWord disk paths url t = (t', .ok updated) →
      (∀ disk', updateApps isWord disk' paths url t' = (t', .ok [])) ∧
      ∃ files, rocFiles t paths = .ok files ∧
        (∀ file ∈ files, ∃ source text, t.readText file = some source ∧
          t'.readText file = some text ∧ Replaced url source text) ∧
        ∀ file, file ∉ files → t'.contents file = t.contents file) ∧
    ∀ t' e, updateApps isWord disk paths url t = (t', .error e) → t' = t ∨
      ∃ done file left, rocFiles t paths = .ok (done ++ file :: left) ∧
        (∀ file ∈ done, ∃ source text, t.readText file = some source ∧
          t'.readText file = some text ∧ Replaced url source text) ∧
        (∀ other, other ∉ done → other ≠ file → t'.contents other = t.contents other) ∧
        (rewrite isWord url t' file = .error e ∧
            (file ∉ done → t'.contents file = t.contents file) ∨
          e = .OSError ∧ ∃ source text, rewrite isWord url t file = .ok (source, text) ∧
            Replaced url source text ∧ Spoilt t t' file text) := by
  have replaces {t' : Tree} {file : String} (hu : Updated isWord url t t' file) :
      ∃ source text, t.readText file = some source ∧ t'.readText file = some text ∧
        Replaced url source text := by
    obtain ⟨source, text, hsource, hsubn, htext⟩ := hu.rewritten
    exact ⟨source, text, hsource, htext, replaced hsubn⟩
  rcases updateApps_cases isWord url paths t with ⟨e, stopped⟩ | ⟨files, hfiles, each⟩
  · rw [stopped]
    constructor
    · intro t' updated h
      cases h
    · intro t' e h
      cases h
      exact .inl rfl
  · rw [each disk t hfiles, hfiles]
    obtain ⟨done, left, t₁, hsplit, hr, hstops⟩ := ran isWord disk hurl files t
    refine ⟨fun t' updated h => ?_, fun t' e h => ?_⟩
    · rw [h] at hstops
      cases hstops
      rw [List.append_nil] at hsplit
      subst hsplit
      refine ⟨fun disk' => ?_, files, rfl, fun file hfile => replaces (hr.updated file hfile),
        hr.others⟩
      rw [each disk' t' ((rocFiles_congr hr.isDir hr.glob hr.isRoc paths).trans hfiles)]
      refine updateEach_still fun file hfile => ?_
      obtain ⟨source, text, -, hsubn, htext⟩ := (hr.updated file hfile).rewritten
      exact ⟨text, htext, (subn_again hurl url hsubn).trans hsubn⟩
    · rw [h] at hstops
      cases hstops with
      | raises herror =>
        exact .inr ⟨done, _, _, by rw [hsplit], fun file hfile => replaces (hr.updated file hfile),
          fun other hother _ => hr.others other hother, .inl ⟨herror, hr.others _⟩⟩
      | writeFails hok hne hwrite =>
        obtain ⟨rfl, hfresh, hrewrite, hspoilt, hkept⟩ := hr.writeFails hurl hok hne hwrite
        refine .inr ⟨done, _, _, by rw [hsplit], fun file hfile => ?_, fun other hother hne' => ?_,
          .inr ⟨rfl, _, _, hrewrite, replaced (rewrite_eq_ok.mp hok).2, hspoilt⟩⟩
        · obtain ⟨source, text, hbefore, hafter, hreplaced⟩ := replaces (hr.updated file hfile)
          have hother := hkept file fun heq => hfresh (heq ▸ hfile)
          exact ⟨source, text, hbefore, (readText_congr hother).trans hafter, hreplaced⟩
        · exact (hkept other hne').trans (hr.others other hother)

end

def asciiWord (c : Char) : Bool := c.isAlphanum || c == '_'

def app (url : String) : Str := "platform ".toList ++ '"' :: (url.toList ++ '"' :: ['\n'])

def checkout : Tree where
  isDir name := name == "examples"
  glob _ := ["a.roc"]
  isRoc _ := true
  contents name := if name = "a.roc" then some (app "..") else none

theorem updates_apps_once : ∃ t' updated,
    updateApps asciiWord (fun _ _ => .done) ["examples"] "url".toList checkout =
      (t', .ok updated) ∧
    t'.readText "a.roc" = some (app "url") ∧
    updateApps asciiWord (fun _ _ => .done) ["examples"] "url".toList t' = (t', .ok []) := by
  have hurl : Findable "url".toList := ⟨by decide, by decide, by decide⟩
  obtain ⟨again, -⟩ := updates_apps asciiWord (fun _ _ => .done) hurl ["examples"] checkout
  have found : matchAt asciiWord none (app "..") = some ("platform ".toList, ['\n']) :=
    matchAt_eq_some.mpr ⟨"..".toList, rfl, by decide, by decide, by decide, by decide, by decide⟩
  have read : checkout.readText "a.roc" = some (app "..") :=
    congrArg some (newlines_of_free (by decide))
  have rewrites : rewrite asciiWord "url".toList checkout "a.roc" = .ok (app "..", app "url") :=
    rewrite_eq_ok.mpr ⟨read, subn_of_match found _⟩
  have run : updateApps asciiWord (fun _ _ => .done) ["examples"] "url".toList checkout =
      (checkout.put "a.roc" (some (app "url")), .ok ["a.roc"]) := by
    change updateEach asciiWord (fun _ _ => .done) "url".toList ["a.roc"] checkout = _
    rw [updateEach, rewrites]
    exact if_pos (by decide)
  exact ⟨_, _, run, readText_put (by decide), (again _ _ run).1 _⟩

end RocTui.AppUrls

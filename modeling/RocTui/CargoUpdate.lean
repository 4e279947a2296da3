import RocTui.Cargo

namespace RocTui.CargoUpdate

open RocTui.Lib RocTui.Lib.Script RocTui.Cargo

/-- Whether the last section header of these lines is `[package]`; `outer` where they have none. -/
def inPackage (outer : Bool) (lines : List Str) : Bool :=
  ((lines.filter isHeader).getLast?.map (strip · == "[package]".toList)).getD outer

structure PackageVersionLine (outer : Bool) (lines : List Str) (i : Nat) (line : Str) :
    Prop where
  found : lines[i]? = some line
  key : hasVersionKey line = true
  inPackage : inPackage outer (lines.take i) = true
  first : ∀ j l, j < i → lines[j]? = some l → hasVersionKey l = true →
    CargoUpdate.inPackage outer (lines.take j) = false

/-- From a `[[package]]` line up to the next one, or to the end. -/
structure IsBlock (lines : List Str) (start stop : Nat) : Prop where
  starts : ∃ line, lines[start]? = some line ∧ isPackageStart line = true
  stops : stop = lines.length ∨ ∃ line, lines[stop]? = some line ∧ isPackageStart line = true
  lt : start < stop
  between : ∀ i line, start < i → i < stop → lines[i]? = some line → isPackageStart line = false

def IsLocal (packageName : Str) (block : List Str) : Prop :=
  (∀ line ∈ block, isSource line = false) ∧ ∃ line ∈ block, isNameOf packageName line = true

structure LocalVersionLine (packageName : Str) (lines : List Str) (i : Nat) (line : Str) :
    Prop where
  found : lines[i]? = some line
  key : hasVersionKey line = true
  block : ∃ start stop, IsBlock lines start stop ∧ start ≤ i ∧ i < stop ∧
    IsLocal packageName ((lines.take stop).drop start)

section Manifest

variable {outer : Bool} {lines : List Str} {line releaseVersion : Str}

theorem inPackage_cons (l : Str) (lines : List Str) : inPackage outer (l :: lines) =
    inPackage (if isHeader l then strip l == "[package]".toList else outer) lines := by
  cases hl : isHeader l with
  | false => simp [inPackage, hl]
  | true =>
    simp only [inPackage, List.filter_cons, hl, if_true, List.getLast?_cons, Option.map_some,
      Option.getD_some]
    cases (lines.filter isHeader).getLast? <;> rfl

theorem packageVersionLine_zero (l : Str) :
    PackageVersionLine outer (l :: lines) 0 line ↔
      l = line ∧ hasVersionKey l = true ∧ outer = true := by
  constructor
  · intro h
    obtain rfl : l = line := by simpa using h.found
    exact ⟨rfl, h.key, h.inPackage⟩
  · rintro ⟨rfl, hkey, houter⟩
    exact ⟨rfl, hkey, houter, fun j l hj => absurd hj (Nat.not_lt_zero j)⟩

theorem packageVersionLine_succ (l : Str) {i : Nat} :
    PackageVersionLine outer (l :: lines) (i + 1) line ↔
      ¬(hasVersionKey l = true ∧ outer = true) ∧
        PackageVersionLine (if isHeader l then strip l == "[package]".toList else outer) lines i
          line := by
  constructor
  · intro h
    refine ⟨fun ⟨hkey, houter⟩ => ?_, h.found, h.key, ?_, fun j l' hj hl' hkey => ?_⟩
    · have hfirst := h.first 0 l (Nat.succ_pos i) rfl hkey
      rw [show inPackage outer ((l :: lines).take 0) = outer from rfl, houter] at hfirst
      cases hfirst
    · rw [← inPackage_cons, ← List.take_succ_cons]
      exact h.inPackage
    · rw [← inPackage_cons, ← List.take_succ_cons]
      exact h.first (j + 1) l' (Nat.succ_lt_succ hj) hl' hkey
  · rintro ⟨hno, h⟩
    refine ⟨h.found, h.key, ?_, fun j l' hj hl' hkey => ?_⟩
    · rw [List.take_succ_cons, inPackage_cons]
      exact h.inPackage
    · cases j with
      | zero =>
        obtain rfl : l = l' := by simpa using hl'
        exact Bool.eq_false_iff.mpr fun houter => hno ⟨hkey, houter⟩
      | succ j =>
        rw [List.take_succ_cons, inPackage_cons]
        exact h.first j l' (Nat.lt_of_succ_lt_succ hj) hl' hkey

theorem updateLines_cons (l : Str) (lines : List Str) :
    updateLines releaseVersion outer (l :: lines) =
      if hasVersionKey l && outer then (some <| · :: lines) <$> replaceVersionLine l releaseVersion
      else (·.map (l :: ·)) <$> updateLines releaseVersion
        (if isHeader l then strip l == "[package]".toList else outer) lines := by
  rw [updateLines]
  cases hkey : hasVersionKey l with
  | true =>
    obtain ⟨rest, hstrip⟩ := strip_of_hasVersionKey hkey
    have hstart : startswith (strip l) "version" = true := by
      rw [hstrip, startswith, List.isPrefixOf_iff_prefix]
      exact List.prefix_append _ _
    rw [isHeader_of_hasVersionKey hkey, hstart]
    cases outer <;> rfl
  | false =>
    cases isHeader l with
    | true => rfl
    | false => simp

theorem updateLines_eq_ok {lines' : List Str} :
    updateLines releaseVersion outer lines = .ok (some lines') ↔
      ∃ i line line', PackageVersionLine outer lines i line ∧
        replaceVersionLine line releaseVersion = .ok line' ∧ lines' = lines.set i line' := by
  induction lines generalizing outer lines' with
  | nil =>
    constructor
    · intro h
      cases h
    · rintro ⟨i, line, line', h, -⟩
      have hline := h.found
      simp at hline
  | cons l lines ih =>
    rw [updateLines_cons]
    by_cases hhere : hasVersionKey l = true ∧ outer = true
    · rw [if_pos (by simp [hhere])]
      constructor
      · intro h
        obtain ⟨line', hline', heq⟩ := map_eq_ok.mp h
        obtain rfl := Option.some.inj heq
        exact ⟨0, l, line', (packageVersionLine_zero l).mpr ⟨rfl, hhere⟩, hline', rfl⟩
      · rintro ⟨i, line, line', h, hline', rfl⟩
        cases i with
        | zero =>
          obtain ⟨rfl, -⟩ := (packageVersionLine_zero l).mp h
          rw [hline']
          rfl
        | succ i => exact absurd hhere ((packageVersionLine_succ l).mp h).1
    · rw [if_neg (by simpa using hhere)]
      constructor
      · intro h
        obtain ⟨found, hfound, heq⟩ := map_eq_ok.mp h
        obtain ⟨rest, rfl, rfl⟩ := Option.map_eq_some_iff.mp heq
        obtain ⟨i, line, line', hat, hline', rfl⟩ := ih.mp hfound
        exact ⟨i + 1, line, line', (packageVersionLine_succ l).mpr ⟨hhere, hat⟩, hline', rfl⟩
      · rintro ⟨i, line, line', h, hline', rfl⟩
        cases i with
        | zero => exact absurd ((packageVersionLine_zero l).mp h).2 hhere
        | succ i =>
          have hrest := ih.mpr ⟨i, line, line', ((packageVersionLine_succ l).mp h).2, hline', rfl⟩
          rw [hrest]
          rfl

def manifestKind (line : Str) : Bool × Bool × Bool :=
  (isHeader line, strip line == "[package]".toList, hasVersionKey line)

theorem inPackage_congr {xs ys : List Str} (h : xs.map manifestKind = ys.map manifestKind) :
    inPackage outer xs = inPackage outer ys := by
  have hkinds : ∀ lines, inPackage outer lines =
      (((lines.map manifestKind).filter (·.1)).getLast?.map (·.2.1)).getD outer := by
    intro lines
    rw [List.filter_map, List.getLast?_map, Option.map_map]
    rfl
  rw [hkinds, hkinds, h]

theorem PackageVersionLine.congr {xs ys : List Str} {i : Nat}
    (hkinds : xs.map manifestKind = ys.map manifestKind) (h : PackageVersionLine outer xs i line) :
    ∃ line', PackageVersionLine outer ys i line' := by
  have htake : ∀ j, (xs.take j).map manifestKind = (ys.take j).map manifestKind := fun j => by
    rw [List.map_take, List.map_take, hkinds]
  obtain ⟨line', hline', hkind⟩ := Overwrite.getElem?_of_map_eq hkinds h.found
  refine ⟨line', hline', ?_, ?_, fun j l hj hl hkey => ?_⟩
  · exact (congrArg (·.2.2) hkind).trans h.key
  · exact (inPackage_congr (htake i)).symm.trans h.inPackage
  · obtain ⟨l', hl', hkind'⟩ := Overwrite.getElem?_of_map_eq hkinds.symm hl
    have hkey' : hasVersionKey l' = true := (congrArg (·.2.2) hkind').trans hkey
    exact (inPackage_congr (htake j)).symm.trans (h.first j l' hj hl' hkey')

theorem PackageVersionLine.unique {i j : Nat} {line' : Str}
    (h : PackageVersionLine outer lines i line) (h' : PackageVersionLine outer lines j line') :
    i = j ∧ line = line' := by
  have hle {i j : Nat} {line line' : Str} (h : PackageVersionLine outer lines i line)
      (h' : PackageVersionLine outer lines j line') : j ≤ i := by
    by_contra hlt
    have hfirst := h'.first i line (Nat.lt_of_not_le hlt) h.found h.key
    rw [h.inPackage] at hfirst
    cases hfirst
  obtain rfl : i = j := Nat.le_antisymm (hle h' h) (hle h h')
  exact ⟨rfl, Option.some.inj (h.found.symm.trans h'.found)⟩

end Manifest

section Lockfile

variable {packageName : Str} {lines : List Str} {line releaseVersion : Str} {i start stop : Nat}

theorem pairwise_packageStarts (lines : List Str) : (packageStarts lines).Pairwise (· < ·) := by
  rw [packageStarts, List.pairwise_append]
  refine ⟨List.pairwise_findIdxs, List.pairwise_singleton _ _, fun a ha b hb => ?_⟩
  rw [List.mem_singleton.mp hb]
  obtain ⟨line, hline, -⟩ := Sections.mem_findIdxs.mp ha
  exact (List.getElem?_eq_some_iff.mp hline).1

theorem mem_packageStarts : i ∈ packageStarts lines ↔
    i = lines.length ∨ ∃ line, lines[i]? = some line ∧ isPackageStart line = true := by
  rw [packageStarts, List.mem_append, Sections.mem_findIdxs, List.mem_singleton, or_comm]

theorem mem_bounds_packageStarts :
    (start, stop) ∈ Sections.bounds (packageStarts lines) ↔ IsBlock lines start stop := by
  rw [Sections.mem_bounds (pairwise_packageStarts lines)]
  have hle : ∀ j ∈ packageStarts lines, j ≤ lines.length := by
    intro j hj
    rcases mem_packageStarts.mp hj with rfl | ⟨line, hline, -⟩
    · exact Nat.le_refl _
    · exact Nat.le_of_lt (List.getElem?_eq_some_iff.mp hline).1
  constructor
  · rintro ⟨hstart, hstop, hlt, hnone⟩
    refine ⟨?_, mem_packageStarts.mp hstop, hlt, fun j line hj hj' hline => ?_⟩
    · exact (mem_packageStarts.mp hstart).resolve_left (Nat.ne_of_lt (hlt.trans_le (hle _ hstop)))
    · refine Bool.eq_false_iff.mpr fun hmark => ?_
      have hmem := mem_packageStarts.mpr (.inr ⟨line, hline, hmark⟩)
      rcases hnone j hmem with h | h
      · exact absurd hj (Nat.not_lt.mpr h)
      · exact absurd hj' (Nat.not_lt.mpr h)
  · intro h
    have hstop := mem_packageStarts.mpr h.stops
    refine ⟨mem_packageStarts.mpr (.inr h.starts), hstop, h.lt, fun j hj => ?_⟩
    by_contra hbetween
    rw [not_or, Nat.not_le, Nat.not_le] at hbetween
    rcases mem_packageStarts.mp hj with rfl | ⟨line, hline, hmark⟩
    · exact absurd hbetween.2 (Nat.not_lt.mpr (hle _ hstop))
    · rw [h.between j line hbetween.1 hbetween.2 hline] at hmark
      cases hmark

def versionLinesIn (packageName : Str) (lines : List Str) (bounds : Nat × Nat) : List Nat :=
  let block := (lines.take bounds.2).drop bounds.1
  if block.any isSource then []
  else if !block.any (isNameOf packageName) then []
  else block.findIdxs hasVersionKey bounds.1

theorem matchingVersionLines_eq : matchingVersionLines packageName lines =
    (Sections.bounds (packageStarts lines)).flatMap (versionLinesIn packageName lines) := rfl

theorem versionLinesIn_eq : versionLinesIn packageName lines (start, stop) =
    if (lines.take stop).drop start |>.any isSource then []
    else if !((lines.take stop).drop start).any (isNameOf packageName) then []
    else ((lines.take stop).drop start).findIdxs hasVersionKey start := rfl

theorem mem_block : lines[i]? = some line ∧ start ≤ i ∧ i < stop ↔
    start ≤ i ∧ ((lines.take stop).drop start)[i - start]? = some line := by
  rw [List.getElem?_drop, List.getElem?_take]
  constructor
  · rintro ⟨hline, hle, hlt⟩
    refine ⟨hle, ?_⟩
    rwa [Nat.add_sub_cancel' hle, if_pos hlt]
  · rintro ⟨hle, hline⟩
    rw [Nat.add_sub_cancel' hle] at hline
    split at hline
    · rename_i hlt
      exact ⟨hline, hle, hlt⟩
    · cases hline

theorem mem_versionLinesIn : i ∈ versionLinesIn packageName lines (start, stop) ↔
    IsLocal packageName ((lines.take stop).drop start) ∧ start ≤ i ∧ i < stop ∧
      ∃ line, lines[i]? = some line ∧ hasVersionKey line = true := by
  rw [versionLinesIn_eq]
  generalize hblock : (lines.take stop).drop start = block
  by_cases hlocal : IsLocal packageName block
  · have hsource : block.any isSource = false := by simpa using hlocal.1
    have hname : block.any (isNameOf packageName) = true := by simpa using hlocal.2
    rw [hsource, hname, if_neg (by decide), if_neg (by decide), List.findIdxs_start, List.mem_map]
    constructor
    · rintro ⟨k, hk, rfl⟩
      obtain ⟨line, hline, hkey⟩ := Sections.mem_findIdxs.mp hk
      have hmem := (@mem_block lines _ (k + start) start stop).mpr
        ⟨Nat.le_add_left _ _, by rwa [hblock, Nat.add_sub_cancel]⟩
      exact ⟨hlocal, hmem.2.1, hmem.2.2, line, hmem.1, hkey⟩
    · rintro ⟨-, hle, hlt, line, hline, hkey⟩
      have hmem := mem_block.mp ⟨hline, hle, hlt⟩
      rw [hblock] at hmem
      exact ⟨i - start, Sections.mem_findIdxs.mpr ⟨line, hmem.2, hkey⟩, Nat.sub_add_cancel hle⟩
  · have hempty : (if block.any isSource then []
        else if !block.any (isNameOf packageName) then []
        else block.findIdxs hasVersionKey start) = [] := by
      split
      · rfl
      · split
        · rfl
        · rename_i hsource hname
          exact absurd ⟨by simpa using hsource, by simpa using hname⟩ hlocal
    rw [hempty]
    simp [hlocal]

theorem mem_matchingVersionLines : i ∈ matchingVersionLines packageName lines ↔
    ∃ line, LocalVersionLine packageName lines i line := by
  rw [matchingVersionLines_eq, List.mem_flatMap]
  constructor
  · rintro ⟨⟨start, stop⟩, hbounds, hmem⟩
    obtain ⟨hlocal, hle, hlt, line, hline, hkey⟩ := mem_versionLinesIn.mp hmem
    exact ⟨line, hline, hkey, start, stop, mem_bounds_packageStarts.mp hbounds, hle, hlt, hlocal⟩
  · rintro ⟨line, hline, hkey, start, stop, hblock, hle, hlt, hlocal⟩
    exact ⟨(start, stop), mem_bounds_packageStarts.mpr hblock,
      mem_versionLinesIn.mpr ⟨hlocal, hle, hlt, line, hline, hkey⟩⟩

theorem pairwise_matchingVersionLines (packageName : Str) (lines : List Str) :
    (matchingVersionLines packageName lines).Pairwise (· < ·) := by
  rw [matchingVersionLines_eq]
  refine Sections.pairwise_flatMap_bounds (pairwise_packageStarts lines) (fun p => ?_) ?_
  · unfold versionLinesIn
    dsimp only
    split
    · exact List.Pairwise.nil
    · split
      · exact List.Pairwise.nil
      · exact List.pairwise_findIdxs
  · rintro ⟨start, stop⟩ j hj
    obtain ⟨-, hle, hlt, -⟩ := mem_versionLinesIn.mp hj
    exact ⟨hle, hlt⟩

def OneLocalVersionLine (packageName : Str) (lines : List Str) (i : Nat) : Prop :=
  ∀ j, (∃ line, LocalVersionLine packageName lines j line) ↔ j = i

theorem matchingVersionLines_eq_singleton :
    matchingVersionLines packageName lines = [i] ↔ OneLocalVersionLine packageName lines i := by
  rw [Sections.eq_singleton_iff (pairwise_matchingVersionLines packageName lines)]
  exact forall_congr' fun j => iff_congr mem_matchingVersionLines Iff.rfl

def lockKind (packageName line : Str) : Bool × Bool × Bool × Bool :=
  (isPackageStart line, isSource line, isNameOf packageName line, hasVersionKey line)

variable {xs ys : List Str}

theorem IsBlock.congr (hkinds : xs.map (lockKind packageName) = ys.map (lockKind packageName))
    (h : IsBlock xs start stop) : IsBlock ys start stop := by
  have hmark {xs ys : List Str} {i : Nat}
      (hkinds : xs.map (lockKind packageName) = ys.map (lockKind packageName)) :
      (∃ line, xs[i]? = some line ∧ isPackageStart line = true) →
        ∃ line, ys[i]? = some line ∧ isPackageStart line = true := by
    rintro ⟨line, hline, hstart⟩
    obtain ⟨line', hline', hkind⟩ := Overwrite.getElem?_of_map_eq hkinds hline
    exact ⟨line', hline', (congrArg (·.1) hkind).trans hstart⟩
  have hlength : xs.length = ys.length := by simpa using congrArg List.length hkinds
  refine ⟨hmark hkinds h.starts, hlength ▸ h.stops.imp_right (hmark hkinds), h.lt, ?_⟩
  intro j line hj hj' hline
  obtain ⟨line', hline', hkind⟩ := Overwrite.getElem?_of_map_eq hkinds.symm hline
  exact (congrArg (·.1) hkind).symm.trans (h.between j line' hj hj' hline')

theorem IsLocal.congr (hkinds : xs.map (lockKind packageName) = ys.map (lockKind packageName))
    (h : IsLocal packageName xs) : IsLocal packageName ys := by
  refine ⟨fun line hline => ?_, ?_⟩
  · obtain ⟨line', hline', hkind⟩ := Overwrite.mem_of_map_eq hkinds.symm hline
    exact (congrArg (·.2.1) hkind).symm.trans (h.1 line' hline')
  · obtain ⟨line, hline, hname⟩ := h.2
    obtain ⟨line', hline', hkind⟩ := Overwrite.mem_of_map_eq hkinds hline
    exact ⟨line', hline', (congrArg (·.2.2.1) hkind).trans hname⟩

theorem LocalVersionLine.congr
    (hkinds : xs.map (lockKind packageName) = ys.map (lockKind packageName))
    (h : LocalVersionLine packageName xs i line) :
    ∃ line', LocalVersionLine packageName ys i line' := by
  obtain ⟨line', hline', hkind⟩ := Overwrite.getElem?_of_map_eq hkinds h.found
  obtain ⟨start, stop, hblock, hle, hlt, hlocal⟩ := h.block
  have hslice : ((xs.take stop).drop start).map (lockKind packageName) =
      ((ys.take stop).drop start).map (lockKind packageName) := by
    rw [List.map_drop, List.map_take, hkinds, ← List.map_take, ← List.map_drop]
  exact ⟨line', hline', (congrArg (·.2.2.2) hkind).trans h.key, start, stop,
    hblock.congr hkinds, hle, hlt, hlocal.congr hslice⟩

theorem OneLocalVersionLine.congr
    (hkinds : xs.map (lockKind packageName) = ys.map (lockKind packageName))
    (h : OneLocalVersionLine packageName xs i) : OneLocalVersionLine packageName ys i := by
  intro j
  rw [← h j]
  constructor
  · rintro ⟨line, hline⟩
    exact hline.congr hkinds.symm
  · rintro ⟨line, hline⟩
    exact hline.congr hkinds

theorem LocalVersionLine.behind_start (h : LocalVersionLine packageName lines i line) :
    ∃ j l, j < i ∧ lines[j]? = some l ∧ isPackageStart l = true := by
  obtain ⟨start, stop, hblock, hle, -, -⟩ := h.block
  obtain ⟨l, hl, hstart⟩ := hblock.starts
  refine ⟨start, l, Nat.lt_of_le_of_ne hle ?_, hl, hstart⟩
  rintro rfl
  obtain rfl := Option.some.inj (hl.symm.trans h.found)
  rw [isPackageStart_of_hasVersionKey h.key] at hstart
  cases hstart

end Lockfile

section Update

variable {κ : Type} {packageName releaseVersion content content' line line' : Str}

theorem toOption_eq_some : (replaceVersionLine line releaseVersion).toOption = some line' ↔
    '=' ∈ line ∧ hasVersionKey line = true ∧ versionLine line releaseVersion = line' := by
  rw [← replaceVersionLine_eq_ok]
  cases replaceVersionLine line releaseVersion <;> simp [Except.toOption]

/-- Versions written over a line with key `version`, one that the other lines decide on. -/
def versionOverwrite (kind : Str → κ) (Locates : List Str → Nat → Prop)
    (locates_congr : ∀ {xs ys : List Str} {i : Nat}, xs.map kind = ys.map kind →
      Locates xs i → Locates ys i)
    (kind_eq : ∀ {line line' : Str}, hasVersionKey line = true → hasVersionKey line' = true →
      kind line = kind line') : Overwrite Str κ Str where
  kind := kind
  Locates := Locates
  put releaseVersion line := (replaceVersionLine line releaseVersion).toOption
  locates_congr := locates_congr
  kind_put h := by
    obtain ⟨-, hkey, rfl⟩ := toOption_eq_some.mp h
    exact kind_eq ((hasVersionKey_versionLine _ _).trans hkey) hkey
  put_put v h := by
    obtain ⟨hmem, hkey, rfl⟩ := toOption_eq_some.mp h
    rw [toOption_eq_some.mpr ⟨hmem, hkey, rfl⟩]
    exact toOption_eq_some.mpr ⟨equals_mem_versionLine _ _,
      (hasVersionKey_versionLine _ _).trans hkey, versionLine_versionLine _ _ v⟩
  put_isSome v h := by
    obtain ⟨hmem, hkey, rfl⟩ := toOption_eq_some.mp h
    rw [toOption_eq_some.mpr ⟨hmem, hkey, rfl⟩]
    rfl

def manifestOverwrite : Overwrite Str (Bool × Bool × Bool) Str :=
  versionOverwrite manifestKind (fun lines i => ∃ line, PackageVersionLine false lines i line)
    (fun hkinds ⟨_, h⟩ => h.congr hkinds) fun h h' => by
      obtain ⟨rest, hstrip⟩ := strip_of_hasVersionKey h
      obtain ⟨rest', hstrip'⟩ := strip_of_hasVersionKey h'
      simp [manifestKind, isHeader_of_hasVersionKey h, isHeader_of_hasVersionKey h', h, h', hstrip,
        hstrip']

def lockOverwrite (packageName : Str) : Overwrite Str (Bool × Bool × Bool × Bool) Str :=
  versionOverwrite (lockKind packageName) (OneLocalVersionLine packageName)
    OneLocalVersionLine.congr fun h h' => by
      simp only [lockKind, isPackageStart_of_hasVersionKey h, isPackageStart_of_hasVersionKey h',
        isSource_of_hasVersionKey h, isSource_of_hasVersionKey h',
        isNameOf_of_hasVersionKey packageName h, isNameOf_of_hasVersionKey packageName h', h, h']

def Updates (O : Overwrite Str κ Str) (releaseVersion content content' : Str) : Prop :=
  ∃ i line line', O.Writes releaseVersion (splitlines content) i line line' ∧
    content' = ((splitlines content).set i line').flatten

theorem updatedManifest_eq_ok {manifestPath : Str} :
    updatedManifest manifestPath releaseVersion content = .ok content' ↔
      Updates manifestOverwrite releaseVersion content content' := by
  simp only [updatedManifest, bind_eq_ok, expectSome_eq_ok]
  constructor
  · rintro ⟨_, hlines, lines', rfl, hflatten⟩
    obtain ⟨i, line, line', hat, hline', rfl⟩ := updateLines_eq_ok.mp hlines
    refine ⟨i, line, line', ⟨⟨line, hat⟩, hat.found, ?_⟩, (Except.ok.inj hflatten).symm⟩
    exact toOption_eq_some.mpr (replaceVersionLine_eq_ok.mp hline')
  · rintro ⟨i, line, line', ⟨⟨line₀, hat⟩, hline, hput⟩, rfl⟩
    obtain rfl := Option.some.inj (hat.found.symm.trans hline)
    have hline' := replaceVersionLine_eq_ok.mpr (toOption_eq_some.mp hput)
    exact ⟨_, updateLines_eq_ok.mpr ⟨i, line₀, line', hat, hline', rfl⟩, _, rfl, rfl⟩

theorem updatedLockfile_eq_ok {lockPath : Str} :
    updatedLockfile lockPath packageName releaseVersion content = .ok content' ↔
      Updates (lockOverwrite packageName) releaseVersion content content' := by
  simp only [updatedLockfile]
  split
  · rename_i i hfound
    have hone := matchingVersionLines_eq_singleton.mp hfound
    obtain ⟨line, hat⟩ := (hone i).mpr rfl
    rw [List.getD_eq_getElem?_getD, hat.found, Option.getD_some, bind_eq_ok]
    constructor
    · rintro ⟨line', hline', hflatten⟩
      refine ⟨i, line, line', ⟨hone, hat.found, ?_⟩, (Except.ok.inj hflatten).symm⟩
      exact toOption_eq_some.mpr (replaceVersionLine_eq_ok.mp hline')
    · rintro ⟨j, line₀, line', ⟨hone', hline, hput⟩, rfl⟩
      obtain rfl : j = i := (hone j).mp ((hone' j).mpr rfl)
      obtain rfl := Option.some.inj (hat.found.symm.trans hline)
      exact ⟨line', replaceVersionLine_eq_ok.mpr (toOption_eq_some.mp hput), rfl⟩
  · rename_i hnot
    constructor
    · intro h
      cases h
    · rintro ⟨i, line, line', ⟨hone, -, -⟩, -⟩
      exact absurd (matchingVersionLines_eq_singleton.mpr hone) (hnot i)

def OnlyNewlines (content : Str) : Prop := ∀ line ∈ splitlines content, lineBreaks.Plain line

def NoLineBreak (s : Str) : Prop := ∀ c ∈ s, isLineBreak c = false

/-- The file is the same but for one line, which keeps its end and reads as `replace_version_line`
has it. -/
structure RewritesLine (content : Str) (i : Nat) (line releaseVersion content' : Str) : Prop where
  lines : splitlines content' = (splitlines content).set i (versionLine line releaseVersion)
  joined : content' = ((splitlines content).set i (versionLine line releaseVersion)).flatten
  terminator : lineBreaks.terminator (versionLine line releaseVersion) =
    lineBreaks.terminator line

variable {i : Nat}

theorem rewritesLine (hcontent : OnlyNewlines content) (hv : NoLineBreak releaseVersion)
    (hline : (splitlines content)[i]? = some line) (hmem : '=' ∈ line) :
    RewritesLine content i line releaseVersion
      ((splitlines content).set i (versionLine line releaseVersion)).flatten := by
  have hterm := terminator_versionLine (hcontent line (List.mem_of_getElem? hline)) hmem hv
  exact ⟨LineBreaks.split_set hline hcontent hterm
    (List.ne_nil_of_mem (equals_mem_versionLine line releaseVersion)), rfl, hterm⟩

/-- An update fails with everything as it was, or rewrites one line of its file, such a line as
`Line` says; and what comes later replaces it without a trace. -/
structure RewritesOneLine (update : Str → EStateM Raised Checkout Unit) (file : Checkout → Str)
    (write : Checkout → Str → Checkout) (Line : List Str → Nat → Str → Prop)
    (releaseVersion : Str) (s : Checkout) : Prop where
  raises : ∀ e s', update releaseVersion s = .error e s' → s' = s
  rewrites : ∀ s', update releaseVersion s = .ok () s' →
    s' = write s (file s') ∧ ∃ i line, Line (splitlines (file s)) i line ∧
      RewritesLine (file s) i line releaseVersion (file s')
  again : ∀ s', update releaseVersion s = .ok () s' →
    ∀ v, ∃ s'', update v s' = .ok () s'' ∧ update v s = .ok () s''
  idempotent : ∀ s', update releaseVersion s = .ok () s' → update releaseVersion s' = .ok () s'

/-- A script that reads one of the files, and writes a version over a line of it if it can. -/
structure IsUpdate (O : Overwrite Str κ Str) (updated : Str → Str → Except Raised Str)
    (update : Str → EStateM Raised Checkout Unit) (file : Checkout → Str)
    (write : Checkout → Str → Checkout) : Prop where
  run : ∀ v, update v = (get >>= fun s => MonadExcept.ofExcept (updated v (file s)) >>=
    fun content => set (write s content))
  updates : ∀ v content content', updated v content = .ok content' ↔ Updates O v content content'
  put : ∀ v line line', O.put v line = some line' → '=' ∈ line ∧ versionLine line v = line'
  file_write : ∀ s content, file (write s content) = content
  write_write : ∀ s content content', write (write s content) content' = write s content'

section IsUpdate

variable {O : Overwrite Str κ Str} {updated : Str → Str → Except Raised Str}
  {update : Str → EStateM Raised Checkout Unit} {file : Checkout → Str}
  {write : Checkout → Str → Checkout} {Line : List Str → Nat → Str → Prop} {v : Str}
  {s s' : Checkout}

theorem IsUpdate.eq_ok (h : IsUpdate O updated update file write) : update v s = .ok () s' ↔
    ∃ content, Updates O v (file s) content ∧ write s content = s' := by
  rw [h.run, get_set_run (fun s => updated v (file s))]
  simp only [← h.updates]
  cases updated v (file s) <;> simp

theorem IsUpdate.eq_error (h : IsUpdate O updated update file write) {e : Raised}
    (hs : update v s = .error e s') : s' = s := by
  rw [h.run, get_set_run (fun s => updated v (file s))] at hs
  split at hs
  · cases hs
  · cases hs
    rfl

theorem IsUpdate.rewritesOneLine (h : IsUpdate O updated update file write)
    (hline : ∀ lines i line, O.Locates lines i → lines[i]? = some line → Line lines i line)
    (hfile : OnlyNewlines (file s)) (hv : NoLineBreak v) :
    RewritesOneLine update file write Line v s := by
  have hrewrites {s' : Checkout} (hs : update v s = .ok () s') :
      ∃ i line, O.Writes v (splitlines (file s)) i line (versionLine line v) ∧
        s' = write s ((splitlines (file s)).set i (versionLine line v)).flatten ∧
        RewritesLine (file s) i line v (file s') := by
    obtain ⟨content, ⟨i, line, line', hwrites, rfl⟩, rfl⟩ := h.eq_ok.mp hs
    obtain ⟨hmem, rfl⟩ := h.put _ _ _ hwrites.put
    refine ⟨i, line, hwrites, rfl, ?_⟩
    rw [h.file_write]
    exact rewritesLine hfile hv hwrites.item hmem
  have hagain (s' : Checkout) (hs : update v s = .ok () s') (w : Str) :
      ∃ s'', update w s' = .ok () s'' ∧ update w s = .ok () s'' := by
    obtain ⟨i, line, hwrites, rfl, hlines⟩ := hrewrites hs
    obtain ⟨z, hnew, hold, hset⟩ := hwrites.again w
    have hnext : Updates O w (file (write s ((splitlines (file s)).set i
        (versionLine line v)).flatten)) ((splitlines (file s)).set i z).flatten := by
      refine ⟨i, versionLine line v, z, ?_, ?_⟩
      · rw [hlines.lines]
        exact hnew
      · rw [hlines.lines, hset]
    refine ⟨write s ((splitlines (file s)).set i z).flatten, ?_, ?_⟩
    · exact h.eq_ok.mpr ⟨_, hnext, h.write_write _ _ _⟩
    · exact h.eq_ok.mpr ⟨_, ⟨i, line, z, hold, rfl⟩, rfl⟩
  refine ⟨fun e s' => h.eq_error, fun s' hs => ?_, hagain, fun s' hs => ?_⟩
  · obtain ⟨i, line, hwrites, rfl, hlines⟩ := hrewrites hs
    refine ⟨by rw [h.file_write], i, line, ?_, hlines⟩
    exact hline _ _ _ hwrites.locates hwrites.item
  · obtain ⟨s'', hnew, hold⟩ := hagain s' hs v
    rw [hs] at hold
    cases hold
    exact hnew

end IsUpdate

def writeManifest (s : Checkout) (content : Str) : Checkout := { s with manifest := content }

def writeLock (s : Checkout) (content : Str) : Checkout := { s with lock := content }

theorem isUpdate_manifest (manifestPath : Str) :
    IsUpdate manifestOverwrite (updatedManifest manifestPath)
      (updateCargoPackageVersion manifestPath) Checkout.manifest writeManifest where
  run _ := rfl
  updates _ _ _ := updatedManifest_eq_ok
  put _ _ _ h := ⟨(toOption_eq_some.mp h).1, (toOption_eq_some.mp h).2.2⟩
  file_write _ _ := rfl
  write_write _ _ _ := rfl

theorem isUpdate_lock (lockPath packageName : Str) :
    IsUpdate (lockOverwrite packageName) (updatedLockfile lockPath packageName)
      (updateLockfilePackageVersion lockPath packageName) Checkout.lock writeLock where
  run _ := rfl
  updates _ _ _ := updatedLockfile_eq_ok
  put _ _ _ h := ⟨(toOption_eq_some.mp h).1, (toOption_eq_some.mp h).2.2⟩
  file_write _ _ := rfl
  write_write _ _ _ := rfl

structure OnlyLocalVersionLine (packageName : Str) (lines : List Str) (i : Nat) (line : Str) :
    Prop where
  here : LocalVersionLine packageName lines i line
  only : ∀ j l, LocalVersionLine packageName lines j l → j = i
  behind : ∃ j l, j < i ∧ lines[j]? = some l ∧ isPackageStart l = true

theorem onlyLocalVersionLine {lines : List Str} (hone : OneLocalVersionLine packageName lines i)
    (hline : lines[i]? = some line) : OnlyLocalVersionLine packageName lines i line := by
  obtain ⟨l, hl⟩ := (hone i).mpr rfl
  obtain rfl := Option.some.inj (hl.found.symm.trans hline)
  exact ⟨hl, fun j l' hl' => (hone j).mp ⟨l', hl'⟩, hl.behind_start⟩

theorem packageVersionLine {lines : List Str}
    (h : ∃ l, PackageVersionLine false lines i l) (hline : lines[i]? = some line) :
    PackageVersionLine false lines i line := by
  obtain ⟨l, hl⟩ := h
  obtain rfl := Option.some.inj (hl.found.symm.trans hline)
  exact hl

theorem updates_rewrite_one_line (manifestPath lockPath packageName v : Str) (s : Checkout)
    (hv : NoLineBreak v) :
    (OnlyNewlines s.manifest →
      RewritesOneLine (updateCargoPackageVersion manifestPath) Checkout.manifest writeManifest
        (PackageVersionLine false) v s) ∧
    (OnlyNewlines s.lock →
      RewritesOneLine (updateLockfilePackageVersion lockPath packageName) Checkout.lock writeLock
        (OnlyLocalVersionLine packageName) v s) := by
  constructor
  · intro hmanifest
    exact (isUpdate_manifest manifestPath).rewritesOneLine
      (fun _ _ _ => packageVersionLine) hmanifest hv
  · intro hlock
    exact (isUpdate_lock lockPath packageName).rewritesOneLine
      (fun _ _ _ => onlyLocalVersionLine) hlock hv

def crates : Checkout where
  manifest := "[package]\r\nname = \"a\"\r\nversion.workspace = true\nversion = \"1\"\r\n".toList
  lock := "version = 4\n[[package]]\nname = \"a\"\nversion = \"1\"".toList
  stdout := []

theorem updates_rewrite_one_line_crates :
    (updateCargoPackageVersion [] ['2'] crates = .ok () (writeManifest crates
      "[package]\r\nname = \"a\"\r\nversion.workspace = true\nversion = \"2\"\r\n".toList) ∧
    RewritesOneLine (updateCargoPackageVersion []) Checkout.manifest writeManifest
      (PackageVersionLine false) ['2'] crates) ∧
    updateLockfilePackageVersion [] ['a'] ['2'] crates = .ok () (writeLock crates
      "version = 4\n[[package]]\nname = \"a\"\nversion = \"2\"".toList) ∧
    RewritesOneLine (updateLockfilePackageVersion [] ['a']) Checkout.lock writeLock
      (OnlyLocalVersionLine ['a']) ['2'] crates := by
  have h := updates_rewrite_one_line [] [] ['a'] ['2'] crates fun _ => isLineBreak_of_all rfl
  have hmanifest : OnlyNewlines crates.manifest := by
    unfold OnlyNewlines
    decide
  have hlock : OnlyNewlines crates.lock := by
    unfold OnlyNewlines
    decide
  exact ⟨⟨rfl, h.1 hmanifest⟩, rfl, h.2 hlock⟩

def twoBlocks : Checkout where
  manifest := []
  lock := "[[package]]\nname = \"a\"\nversion = \"1\"\n[[package]]\nname = \"a\"\n".toList
  stdout := []

/-- What is counted are version lines: a further block with the name may lack one. -/
theorem not_the_only_block :
    (∃ s, updateLockfilePackageVersion [] ['a'] ['2'] twoBlocks = .ok () s) ∧
    ¬∃ start stop, ∀ start' stop', IsBlock (splitlines twoBlocks.lock) start' stop' ∧
      IsLocal ['a'] (((splitlines twoBlocks.lock).take stop').drop start') ↔
      start' = start ∧ stop' = stop := by
  refine ⟨⟨_, rfl⟩, ?_⟩
  rintro ⟨start, stop, honly⟩
  have hfirst := (honly 0 3).mp ⟨mem_bounds_packageStarts.mp (by decide), by
    unfold IsLocal
    decide⟩
  have hsecond := (honly 3 5).mp ⟨mem_bounds_packageStarts.mp (by decide), by
    unfold IsLocal
    decide⟩
  have hstarts := hfirst.1.trans hsecond.1.symm
  cases hstarts

end Update

end RocTui.CargoUpdate

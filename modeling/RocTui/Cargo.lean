import Mathlib.Data.List.DropRight
import Mathlib.Data.List.Basic
import RocTui.Lib.Lines
import RocTui.Lib.Overwrite
import RocTui.Lib.Script
import RocTui.Lib.Sections

namespace RocTui.Cargo

open RocTui.Lib RocTui.Lib.Script

abbrev Str := List Char

inductive Raised
  | RuntimeError (text : Str)
  | KeyError
  | StopIteration
  | JSONDecodeError
  | TypeError
  | OSError
  deriving DecidableEq, Repr

/-- The characters `str.splitlines` breaks at. -/
def isLineBreak (c : Char) : Bool :=
  let n := c.toNat
  10 ≤ n && n ≤ 13 || 28 ≤ n && n ≤ 30 || n == 0x85 || n == 0x2028 || n == 0x2029

/-- The characters `str.strip` takes off. -/
def isSpace (c : Char) : Bool :=
  let n := c.toNat
  9 ≤ n && n ≤ 13 || 28 ≤ n && n ≤ 32 || n == 0x85 || n == 0xa0 || n == 0x1680 ||
    0x2000 ≤ n && n ≤ 0x200a || n == 0x2028 || n == 0x2029 || n == 0x202f || n == 0x205f ||
    n == 0x3000

def lineBreaks : LineBreaks Char where
  isBreak := isLineBreak
  cr := '\r'
  lf := '\n'
  isBreak_cr := by decide
  isBreak_lf := by decide
  cr_ne_lf := by decide

def splitlines (content : Str) : List Str := lineBreaks.split content

def strip (s : Str) : Str := (s.dropWhile isSpace).rdropWhile isSpace

def startswith (s : Str) (text : String) : Bool := text.toList.isPrefixOf s

def endswith (s : Str) (text : String) : Bool := text.toList.isSuffixOf s

def partition (line : Str) : Str × Str × Str :=
  match line.dropWhile (· ≠ '=') with
  | [] => (line, [], [])
  | separator :: value => (line.takeWhile (· ≠ '='), [separator], value)

def newline (line : Str) : Str :=
  if endswith line "\r\n" then "\r\n".toList
  else if endswith line "\n" then "\n".toList
  else []

def replaceVersionLine (line releaseVersion : Str) : Except Raised Str :=
  let (key, separator, _) := partition line
  if separator = [] ∨ strip key ≠ "version".toList then
    .error (.RuntimeError "invalid Cargo version line".toList)
  else
    .ok (key ++ "= \"".toList ++ releaseVersion ++ "\"".toList ++ newline line)

def isHeader (line : Str) : Bool := startswith (strip line) "[" && endswith (strip line) "]"

def hasVersionKey (line : Str) : Bool := strip (partition line).1 == "version".toList

/-- The loop of `update_cargo_package_version`: the lines with one of them updated, if any was. -/
def updateLines (releaseVersion : Str) : Bool → List Str → Except Raised (Option (List Str))
  | _, [] => .ok none
  | inPackageSection, line :: lines =>
    if isHeader line then
      (·.map (line :: ·)) <$> updateLines releaseVersion (strip line == "[package]".toList) lines
    else if inPackageSection && startswith (strip line) "version" then
      if !hasVersionKey line then
        (·.map (line :: ·)) <$> updateLines releaseVersion inPackageSection lines
      else
        (some <| · :: lines) <$> replaceVersionLine line releaseVersion
    else
      (·.map (line :: ·)) <$> updateLines releaseVersion inPackageSection lines

def updatedManifest (manifestPath releaseVersion content : Str) : Except Raised Str := do
  let lines ← updateLines releaseVersion false (splitlines content)
  let lines ← expectSome lines
    (.RuntimeError ("could not find [package].version in ".toList ++ manifestPath))
  pure lines.flatten

def isPackageStart (line : Str) : Bool := strip line == "[[package]]".toList

def packageStarts (lines : List Str) : List Nat :=
  lines.findIdxs isPackageStart ++ [lines.length]

def isSource (line : Str) : Bool := startswith (strip line) "source ="

def isNameOf (packageName line : Str) : Bool :=
  strip line == "name = \"".toList ++ packageName ++ "\"".toList

def matchingVersionLines (packageName : Str) (lines : List Str) : List Nat :=
  let starts := packageStarts lines
  (starts.zip starts.tail).flatMap fun (start, stop) =>
    let block := (lines.take stop).drop start
    if block.any isSource then []
    else if !block.any (isNameOf packageName) then []
    else block.findIdxs hasVersionKey start

def updatedLockfile (lockPath packageName releaseVersion content : Str) : Except Raised Str :=
  let lines := splitlines content
  match matchingVersionLines packageName lines with
  | [versionLine] => do
    let line ← replaceVersionLine (lines.getD versionLine []) releaseVersion
    pure (lines.set versionLine line).flatten
  | found => .error (.RuntimeError ("expected one local ".toList ++ packageName ++
      " package in ".toList ++ lockPath ++ ", found ".toList ++
      (toString found.length).toList))

structure Checkout where
  manifest : Str
  lock : Str
  stdout : List Str
  deriving DecidableEq

def updateCargoPackageVersion (manifestPath releaseVersion : Str) :
    EStateM Raised Checkout Unit := do
  let checkout ← get
  let content ← MonadExcept.ofExcept
    (updatedManifest manifestPath releaseVersion checkout.manifest)
  set { checkout with manifest := content }

def updateLockfilePackageVersion (lockPath packageName releaseVersion : Str) :
    EStateM Raised Checkout Unit := do
  let checkout ← get
  let content ← MonadExcept.ofExcept
    (updatedLockfile lockPath packageName releaseVersion checkout.lock)
  set { checkout with lock := content }

section Lines

variable {line line' releaseVersion : Str}

theorem partition_key (line : Str) : (partition line).1 = line.takeWhile (· ≠ '=') := by
  unfold partition
  split
  · rename_i hnone
    have hline := List.takeWhile_append_dropWhile (p := (· ≠ '=')) (l := line)
    rw [hnone, List.append_nil] at hline
    exact hline.symm
  · rfl

theorem partition_separator (line : Str) : (partition line).2.1 = [] ↔ '=' ∉ line := by
  unfold partition
  split
  · rename_i hnone
    rw [List.dropWhile_eq_nil_iff] at hnone
    simpa using fun hmem => by simpa using hnone _ hmem
  · rename_i separator value hsome
    have hmem : '=' ∈ line := by
      by_contra hmem
      have hnone : line.dropWhile (· ≠ '=') = [] :=
        List.dropWhile_eq_nil_iff.mpr fun c hc => by simpa using ne_of_mem_of_not_mem hc hmem
      rw [hnone] at hsome
      cases hsome
    simp [hmem]

theorem equals_not_mem_key (line : Str) : '=' ∉ (partition line).1 := by
  rw [partition_key]
  intro hmem
  simpa using List.mem_takeWhile_imp hmem

def versionLine (line releaseVersion : Str) : Str :=
  (partition line).1 ++ "= \"".toList ++ releaseVersion ++ "\"".toList ++ newline line

theorem replaceVersionLine_eq_ok : replaceVersionLine line releaseVersion = .ok line' ↔
    '=' ∈ line ∧ hasVersionKey line = true ∧ versionLine line releaseVersion = line' := by
  have hline : replaceVersionLine line releaseVersion =
      if (partition line).2.1 = [] ∨ strip (partition line).1 ≠ "version".toList then
        .error (.RuntimeError "invalid Cargo version line".toList)
      else .ok (versionLine line releaseVersion) := rfl
  rw [hline, hasVersionKey, beq_iff_eq]
  split
  · rename_i h
    rw [partition_separator] at h
    rcases h with h | h <;> simp only [h, false_and, and_false, reduceCtorEq]
  · rename_i h
    rw [partition_separator, not_or, not_not, not_not] at h
    simp only [h.1, h.2, true_and, Except.ok.injEq]

theorem prefix_rdropWhile {α : Type*} {p : α → Bool} {xs ys : List α} {c : α} (h : p c = false) :
    xs ++ [c] <+: (xs ++ [c] ++ ys).rdropWhile p := by
  induction ys using List.reverseRecOn with
  | nil =>
    have hlast : (xs ++ [c]).rdropWhile p = xs ++ [c] :=
      List.rdropWhile_concat_neg _ _ _ (by simp [h])
    simpa only [List.append_nil, hlast] using List.prefix_rfl
  | append_singleton ys d ih =>
    rw [← List.append_assoc, List.rdropWhile_concat]
    split
    · exact ih
    · exact ⟨ys ++ [d], by simp⟩

theorem strip_of_hasVersionKey (h : hasVersionKey line = true) :
    ∃ rest, strip line = "version".toList ++ rest := by
  have hkey : strip (line.takeWhile (· ≠ '=')) = "version".toList := by
    simpa [hasVersionKey, partition_key] using h
  have hfirst : "version".toList <+: (line.takeWhile (· ≠ '=')).dropWhile isSpace := by
    rw [← hkey]
    exact List.rdropWhile_prefix _ _
  obtain ⟨t, ht⟩ := hfirst
  have hline : line.dropWhile isSpace = "version".toList ++ (t ++ line.dropWhile (· ≠ '=')) := by
    conv_lhs => rw [← List.takeWhile_append_dropWhile (p := (· ≠ '=')) (l := line)]
    rw [List.dropWhile_append, ← ht]
    simp
  have hprefix : "versio".toList ++ ['n'] <+: strip line := by
    rw [strip, hline]
    exact prefix_rdropWhile (by decide)
  obtain ⟨rest, hrest⟩ := hprefix
  exact ⟨rest, hrest.symm⟩

theorem isHeader_of_hasVersionKey (h : hasVersionKey line = true) : isHeader line = false := by
  obtain ⟨rest, hstrip⟩ := strip_of_hasVersionKey h
  simp [isHeader, hstrip, startswith]

theorem isPackageStart_of_hasVersionKey (h : hasVersionKey line = true) :
    isPackageStart line = false := by
  obtain ⟨rest, hstrip⟩ := strip_of_hasVersionKey h
  simp [isPackageStart, hstrip]

theorem isSource_of_hasVersionKey (h : hasVersionKey line = true) : isSource line = false := by
  obtain ⟨rest, hstrip⟩ := strip_of_hasVersionKey h
  simp [isSource, hstrip, startswith, List.isPrefixOf]

theorem isNameOf_of_hasVersionKey (packageName : Str) (h : hasVersionKey line = true) :
    isNameOf packageName line = false := by
  obtain ⟨rest, hstrip⟩ := strip_of_hasVersionKey h
  simp [isNameOf, hstrip]

theorem key_append {key : Str} (h : '=' ∉ key) (rest : Str) :
    (partition (key ++ '=' :: rest)).1 = key := by
  have hkey : ∀ c ∈ key, decide (c ≠ '=') = true := fun c hc => by
    simpa using ne_of_mem_of_not_mem hc h
  rw [partition_key, List.takeWhile_append_of_pos hkey]
  simp

theorem versionLine_eq (line releaseVersion : Str) : versionLine line releaseVersion =
    (partition line).1 ++ '=' :: (" \"".toList ++ releaseVersion ++ ['"'] ++ newline line) := by
  simp [versionLine]

@[simp] theorem key_versionLine (line releaseVersion : Str) :
    (partition (versionLine line releaseVersion)).1 = (partition line).1 := by
  rw [versionLine_eq, key_append (equals_not_mem_key line)]

@[simp] theorem hasVersionKey_versionLine (line releaseVersion : Str) :
    hasVersionKey (versionLine line releaseVersion) = hasVersionKey line := by
  rw [hasVersionKey, key_versionLine, hasVersionKey]

theorem newline_cases (line : Str) :
    newline line = [] ∨ newline line = ['\n'] ∨ newline line = ['\r', '\n'] := by
  unfold newline
  split
  · exact .inr (.inr rfl)
  · split
    · exact .inr (.inl rfl)
    · exact .inl rfl

theorem newline_append_quote (s : Str) (line : Str) :
    newline (s ++ ['"'] ++ newline line) = newline line := by
  rcases newline_cases line with h | h | h <;> rw [h] <;>
    simp [newline, endswith, List.isSuffixOf, List.isPrefixOf]

@[simp] theorem newline_versionLine (line releaseVersion : Str) :
    newline (versionLine line releaseVersion) = newline line := newline_append_quote _ line

@[simp] theorem versionLine_versionLine (line v w : Str) :
    versionLine (versionLine line v) w = versionLine line w := by
  rw [versionLine, key_versionLine, newline_versionLine, versionLine]

theorem equals_mem_versionLine (line releaseVersion : Str) :
    '=' ∈ versionLine line releaseVersion := by
  rw [versionLine_eq]
  simp

theorem endswith_iff {s : Str} {text : String} : endswith s text = true ↔ text.toList <:+ s :=
  List.isSuffixOf_iff_suffix

theorem newline_of_plain (h : lineBreaks.Plain line) :
    newline line = lineBreaks.terminator line := by
  have hbody : ∀ c ∈ lineBreaks.body line, isLineBreak c = false := fun c hc =>
    LineBreaks.isBreak_of_mem_body hc
  have hline := lineBreaks.body_append_terminator line
  rcases h with hnone | hlf | hcrlf
  · rw [hnone, List.append_nil] at hline
    have hno : '\n' ∉ line := fun hmem => absurd (hbody '\n' (hline.symm ▸ hmem)) (by decide)
    have hcrlf : endswith line "\r\n" = false := by
      rw [← Bool.not_eq_true, endswith_iff]
      exact fun hs => hno (hs.subset (by simp))
    have hlf : endswith line "\n" = false := by
      rw [← Bool.not_eq_true, endswith_iff]
      exact fun hs => hno (hs.subset (by simp))
    rw [newline, hcrlf, hlf, hnone]
    rfl
  · have hcrlf : endswith line "\r\n" = false := by
      rw [← Bool.not_eq_true, endswith_iff, ← hline, hlf]
      rintro ⟨t, ht⟩
      have heq : t ++ ['\r'] = lineBreaks.body line := by
        have hparts : (t ++ ['\r']) ++ ['\n'] = lineBreaks.body line ++ ['\n'] := by
          rw [List.append_assoc]
          exact ht
        exact List.append_cancel_right hparts
      exact absurd (hbody '\r' (heq ▸ by simp)) (by decide)
    have hends : endswith line "\n" = true := by
      rw [endswith_iff, ← hline, hlf]
      exact List.suffix_append _ _
    rw [newline, hcrlf, hends, hlf]
    rfl
  · have hends : endswith line "\r\n" = true := by
      rw [endswith_iff, ← hline, hcrlf]
      exact List.suffix_append _ _
    rw [newline, hends, hcrlf]
    rfl

theorem isLineBreak_of_all {s : Str} (h : s.all (!isLineBreak ·) = true) (hc : c ∈ s) :
    isLineBreak c = false := by
  simpa using List.all_eq_true.mp h c hc

theorem terminator_append {s t : Str} (hs : ∀ c ∈ s, isLineBreak c = false) :
    lineBreaks.terminator (s ++ t) = lineBreaks.terminator t :=
  List.dropWhile_append_of_pos fun c hc => by simp [lineBreaks, hs c hc]

theorem isLineBreak_of_mem_key (h : lineBreaks.Plain line) (hmem : '=' ∈ line)
    (hc : c ∈ (partition line).1) : isLineBreak c = false := by
  have hline := lineBreaks.body_append_terminator line
  have hbody : '=' ∈ lineBreaks.body line := by
    rw [← hline, List.mem_append] at hmem
    refine hmem.resolve_right fun hterm => ?_
    rcases h with hnone | hlf | hcrlf
    · rw [hnone] at hterm
      cases hterm
    · rw [hlf] at hterm
      exact absurd hterm (by decide)
    · rw [hcrlf] at hterm
      exact absurd hterm (by decide)
  have hkey : (partition line).1 <+: line := by
    rw [partition_key]
    exact List.takeWhile_prefix _
  rcases List.prefix_or_prefix_of_prefix hkey (List.takeWhile_prefix _) with hle | hle
  · exact LineBreaks.isBreak_of_mem_body (L := lineBreaks) (hle.subset hc)
  · exact absurd (hle.subset hbody) (equals_not_mem_key line)

theorem terminator_versionLine (h : lineBreaks.Plain line) (hmem : '=' ∈ line)
    (hv : ∀ c ∈ releaseVersion, isLineBreak c = false) :
    lineBreaks.terminator (versionLine line releaseVersion) = lineBreaks.terminator line := by
  have hnewline : lineBreaks.terminator (newline line) = newline line := by
    rcases newline_cases line with hn | hn | hn <;> rw [hn] <;> decide
  rw [versionLine, terminator_append, hnewline, newline_of_plain h]
  intro c hc
  simp only [List.mem_append] at hc
  rcases hc with ((hc | hc) | hc) | hc
  · exact isLineBreak_of_mem_key h hmem hc
  · exact isLineBreak_of_all rfl hc
  · exact hv c hc
  · exact isLineBreak_of_all rfl hc

end Lines

end RocTui.Cargo

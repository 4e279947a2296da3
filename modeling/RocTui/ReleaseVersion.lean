import RocTui.CargoUpdate
import RocTui.Suite

namespace RocTui.ReleaseVersion

open RocTui.Lib RocTui.Lib.Script RocTui.Cargo RocTui.CargoUpdate
open RocTui.Suite (Json)

structure CompletedProcess where
  returncode : Int
  stdout : Str
  stderr : Str

/-- Where the manifest and the lockfile next to it are, and what the script uses of Python and of
Cargo. `metadata` is `cargo metadata --no-deps` on a manifest, which reads the files only. -/
structure Cargo where
  manifestPath : Str
  lockPath : Str
  resolve : Str → Str
  loads : Str → Option Json
  metadata : Str → Checkout → Except Raised CompletedProcess

def subscript (value : Json) (key : String) : Except Raised Json :=
  match value with
  | .dict entries => expectSome (entries.lookup key) .KeyError
  | _ => .error .TypeError

def iterated : Json → Except Raised (List Json)
  | .list items => .ok items
  | .dict entries => .ok (entries.map fun (key, _) => .string key)
  | .string s => .ok (s.toList.map fun c => .string (String.singleton c))
  | _ => .error .TypeError

def expectPath : Json → Except Raised Str
  | .string s => .ok s.toList
  | _ => .error .TypeError

variable (c : Cargo)

def findPackage (manifestPath : Str) : List Json → Except Raised Json
  | [] => .error .StopIteration
  | package :: packages => do
    let path ← expectPath (← subscript package "manifest_path")
    if c.resolve path = manifestPath then pure package else findPackage manifestPath packages

def readPackage (manifestPath stdout : Str) : Except Raised (Str × Str) := do
  let metadata ← expectSome (c.loads stdout) .JSONDecodeError
  let package ← findPackage c manifestPath (← iterated (← subscript metadata "packages"))
  let packageName ← subscript package "name"
  let packageVersion ← subscript package "version"
  match packageName, packageVersion with
  | .string name, .string version => pure (name.toList, version.toList)
  | _, _ => throw .KeyError

def cargoPackage (s : Checkout) : Except Raised (Str × Str) := do
  let manifestPath := c.resolve c.manifestPath
  let result ← c.metadata manifestPath s
  if result.returncode ≠ 0 then
    let stderr := strip result.stderr
    let diagnostic := if stderr ≠ [] then stderr else strip result.stdout
    throw (.RuntimeError ("cargo metadata failed: ".toList ++ diagnostic))
  else
    match readPackage c manifestPath result.stdout with
    | .error .JSONDecodeError | .error .KeyError | .error .StopIteration =>
      throw (.RuntimeError
        ("cargo metadata did not contain the package at ".toList ++ manifestPath))
    | package => package

def cargoPackageVersion (s : Checkout) : Except Raised Str := do
  let (_, packageVersion) ← cargoPackage c s
  pure packageVersion

def update (releaseVersion : Str) : EStateM Raised Checkout Unit := do
  let checkout ← get
  let (packageName, _) ← MonadExcept.ofExcept (cargoPackage c checkout)
  updateCargoPackageVersion c.manifestPath releaseVersion
  updateLockfilePackageVersion c.lockPath packageName releaseVersion

def verify (releaseVersion : Str) : EStateM Raised Checkout Unit := do
  let checkout ← get
  let packageVersion ← MonadExcept.ofExcept (cargoPackageVersion c checkout)
  if packageVersion ≠ releaseVersion then
    throw (.RuntimeError ("release version mismatch: ".toList ++
      "Cargo package version is ".toList ++ packageVersion ++
      ", but the validated release version is ".toList ++ releaseVersion))
  else
    modify fun checkout => { checkout with stdout := checkout.stdout ++
      ["Cargo package version ".toList ++ packageVersion ++
        " matches the release version".toList] }

def checkReleaseVersion (releaseVersion : Str) (updates : Bool) :
    EStateM Raised Checkout Unit := do
  onlyIf updates (update c releaseVersion)
  verify c releaseVersion

variable {c}

section Steps

theorem triple_of_isUpdate {κ : Type} {O : Overwrite Str κ Str}
    {updated : Str → Str → Except Raised Str} {update : Str → EStateM Raised Checkout Unit}
    {file : Checkout → Str} {write : Checkout → Str → Checkout} {v : Str} {s : Checkout}
    (h : IsUpdate O updated update file write) :
    Triple (· = s) (update v)
      (fun _ s' => ∃ content, updated v (file s) = .ok content ∧ write s content = s')
      fun s' => (∃ e, updated v (file s) = .error e) ∧ s' = s := by
  rintro s rfl
  rw [h.run, get_set_run (fun s => updated v (file s))]
  cases updated v (file s) with
  | ok content => exact ⟨content, rfl, rfl⟩
  | error e => exact ⟨⟨e, rfl⟩, rfl⟩

/-- The two files after `--update`, by what came of its steps. -/
inductive Leaves (c : Cargo) (v : Str) (s : Checkout) : Str → Str → Prop
  | noPackage {e : Raised} : cargoPackage c s = .error e → Leaves c v s s.manifest s.lock
  | manifestRaises {name version : Str} {e : Raised} :
      cargoPackage c s = .ok (name, version) →
      updatedManifest c.manifestPath v s.manifest = .error e →
      Leaves c v s s.manifest s.lock
  | lockRaises {name version manifest : Str} {e : Raised} :
      cargoPackage c s = .ok (name, version) →
      updatedManifest c.manifestPath v s.manifest = .ok manifest →
      updatedLockfile c.lockPath name v s.lock = .error e →
      Leaves c v s manifest s.lock
  | updates {name version manifest lock : Str} :
      cargoPackage c s = .ok (name, version) →
      updatedManifest c.manifestPath v s.manifest = .ok manifest →
      updatedLockfile c.lockPath name v s.lock = .ok lock →
      Leaves c v s manifest lock

theorem update_leaves (c : Cargo) (v : Str) (s : Checkout) :
    Triple (· = s) (update c v) (fun _ s' => Leaves c v s s'.manifest s'.lock)
      fun s' => Leaves c v s s'.manifest s'.lock := by
  refine Triple.get_bind ?_
  rintro s rfl
  cases hpackage : cargoPackage c s with
  | error e =>
    rintro t rfl
    exact Leaves.noPackage hpackage
  | ok package =>
    obtain ⟨name, version⟩ := package
    rw [ofExcept_bind rfl]
    refine Triple.bind ((triple_of_isUpdate (isUpdate_manifest c.manifestPath)).mono
      (fun _ h => h) (fun _ _ h => h) ?_) fun _ => ?_
    · rintro s' ⟨⟨e, hmanifest⟩, rfl⟩
      exact .manifestRaises hpackage hmanifest
    · rintro _ ⟨manifest, hmanifest, rfl⟩
      refine (triple_of_isUpdate (isUpdate_lock c.lockPath name)).mono (fun _ h => h) ?_ ?_ _ rfl
      · rintro _ s' ⟨lock, hlock, rfl⟩
        exact .updates hpackage hmanifest hlock
      · rintro s' ⟨⟨e, hlock⟩, rfl⟩
        exact .lockRaises hpackage hmanifest hlock

theorem verify_preserves {I : Checkout → Prop}
    (hI : ∀ s stdout, I s → I { s with stdout := stdout }) (c : Cargo) (v : Str) :
    Preserves I (verify c v) := by
  refine Triple.bind Preserves.get fun _ => Triple.bind Preserves.ofExcept fun packageVersion => ?_
  split
  · exact Preserves.throw
  · exact fun s hs => hI s _ hs

theorem check_leaves_files (c : Cargo) (v : Str) (s : Checkout) :
    (final (checkReleaseVersion c v false) s).manifest = s.manifest ∧
      (final (checkReleaseVersion c v false) s).lock = s.lock := by
  refine Triple.final (P := (· = s))
    (E := fun s' => s'.manifest = s.manifest ∧ s'.lock = s.lock) ?_ rfl
  refine Triple.bind (Q := fun _ s' => s'.manifest = s.manifest ∧ s'.lock = s.lock) ?_ ?_
  · rintro _ rfl
    exact ⟨rfl, rfl⟩
  · exact fun _ => verify_preserves (fun _ _ h => h) c v

theorem checkReleaseVersion_leaves (c : Cargo) (v : Str) (s : Checkout) :
    Leaves c v s (final (checkReleaseVersion c v true) s).manifest
      (final (checkReleaseVersion c v true) s).lock := by
  refine Triple.final (P := (· = s)) (E := fun s' => Leaves c v s s'.manifest s'.lock) ?_ rfl
  exact Triple.bind (update_leaves c v s) fun _ => verify_preserves (fun _ _ h => h) c v

end Steps

def SetsVersion (Line : List Str → Nat → Str → Prop) (v content content' : Str) : Prop :=
  ∃ i line, Line (splitlines content) i line ∧ '=' ∈ line ∧
    content' = ((splitlines content).set i (versionLine line v)).flatten

section Lines

variable {manifestPath lockPath name v content content' line : Str} {i : Nat}

theorem setsVersion_manifest : SetsVersion (PackageVersionLine false) v content content' ↔
    updatedManifest manifestPath v content = .ok content' := by
  rw [updatedManifest_eq_ok]
  constructor
  · rintro ⟨i, line, hat, hmem, rfl⟩
    exact ⟨i, line, _, ⟨⟨line, hat⟩, hat.found, toOption_eq_some.mpr ⟨hmem, hat.key, rfl⟩⟩, rfl⟩
  · rintro ⟨i, line, line', ⟨hat, hline, hput⟩, rfl⟩
    obtain ⟨hmem, -, rfl⟩ := toOption_eq_some.mp hput
    exact ⟨i, line, packageVersionLine hat hline, hmem, rfl⟩

theorem setsVersion_lock : SetsVersion (OnlyLocalVersionLine name) v content content' ↔
    updatedLockfile lockPath name v content = .ok content' := by
  rw [updatedLockfile_eq_ok]
  constructor
  · rintro ⟨i, line, hat, hmem, rfl⟩
    have hone : OneLocalVersionLine name (splitlines content) i := by
      intro j
      constructor
      · rintro ⟨l, hl⟩
        exact hat.only j l hl
      · rintro rfl
        exact ⟨line, hat.here⟩
    exact ⟨i, line, _, ⟨hone, hat.here.found, toOption_eq_some.mpr ⟨hmem, hat.here.key, rfl⟩⟩, rfl⟩
  · rintro ⟨i, line, line', ⟨hone, hline, hput⟩, rfl⟩
    obtain ⟨hmem, -, rfl⟩ := toOption_eq_some.mp hput
    exact ⟨i, line, onlyLocalVersionLine hone hline, hmem, rfl⟩

theorem not_setsVersion_manifest {e : Raised}
    (h : updatedManifest manifestPath v content = .error e) :
    ¬SetsVersion (PackageVersionLine false) v content content' := by
  rw [setsVersion_manifest, h]
  rintro ⟨⟩

theorem not_setsVersion_lock {e : Raised} (h : updatedLockfile lockPath name v content = .error e) :
    ¬SetsVersion (OnlyLocalVersionLine name) v content content' := by
  rw [setsVersion_lock, h]
  rintro ⟨⟩

theorem eq_of_setsVersion (h : SetsVersion (PackageVersionLine false) v content content') :
    content' = content ↔ ∀ i line, PackageVersionLine false (splitlines content) i line →
      '=' ∈ line → versionLine line v = line := by
  obtain ⟨i, line, hat, hmem, rfl⟩ := h
  have hflatten : (splitlines content).flatten = content := lineBreaks.flatten_split content
  have hset := flatten_set_eq_iff hat.found (versionLine line v)
  rw [hflatten] at hset
  rw [hset]
  constructor
  · intro heq j l hl _
    obtain ⟨-, rfl⟩ := hat.unique hl
    exact heq
  · intro h
    exact h i line hat hmem

end Lines

/-- With `--update`, either both files have the version set or both are as they were. -/
def AllOrNothing (c : Cargo) (v : Str) (s : Checkout) : Prop :=
  let s' := final (checkReleaseVersion c v true) s
  (∃ name version, cargoPackage c s = .ok (name, version) ∧
    SetsVersion (PackageVersionLine false) v s.manifest s'.manifest ∧
    SetsVersion (OnlyLocalVersionLine name) v s.lock s'.lock) ∨
  s'.manifest = s.manifest ∧ s'.lock = s.lock

theorem allOrNothing_iff (c : Cargo) (v : Str) (s : Checkout) :
    AllOrNothing c v s ↔
      (∃ e, cargoPackage c s = .error e) ∨
      (∀ i line, PackageVersionLine false (splitlines s.manifest) i line → '=' ∈ line →
        versionLine line v = line) ∨
      ∃ name version i line, cargoPackage c s = .ok (name, version) ∧
        OnlyLocalVersionLine name (splitlines s.lock) i line ∧ '=' ∈ line := by
  have hleaves := checkReleaseVersion_leaves c v s
  dsimp only [AllOrNothing]
  generalize (final (checkReleaseVersion c v true) s).manifest = manifest at hleaves ⊢
  generalize (final (checkReleaseVersion c v true) s).lock = lock at hleaves ⊢
  cases hleaves with
  | noPackage hpackage => exact iff_of_true (.inr ⟨rfl, rfl⟩) (.inl ⟨_, hpackage⟩)
  | manifestRaises hpackage hmanifest =>
    refine iff_of_true (.inr ⟨rfl, rfl⟩) (.inr (.inl fun i line hat hmem => ?_))
    exact absurd ⟨i, line, hat, hmem, rfl⟩ (not_setsVersion_manifest hmanifest)
  | lockRaises hpackage hmanifest hlock =>
    -- What is left then is a manifest that has the version already.
    have hset := eq_of_setsVersion (setsVersion_manifest.mpr hmanifest)
    constructor
    · rintro (⟨name, version, hname, -, hlines⟩ | ⟨heq, -⟩)
      · obtain ⟨rfl, rfl⟩ := Prod.mk.inj (Except.ok.inj (hpackage.symm.trans hname))
        exact absurd hlines (not_setsVersion_lock hlock)
      · exact .inr (.inl (hset.mp heq))
    · rintro (⟨e, herror⟩ | hthere | ⟨name, version, i, line, hname, hat, hmem⟩)
      · rw [hpackage] at herror
        cases herror
      · exact .inr ⟨hset.mpr hthere, rfl⟩
      · obtain ⟨rfl, rfl⟩ := Prod.mk.inj (Except.ok.inj (hpackage.symm.trans hname))
        exact absurd ⟨i, line, hat, hmem, rfl⟩ (not_setsVersion_lock hlock)
  | updates hpackage hmanifest hlock =>
    have hlines := setsVersion_lock.mpr hlock
    have hboth := And.intro (setsVersion_manifest.mpr hmanifest) hlines
    obtain ⟨i, line, hat, hmem, -⟩ := hlines
    exact iff_of_true (.inl ⟨_, _, hpackage, hboth⟩)
      (.inr (.inr ⟨_, _, i, line, hpackage, hat, hmem⟩))

def listing : Str := ("\x7b\"packages\": [\x7b\"name\": \"a\", \"version\": \"0.1.0\", " ++
  "\"manifest_path\": \"/a/Cargo.toml\"\x7d]\x7d").toList

def unlocked : Checkout where
  manifest := "[package]\nname = \"a\"\nversion = \"0.1.0\"\n".toList
  lock := "version = 4\n".toList
  stdout := []

def oneCrate : Cargo where
  manifestPath := "/a/Cargo.toml".toList
  lockPath := "/a/Cargo.lock".toList
  resolve path := path
  loads text :=
    if text = listing then
      some (.dict [("packages", .list [.dict [("name", .string "a"), ("version", .string "0.1.0"),
        ("manifest_path", .string "/a/Cargo.toml")]])])
    else none
  metadata path s :=
    if path = "/a/Cargo.toml".toList ∧ s.manifest = unlocked.manifest then .ok ⟨0, listing, []⟩
    else .ok ⟨101, [], "error: failed to load manifest".toList⟩

/-- The manifest has been written by the time the lockfile turns out not to list the package. -/
theorem not_allOrNothing_unlocked : ¬AllOrNothing oneCrate "0.2.0".toList unlocked := by
  have hpackage : cargoPackage oneCrate unlocked = .ok (['a'], "0.1.0".toList) := rfl
  have hlock : updatedLockfile oneCrate.lockPath ['a'] "0.2.0".toList unlocked.lock = .error
      (.RuntimeError "expected one local a package in /a/Cargo.lock, found 0".toList) := rfl
  rintro (⟨name, version, hname, -, hlines⟩ | ⟨hmanifest, -⟩)
  · obtain ⟨rfl, rfl⟩ := Prod.mk.inj (Except.ok.inj (hpackage.symm.trans hname))
    exact not_setsVersion_lock hlock hlines
  · exact absurd hmanifest (by decide)

end RocTui.ReleaseVersion

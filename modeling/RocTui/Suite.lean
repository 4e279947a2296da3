import Mathlib.Data.Finset.Sort
import Mathlib.Data.String.Basic
import RocTui.Lib.Framing
import RocTui.Lib.Script

namespace RocTui.Suite

open RocTui.Lib.Framing RocTui.Lib.Script

inductive Json
  | null
  | bool (b : Bool)
  | number (literal : String)
  | string (s : String)
  | list (items : List Json)
  | dict (entries : List (String × Json))

abbrev Dict := List (String × Json)

def Json.dict? : Json → Option Dict
  | .dict entries => some entries
  | _ => none

def Json.bool? : Json → Option Bool
  | .bool b => some b
  | _ => none

def Json.list? : Json → Option (List Json)
  | .list items => some items
  | _ => none

def Json.dicts? (value : Json) : Option (List Dict) := value.list?.bind (·.mapM dict?)

def isString (value : Option Json) (s : String) : Bool :=
  match value with
  | some (.string s') => s' == s
  | _ => false

inductive Raised
  | SystemExit (text : String)
  | Exception (name : String)
  deriving DecidableEq, Repr

abbrev Bytes := List UInt8

def utf8 (s : String) : Bytes := s.toUTF8.data.toList

theorem utf8_injective : Function.Injective utf8 := fun _ _ h =>
  String.toByteArray_inj.mp (ByteArray.ext (Array.toList_inj.mp h))

inductive Stage
  | fmt | check | test | build | run
  deriving DecidableEq, Repr

def Stage.name : Stage → String
  | .fmt => "fmt"
  | .check => "check"
  | .test => "test"
  | .build => "build"
  | .run => "run"

def STAGES : List Stage := [.fmt, .check, .test, .build, .run]

/-- An entry of `apps`, whose `path` is a string. -/
structure App where
  path : String
  fields : Dict
  path_eq : fields.lookup "path" = some (.string path)

def App.ofFields? (fields : Dict) : Option App :=
  match h : fields.lookup "path" with
  | some (.string path) => some ⟨path, fields, h⟩
  | _ => none

/-- A run case, whose `name` is a string and not empty. -/
structure Case where
  name : String
  fields : Dict
  name_eq : fields.lookup "name" = some (.string name)
  nonempty : name ≠ ""

def Case.ofFields? (fields : Dict) : Option Case :=
  match h : fields.lookup "name" with
  | some (.string name) => if hname : name = "" then none else some ⟨name, fields, h, hname⟩
  | _ => none

/-- The repository and the artifact directory. A source is named by its path from the root, a
binary by its path from the artifact directory, and the manifests written for a target are kept
with the newest first, each as the value it reads back as. -/
structure Tree where
  spec : Bytes
  discovered : Finset String
  source : String → Option Bytes
  manifests : List (String × Json)
  targetDir : String → Bool
  isFile : String → Bool
  noNul : ∀ name ∈ discovered, 0 ∉ utf8 name

def Tree.readBytes (t : Tree) (name : String) : Except Raised Bytes :=
  expectSome (t.source name) (.Exception "FileNotFoundError")

/-- What the scripts use of Python, of the system they run on and of the tools they call.
`command` says whether the tool succeeds and what it leaves in the artifact directory. -/
structure Machine where
  root : String
  artifactDir : String
  system : String
  loads : Bytes → Except Raised Json
  repr : Json → String
  hexdigest : Bytes → String
  updateApps : Tree → (String → Option Bytes) × Except Raised Unit
  command : List String → Tree → Except Raised Unit × (String → Bool)
  runBinary : App → String → Case → Tree → Except Raised Unit

variable (m : Machine)

def str : Json → String
  | .string s => s
  | value => m.repr value

def reprNames (names : Finset String) : String :=
  m.repr (.list ((names.sort (· ≤ ·)).map .string))

def expectBool (value : Option Json) (text : String) : Except Raised Bool :=
  expectSome (value.getD (.bool true)).bool? (.SystemExit text)

def platformOverrides (fields : Dict) : Dict :=
  match (fields.lookup "platforms").getD (.dict []) with
  | .dict platforms => ((platforms.lookup m.system).getD (.dict [])).dict?.getD []
  | _ => []

def stageEnabled (defaults : Dict) (app : App) (stage : Stage) : Except Raised Bool := do
  let path := app.path
  let name := stage.name
  let appEnabled ← expectBool (app.fields.lookup "enabled")
    s!"{path}: enabled flag must be a boolean"
  let enabled ← expectSome (defaults.lookup name) (.Exception "KeyError")
  let enabled := match (app.fields.lookup "stages").getD (.dict []) with
    | .dict overrides => (overrides.lookup name).getD enabled
    | _ => enabled
  let overrides := platformOverrides m app.fields
  let platformEnabled ← expectBool (overrides.lookup "enabled")
    s!"{path}: platform enabled flag must be a boolean"
  let enabled ← expectBool (some ((overrides.lookup name).getD enabled))
    s!"{path}: {name} flag must be a boolean"
  pure (appEnabled && platformEnabled && enabled)

def runCases (app : App) : Except Raised (List Case) := do
  let path := app.path
  let cases ← expectSome ((app.fields.lookup "cases").getD (.list [])).dicts?
    (.SystemExit s!"{path}: cases must be a list of objects")
  let error := Raised.SystemExit s!"{path}: every run case needs a unique non-empty name"
  let cases ← expectSome (cases.mapM Case.ofFields?) error
  expect (cases.map Case.name).Nodup error
  pure cases

def caseEnabled (case : Case) : Except Raised Bool := do
  let name := case.name
  let enabled ← expectBool (case.fields.lookup "enabled")
    s!"Run case {name}: enabled must be a boolean"
  let platformEnabled ← expectBool ((platformOverrides m case.fields).lookup "enabled")
    s!"Run case {name}: platform enabled must be boolean"
  pure (enabled && platformEnabled)

def stagesOf (path : String) (data : Dict) : Except Raised Dict := do
  let names := ", ".intercalate (STAGES.map Stage.name)
  let error := Raised.SystemExit s!"{path}: 'stages' must define {names}"
  let defaults ← expectSome ((data.lookup "stages").bind Json.dict?) error
  expect ((defaults.map Prod.fst).toFinset = (STAGES.map Stage.name).toFinset) error
  expect (STAGES.all fun stage => ((defaults.lookup stage.name).bind Json.bool?).isSome)
    (.SystemExit s!"{path}: all stage flags must be booleans")
  pure defaults

def appsOf (path : String) (data : Dict) : Except Raised (List App) := do
  let apps ← expectSome ((data.lookup "apps").bind Json.dicts?)
    (.SystemExit s!"{path}: 'apps' must be a list of objects")
  let error := Raised.SystemExit s!"{path}: every app needs a unique string path"
  let apps ← expectSome (apps.mapM App.ofFields?) error
  expect (apps.map App.path).Nodup error
  pure apps

def checkApp (defaults : Dict) (app : App) : Except Raised Unit := do
  let path := app.path
  expect ((app.fields.lookup "run").isNone)
    (.SystemExit s!"{path}: use the cases array; singular run is not supported")
  let cases ← runCases app
  let enabled ← stageEnabled m defaults app .run
  expect (enabled = true → cases ≠ [])
    (.SystemExit s!"{path}: run is enabled but cases is empty")

def loadSpec (t : Tree) : Except Raised (Dict × List App) := do
  let root := m.root
  let path := s!"{root}/scripts/test_spec.json"
  let data ← m.loads t.spec
  let data ← expectSome data.dict? (.Exception "AttributeError")
  let defaults ← stagesOf path data
  let apps ← appsOf path data
  let specified := (apps.map App.path).toFinset
  let missing := reprNames m (t.discovered \ specified)
  let extra := reprNames m (specified \ t.discovered)
  expect (t.discovered = specified)
    (.SystemExit s!"Test spec mismatch; missing={missing}, extra={extra}")
  apps.forM (checkApp m defaults)
  pure (defaults, apps)

def sourcesHash (names : Multiset String) (read : String → Except Raised Bytes) :
    Except Raised String := do
  let updates ← (names.sort (· ≤ ·)).mapM fun name => do
    let contents ← read name
    pure (utf8 name ++ 0 :: (contents ++ [0]))
  pure (m.hexdigest updates.flatten)

abbrev Binaries := List (String × String)

def sortedItems (binaries : Binaries) : Binaries := binaries.mergeSort fun a b => a.1 ≤ b.1

def manifestOf (target : String) (spec : Bytes) (sourceSha256 : String)
    (binaries : Binaries) : Json :=
  .dict [
    ("target", .string target),
    ("spec_sha256", .string (m.hexdigest spec)),
    ("sources_sha256", .string sourceSha256),
    ("binaries", .dict ((sortedItems binaries).map
      fun (source, binary) => (source, .string binary)))]

def enabledPaths (defaults : Dict) (stage : Stage) : List App → Except Raised (List String)
  | [] => pure []
  | app :: apps => do
    let enabled ← stageEnabled m defaults app stage
    let paths ← enabledPaths defaults stage apps
    pure (if enabled then app.path :: paths else paths)

def loadArtifactBinaries (target : String) (defaults : Dict) (apps : List App) (t : Tree) :
    Except Raised Binaries := do
  let artifactDir := m.artifactDir
  let path := s!"{artifactDir}/{target}/manifest.json"
  let manifest ← expectSome (t.manifests.lookup target)
    (.SystemExit s!"Missing artifact manifest: {path}")
  let manifest ← expectSome manifest.dict? (.Exception "AttributeError")
  expect (isString (manifest.lookup "target") target)
    (.SystemExit s!"{path}: target does not match {target}")
  expect (isString (manifest.lookup "spec_sha256") (m.hexdigest t.spec))
    (.SystemExit s!"{path}: artifacts were built from a different test spec")
  let entries ← expectSome ((manifest.lookup "binaries").bind Json.dict?)
    (.SystemExit s!"{path}: binaries must be an object")
  let enabled ← enabledPaths m defaults .build apps
  let expected := enabled.toFinset
  let sources ← sourcesHash m expected.val t.readBytes
  expect (isString (manifest.lookup "sources_sha256") sources)
    (.SystemExit s!"{path}: artifacts were built from different example sources")
  let recorded := (entries.map Prod.fst).toFinset
  let missing := reprNames m (expected \ recorded)
  let extra := reprNames m (recorded \ expected)
  expect (recorded = expected)
    (.SystemExit s!"{path}: binary mismatch; missing={missing}, extra={extra}")
  let binaries := entries.map fun (source, relative) => (source, str m relative)
  let missing := ((binaries.filter fun b => !t.isFile b.2).map Prod.fst).toFinset
  let names := reprNames m missing
  expect (missing = ∅) (.SystemExit s!"{path}: missing binary files for {names}")
  pure binaries

abbrev Script := EStateM Raised Tree

def exec (args : List String) : Script Unit := fun t =>
  match m.command args t with
  | (.ok _, files) => .ok () { t with isFile := files }
  | (.error e, files) => .error e { t with isFile := files }

def writeManifest (target : String) (binaries : Binaries) (sourceSha256 : String) :
    Script Unit := do
  let t ← get
  if t.targetDir target then
    modify fun t => { t with
      manifests := (target, manifestOf m target t.spec sourceSha256 binaries) :: t.manifests }
  else
    throw (.Exception "FileNotFoundError")

def rocExtraArgs : List String :=
  if m.system = "windows" then ["--max-transitive-mb=256", "--no-cache"]
  else ["--max-transitive-mb=256"]

def stem (path : String) : String :=
  let name := path.toList.reverse.takeWhile (· ≠ '/')
  let suffix := name.takeWhile (· ≠ '.')
  let before := (name.drop suffix.length).tail
  if suffix ≠ [] ∧ before ≠ [] then String.ofList before.reverse else String.ofList name.reverse

def binaryOf (target path : String) : String :=
  let name := stem path
  let suffix := if target = "x64win" then ".exe" else ""
  s!"{target}/{name}{suffix}"

def mkdir (target : String) : Script Unit :=
  modify fun t => { t with targetDir := fun dir => dir == target || t.targetDir dir }

def stageApp (stage : Stage) (target : String) (binaries : Binaries) (app : App) :
    Script Binaries := do
  let root := m.root
  let path := app.path
  let source := s!"{root}/{path}"
  match stage with
  | .fmt =>
    exec m ["roc", "fmt", "--check", source]
    pure binaries
  | .check =>
    exec m (["roc", "check", source] ++ rocExtraArgs m)
    pure binaries
  | .test =>
    exec m (["roc", "test", source] ++ rocExtraArgs m)
    pure binaries
  | .build =>
    let artifactDir := m.artifactDir
    let binary := binaryOf target path
    mkdir target
    exec m (["roc", "build", source, s!"--target={target}", s!"--output={artifactDir}/{binary}"] ++
      rocExtraArgs m)
    pure (binaries ++ [(path, binary)])
  | .run =>
    match binaries.lookup path with
    | none => throw (.SystemExit s!"{path}: run is enabled but build is disabled")
    | some binary =>
      let cases ← MonadExcept.ofExcept (runCases app)
      cases.forM fun case => do
        let enabled ← MonadExcept.ofExcept (caseEnabled m case)
        onlyIf (enabled = true) do
          let t ← get
          MonadExcept.ofExcept (m.runBinary app binary case t)
      pure binaries

def runStage (stage : Stage) (defaults : Dict) (apps : List App) (binaries : Binaries)
    (target : String) : Script Binaries :=
  apps.foldlM (fun binaries app => do
    if ← MonadExcept.ofExcept (stageEnabled m defaults app stage) then
      stageApp m stage target binaries app
    else
      pure binaries) binaries

def needsHttp (defaults : Dict) (apps : List App) : Except Raised Bool :=
  apps.anyM fun app => do
    if ← stageEnabled m defaults app .run then
      let cases ← runCases app
      cases.anyM fun case => do
        let enabled ← caseEnabled m case
        pure (enabled && isString (case.fields.lookup "helper") "http")
    else
      pure false

inductive Operation
  | validate | build | run
  deriving DecidableEq, Repr

/-- What `run_suite` does between taking the backups and writing them back. -/
def runOperations (operations : List Operation) (target : String) (defaults : Dict)
    (apps : List App) (sourceSha256 : String) : Script Unit := do
  let root := m.root
  updateApps
  onlyIf (.run ∈ operations) do
    let http ← MonadExcept.ofExcept (needsHttp m defaults apps)
    onlyIf (http = true) (exec m ["cargo", "build", "--locked", "--release"])
  onlyIf (.validate ∈ operations) do
    exec m ["cargo", "test", "--locked", "--lib"]
    exec m (["roc", "test", s!"{root}/platform/main.roc"] ++ rocExtraArgs m)
    [Stage.fmt, .check, .test].forM fun stage => do
      let _ ← runStage m stage defaults apps [] target
  let binaries ← build
  onlyIf (.run ∈ operations) do
    let binaries ← builtOrLoaded binaries
    let _ ← runStage m .run defaults apps binaries target
where
  updateApps : Script Unit := fun t =>
    match m.updateApps t with
    | (source, .ok _) => .ok () { t with source := source }
    | (source, .error e) => .error e { t with source := source }
  build : Script Binaries := do
    if .build ∈ operations then
      let binaries ← runStage m .build defaults apps [] target
      writeManifest m target binaries sourceSha256
      pure binaries
    else
      pure []
  builtOrLoaded (binaries : Binaries) : Script Binaries := do
    if binaries.isEmpty then
      let t ← get
      MonadExcept.ofExcept (loadArtifactBinaries m target defaults apps t)
    else
      pure binaries

/-- `finally`, with the backups written back. -/
def restoring (backups : List (String × Bytes)) (body : Script Unit) : Script Unit := fun t =>
  match body t with
  | .ok _ t => .ok () (restored t)
  | .error e t => .error e (restored t)
where
  restored (t : Tree) : Tree :=
    { t with source := fun name => backups.lookup name <|> t.source name }

def runSuite (operations : List Operation) (target : String) : Script Unit := do
  let t ← get
  let (defaults, apps) ← MonadExcept.ofExcept (loadSpec m t)
  let backups ← MonadExcept.ofExcept (apps.mapM fun app => do
    let contents ← t.readBytes app.path
    pure (app.path, contents))
  let originalSourcesSha256 ← MonadExcept.ofExcept (sourcesHash m (apps.map App.path) fun name =>
    expectSome (backups.lookup name) (.Exception "KeyError"))
  restoring backups (runOperations m operations target defaults apps originalSourcesSha256)

end RocTui.Suite

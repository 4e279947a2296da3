import RocTui.Suite

namespace RocTui.Manifest

open RocTui.Lib.Framing RocTui.Lib.Script RocTui.Suite

variable {m : Machine} {defaults : Dict} {stage : Stage} {app : App} {apps : List App}
  {target : String} {paths : List String} {t s : Tree}

theorem readBytes_eq_ok {name : String} {contents : Bytes} :
    t.readBytes name = .ok contents ↔ t.source name = some contents := expectSome_eq_ok

theorem map_reads {names : Multiset String} {read : String → Except Raised Bytes}
    {contents : String → Bytes} (hread : ∀ name ∈ names, read name = .ok (contents name)) :
    ((names.sort (· ≤ ·)).map fun name => do
      let c ← read name
      pure (utf8 name ++ 0 :: (c ++ [0]))) =
    ((names.sort (· ≤ ·)).map fun name =>
      utf8 name ++ 0 :: (contents name ++ [0])).map Except.ok := by
  rw [List.map_map]
  refine List.map_congr_left fun name hname => ?_
  rw [hread name ((Multiset.mem_sort _).mp hname)]
  rfl

theorem sourcesHash_eq_ok {names : Multiset String} {read : String → Except Raised Bytes}
    {hash : String} : sourcesHash m names read = .ok hash ↔
      ∃ contents : String → Bytes, (∀ name ∈ names, read name = .ok (contents name)) ∧
        hash = m.hexdigest (snapshot 0 utf8 contents names) := by
  simp only [sourcesHash, bind_eq_ok, mapM_eq_ok]
  constructor
  · rintro ⟨updates, hupdates, hhash⟩
    let contents name := (read name).toOption.getD []
    have hread : ∀ name ∈ names, read name = .ok (contents name) := by
      intro name hname
      have hmem := List.mem_map_of_mem (f := fun name => do
        let c ← read name
        pure (utf8 name ++ 0 :: (c ++ [0]))) ((Multiset.mem_sort (· ≤ ·)).mpr hname)
      rw [hupdates] at hmem
      obtain ⟨update, -, heq⟩ := List.mem_map.mp hmem
      obtain ⟨c, hc, -⟩ := bind_eq_ok.mp heq.symm
      simp [contents, hc, Except.toOption]
    have hok : Function.Injective (Except.ok : Bytes → Except Raised Bytes) :=
      fun _ _ h => Except.ok.inj h
    have hmap := List.map_injective_iff.mpr hok (hupdates.symm.trans (map_reads hread))
    refine ⟨contents, hread, ?_⟩
    rw [← Except.ok.inj hhash, hmap, snapshot, List.flatMap_def]
  · rintro ⟨contents, hread, rfl⟩
    refine ⟨_, map_reads hread, ?_⟩
    rw [snapshot, List.flatMap_def]
    rfl

theorem loadSpec_congr (hspec : s.spec = t.spec) (hdiscovered : s.discovered = t.discovered) :
    loadSpec m s = loadSpec m t := by
  simp only [loadSpec, hspec, hdiscovered]

theorem appsOf_nodup {path : String} {data : Dict} (h : appsOf path data = .ok apps) :
    (apps.map App.path).Nodup := by
  simp only [appsOf, bind_eq_ok, expect_eq_ok] at h
  obtain ⟨dicts, -, apps, -, _, hnodup, h⟩ := h
  obtain rfl := Except.ok.inj h
  exact hnodup

theorem loadSpec_spec (h : loadSpec m t = .ok (defaults, apps)) :
    (apps.map App.path).Nodup ∧ t.discovered = (apps.map App.path).toFinset := by
  simp only [loadSpec, bind_eq_ok, expect_eq_ok] at h
  obtain ⟨data, -, fields, -, defaults, -, apps, happs, _, hsame, _, -, h⟩ := h
  obtain ⟨rfl, rfl⟩ := Prod.mk.inj (Except.ok.inj h)
  exact ⟨appsOf_nodup happs, hsame⟩

section Enabled

theorem enabledPaths_cons : enabledPaths m defaults stage (app :: apps) = .ok paths ↔
    ∃ enabled rest, stageEnabled m defaults app stage = .ok enabled ∧
      enabledPaths m defaults stage apps = .ok rest ∧
      paths = if enabled then app.path :: rest else rest := by
  simp only [enabledPaths, bind_eq_ok, pure, Except.pure, Except.ok.injEq, exists_and_left,
    eq_comm (a := paths)]

theorem enabledPaths_sublist (h : enabledPaths m defaults stage apps = .ok paths) :
    paths.Sublist (apps.map App.path) := by
  induction apps generalizing paths with
  | nil => simp [← Except.ok.inj h]
  | cons app apps ih =>
    obtain ⟨enabled, rest, -, hrest, rfl⟩ := enabledPaths_cons.mp h
    cases enabled with
    | true => exact (ih hrest).cons_cons app.path
    | false => exact (ih hrest).cons app.path

theorem mem_enabledPaths (h : enabledPaths m defaults stage apps = .ok paths)
    (hnodup : (apps.map App.path).Nodup) (happ : app ∈ apps) :
    app.path ∈ paths ↔ stageEnabled m defaults app stage = .ok true := by
  induction apps generalizing paths with
  | nil => simp at happ
  | cons first apps ih =>
    obtain ⟨enabled, rest, hfirst, hrest, rfl⟩ := enabledPaths_cons.mp h
    rw [List.map_cons, List.nodup_cons] at hnodup
    rcases List.mem_cons.mp happ with rfl | happ
    · have hout : app.path ∉ rest := fun hmem =>
        hnodup.1 ((enabledPaths_sublist hrest).subset hmem)
      rw [hfirst]
      cases enabled <;> simp [hout]
    · have hne : app.path ≠ first.path := fun heq =>
        hnodup.1 (heq ▸ List.mem_map_of_mem happ)
      rw [← ih hrest hnodup.2 happ]
      cases enabled <;> simp [hne]

theorem enabledPaths_eq_all (h : enabledPaths m defaults stage apps = .ok paths)
    (hnodup : (apps.map App.path).Nodup) :
    paths.toFinset = (apps.map App.path).toFinset ↔
      ∀ app ∈ apps, stageEnabled m defaults app stage = .ok true := by
  constructor
  · intro heq app happ
    have hmem : app.path ∈ paths := by
      rw [← List.mem_toFinset, heq, List.mem_toFinset]
      exact List.mem_map_of_mem happ
    exact (mem_enabledPaths h hnodup happ).mp hmem
  · intro hall
    ext path
    simp only [List.mem_toFinset]
    refine ⟨fun hmem => (enabledPaths_sublist h).subset hmem, fun hmem => ?_⟩
    obtain ⟨app, happ, rfl⟩ := List.mem_map.mp hmem
    exact (mem_enabledPaths h hnodup happ).mpr (hall app happ)

end Enabled

section Scripts

def Ignores (I : Tree → Prop) : Prop :=
  ∀ t source targetDir isFile, I t →
    I { t with source := source, targetDir := targetDir, isFile := isFile }

variable {I : Tree → Prop} (hI : Ignores I)

include hI

theorem exec_preserves (args : List String) : Preserves I (exec m args) := by
  intro t ht
  simp only [exec]
  split
  · rename_i heq
    split at heq
    · obtain ⟨-, rfl⟩ := EStateM.Result.ok.inj heq
      exact hI t _ _ _ ht
    · cases heq
  · rename_i heq
    split at heq
    · cases heq
    · obtain ⟨-, rfl⟩ := EStateM.Result.error.inj heq
      exact hI t _ _ _ ht

theorem mkdir_preserves : Preserves I (mkdir target) := fun t ht => hI t _ _ _ ht

theorem stageApp_preserves (binaries : Binaries) :
    Preserves I (stageApp m stage target binaries app) := by
  cases stage with
  | fmt | check | test => exact Triple.bind (exec_preserves hI _) fun _ => Preserves.pure
  | build =>
    exact Triple.bind (mkdir_preserves hI) fun _ =>
      Triple.bind (exec_preserves hI _) fun _ => Preserves.pure
  | run =>
    simp only [stageApp]
    split
    · exact Preserves.throw
    · refine Triple.bind Preserves.ofExcept fun cases => ?_
      refine Triple.bind (Preserves.forM fun case => ?_) fun _ => Preserves.pure
      refine Triple.bind Preserves.ofExcept fun enabled => Preserves.onlyIf ?_
      exact Triple.bind Preserves.get fun _ => Preserves.ofExcept

theorem runStage_preserves (binaries : Binaries) :
    Preserves I (runStage m stage defaults apps binaries target) := by
  refine Preserves.foldlM fun binaries app => ?_
  refine Triple.bind Preserves.ofExcept fun enabled => ?_
  split
  · exact stageApp_preserves hI binaries
  · exact Preserves.pure

theorem updateApps_preserves : Preserves I (runOperations.updateApps m) := by
  intro t ht
  simp only [runOperations.updateApps]
  split
  · rename_i heq
    split at heq
    · obtain ⟨-, rfl⟩ := EStateM.Result.ok.inj heq
      exact hI t _ _ _ ht
    · cases heq
  · rename_i heq
    split at heq
    · cases heq
    · obtain ⟨-, rfl⟩ := EStateM.Result.error.inj heq
      exact hI t _ _ _ ht

end Scripts

section Build

theorem enabledPaths_append {done : List App} {enabled : Bool}
    (h : enabledPaths m defaults stage done = .ok paths)
    (happ : stageEnabled m defaults app stage = .ok enabled) :
    enabledPaths m defaults stage (done ++ [app]) =
      .ok (paths ++ if enabled then [app.path] else []) := by
  induction done generalizing paths with
  | nil =>
    obtain rfl := Except.ok.inj h
    exact enabledPaths_cons.mpr ⟨enabled, [], happ, rfl, by simp⟩
  | cons first done ih =>
    obtain ⟨on, rest, hfirst, hrest, rfl⟩ := enabledPaths_cons.mp h
    refine enabledPaths_cons.mpr ⟨on, _, hfirst, ih hrest, ?_⟩
    cases on <;> simp

def binariesOf (target : String) (paths : List String) : Binaries :=
  paths.map fun path => (path, binaryOf target path)

theorem stageApp_build (binaries : Binaries) :
    Triple (fun _ => True) (stageApp m .build target binaries app)
      (fun built _ => built = binaries ++ [(app.path, binaryOf target app.path)])
      fun _ => True := by
  refine Triple.bind (mkdir_preserves fun _ _ _ _ h => h) fun _ => ?_
  refine Triple.bind (exec_preserves (fun _ _ _ _ h => h) _) fun _ => ?_
  exact Triple.pure fun _ _ => rfl

theorem runStage_build :
    Triple (fun _ => True) (runStage m .build defaults apps [] target)
      (fun binaries _ => ∃ paths, enabledPaths m defaults .build apps = .ok paths ∧
        binaries = binariesOf target paths)
      fun _ => True := by
  let J done (binaries : Binaries) (_ : Tree) := ∃ paths,
    enabledPaths m defaults .build done = .ok paths ∧ binaries = binariesOf target paths
  have hstep : ∀ done app binaries, Triple (J done binaries)
      (do
        if ← MonadExcept.ofExcept (stageEnabled m defaults app .build) then
          stageApp m .build target binaries app
        else pure binaries)
      (J (done ++ [app])) fun _ => True := by
    rintro done app binaries s ⟨paths, hpaths, rfl⟩
    refine Triple.ofExcept_bind (P := fun _ => True) (fun enabled henabled => ?_)
      (fun _ h => h) s (by trivial)
    cases enabled with
    | true =>
      refine (stageApp_build _).mono (fun _ h => h) ?_ fun _ h => h
      rintro built _ rfl
      exact ⟨_, enabledPaths_append hpaths henabled, by simp [binariesOf]⟩
    | false =>
      exact Triple.pure fun _ _ => ⟨_, enabledPaths_append hpaths henabled, by simp [binariesOf]⟩
  refine (Triple.foldlM hstep).mono (fun _ _ => ⟨[], rfl, rfl⟩) (fun _ _ h => h) fun _ h => h

end Build

section Suite

/-- Nothing the manifest is about has changed. -/
structure Kept (t s : Tree) : Prop where
  spec : s.spec = t.spec
  discovered : s.discovered = t.discovered
  manifests : s.manifests = t.manifests

theorem Kept.ignores : Ignores (Kept t) := fun _ _ _ _ h => ⟨h.spec, h.discovered, h.manifests⟩

/-- At most a manifest has been added, of the binaries of the apps that are built. -/
structure Written (m : Machine) (target : String) (defaults : Dict) (apps : List App)
    (sourceSha256 : String) (t s : Tree) : Prop where
  spec : s.spec = t.spec
  discovered : s.discovered = t.discovered
  manifests : s.manifests = t.manifests ∨
    ∃ paths, enabledPaths m defaults .build apps = .ok paths ∧ s.manifests =
      (target, manifestOf m target t.spec sourceSha256 (binariesOf target paths)) :: t.manifests

variable {sourceSha256 : String}

theorem Written.ignores : Ignores (Written m target defaults apps sourceSha256 t) :=
  fun _ _ _ _ h => ⟨h.spec, h.discovered, h.manifests⟩

theorem Kept.written (h : Kept t s) : Written m target defaults apps sourceSha256 t s :=
  ⟨h.spec, h.discovered, .inl h.manifests⟩

theorem build_written (operations : List Operation) :
    Triple (Kept t) (runOperations.build m operations target defaults apps sourceSha256)
      (fun _ => Written m target defaults apps sourceSha256 t)
      (Written m target defaults apps sourceSha256 t) := by
  unfold runOperations.build
  split
  · have hkept : Preserves (Kept t) (runStage m .build defaults apps [] target) :=
      runStage_preserves Kept.ignores []
    have hbuild := hkept.and runStage_build
    refine Triple.bind (hbuild.mono (fun s hs => ⟨hs, by trivial⟩) (fun _ _ h => h)
      fun s hs => hs.1.written) fun binaries => ?_
    refine Triple.bind (Q := fun _ => Written m target defaults apps sourceSha256 t) ?_
      fun _ => Triple.pure fun _ h => h
    refine Triple.get_bind fun s ⟨hs, paths, hpaths, hbinaries⟩ => ?_
    split
    · rintro _ rfl
      refine ⟨hs.spec, hs.discovered, .inr ⟨paths, hpaths, ?_⟩⟩
      rw [← hs.spec, ← hs.manifests, hbinaries]
    · rintro _ rfl
      exact hs.written
  · exact Triple.pure fun _ hs => hs.written

theorem runOperations_written (operations : List Operation) :
    Triple (Kept t) (runOperations m operations target defaults apps sourceSha256)
      (fun _ => Written m target defaults apps sourceSha256 t)
      (Written m target defaults apps sourceSha256 t) := by
  have hkept {α : Type} {x : Script α} (h : Preserves (Kept t) x) :
      Triple (Kept t) x (fun _ => Kept t) (Written m target defaults apps sourceSha256 t) :=
    h.mono (fun _ hs => hs) (fun _ _ hs => hs) fun _ hs => hs.written
  unfold runOperations
  refine Triple.bind (hkept (updateApps_preserves Kept.ignores)) fun _ => ?_
  refine Triple.bind (hkept (Preserves.onlyIf ?_)) fun _ => ?_
  · exact Triple.bind Preserves.ofExcept fun _ =>
      Preserves.onlyIf (exec_preserves Kept.ignores _)
  refine Triple.bind (hkept (Preserves.onlyIf ?_)) fun _ => ?_
  · refine Triple.bind (exec_preserves Kept.ignores _) fun _ => ?_
    refine Triple.bind (exec_preserves Kept.ignores _) fun _ => Preserves.forM fun stage => ?_
    exact Triple.bind (runStage_preserves Kept.ignores _) fun _ => Preserves.pure
  refine Triple.bind (build_written operations) fun binaries => Preserves.onlyIf ?_
  refine Triple.bind (Q := fun _ => Written m target defaults apps sourceSha256 t) ?_ fun _ => ?_
  · unfold runOperations.builtOrLoaded
    split
    · exact Triple.bind Preserves.get fun _ => Preserves.ofExcept
    · exact Preserves.pure
  · exact Triple.bind (runStage_preserves Written.ignores _) fun _ => Preserves.pure

structure Ran (m : Machine) (target : String) (defaults : Dict) (apps : List App)
    (t s : Tree) : Prop where
  spec : s.spec = t.spec
  discovered : s.discovered = t.discovered
  source : ∀ app ∈ apps, s.source app.path = t.source app.path
  manifests : s.manifests = t.manifests ∨ ∃ contents paths,
    (∀ app ∈ apps, t.source app.path = some (contents app.path)) ∧
    enabledPaths m defaults .build apps = .ok paths ∧ s.manifests =
      (target, manifestOf m target t.spec
        (m.hexdigest (snapshot 0 utf8 contents (apps.map App.path)))
        (binariesOf target paths)) :: t.manifests

theorem backups_lookup {backups : List (String × Bytes)}
    (h : (apps.mapM fun app => do
      let contents ← t.readBytes app.path
      pure (app.path, contents)) = .ok backups) (happ : app ∈ apps) :
    ∃ contents, t.source app.path = some contents ∧
      backups.lookup app.path = some contents := by
  induction apps generalizing backups with
  | nil => simp at happ
  | cons first apps ih =>
    simp only [List.mapM_cons, bind_eq_ok, readBytes_eq_ok] at h
    obtain ⟨_, ⟨contents, hfirst, hpair⟩, rest, hrest, hcons⟩ := h
    obtain rfl := Except.ok.inj hpair
    obtain rfl := Except.ok.inj hcons
    rw [List.lookup_cons]
    rcases List.mem_cons.mp happ with rfl | happ
    · exact ⟨contents, hfirst, by simp⟩
    · obtain ⟨contents', hsource, hlookup⟩ := ih hrest happ
      by_cases heq : app.path = first.path
      · rw [heq] at hsource ⊢
        exact ⟨contents, hfirst, by simp⟩
      · rw [beq_eq_false_iff_ne.mpr heq]
        exact ⟨contents', hsource, hlookup⟩

theorem restoring_triple {backups : List (String × Bytes)} {body : Script Unit}
    {P Q : Tree → Prop} (h : Triple P body (fun _ => Q) Q) :
    Triple P (restoring backups body)
      (fun _ s => ∃ s', Q s' ∧ s = restoring.restored backups s')
      fun s => ∃ s', Q s' ∧ s = restoring.restored backups s' := by
  intro s hs
  have hbody := h s hs
  simp only [restoring]
  split at hbody
  · rename_i heq
    rw [heq]
    exact ⟨_, hbody, rfl⟩
  · rename_i heq
    rw [heq]
    exact ⟨_, hbody, rfl⟩

theorem runSuite_loaded {backups : List (String × Bytes)} {sourceSha256 : String}
    (hspec : loadSpec m t = .ok (defaults, apps))
    (hbackups : (apps.mapM fun app => do
      let contents ← t.readBytes app.path
      pure (app.path, contents)) = .ok backups)
    (hhash : (sourcesHash m (apps.map App.path) fun name =>
      expectSome (backups.lookup name) (.Exception "KeyError")) = .ok sourceSha256)
    (operations : List Operation) :
    runSuite m operations target t =
      restoring backups (runOperations m operations target defaults apps sourceSha256) t := by
  change (MonadExcept.ofExcept (loadSpec m t) >>= _ : Script Unit) t = _
  rw [ofExcept_bind hspec]
  dsimp only
  rw [ofExcept_bind hbackups, ofExcept_bind hhash]

theorem Written.ran {backups : List (String × Bytes)} {contents : String → Bytes}
    (h : Written m target defaults apps
      (m.hexdigest (snapshot 0 utf8 contents (apps.map App.path))) t s)
    (hbackups : ∀ app ∈ apps, ∃ contents, t.source app.path = some contents ∧
      backups.lookup app.path = some contents)
    (hcontents : ∀ app ∈ apps, backups.lookup app.path = some (contents app.path)) :
    Ran m target defaults apps t (restoring.restored backups s) where
  spec := h.spec
  discovered := h.discovered
  source app happ := by
    obtain ⟨c, hsource, hlookup⟩ := hbackups app happ
    simp [restoring.restored, hsource, hlookup]
  manifests := by
    rcases h.manifests with heq | ⟨paths, hpaths, heq⟩
    · exact .inl heq
    · refine .inr ⟨contents, paths, fun app happ => ?_, hpaths, heq⟩
      obtain ⟨c, hsource, hlookup⟩ := hbackups app happ
      rw [hsource, ← hlookup, hcontents app happ]

theorem runSuite_ran (hspec : loadSpec m t = .ok (defaults, apps))
    (operations : List Operation) :
    Ran m target defaults apps t (final (runSuite m operations target) t) := by
  refine Triple.final (P := fun s => s = t) ?_ rfl
  have hran : Ran m target defaults apps t t := ⟨rfl, rfl, fun _ _ => rfl, .inl rfl⟩
  refine Triple.get_bind fun s hs => ?_
  subst hs
  have hstay : ∀ s', s' = s → Ran m target defaults apps s s' := fun _ h => h ▸ hran
  refine Triple.ofExcept_bind (fun loaded hload => ?_) hstay
  obtain rfl := Except.ok.inj (hload.symm.trans hspec)
  refine Triple.ofExcept_bind (fun backups hbackups => ?_) hstay
  refine Triple.ofExcept_bind (fun sourceSha256 hhash => ?_) hstay
  obtain ⟨contents, hcontents, rfl⟩ := sourcesHash_eq_ok.mp hhash
  have hreads : ∀ app ∈ apps, backups.lookup app.path = some (contents app.path) :=
    fun app happ => expectSome_eq_ok.mp (hcontents _ (by simpa using ⟨app, happ, rfl⟩))
  have hkept : ∀ s', s' = s → Kept s s' := fun s' h => h ▸ ⟨rfl, rfl, rfl⟩
  refine (restoring_triple (runOperations_written operations)).mono hkept ?_ ?_
  · rintro _ _ ⟨s', hs', rfl⟩
    exact hs'.ran (fun _ => backups_lookup hbackups) hreads
  · rintro _ ⟨s', hs', rfl⟩
    exact hs'.ran (fun _ => backups_lookup hbackups) hreads

end Suite

section Reading

def recorded (m : Machine) (manifest : Json) : Binaries :=
  ((manifest.dict?.bind (·.lookup "binaries")).bind Json.dict?).elim [] fun entries =>
    entries.map fun (source, relative) => (source, str m relative)

variable {binaries result : Binaries} {spec : Bytes} {hash : String}

@[simp] theorem isString_string {a b : String} : isString (some (.string a)) b ↔ a = b := by
  simp [isString]

theorem str_items : ((sortedItems binaries).map fun (source, binary) =>
    (source, Json.string binary)).map (fun (source, relative) => (source, str m relative)) =
      sortedItems binaries := by
  rw [List.map_map]
  exact List.map_id' _

theorem recorded_manifestOf :
    recorded m (manifestOf m target spec hash binaries) = sortedItems binaries := str_items

theorem sortedItems_sources :
    ((sortedItems binaries).map Prod.fst).toFinset = (binaries.map Prod.fst).toFinset :=
  List.toFinset_eq_of_perm _ _ ((List.mergeSort_perm _ _).map _)

theorem binariesOf_sources : (binariesOf target paths).map Prod.fst = paths := by
  rw [binariesOf, List.map_map]
  exact List.map_id' _

theorem loadArtifactBinaries_eq_ok
    (ht : t.manifests.lookup target = some (manifestOf m target t.spec hash binaries)) :
    loadArtifactBinaries m target defaults apps t = .ok result ↔
      ∃ paths, enabledPaths m defaults .build apps = .ok paths ∧
        sourcesHash m paths.toFinset.val t.readBytes = .ok hash ∧
        (binaries.map Prod.fst).toFinset = paths.toFinset ∧
        (∀ b ∈ sortedItems binaries, t.isFile b.2 = true) ∧ result = sortedItems binaries := by
  have hmissing : (((sortedItems binaries).filter fun b => !t.isFile b.2).map Prod.fst).toFinset
      = ∅ ↔ ∀ b ∈ sortedItems binaries, t.isFile b.2 = true := by
    simp [List.toFinset_eq_empty_iff]
  simp only [loadArtifactBinaries, bind_eq_ok, expectSome_eq_ok, expect_eq_ok, ht]
  constructor
  · rintro ⟨_, hmanifest, _, hfields, _, -, _, -, _, hentries, paths, hpaths, sources, hsources,
      _, hhash, _, hsame, _, hfiles, hresult⟩
    obtain rfl := Option.some.inj hmanifest
    obtain rfl := Option.some.inj hfields
    obtain rfl := Option.some.inj hentries
    obtain rfl : hash = sources := isString_string.mp hhash
    rw [str_items, hmissing] at hfiles
    refine ⟨paths, hpaths, hsources, ?_, hfiles, ?_⟩
    · rw [← hsame, ← sortedItems_sources, List.map_map]
      rfl
    · rw [← Except.ok.inj hresult, str_items]
  · rintro ⟨paths, hpaths, hsources, hsame, hfiles, rfl⟩
    refine ⟨_, rfl, _, rfl, (), isString_string.mpr rfl, (), isString_string.mpr rfl, _, rfl,
      paths, hpaths, hash, hsources, (), isString_string.mpr rfl, (), ?_, (), ?_, ?_⟩
    · rw [← hsame, ← sortedItems_sources, List.map_map]
      rfl
    · rw [str_items, hmissing]
      exact hfiles
    · rw [str_items]
      rfl

end Reading

def NoNul (apps : List App) (t : Tree) : Prop :=
  ∀ app ∈ apps, ∀ contents, t.source app.path = some contents → 0 ∉ contents

structure Later (s t : Tree) : Prop where
  spec : t.spec = s.spec
  discovered : t.discovered = s.discovered
  manifests : t.manifests = s.manifests

/-- The reader takes the manifest back as it was written, unless an app that is built changed. -/
structure Agrees (m : Machine) (target : String) (defaults : Dict) (apps : List App)
    (manifest : Json) (s : Tree) : Prop where
  accepts : ∀ t, Later s t → t.source = s.source →
    (∀ b ∈ recorded m manifest, t.isFile b.2 = true) →
    loadSpec m t = .ok (defaults, apps) ∧
    loadArtifactBinaries m target defaults apps t = .ok (recorded m manifest)
  rejects : ∀ t, Later s t → NoNul apps t →
    (∃ app ∈ apps, stageEnabled m defaults app .build = .ok true ∧
      t.source app.path ≠ s.source app.path) →
    ∃ e, loadArtifactBinaries m target defaults apps t = .error e

section Agreement

variable {contents : String → Bytes} {manifest : Json}

theorem loadArtifactBinaries_written (hash : Function.Injective m.hexdigest)
    (hspec : loadSpec m s = .ok (defaults, apps)) (hnul : NoNul apps s)
    (hcontents : ∀ app ∈ apps, s.source app.path = some (contents app.path))
    (hpaths : enabledPaths m defaults .build apps = .ok paths)
    (hmanifests : t.manifests.lookup target = some (manifestOf m target t.spec
      (m.hexdigest (snapshot 0 utf8 contents (apps.map App.path))) (binariesOf target paths)))
    (ht : NoNul apps t) (result : Binaries) :
    loadArtifactBinaries m target defaults apps t = .ok result ↔
      (∀ app ∈ apps, stageEnabled m defaults app .build = .ok true) ∧
      (∀ app ∈ apps, t.source app.path = s.source app.path) ∧
      (∀ b ∈ sortedItems (binariesOf target paths), t.isFile b.2 = true) ∧
      result = sortedItems (binariesOf target paths) := by
  obtain ⟨hnodup, hdiscovered⟩ := loadSpec_spec hspec
  have hname : ∀ app ∈ apps, 0 ∉ utf8 app.path := fun app happ =>
    s.noNul _ (by rw [hdiscovered, List.mem_toFinset]; exact List.mem_map_of_mem happ)
  have hall := enabledPaths_eq_all hpaths hnodup
  rw [loadArtifactBinaries_eq_ok hmanifests]
  constructor
  · rintro ⟨paths', hpaths', hhash, -, hfiles, rfl⟩
    obtain rfl : paths = paths' := Except.ok.inj (hpaths.symm.trans hpaths')
    obtain ⟨contents', hreads, hsame⟩ := sourcesHash_eq_ok.mp hhash
    have hsub := (enabledPaths_sublist hpaths).subset
    have hold : ∀ name ∈ (apps.map App.path : Multiset String),
        0 ∉ utf8 name ∧ 0 ∉ contents name := by
      simp only [Multiset.mem_coe, List.forall_mem_map]
      exact fun app happ => ⟨hname app happ, hnul app happ _ (hcontents app happ)⟩
    have hnew : ∀ name ∈ paths.toFinset.val, 0 ∉ utf8 name ∧ 0 ∉ contents' name := by
      intro name hmem
      obtain ⟨app, happ, rfl⟩ := List.mem_map.mp (hsub (List.mem_toFinset.mp hmem))
      exact ⟨hname app happ, ht app happ _ (readBytes_eq_ok.mp (hreads _ hmem))⟩
    obtain ⟨hkeys, hvalues⟩ := (snapshot_inj utf8_injective hold hnew).mp (hash hsame)
    refine ⟨hall.mp ?_, fun app happ => ?_, hfiles, rfl⟩
    · ext path
      rw [← Finset.mem_val, ← hkeys]
      simp
    · have hmem : app.path ∈ (apps.map App.path : Multiset String) := by
        simpa using ⟨app, happ, rfl⟩
      rw [hcontents app happ, hvalues _ hmem]
      exact readBytes_eq_ok.mp (hreads _ (hkeys ▸ hmem))
  · rintro ⟨hbuilt, hsources, hfiles, rfl⟩
    have hkeys : paths.toFinset.val = (apps.map App.path : Multiset String) := by
      rw [hall.mpr hbuilt, List.toFinset_val, hnodup.dedup]
    refine ⟨paths, hpaths, sourcesHash_eq_ok.mpr ⟨contents, ?_, by rw [hkeys]⟩,
      by rw [binariesOf_sources], hfiles, rfl⟩
    rw [hkeys]
    simp only [Multiset.mem_coe, List.forall_mem_map]
    exact fun app happ => readBytes_eq_ok.mpr ((hsources app happ).trans (hcontents app happ))

theorem Ran.manifest_eq (h : Ran m target defaults apps t s)
    (hwrote : s.manifests = (target, manifest) :: t.manifests) :
    ∃ contents paths, (∀ app ∈ apps, t.source app.path = some (contents app.path)) ∧
      enabledPaths m defaults .build apps = .ok paths ∧ manifest = manifestOf m target t.spec
        (m.hexdigest (snapshot 0 utf8 contents (apps.map App.path))) (binariesOf target paths) := by
  rcases h.manifests with hkept | ⟨contents, paths, hcontents, hpaths, hadded⟩
  · exact absurd (hwrote.symm.trans hkept) (List.cons_ne_self _ _)
  · obtain ⟨hentry, -⟩ := List.cons.inj (hwrote.symm.trans hadded)
    exact ⟨contents, paths, hcontents, hpaths, (Prod.mk.inj hentry).2⟩

theorem NoNul.same {later : Tree} (hnul : NoNul apps t) (hran : Ran m target defaults apps t s)
    (hsource : later.source = s.source) : NoNul apps later :=
  fun app happ c hc => hnul app happ c (by rw [← hc, hsource, hran.source app happ])

section Later

variable (hash : Function.Injective m.hexdigest) (hspec : loadSpec m t = .ok (defaults, apps))
  (hnul : NoNul apps t) (hran : Ran m target defaults apps t s)
  (hwrote : s.manifests = (target, manifest) :: t.manifests)

include hash hspec hnul hran hwrote

theorem loadArtifactBinaries_later {later : Tree} (hlater : Later s later)
    (hlaterNul : NoNul apps later) {result : Binaries} :
    loadArtifactBinaries m target defaults apps later = .ok result ↔
      (∀ app ∈ apps, stageEnabled m defaults app .build = .ok true) ∧
      (∀ app ∈ apps, later.source app.path = s.source app.path) ∧
      (∀ b ∈ recorded m manifest, later.isFile b.2 = true) ∧ result = recorded m manifest := by
  obtain ⟨contents, paths, hcontents, hpaths, rfl⟩ := hran.manifest_eq hwrote
  have hlookup : later.manifests.lookup target = some (manifestOf m target later.spec
      (m.hexdigest (snapshot 0 utf8 contents (apps.map App.path)))
      (binariesOf target paths)) := by
    rw [hlater.manifests, hwrote, hlater.spec, hran.spec, List.lookup_cons_self]
  rw [loadArtifactBinaries_written hash hspec hnul hcontents hpaths hlookup hlaterNul,
    recorded_manifestOf]
  have hsources : (∀ app ∈ apps, later.source app.path = t.source app.path) ↔
      ∀ app ∈ apps, later.source app.path = s.source app.path :=
    forall₂_congr fun app happ => by rw [hran.source app happ]
  rw [hsources]

theorem Agrees.all_built (h : Agrees m target defaults apps manifest s) :
    ∀ app ∈ apps, stageEnabled m defaults app .build = .ok true := by
  obtain ⟨later, hlater, hsource, hfiles⟩ : ∃ later, Later s later ∧
      later.source = s.source ∧ ∀ b, later.isFile b = true :=
    ⟨{ s with isFile := fun _ => true }, ⟨rfl, rfl, rfl⟩, rfl, fun _ => rfl⟩
  obtain ⟨-, hload⟩ := h.accepts later hlater hsource fun b _ => hfiles b.2
  exact ((loadArtifactBinaries_later hash hspec hnul hran hwrote hlater
    (hnul.same hran hsource)).mp hload).1

theorem agrees_of_all_built
    (hbuilt : ∀ app ∈ apps, stageEnabled m defaults app .build = .ok true) :
    Agrees m target defaults apps manifest s where
  accepts later hlater hsource hfiles := by
    constructor
    · rw [← hspec]
      exact loadSpec_congr (hlater.spec.trans hran.spec)
        (hlater.discovered.trans hran.discovered)
    · exact (loadArtifactBinaries_later hash hspec hnul hran hwrote hlater
        (hnul.same hran hsource)).mpr ⟨hbuilt, fun _ _ => by rw [hsource], hfiles, rfl⟩
  rejects := fun later hlater hlaterNul ⟨app, happ, _, hchanged⟩ => by
    cases hload : loadArtifactBinaries m target defaults apps later with
    | error e => exact ⟨e, rfl⟩
    | ok result =>
      obtain ⟨-, hsources, -⟩ :=
        (loadArtifactBinaries_later hash hspec hnul hran hwrote hlater hlaterNul).mp hload
      exact absurd (hsources app happ) hchanged

end Later

/-- The manifest `run_suite` writes is read back exactly when every app of the spec is built. -/
theorem manifest_agrees (hash : Function.Injective m.hexdigest)
    (hspec : loadSpec m t = .ok (defaults, apps)) (hnul : NoNul apps t)
    (operations : List Operation)
    (hwrote : (final (runSuite m operations target) t).manifests =
      (target, manifest) :: t.manifests) :
    Agrees m target defaults apps manifest (final (runSuite m operations target) t) ↔
      ∀ app ∈ apps, stageEnabled m defaults app .build = .ok true := by
  have hran : Ran m target defaults apps t (final (runSuite m operations target) t) :=
    runSuite_ran hspec operations
  exact ⟨Agrees.all_built hash hspec hnul hran hwrote,
    agrees_of_all_built hash hspec hnul hran hwrote⟩

end Agreement

section TwoApps

def defaultStages : Dict :=
  [("fmt", .bool true), ("check", .bool true), ("test", .bool true), ("build", .bool true),
    ("run", .bool false)]

def appA : App := ⟨"examples/a.roc", [("path", .string "examples/a.roc")], rfl⟩

def appB (enabled : Bool) : App :=
  ⟨"examples/b.roc", [("path", .string "examples/b.roc"), ("enabled", .bool enabled)], rfl⟩

def specText (enabled : Bool) : String :=
  "\x7b\"stages\": \x7b\"fmt\": true, \"check\": true, \"test\": true, \"build\": true, " ++
    "\"run\": false\x7d, \"apps\": [\x7b\"path\": \"examples/a.roc\"\x7d, " ++
    "\x7b\"path\": \"examples/b.roc\", \"enabled\": " ++ (if enabled then "true" else "false") ++
    "\x7d]\x7d"

def specValue (enabled : Bool) : Json :=
  .dict [("stages", .dict defaultStages),
    ("apps", .list [.dict appA.fields, .dict (appB enabled).fields])]

def workstation (enabled : Bool) : Machine where
  root := "/repo"
  artifactDir := "/repo/dist/example-binaries"
  system := "linux"
  loads bytes :=
    if bytes = utf8 (specText enabled) then .ok (specValue enabled)
    else .error (.Exception "JSONDecodeError")
  repr _ := "[]"
  hexdigest bytes := String.ofList (bytes.map fun b => Char.ofNat b.toNat)
  updateApps t := (t.source, .ok ())
  command _ t := (.ok (), t.isFile)
  runBinary _ _ _ _ := .ok ()

def checkout (enabled : Bool) : Tree where
  spec := utf8 (specText enabled)
  discovered := {"examples/a.roc", "examples/b.roc"}
  source name :=
    if name = "examples/a.roc" ∨ name = "examples/b.roc" then some (utf8 "platform \"x\"")
    else none
  manifests := []
  targetDir _ := false
  isFile _ := false
  noNul := by decide

variable (enabled : Bool)

theorem hexdigest_injective : Function.Injective (workstation enabled).hexdigest := by
  have htoNat (b : UInt8) : (Char.ofNat b.toNat).toNat = b.toNat := by
    have hvalid : b.toNat.isValidChar := .inl (by have := b.toNat_lt; omega)
    rw [Char.ofNat, dif_pos hvalid]
    rfl
  have hchar : Function.Injective fun b : UInt8 => Char.ofNat b.toNat := fun x y h =>
    UInt8.toNat_inj.mp (by rw [← htoNat x, ← htoNat y]; exact congrArg _ h)
  exact fun _ _ h => List.map_injective_iff.mpr hchar (String.ofList_injective h)

theorem loadSpec_checkout : loadSpec (workstation enabled) (checkout enabled) =
    .ok (defaultStages, [appA, appB enabled]) := by
  have hloads : (workstation enabled).loads (checkout enabled).spec = .ok (specValue enabled) := by
    simp [workstation, checkout]
  simp only [loadSpec, hloads]
  cases enabled <;> rfl

theorem source_checkout : ∀ app ∈ [appA, appB enabled],
    (checkout enabled).source app.path = some (utf8 "platform \"x\"") := by
  simp [checkout, appA, appB]

theorem noNul_checkout : NoNul [appA, appB enabled] (checkout enabled) := by
  intro app happ contents hcontents
  rw [source_checkout enabled app happ] at hcontents
  obtain rfl := Option.some.inj hcontents
  decide

theorem manifest_checkout : ∃ manifest,
    (final (runSuite (workstation enabled) [.build] "x64musl") (checkout enabled)).manifests =
      ("x64musl", manifest) :: (checkout enabled).manifests := by
  let backups := [("examples/a.roc", utf8 "platform \"x\""),
    ("examples/b.roc", utf8 "platform \"x\"")]
  have hbackups : ([appA, appB enabled].mapM fun app => do
      let contents ← (checkout enabled).readBytes app.path
      pure (app.path, contents)) = .ok backups := rfl
  obtain ⟨hash, hhash⟩ : ∃ hash, (sourcesHash (workstation enabled)
      ([appA, appB enabled].map App.path) fun name =>
        expectSome (backups.lookup name) (.Exception "KeyError")) = .ok hash := by
    refine ⟨_, sourcesHash_eq_ok.mpr ⟨fun _ => utf8 "platform \"x\"", ?_, rfl⟩⟩
    simp only [List.map_cons, List.map_nil, Multiset.mem_coe, List.forall_mem_cons,
      List.not_mem_nil, false_imp_iff, implies_true, and_true]
    exact ⟨rfl, rfl⟩
  rw [final, runSuite_loaded (loadSpec_checkout enabled) hbackups hhash]
  cases enabled <;> exact ⟨_, rfl⟩

theorem manifest_agrees_two : ∃ manifest,
    Agrees (workstation true) "x64musl" defaultStages [appA, appB true] manifest
      (final (runSuite (workstation true) [.build] "x64musl") (checkout true)) := by
  obtain ⟨manifest, hwrote⟩ := manifest_checkout true
  refine ⟨manifest, (manifest_agrees (hexdigest_injective true) (loadSpec_checkout true)
    (noNul_checkout true) [.build] hwrote).mpr ?_⟩
  simp only [List.forall_mem_cons, List.not_mem_nil, false_imp_iff, implies_true, and_true]
  exact ⟨rfl, rfl⟩

theorem disabled_app_rejected :
    Function.Injective (workstation false).hexdigest ∧
    loadSpec (workstation false) (checkout false) = .ok (defaultStages, [appA, appB false]) ∧
    NoNul [appA, appB false] (checkout false) ∧
    ∃ manifest,
      (final (runSuite (workstation false) [.build] "x64musl") (checkout false)).manifests =
        ("x64musl", manifest) :: (checkout false).manifests ∧
      ¬Agrees (workstation false) "x64musl" defaultStages [appA, appB false] manifest
        (final (runSuite (workstation false) [.build] "x64musl") (checkout false)) := by
  obtain ⟨manifest, hwrote⟩ := manifest_checkout false
  refine ⟨hexdigest_injective false, loadSpec_checkout false, noNul_checkout false, manifest,
    hwrote, fun hagrees => ?_⟩
  have hon := hagrees.all_built (hexdigest_injective false) (loadSpec_checkout false)
    (noNul_checkout false) (runSuite_ran (loadSpec_checkout false) [.build]) hwrote
    (appB false) (by simp)
  exact absurd hon (by decide)

end TwoApps

end RocTui.Manifest

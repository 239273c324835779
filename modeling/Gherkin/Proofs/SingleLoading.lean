import Gherkin.Proofs.LoadedMetas
import Gherkin.Proofs.Spellings

/-! A meta file is loaded once. Imports are known by their canonical paths, so a file that was
imported is never loaded again. One that was called itself is known by the path it was called with,
and it is passed over only if that equals its canonical path. -/
namespace Gherkin

open EvalM Import FileSystem

variable {σ : Type} {files : FileSystem} {ctx c : Context σ} {p q : Path}

/-- What is in the file at a canonical path that equals this one has its imports loaded. -/
def Closed (files : FileSystem) (ctx : Context σ) (p : Path) : Prop :=
  ∀ q m, IsCanonical q → p.same q = true → Feature.load files q = .ok m →
    ∀ t, Declares files m t → ctx.loaded.contains t = true

theorem closed_persists (files : FileSystem) : Persists (Closed (σ := σ) files) :=
  fun _ _ _ hp hgrows q m hq hs hm t ht => hgrows.loaded t (hp q m hq hs hm t ht)

theorem target_of_normalize {f normal : Feature} {loaded : LoadedPaths} {record : Option Record}
    (h : f.normalize files loaded record = .ok normal) {path : Path} (hpath : path ∈ f.imports) :
    ∃ t, target files f.baseDir path = .ok t := by
  obtain ⟨ms, -, hms, -, -, -⟩ := Feature.normalize_ok h
  obtain ⟨new, -, hadds, -⟩ := resolve_adds hms
  obtain ⟨t, ht, -⟩ := hadds.available path hpath
  exact ⟨t, ht⟩

/-- A call keeps what is loaded closed, and if it succeeds its imports are loaded. -/
theorem closed_call (hfiles : files.Named) {k : Call σ} (hk : k.AsRead files)
    (h : ctx.Loads (Closed files)) :
    (k.exec files ctx).2.Loads (Closed files) ∧
      ∀ r c, k.exec files ctx = (.ok r, c) →
        ∀ q, Declares files k.feature q → c.loaded.contains q = true := by
  have h : Context.Loads (Closed files) { ctx with options := k.options } :=
    h.of_remembers (closed_persists files) ⟨rfl, fun _ _ => id⟩
  refine h.run (closed_persists files) k.action ?_ ?_
  · intro p m n hcan _ hm _ ctx done c himports hr q m' hq hs hm' t ht
    have hgrows := grows_register k.action n ctx
    rw [hr] at hgrows
    rw [← hcan.eq_of_same hq hs] at hm'
    cases hm.symm.trans hm'
    exact hgrows.loaded t (himports t ht)
  · intro p normal r c hmeta hfile hn _ himports q m hq hs hm t ht
    obtain ⟨p', hload⟩ := hk hmeta
    cases hfile.symm.trans (Feature.file_of_load hload)
    -- a relative path equals no canonical one
    have habs : p.isAbsolute = true := by
      obtain ⟨names, -, rfl⟩ := hq
      exact (Path.same_iff.mp hs).1.trans (isAbsolute_absolute names)
    have hname : p.components ≠ [] := by
      intro hnil
      simp [Feature.isMeta, hfile, Path.extension?, Path.fileName?, hnil] at hmeta
    exact himports t (hfiles.declares_of_same habs hname hs hload hm
      (fun path => target_of_normalize hn) ht)

/-- The path of a meta file that was called itself is loaded. -/
theorem contains_of_called {k : Call σ} {r : Feature.Result} (h : k.exec files ctx = (.ok r, c))
    (hmeta : k.feature.isMeta = true) (hp : k.feature.file = some p) :
    c.loaded.contains p = true := by
  obtain ⟨normal, hn, hx⟩ := Feature.run_ok.mp h
  obtain ⟨_, _, _, c₂, -, -, -, rfl⟩ := Feature.evaluate_ends hx
  have hfile := Feature.file_of_normalize hn
  have hnormal : normal.isMeta = true := by rwa [Feature.isMeta, hfile, ← Feature.isMeta]
  simp only [Feature.concluded, hnormal, hfile, hp, if_true, Option.elim_some]
  exact LoadedPaths.contains_insert.mpr (.inr (Path.same_refl p))

/-- What is loaded is not among the meta files of a normal form. -/
theorem file_ne_of_contains {f normal n : Feature} {loaded : LoadedPaths} {record : Option Record}
    (hp : loaded.contains p = true) (h : f.normalize files loaded record = .ok normal)
    (hn : n ∈ normal.metas) : n.file ≠ some p := by
  obtain ⟨ms, -, hms, hns, -, -⟩ := Feature.normalize_ok h
  obtain ⟨new, rfl, hadds, -⟩ := resolve_adds hms
  intro hfile
  obtain ⟨m, hm, hln⟩ := Outcome.exists_of_mem_mapM (Outcome.mapM_eq_ok.mpr hns) hn
  obtain ⟨l, hl, rfl⟩ := List.mem_map.mp hm
  obtain ⟨_, -, hready⟩ := hadds.ordered.ready_of_mem hl
  rw [Feature.file_of_normalizeAlone hln, Feature.file_of_load hready.read] at hfile
  cases hfile
  exact absurd (hp.symm.trans hready.notLoaded) (by simp)

/-- A meta file that was loaded is not loaded again in the same context, however many calls follow:
neither one that a call imported, in whatever way, nor one that was called itself with a path equal
to its canonical path. -/
theorem meta_loaded_once (hfiles : files.Named) (settings : Settings) (options : Options)
    (store : AttachmentStore) (state : σ)
    (hctx : Calls files (fun _ => Call.AsRead files) { settings, options, store, state } ctx)
    {k : Call σ} (hk : k.AsRead files) {r : Feature.Result}
    (h : k.exec files ctx = (.ok r, c)) {m : Path}
    (hm : Reaches files {} k.feature m ∨ ∃ p, k.feature.isMeta = true ∧ k.feature.file = some p ∧
      files.canonical? p = some m ∧ p.same m = true)
    {later : Context σ} (hlater : Calls files (fun _ _ => True) c later) (g : Feature)
    (record : Option Record) {normal : Feature}
    (hg : g.normalize files later.loaded record = .ok normal) :
    ∀ n ∈ normal.metas, n.file ≠ some m := by
  have hclosed : ctx.Loads (Closed files) :=
    hctx.invariant (fun p hp => absurd hp List.not_mem_nil) fun _ _ hk h =>
      (closed_call hfiles hk h).1
  obtain ⟨hafter, himports⟩ := closed_call hfiles hk hclosed
  rw [h] at hafter
  have hloaded : c.loaded.contains m = true := by
    rcases hm with hreach | ⟨p, hmeta, hfile, -, hs⟩
    · refine (Context.contains_of_reaches (fun q hq hc g hg => ?_) (himports r c h) hreach).2
      obtain ⟨p, hp, hs⟩ := List.any_eq_true.mp hc
      exact hafter p hp q g hq hs hg
    · obtain ⟨x, hx, hxp⟩ := List.any_eq_true.mp (contains_of_called h hmeta hfile)
      exact List.any_eq_true.mpr ⟨x, hx, Path.same_trans hxp hs⟩
  exact fun n hn => file_ne_of_contains (hlater.grows.loaded m hloaded) hg hn

/-- A call on a meta file with the path that it was read with. -/
def plainCall (m : Feature) : Call Unit where
  action := Action.builtin
  feature := m

theorem named_sharedFiles : sharedFiles.Named := by
  intro names piece hpiece
  have hstep : piece = "" ∨ piece = "." ∨ piece = ".." := by simpa [isStep, or_assoc] using hpiece
  rw [entryAt?, Entry.at?_concat, Option.bind_eq_none_iff]
  intro e he
  rcases names with _ | ⟨name, _ | ⟨file, names⟩⟩
  · cases he
    rcases hstep with rfl | rfl | rfl <;> rfl
  · simp only [sharedFiles, Entry.at?, Entry.child?, List.lookup_cons, List.lookup_nil] at he
    split at he <;> cases he
    rcases hstep with rfl | rfl | rfl <;> rfl
  · simp only [sharedFiles, Entry.at?, Entry.child?, List.lookup_cons, List.lookup_nil] at he
    split at he
    · simp only [Option.bind_some, List.lookup_cons, List.lookup_nil] at he
      repeat' split at he
      all_goals cases names <;> cases he <;> rfl
    · cases he

/-- The file is called itself by a relative path, and again loaded when a link to it is imported.
From then on it is not loaded a third time, also after a call that fails. -/
theorem meta_loaded_once_shared :
    ∃ m, Feature.load sharedFiles "lib/base.meta" = .ok m ∧
      let ctx := ((plainCall m).exec sharedFiles { state := () }).2
      ∃ r c, (plainCall (greeting "/lib/link.meta")).exec sharedFiles ctx = (.ok r, c) ∧
        let later := ((plainCall sharing).exec sharedFiles c).2
        ∃ normal, (greeting "/lib/more.meta").normalize sharedFiles later.loaded none = .ok normal ∧
          normal.metas.length = 1 ∧ ∀ n ∈ normal.metas, n.file ≠ some "/lib/base.meta" := by
  have hrun : (Feature.load sharedFiles "lib/base.meta").toOption.map (fun m =>
      let first := (plainCall m).exec sharedFiles { state := () }
      let second := (plainCall (greeting "/lib/link.meta")).exec sharedFiles first.2
      second.1.toOption.map fun _ => ((greeting "/lib/more.meta").normalize sharedFiles
        ((plainCall sharing).exec sharedFiles second.2).2.loaded none).toOption.map
          (·.metas.length)) = some (some (some 1)) := by
    decide +kernel
  have hreach : Reaches sharedFiles {} (greeting "/lib/link.meta") "/lib/base.meta" :=
    .direct ⟨"/lib/link.meta", by decide, by decide +kernel⟩ rfl
  obtain ⟨m, hm, hrun⟩ := Outcome.toOption_map_eq_some.mp hrun
  obtain ⟨r, hr, hrun⟩ := Outcome.toOption_map_eq_some.mp hrun
  obtain ⟨normal, hg, hlength⟩ := Outcome.toOption_map_eq_some.mp hrun
  have hctx : Calls sharedFiles (fun _ => Call.AsRead sharedFiles) { state := () }
      ((plainCall m).exec sharedFiles { state := () }).2 :=
    .next .none fun _ => ⟨"lib/base.meta", hm⟩
  have hr : (plainCall (greeting "/lib/link.meta")).exec sharedFiles
      ((plainCall m).exec sharedFiles { state := () }).2 = (.ok r, _) := Prod.ext hr rfl
  refine ⟨m, hm, r, _, hr, normal, hg, hlength, ?_⟩
  exact meta_loaded_once named_sharedFiles {} {} {} () hctx (fun h => by cases h) hr (.inl hreach)
    (.next (k := plainCall sharing) .none trivial) _ _ hg

/-- The path that a meta file is called with is kept as it stands. If it is relative the file is
loaded again when it is imported. -/
theorem relative_meta_loaded_twice :
    ∃ m, Feature.load greetingFiles "greet.meta" = .ok m ∧
      greetingFiles.canonical? "greet.meta" = some "/greet.meta" ∧
      ∃ r c, (plainCall m).exec greetingFiles { state := () } = (.ok r, c) ∧
        ∃ normal, (greeting "greet.meta").normalize greetingFiles c.loaded none = .ok normal ∧
          ∃ n ∈ normal.metas, n.file = some "/greet.meta" := by
  have hrun : (Feature.load greetingFiles "greet.meta").toOption.map (fun m =>
      let first := (plainCall m).exec greetingFiles { state := () }
      first.1.toOption.map fun _ => ((greeting "greet.meta").normalize greetingFiles
        first.2.loaded none).toOption.map (·.metas.map (·.file))) =
          some (some (some [some "/greet.meta"])) := by
    decide +kernel
  obtain ⟨m, hm, hrun⟩ := Outcome.toOption_map_eq_some.mp hrun
  obtain ⟨r, hr, hrun⟩ := Outcome.toOption_map_eq_some.mp hrun
  obtain ⟨normal, hg, hfiles⟩ := Outcome.toOption_map_eq_some.mp hrun
  obtain ⟨n, hn, hfile⟩ := List.map_eq_singleton_iff.mp hfiles
  exact ⟨m, hm, by decide +kernel, r, _, Prod.ext hr rfl, normal, hg, n, by simp [hn], hfile⟩

end Gherkin

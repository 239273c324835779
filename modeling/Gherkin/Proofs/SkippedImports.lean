import Gherkin.Proofs.NormalForm

/-! What is loaded already is passed over. Where all that the loaded files import is loaded too, a
visit comes to what it would come to with nothing loaded, without the loaded files. -/
namespace Gherkin

open Import
open FileSystem (IsCanonical)

variable {files : FileSystem} {loaded : LoadedPaths} {p q : Path}

namespace LoadedPaths

/-- Canonical paths, and among them all that the files at these paths import. -/
structure ImportClosed (files : FileSystem) (loaded : LoadedPaths) : Prop where
  canonical : ∀ p ∈ loaded.paths, IsCanonical p
  closed : ∀ p ∈ loaded.paths, ∀ g, Feature.load files p = .ok g →
    ∀ q, Declares files g q → loaded.contains q = true

theorem contains_of_same (hs : p.same q = true) (hp : loaded.contains p = true) :
    loaded.contains q = true := by
  obtain ⟨x, hx, hxp⟩ := List.any_eq_true.mp hp
  exact List.any_eq_true.mpr ⟨x, hx, Path.same_trans hxp hs⟩

theorem ImportClosed.contains {g : Feature} (h : loaded.ImportClosed files) (hp : IsCanonical p)
    (hc : loaded.contains p = true) (hg : Feature.load files p = .ok g)
    (hq : Declares files g q) : loaded.contains q = true := by
  obtain ⟨x, hx, hs⟩ := List.any_eq_true.mp hc
  obtain rfl := (h.canonical x hx).eq_of_same hp hs
  exact h.closed x hx g hg q hq

end LoadedPaths

namespace Import

variable {chain imports : List Path} {dir : Path} {done done' : List Loaded}
  {r : Except SourceError (List Loaded)} {f : Feature}

/-- The files that are not loaded already. -/
def unloaded (loaded : LoadedPaths) (done : List Loaded) : List Loaded :=
  done.filter fun l => !loaded.contains l.path

theorem unloaded_concat_of_contains {g : Feature} (hq : loaded.contains q = true)
    (done : List Loaded) :
    unloaded loaded (done ++ [{ path := q, feature := g }]) = unloaded loaded done := by
  simp [unloaded, hq]

theorem unloaded_concat_of_not_contains {g : Feature} (hq : loaded.contains q = false)
    (done : List Loaded) : unloaded loaded (done ++ [{ path := q, feature := g }]) =
      unloaded loaded done ++ [{ path := q, feature := g }] := by
  simp [unloaded, hq]

theorem any_same_unloaded (hq : loaded.contains q = false) :
    (unloaded loaded done).any (·.path.same q) = done.any (·.path.same q) := by
  rw [Bool.eq_iff_iff, List.any_eq_true, List.any_eq_true]
  constructor
  · rintro ⟨l, hl, hs⟩
    exact ⟨l, List.mem_of_mem_filter hl, hs⟩
  · rintro ⟨l, hl, hs⟩
    refine ⟨l, List.mem_filter.mpr ⟨hl, ?_⟩, hs⟩
    rw [Bool.not_eq_true', Bool.eq_false_iff]
    intro hc
    simp [LoadedPaths.contains_of_same hs hc] at hq

/-- Imports that are loaded lead to loaded files only. -/
theorem Visits.unloaded_eq (h : Visits files {} chain dir imports done r) (hr : r = .ok done')
    (hclosed : loaded.ImportClosed files)
    (hl : ∀ path ∈ imports, ∀ q, target files dir path = .ok q → loaded.contains q = true) :
    unloaded loaded done' = unloaded loaded done := by
  induction h generalizing done' with
  | nothing => cases hr; rfl
  | invalid | recursive | unreadable | failed => cases hr
  | known _ _ _ _ _ ih => exact ih hr (List.forall_mem_cons.mp hl).2
  | @visited chain dir path rest done q g mid r ht _ hg _ _ ihin ihrest =>
    obtain ⟨hpath, hrest⟩ := List.forall_mem_cons.mp hl
    have hq := hpath q ht
    have hin : unloaded loaded mid = unloaded loaded done := by
      refine ihin rfl fun path hp q' ht' => ?_
      exact hclosed.contains (isCanonical_of_target ht) hq hg ⟨path, hp, ht'⟩
    rw [ihrest hr hrest, unloaded_concat_of_contains hq, hin]

/-- A visit goes the same way where more is loaded, and passes over what is. -/
theorem Visits.skip (h : Visits files {} chain dir imports done r) (hr : r = .ok done')
    (hclosed : loaded.ImportClosed files) :
    Visits files loaded chain dir imports (unloaded loaded done) (.ok (unloaded loaded done')) := by
  induction h generalizing done' with
  | nothing => cases hr; exact .nothing
  | invalid | recursive | unreadable | failed => cases hr
  | @known chain dir path rest done q r ht hc hlength hk _ ih =>
    refine .known ht hc hlength ?_ (ih hr)
    cases hq : loaded.contains q with
    | true => exact .inl rfl
    | false =>
      rw [any_same_unloaded hq]
      exact hk.imp_left fun hnone => absurd hnone Bool.false_ne_true
  | @visited chain dir path rest done q g mid r ht hf hg hin hrest ihin ihrest =>
    cases hq : loaded.contains q with
    | true =>
      -- what the file imports is loaded too, so nothing of its visit is left
      have hmid : unloaded loaded mid = unloaded loaded done := by
        refine hin.unloaded_eq rfl hclosed fun path hp q' ht' => ?_
        exact hclosed.contains (isCanonical_of_target ht) hq hg ⟨path, hp, ht'⟩
      have hnext := ihrest hr
      rw [unloaded_concat_of_contains hq, hmid] at hnext
      exact .known ht hf.offChain hf.shallow (.inl hq) hnext
    | false =>
      have hnext := ihrest hr
      rw [unloaded_concat_of_not_contains hq] at hnext
      have hfresh : Fresh loaded chain (unloaded loaded done) q :=
        ⟨hf.offChain, hf.shallow, hq, (any_same_unloaded hq).trans hf.notDone⟩
      exact .visited ht hfresh hg (ihin rfl) hnext

theorem resolve_skip {ms : List Feature} (h : resolve files {} f = .ok ms)
    (hclosed : loaded.ImportClosed files) :
    resolve files loaded f = .ok (ms.filter fun m => !m.file.any loaded.contains) := by
  obtain ⟨r, hv, hr⟩ := visits_resolve files {} f
  obtain ⟨r', hv', hr'⟩ := visits_resolve files loaded f
  rw [h] at hr
  cases r with
  | error e => cases hr
  | ok done =>
    cases hr
    obtain ⟨_, rfl, ha⟩ := hv.adds rfl (by simp)
    have hfile : ∀ l ∈ done,
        (!l.feature.file.any loaded.contains) = !loaded.contains l.path := by
      intro l hl
      obtain ⟨_, -, hready⟩ := ha.ordered.ready_of_mem hl
      rw [Feature.file_of_load hready.read]
      rfl
    rw [hr', hv'.unique (hv.skip rfl hclosed), List.filter_map]
    exact congrArg (fun ls => Except.ok (ls.map (·.feature))) (List.filter_congr hfile).symm

end Import

namespace Feature

variable {f n : Feature} {record : Option Record}

/-- With files loaded that are closed under imports, a feature has the normal form that it has with
nothing loaded, but for those of its meta files that are loaded; the others keep their order. -/
theorem normalize_skips_loaded (hclosed : loaded.ImportClosed files)
    (h : f.normalize files {} record = .ok n) :
    f.normalize files loaded record =
      .ok { n with metas := n.metas.filter fun m => !m.file.any loaded.contains } := by
  obtain ⟨ms, body, hms, hmetas, hbody, hn⟩ := normalize_ok h
  have hskipped : (ms.filter fun m => !m.file.any loaded.contains).mapM (·.normalizeAlone files) =
      .ok (n.metas.filter fun m => !m.file.any loaded.contains) := by
    rw [Outcome.mapM_eq_ok]
    refine List.rel_filter (fun m n' hm => ?_) hmetas
    have hfile : n'.file = m.file := file_of_normalizeAlone hm
    simp only [hfile]
  rw [normalize, resolve_skip hms hclosed, Outcome.ok_bind, hskipped, hbody, hn]
  rfl

/-- Whatever calls went before, what they loaded can be passed over. -/
theorem importClosed_of_called {σ : Type} {ctx : Context σ} (hlinks : files.LinkFree)
    (h : ctx.Called files) : ctx.loaded.ImportClosed files := by
  refine ⟨fun p hp => (h.metasInPlace hlinks p hp).canonical, fun p hp g hg => ?_⟩
  obtain ⟨m, n, hm, -, himports, -⟩ := (h.metasInPlace hlinks p hp).form
  cases hg.symm.trans hm
  exact himports

theorem importClosed_greeting :
    LoadedPaths.ImportClosed greetingFiles { paths := ["/greet.meta"] } := by
  refine ⟨fun p hp => ?_, fun p hp g hg q hq => ?_⟩
  · have hcanonical : greetingFiles.canonical? "/greet.meta" = some "/greet.meta" := by
      decide +kernel
    rw [List.mem_singleton.mp hp]
    exact FileSystem.isCanonical_canonical? hcanonical
  · rw [List.mem_singleton.mp hp] at hg
    have himports : (Feature.load greetingFiles "/greet.meta").toOption.map (·.imports) =
        some [] := by
      decide +kernel
    rw [hg] at himports
    have hnone : g.imports = [] := Option.some.inj himports
    obtain ⟨path, hpath, -⟩ := hq
    rw [hnone] at hpath
    cases hpath

theorem normalize_skips_loaded_greeting :
    let loaded : LoadedPaths := { paths := ["/greet.meta"] }
    ∃ n, (greeting "/more.meta").normalize greetingFiles {} none = .ok n ∧
      n.metas.map (·.file) = [some "/greet.meta", some "/more.meta"] ∧
      ∃ metas, (greeting "/more.meta").normalize greetingFiles loaded none = .ok { n with metas } ∧
        metas.map (·.file) = [some "/more.meta"] := by
  intro loaded
  have hfiles : ((greeting "/more.meta").normalize greetingFiles {} none).toOption.map (fun n =>
      (n.metas.map (·.file), (n.metas.filter fun m => !m.file.any loaded.contains).map (·.file))) =
      some ([some "/greet.meta", some "/more.meta"], [some "/more.meta"]) := by
    decide +kernel
  obtain ⟨n, hn, hparts⟩ := Outcome.toOption_map_eq_some.mp hfiles
  obtain ⟨hmetas, hskipped⟩ := Prod.mk.inj hparts
  exact ⟨n, hn, hmetas, _, normalize_skips_loaded importClosed_greeting hn, hskipped⟩

/-- What only a loaded file imports is missed if it is not loaded itself. -/
example : ((greeting "/more.meta").normalize greetingFiles { paths := ["/more.meta"] }
    none).toOption.map (·.metas.map (·.file)) = some [] := by
  decide +kernel

end Feature

end Gherkin

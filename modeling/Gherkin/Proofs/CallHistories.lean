import Gherkin.Proofs.ImportOrder
import Gherkin.Proofs.Provenance

/-! Calls on one context, one after another. A call only adds to the loaded paths and to the
registry; so what a loaded path stands for has to be shown once, for the call that adds it. -/
namespace Gherkin

open EvalM Import
open FileSystem (IsCanonical)

variable {σ : Type} {files : FileSystem} {ctx c start : Context σ} {p q : Path}

/-- A call on a feature, and the options under which it is made. -/
structure Call (σ : Type) where
  options : Options := {}
  action : Action σ
  feature : Feature
  record : Option Record := none

/-- The outcome of a call and the context that it leaves. -/
def Call.exec (k : Call σ) (files : FileSystem) (ctx : Context σ) :
    Except EvalError Feature.Result × Context σ :=
  EvalM.exec (k.feature.run k.action files k.record) { ctx with options := k.options }

/-- A meta file is called as it was read. -/
def Call.AsRead (files : FileSystem) (k : Call σ) : Prop :=
  k.feature.isMeta = true → ∃ p, Feature.load files p = .ok k.feature

/-- The contexts to which calls of a kind lead from a given one, whether they succeed or not. -/
inductive Calls (files : FileSystem) (allowed : Context σ → Call σ → Prop) (start : Context σ) :
    Context σ → Prop
  | none : Calls files allowed start start
  | next {ctx : Context σ} {k : Call σ} (h : Calls files allowed start ctx)
      (hk : allowed ctx k) : Calls files allowed start (k.exec files ctx).2

/-- What calls keep holds after any number of them. -/
theorem Calls.invariant {allowed : Context σ → Call σ → Prop} {I : Context σ → Prop}
    (h : Calls files allowed start ctx) (hstart : I start)
    (hcall : ∀ ctx k, allowed ctx k → I ctx → I (k.exec files ctx).2) : I ctx := by
  induction h with
  | none => exact hstart
  | next _ hk ih => exact hcall _ _ hk ih

namespace LoadedPaths

variable {l : LoadedPaths}

theorem contains_insert :
    (l.insert p).contains q = true ↔ l.contains q = true ∨ p.same q = true := by
  unfold insert
  split
  · next hp =>
    obtain ⟨x, hx, hxp⟩ := List.any_eq_true.mp hp
    refine ⟨.inl, fun h => h.elim id fun hpq => ?_⟩
    exact List.any_eq_true.mpr ⟨x, hx, Path.same_trans hxp hpq⟩
  · simp [contains]

theorem mem_insert (h : q ∈ (l.insert p).paths) : q ∈ l.paths ∨ q = p := by
  unfold insert at h
  split at h
  · exact .inl h
  · simpa using h

end LoadedPaths

/-- Loaded paths and registered names may have been added, and none was taken away. -/
structure Grows (ctx c : Context σ) : Prop where
  loaded : ∀ q, ctx.loaded.contains q = true → c.loaded.contains q = true
  carries : ∀ name p, ctx.registry.Carries name p → c.registry.Carries name p

namespace Grows

theorem refl (ctx : Context σ) : Grows ctx ctx := ⟨fun _ => id, fun _ _ => id⟩

theorem trans {a b c : Context σ} (hab : Grows a b) (hbc : Grows b c) : Grows a c :=
  ⟨fun q h => hbc.loaded q (hab.loaded q h),
    fun name p h => hbc.carries name p (hab.carries name p h)⟩

theorem of_remembers (h : Remembers ctx c) : Grows ctx c :=
  ⟨fun _ hq => h.loaded ▸ hq, h.carries⟩

theorem insert (ctx : Context σ) (p : Path) :
    Grows ctx { ctx with loaded := ctx.loaded.insert p } :=
  ⟨fun _ hq => LoadedPaths.contains_insert.mpr (.inl hq), fun _ _ => id⟩

theorem concluded (f : Feature) (ctx : Context σ) : Grows ctx (f.concluded ctx) := by
  unfold Feature.concluded
  split
  · cases f.file with
    | none => exact refl ctx
    | some p => exact insert ctx p
  · exact refl ctx

end Grows

theorem grows_register (action : Action σ) (n : Feature) (ctx : Context σ) :
    Grows ctx (exec (n.register action) ctx).2 := by
  have hscenarios := (remembers_frame action).scenarios false n.scenarios ctx
  rcases hr : exec (n.register action) ctx with ⟨e | done, c⟩
  · rw [Feature.register_error hr]
    exact .of_remembers hscenarios
  · obtain ⟨scenarios, c₁, hs, -, -, rfl⟩ := Feature.register_ok hr
    rw [hs] at hscenarios
    exact (Grows.of_remembers hscenarios).trans (.insert c₁ _)

theorem grows_metas (action : Action σ) (ns : List Feature) (ctx : Context σ) :
    Grows ctx (exec (ns.mapM (Feature.register action)) ctx).2 := by
  induction ns generalizing ctx with
  | nil => exact .refl ctx
  | cons n ns ih =>
    have hn := grows_register action n ctx
    rw [List.mapM_cons, exec_bind]
    rcases hr : exec (n.register action) ctx with ⟨_ | done, c⟩ <;> rw [hr] at hn
    · exact hn
    · dsimp only
      rw [exec_bind_pure]
      exact hn.trans (ih c)

theorem grows_evaluateParts (action : Action σ) (f : Feature) (ctx : Context σ) :
    Grows ctx (exec (f.evaluateParts action) ctx).2 := by
  have hmetas := grows_metas action f.metas ctx
  rw [Feature.evaluateParts, exec_bind]
  rcases hm : exec (f.metas.mapM (Feature.register action)) ctx with ⟨_ | metas, c⟩ <;>
    rw [hm] at hmetas
  · exact hmetas
  · dsimp only
    rw [exec_bind_pure]
    exact hmetas.trans (.of_remembers ((remembers_frame action).scenarios false f.scenarios c))

theorem grows_run (action : Action σ) (files : FileSystem) (f : Feature) (record : Option Record)
    (ctx : Context σ) : Grows ctx (exec (f.run action files record) ctx).2 := by
  rw [Feature.run, exec_get_bind]
  cases f.normalize files ctx.loaded record with
  | error e => exact .refl ctx
  | ok normal =>
    have hparts := grows_evaluateParts action normal ctx
    dsimp only
    rw [Feature.exec_evaluate]
    rcases hp : exec (normal.evaluateParts action) ctx with ⟨_ | parts, c⟩ <;> rw [hp] at hparts
    · exact hparts
    · exact hparts.trans (.concluded normal c)

theorem Grows.call (k : Call σ) (files : FileSystem) (ctx : Context σ) :
    Grows ctx (k.exec files ctx).2 := by
  have hoptions : Grows ctx { ctx with options := k.options } := .of_remembers ⟨rfl, fun _ _ => id⟩
  exact hoptions.trans (grows_run k.action files k.feature k.record _)

/-- No call forgets anything. -/
theorem Calls.grows {allowed : Context σ → Call σ → Prop} (h : Calls files allowed start ctx) :
    Grows start ctx :=
  h.invariant (.refl start) fun ctx k _ hgrows => hgrows.trans (.call k files ctx)

/-- Loaded files whose imports are loaded contain all that they reach. -/
theorem Context.contains_of_reaches {f : Feature}
    (hclosed : ∀ q, IsCanonical q → ctx.loaded.contains q = true → ∀ m,
      Feature.load files q = .ok m → ∀ t, Declares files m t → ctx.loaded.contains t = true)
    (hf : ∀ q, Declares files f q → ctx.loaded.contains q = true)
    (hp : Reaches files {} f p) : IsCanonical p ∧ ctx.loaded.contains p = true := by
  induction hp with
  | direct hd _ => exact ⟨hd.isCanonical, hf _ hd⟩
  | @onward p q g _ hg hd _ ih => exact ⟨hd.isCanonical, hclosed p ih.1 ih.2 g hg q hd⟩

/-- A meaning that a path keeps while paths and names are added. -/
def Persists (P : Context σ → Path → Prop) : Prop :=
  ∀ ctx c p, P ctx p → Grows ctx c → P c p

/-- Every loaded path has this meaning. -/
def Context.Loads (P : Context σ → Path → Prop) (ctx : Context σ) : Prop :=
  ∀ p ∈ ctx.loaded.paths, P ctx p

namespace Context.Loads

variable {P : Context σ → Path → Prop} (hP : Persists P)

include hP

theorem of_remembers (h : ctx.Loads P) (hr : Remembers ctx c) : c.Loads P := by
  intro p hp
  rw [hr.loaded] at hp
  exact hP _ _ _ (h p hp) (.of_remembers hr)

theorem insert (h : ctx.Loads P) (hp : P { ctx with loaded := ctx.loaded.insert p } p) :
    Context.Loads P { ctx with loaded := ctx.loaded.insert p } := by
  intro q hq
  rcases LoadedPaths.mem_insert hq with hq | rfl
  · exact hP _ _ _ (h q hq) (.insert ctx p)
  · exact hp

/-- A meta file gives its path a meaning if it does so by being registered after its imports. -/
theorem register (action : Action σ) {n : Feature} (h : ctx.Loads P)
    (hfile : n.file = some p)
    (hmeaning : ∀ done c, exec (n.register action) ctx = (.ok done, c) → P c p) :
    (exec (n.register action) ctx).2.Loads P ∧
      ∀ done c, exec (n.register action) ctx = (.ok done, c) → c.loaded.contains p = true := by
  have hremembers := (remembers_frame action).scenarios false n.scenarios ctx
  rcases hr : exec (n.register action) ctx with ⟨e | done, c⟩
  · refine ⟨?_, fun done c h => by cases h⟩
    rw [Feature.register_error hr]
    exact h.of_remembers hP hremembers
  · have hp := hmeaning done c hr
    obtain ⟨scenarios, c₁, hs, -, -, rfl⟩ := Feature.register_ok hr
    rw [hs] at hremembers
    rw [hfile] at hp ⊢
    refine ⟨(h.of_remembers hP hremembers).insert hP hp, ?_⟩
    rintro _ _ ⟨⟩
    exact LoadedPaths.contains_insert.mpr (.inr (Path.same_refl p))

/-- Meta files that are registered in order give their paths a meaning, however far that comes. -/
theorem metas (action : Action σ) {loaded : LoadedPaths} {chain before : List Path}
    {new : List Loaded} {ns : List Feature} (ho : Ordered files loaded chain before new)
    (hn : List.Forall₂ (fun l n => l.feature.normalizeAlone files = .ok n) new ns)
    (hmeaning : ∀ l ∈ new, ∀ n, IsCanonical l.path → Feature.load files l.path = .ok l.feature →
      l.feature.normalizeAlone files = .ok n → ∀ ctx done c,
        (∀ q, Declares files l.feature q → ctx.loaded.contains q = true) →
        exec (n.register action) ctx = (.ok done, c) → P c l.path)
    (h : ctx.Loads P)
    (hb : ∀ q, loaded.contains q = true ∨ q ∈ before → ctx.loaded.contains q = true) :
    (exec (ns.mapM (Feature.register action)) ctx).2.Loads P ∧
      ∀ done c, exec (ns.mapM (Feature.register action)) ctx = (.ok done, c) →
        ∀ q, loaded.contains q = true ∨ q ∈ before ++ new.map (·.path) →
          c.loaded.contains q = true := by
  induction hn generalizing ctx before with
  | nil =>
    refine ⟨h, ?_⟩
    rintro _ _ ⟨⟩
    simpa using hb
  | @cons l n new ns hnl _ ih =>
    obtain ⟨hl, ho⟩ := ho
    obtain ⟨hmeaningl, hmeaning⟩ := List.forall_mem_cons.mp hmeaning
    have hfile : n.file = some l.path :=
      (Feature.file_of_normalizeAlone hnl).trans (Feature.file_of_load hl.read)
    have himports : ∀ q, Declares files l.feature q → ctx.loaded.contains q = true :=
      fun q hd => hb q (hl.of_declares hd).2
    obtain ⟨hloads, hloaded⟩ := h.register hP action hfile fun done c =>
      hmeaningl n hl.canonical hl.read hnl ctx done c himports
    have hgrows := grows_register action n ctx
    rw [List.mapM_cons, exec_bind]
    rcases hr : exec (n.register action) ctx with ⟨_ | done, c⟩ <;> rw [hr] at hloads hgrows
    · exact ⟨hloads, fun done c h => by cases h⟩
    · have hb' : ∀ q, loaded.contains q = true ∨ q ∈ before ++ [l.path] →
          c.loaded.contains q = true := by
        intro q hq
        rw [List.mem_append, ← or_assoc] at hq
        rcases hq with hq | hq
        · exact hgrows.loaded q (hb q hq)
        · rw [List.mem_singleton.mp hq]
          exact hloaded done c hr
      obtain ⟨hrest, hall⟩ := ih ho hmeaning hloads hb'
      dsimp only
      rw [exec_bind_pure]
      refine ⟨hrest, fun _ c' h q hq => ?_⟩
      rcases hm : exec (ns.mapM (Feature.register action)) c with ⟨_ | ms, c''⟩
      · simp [hm, Except.map] at h
      · rw [hm] at h
        cases h
        exact hall ms c'' hm q (by simpa using hq)

/-- The meta files of a feature in normal form and then its scenarios, which load nothing. -/
theorem evaluateParts (action : Action σ) {f normal : Feature} {record : Option Record}
    (hn : f.normalize files ctx.loaded record = .ok normal)
    (hmeaning : ∀ p m n, IsCanonical p → Reaches files ctx.loaded f p →
      Feature.load files p = .ok m → m.normalizeAlone files = .ok n → ∀ ctx done c,
        (∀ q, Declares files m q → ctx.loaded.contains q = true) →
        exec (n.register action) ctx = (.ok done, c) → P c p)
    (h : ctx.Loads P) :
    (exec (normal.evaluateParts action) ctx).2.Loads P ∧
      ∀ parts c, exec (normal.evaluateParts action) ctx = (.ok parts, c) →
        ∀ q, Declares files f q → c.loaded.contains q = true := by
  obtain ⟨ms, body, hms, hns, -, -⟩ := Feature.normalize_ok hn
  obtain ⟨new, rfl, hadds, hreach⟩ := resolve_adds hms
  have hmetas := h.metas hP action hadds.ordered (List.forall₂_map_left_iff.mp hns)
    (fun l hl n hcan => hmeaning l.path l.feature n hcan (hreach l hl)) (by simp)
  have hscenarios := (remembers_frame action).scenarios false normal.scenarios
  constructor
  · rw [Feature.evaluateParts, exec_bind]
    rcases hm : exec (normal.metas.mapM (Feature.register action)) ctx with ⟨_ | metas, c₁⟩ <;>
      rw [hm] at hmetas
    · exact hmetas.1
    · dsimp only
      rw [exec_bind_pure]
      exact hmetas.1.of_remembers hP (hscenarios c₁)
  · intro parts c hparts q hq
    obtain ⟨c₁, hm, hs⟩ := Feature.evaluateParts_ok.mp hparts
    have hkeeps := hscenarios c₁
    rw [hs] at hkeeps
    rw [hkeeps.loaded]
    exact hmetas.2 _ _ hm q (hadds.of_declares hq).2

/-- A call gives a meaning to all that it loads if its imports get one by being registered, and the
feature itself, if it is a meta file, by being evaluated. When it succeeds, its imports are
loaded. -/
theorem run (action : Action σ) {f : Feature} {record : Option Record} (h : ctx.Loads P)
    (hmeaning : ∀ p m n, IsCanonical p → Reaches files ctx.loaded f p →
      Feature.load files p = .ok m → m.normalizeAlone files = .ok n → ∀ ctx done c,
        (∀ q, Declares files m q → ctx.loaded.contains q = true) →
        exec (n.register action) ctx = (.ok done, c) → P c p)
    (hroot : ∀ p normal r c, f.isMeta = true → f.file = some p →
      f.normalize files ctx.loaded record = .ok normal →
      exec (normal.evaluate action) ctx = (.ok r, c) →
      (∀ q, Declares files f q → c.loaded.contains q = true) → P c p) :
    (exec (f.run action files record) ctx).2.Loads P ∧
      ∀ r c, exec (f.run action files record) ctx = (.ok r, c) →
        ∀ q, Declares files f q → c.loaded.contains q = true := by
  rw [Feature.run, exec_get_bind]
  cases hn : f.normalize files ctx.loaded record with
  | error e => exact ⟨h, fun r c h => by cases h⟩
  | ok normal =>
    have hparts := h.evaluateParts hP action hn hmeaning
    have hfile := Feature.file_of_normalize hn
    dsimp only
    rw [Feature.exec_evaluate]
    rcases hp : exec (normal.evaluateParts action) ctx with ⟨_ | parts, c⟩ <;> rw [hp] at hparts
    · exact ⟨hparts.1, fun r c h => by cases h⟩
    · obtain ⟨hloads, himports⟩ := hparts
      have hevaluated : exec (normal.evaluate action) ctx =
          (.ok (normal.result ctx.journal.length parts c), normal.concluded c) := by
        rw [Feature.exec_evaluate, hp]
      have hall : ∀ q, Declares files f q → (normal.concluded c).loaded.contains q = true :=
        fun q hq => (Grows.concluded normal c).loaded q (himports parts c rfl q hq)
      dsimp only
      refine ⟨?_, by rintro _ _ ⟨⟩; exact hall⟩
      cases hmeta : f.isMeta with
      | false =>
        have hnormal : normal.isMeta = false := by rwa [Feature.isMeta, hfile, ← Feature.isMeta]
        rwa [Feature.concluded_of_not_meta hnormal]
      | true =>
        obtain ⟨p, hfp, -⟩ := Option.bind_eq_some_iff.mp (beq_iff_eq.mp hmeta)
        have hnormal : normal.isMeta = true := by rwa [Feature.isMeta, hfile, ← Feature.isMeta]
        have hconcluded : normal.concluded c = { c with loaded := c.loaded.insert p } := by
          simp [Feature.concluded, hnormal, hfile, hfp]
        have hmean := hroot p normal _ _ hmeta hfp hn hevaluated hall
        rw [hconcluded] at hmean ⊢
        exact hloads.insert hP hmean

end Context.Loads

end Gherkin

import Gherkin.Proofs.CallHistories
import Gherkin.Proofs.LinkFree

/-! What it means that a meta file is loaded. Whatever calls went before, also calls that failed,
what a loaded file imports is loaded as well, and its step definitions are registered; so a later
call may pass it over. -/
namespace Gherkin

open EvalM Import FileSystem

variable {σ : Type} {files : FileSystem} {ctx c : Context σ} {p q : Path}

/-- The file is a meta file whose imports are loaded and whose step definitions are registered. -/
structure InPlace (files : FileSystem) (ctx : Context σ) (p : Path) : Prop where
  canonical : IsCanonical p
  form : ∃ m n, Feature.load files p = .ok m ∧ m.normalizeAlone files = .ok n ∧
    (∀ q, Declares files m q → ctx.loaded.contains q = true) ∧
    ∀ s ∈ n.scenarios, ctx.registry.Carries s.name p

/-- Every loaded file is in place. -/
def MetasInPlace (files : FileSystem) (ctx : Context σ) : Prop :=
  ∀ p ∈ ctx.loaded.paths, InPlace files ctx p

theorem inPlace_persists (files : FileSystem) :
    Persists (InPlace (σ := σ) files) := by
  rintro ctx c p ⟨hcan, m, n, hm, hn, hi, hs⟩ hgrows
  exact ⟨hcan, m, n, hm, hn, fun q hq => hgrows.loaded q (hi q hq),
    fun s hs' => hgrows.carries _ _ (hs s hs')⟩

namespace MetasInPlace

theorem of_remembers (h : MetasInPlace files ctx) (hr : Remembers ctx c) :
    MetasInPlace files c :=
  Context.Loads.of_remembers (inPlace_persists files) h hr

/-- What is loaded contains all that its files import, also by way of others. -/
theorem contains_of_reaches {f : Feature} (h : MetasInPlace files ctx)
    (hf : ∀ q, Declares files f q → ctx.loaded.contains q = true)
    (hp : Reaches files {} f p) : ctx.loaded.contains p = true ∧ InPlace files ctx p := by
  have hplace : ∀ q, IsCanonical q → ctx.loaded.contains q = true → InPlace files ctx q := by
    intro q hq hc
    obtain ⟨q', hm, hs⟩ := List.any_eq_true.mp hc
    rw [← (h q' hm).canonical.eq_of_same hq hs]
    exact h q' hm
  have hclosed : ∀ q, IsCanonical q → ctx.loaded.contains q = true → ∀ m,
      Feature.load files q = .ok m → ∀ t, Declares files m t → ctx.loaded.contains t = true := by
    intro q hq hc m hm
    obtain ⟨m', n, hm', -, himports, -⟩ := (hplace q hq hc).form
    cases hm.symm.trans hm'
    exact himports
  obtain ⟨hcan, hc⟩ := Context.contains_of_reaches hclosed hf hp
  exact ⟨hc, hplace p hcan hc⟩

end MetasInPlace

/-- A meta file whose imports are loaded is in place once it is registered. -/
theorem inPlace_register (action : Action σ) {m n done : Feature} (hcan : IsCanonical p)
    (hext : p.extension? = some Feature.metaExtension)
    (hm : Feature.load files p = .ok m) (hn : m.normalizeAlone files = .ok n)
    (hi : ∀ q, Declares files m q → ctx.loaded.contains q = true)
    (h : exec (n.register action) ctx = (.ok done, c)) : InPlace files c p := by
  have hgrows := grows_register action n ctx
  rw [h] at hgrows
  obtain ⟨scenarios, c₁, hs, -, -, rfl⟩ := Feature.register_ok h
  have hfile : m.file = some p := Feature.file_of_load hm
  have hmeta : m.isMeta = true := by simp [Feature.isMeta, hfile, hext]
  have hcarries := carries_of_evaluateScenarios
    (Feature.definedIn_of_normalizeAlone hmeta hfile hn) rfl hs
  exact ⟨hcan, m, n, hm, hn, fun q hq => hgrows.loaded q (hi q hq), hcarries⟩

theorem extension?_of_declares {f : Feature} (hlinks : files.LinkFree) (h : Declares files f q) :
    q.extension? = some Feature.metaExtension := by
  obtain ⟨path, _, ht⟩ := h
  obtain ⟨hext, hfile, hc⟩ := target_eq_ok ht
  exact (hlinks.extension?_canonical hfile hc).trans hext

theorem extension?_of_reaches {f : Feature} {loaded : LoadedPaths} (hlinks : files.LinkFree)
    (h : Reaches files loaded f p) : p.extension? = some Feature.metaExtension := by
  cases h with
  | direct hd _ => exact extension?_of_declares hlinks hd
  | onward _ _ hd _ => exact extension?_of_declares hlinks hd

/-- A call on a feature keeps every loaded file in place, and if it succeeds all that the feature
imports is loaded. -/
theorem metasInPlace_run (action : Action σ) {f : Feature} (hlinks : files.LinkFree)
    (hf : f.isMeta = false) (hc : MetasInPlace files ctx) (record : Option Record) :
    MetasInPlace files (exec (f.run action files record) ctx).2 ∧
      ∀ r c, exec (f.run action files record) ctx = (.ok r, c) →
        ∀ q, Declares files f q → c.loaded.contains q = true := by
  refine Context.Loads.run (inPlace_persists files) action hc ?_ ?_
  · intro p m n hcan hreach hm hn ctx done c hi h
    exact inPlace_register action hcan (extension?_of_reaches hlinks hreach) hm hn hi h
  · intro p normal r c hmeta
    simp [hf] at hmeta

/-- The contexts that come about from a fresh one by calls on features, each with options, an action
and a data record of its own, whether they succeed or not. -/
inductive Context.Called (files : FileSystem) : Context σ → Prop
  | fresh (settings options store state) : Called files { settings, options, store, state }
  | call {ctx : Context σ} (h : Called files ctx) (options : Options) (action : Action σ)
      (f : Feature) (hf : f.isMeta = false) (record : Option Record) :
      Called files (exec (f.run action files record) { ctx with options }).2

theorem Context.Called.metasInPlace (hlinks : files.LinkFree) (h : ctx.Called files) :
    MetasInPlace files ctx := by
  induction h with
  | fresh => exact fun p hp => absurd hp List.not_mem_nil
  | @call ctx _ options action f hf record ih =>
    have hc : MetasInPlace files { ctx with options } := ih.of_remembers ⟨rfl, fun _ _ => id⟩
    exact (metasInPlace_run action hlinks hf hc record).1

/-- After any calls the loaded files are closed under imports. After one more that succeeds, the
step definitions of all meta files that its feature reaches are registered under their names and
tell where they come from, no matter which of the files it loaded itself. -/
theorem loaded_metas_complete (hlinks : files.LinkFree) (h : ctx.Called files) :
    (∀ p ∈ ctx.loaded.paths, ∃ m, Feature.load files p = .ok m ∧
      ∀ q, Declares files m q → ctx.loaded.contains q = true) ∧
    ∀ (options : Options) (action : Action σ) (f : Feature) (record : Option Record)
      (r : Feature.Result) (c : Context σ), f.isMeta = false →
      exec (f.run action files record) { ctx with options } = (.ok r, c) →
      ∀ p, Reaches files {} f p →
        ∃ m n, Feature.load files p = .ok m ∧ m.normalizeAlone files = .ok n ∧
          ∀ s ∈ n.scenarios, ∃ t, c.registry.get? s.name = some t ∧
            t.tags.any (·.same (.definedIn p)) = true := by
  have hplaces := h.metasInPlace hlinks
  refine ⟨fun p hp => ?_, fun options action f record r c hf hr p hp => ?_⟩
  · obtain ⟨m, n, hm, -, hi, -⟩ := (hplaces p hp).form
    exact ⟨m, hm, hi⟩
  · have hc : MetasInPlace files { ctx with options } := hplaces.of_remembers ⟨rfl, fun _ _ => id⟩
    obtain ⟨hafter, himports⟩ := metasInPlace_run action hlinks hf hc record
    rw [hr] at hafter
    obtain ⟨m, n, hm, hn, -, hs⟩ := (hafter.contains_of_reaches (himports r c hr) hp).2.form
    exact ⟨m, n, hm, hn, hs⟩

/-- One meta file with a step definition, and one that imports it. -/
def greetingFiles : FileSystem where
  root := .dir [
    ("greet.meta", .file "feature:\n name: G\nscenarios:\n- name: greet".toUTF8),
    ("more.meta", .file "feature:\n name: M\n tags: ['@Import(\"greet.meta\")']".toUTF8)]

def greeting (path : Path) : Feature where
  header := { name := "Greeting", tags := [.imports path] }
  scenarios := [{ name := "Hello", steps := [{ keyword := .given, expression := "greet" }] }]

theorem linkFree_greetingFiles : greetingFiles.LinkFree := by
  rintro (_ | ⟨name, names⟩) path h
  · cases h
  · simp only [greetingFiles, entryAt?, Entry.at?, Entry.child?, List.lookup_cons] at h
    split at h
    · cases names <;> cases h
    · split at h
      · cases names <;> cases h
      · cases h

theorem loaded_metas_complete_greeting :
    let first := (exec ((greeting "/more.meta").run Action.builtin greetingFiles none)
      { state := () }).2
    first.loaded.paths = ["/greet.meta", "/more.meta"] ∧
    ∃ r c, exec ((greeting "/greet.meta").run Action.builtin greetingFiles none)
        { first with options := { failFast := true } } = (.ok r, c) ∧
      ∃ m n, Feature.load greetingFiles "/greet.meta" = .ok m ∧
        m.normalizeAlone greetingFiles = .ok n ∧
        ∀ s ∈ n.scenarios, ∃ t, c.registry.get? s.name = some t ∧
          t.tags.any (·.same (.definedIn "/greet.meta")) = true := by
  intro first
  have hcalled : first.Called greetingFiles := .call (.fresh {} {} {} ()) {} _ _ rfl none
  have hreach : Reaches greetingFiles {} (greeting "/greet.meta") "/greet.meta" :=
    .direct ⟨"/greet.meta", by decide, by decide +kernel⟩ rfl
  have hok : (first.loaded.paths, (exec ((greeting "/greet.meta").run Action.builtin greetingFiles
      none) { first with options := { failFast := true } }).1.toOption.isSome) =
      (["/greet.meta", "/more.meta"], true) := by
    decide +kernel
  obtain ⟨hpaths, hok⟩ := Prod.mk.inj hok
  refine ⟨hpaths, ?_⟩
  rcases hr : exec ((greeting "/greet.meta").run Action.builtin greetingFiles none)
    { first with options := { failFast := true } } with ⟨_ | r, c⟩
  · simp [hr, Except.toOption] at hok
  · exact ⟨r, c, rfl, (loaded_metas_complete linkFree_greetingFiles hcalled).2 _ _ _ _ r c rfl hr
      _ hreach⟩

end Gherkin

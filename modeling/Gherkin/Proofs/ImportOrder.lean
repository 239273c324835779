import Gherkin.Proofs.ImportVisits
import Mathlib.Data.List.Forall2

/-! The order in which imports are loaded. A visit that succeeds adds files behind those done
before: each is new, off the chain and stands after all that it imports. -/
namespace Gherkin.Import

open FileSystem (IsCanonical)

variable {files : FileSystem} {loaded : LoadedPaths} {chain : List Path} {before : List Path}
  {dir path p q : Path} {imports : List Path} {new : List Loaded}

/-- A feature has an import that leads to this path. -/
def Declares (files : FileSystem) (f : Feature) (q : Path) : Prop :=
  ∃ path ∈ f.imports, target files f.baseDir path = .ok q

theorem Declares.isCanonical {f : Feature} (h : Declares files f q) : IsCanonical q := by
  obtain ⟨_, _, ht⟩ := h
  exact isCanonical_of_target ht

/-- The import leads off the chain, to a file that is loaded or one of those before. -/
def Available (files : FileSystem) (loaded : LoadedPaths) (chain before : List Path)
    (dir path : Path) : Prop :=
  ∃ q, target files dir path = .ok q ∧ chain.any (·.same q) = false ∧
    (loaded.contains q = true ∨ q ∈ before)

theorem Available.of_target (h : Available files loaded chain before dir path)
    (ht : target files dir path = .ok q) :
    chain.any (·.same q) = false ∧ (loaded.contains q = true ∨ q ∈ before) := by
  obtain ⟨q', ht', h⟩ := h
  cases ht.symm.trans ht'
  exact h

/-- The file may be loaded next. -/
structure Ready (files : FileSystem) (loaded : LoadedPaths) (chain before : List Path)
    (l : Loaded) : Prop where
  read : Feature.load files l.path = .ok l.feature
  canonical : IsCanonical l.path
  offChain : chain.any (·.same l.path) = false
  notLoaded : loaded.contains l.path = false
  notBefore : l.path ∉ before
  imports : ∀ path ∈ l.feature.imports,
    Available files loaded chain before l.feature.baseDir path

/-- Each file may be loaded when its turn comes. -/
def Ordered (files : FileSystem) (loaded : LoadedPaths) (chain : List Path) :
    (before : List Path) → List Loaded → Prop
  | _, [] => True
  | before, l :: new =>
    Ready files loaded chain before l ∧ Ordered files loaded chain (before ++ [l.path]) new

theorem Available.mono {chain' before' : List Path} (hc : chain' ⊆ chain) (hb : before ⊆ before')
    (h : Available files loaded chain before dir path) :
    Available files loaded chain' before' dir path := by
  obtain ⟨q, ht, hoff, hq⟩ := h
  refine ⟨q, ht, ?_, hq.imp_right (hb ·)⟩
  rw [List.any_eq_false] at *
  exact fun p hp => hoff p (hc hp)

theorem Ready.of_declares {l : Loaded} (h : Ready files loaded chain before l)
    (hd : Declares files l.feature q) :
    chain.any (·.same q) = false ∧ (loaded.contains q = true ∨ q ∈ before) := by
  obtain ⟨path, hp, ht⟩ := hd
  exact (h.imports path hp).of_target ht

theorem Ready.off {chain' : List Path} {l : Loaded} (hc : chain' ⊆ chain)
    (h : Ready files loaded chain before l) : Ready files loaded chain' before l where
  read := h.read
  canonical := h.canonical
  offChain := by
    rw [List.any_eq_false]
    exact fun p hp => List.any_eq_false.mp h.offChain p (hc hp)
  notLoaded := h.notLoaded
  notBefore := h.notBefore
  imports path hp := (h.imports path hp).mono hc (List.Subset.refl _)

namespace Ordered

theorem off {chain' : List Path} (hc : chain' ⊆ chain) (h : Ordered files loaded chain before new) :
    Ordered files loaded chain' before new := by
  induction new generalizing before with
  | nil => trivial
  | cons l new ih => exact ⟨h.1.off hc, ih h.2⟩

theorem append_iff {new' : List Loaded} :
    Ordered files loaded chain before (new ++ new') ↔
      Ordered files loaded chain before new ∧
        Ordered files loaded chain (before ++ new.map (·.path)) new' := by
  induction new generalizing before with
  | nil => simp [Ordered]
  | cons l new ih => simp [Ordered, ih, and_assoc]

/-- Whatever stands in the order was ready after those that stand before it. -/
theorem ready_of_getElem? {l : Loaded} {i : Nat} (h : Ordered files loaded chain before new)
    (hl : new[i]? = some l) :
    Ready files loaded chain (before ++ (new.take i).map (·.path)) l := by
  induction new generalizing before i with
  | nil => cases hl
  | cons l' new ih =>
    cases i with
    | zero =>
      cases hl
      simpa using h.1
    | succ i => simpa using ih h.2 hl

theorem ready_of_mem {l : Loaded} (h : Ordered files loaded chain before new) (hl : l ∈ new) :
    ∃ pre, pre ⊆ new ∧ Ready files loaded chain (before ++ pre.map (·.path)) l := by
  obtain ⟨i, hi⟩ := List.mem_iff_getElem?.mp hl
  exact ⟨new.take i, List.take_subset i new, h.ready_of_getElem? hi⟩

theorem nodup (h : Ordered files loaded chain before new) :
    (new.map (·.path)).Nodup ∧ ∀ p ∈ before, p ∉ new.map (·.path) := by
  induction new generalizing before with
  | nil => simp
  | cons l new ih =>
    obtain ⟨hn, hb⟩ := ih h.2
    rw [List.map_cons, List.nodup_cons]
    refine ⟨⟨hb _ (by simp), hn⟩, fun p hp => ?_⟩
    rw [List.mem_cons, not_or]
    refine ⟨?_, hb p (by simp [hp])⟩
    rintro rfl
    exact h.1.notBefore hp

end Ordered

/-- What visiting imports adds behind the files before. -/
structure Adds (files : FileSystem) (loaded : LoadedPaths) (chain : List Path) (dir : Path)
    (imports before : List Path) (new : List Loaded) : Prop where
  ordered : Ordered files loaded chain before new
  available : ∀ path ∈ imports,
    Available files loaded chain (before ++ new.map (·.path)) dir path

namespace Adds

theorem of_declares {f : Feature} (h : Adds files loaded chain f.baseDir f.imports before new)
    (hd : Declares files f q) :
    chain.any (·.same q) = false ∧ (loaded.contains q = true ∨ q ∈ before ++ new.map (·.path)) := by
  obtain ⟨path, hp, ht⟩ := hd
  exact (h.available path hp).of_target ht

theorem nothing : Adds files loaded chain dir [] before [] :=
  ⟨trivial, by simp⟩

theorem known (ha : Available files loaded chain before dir path)
    (h : Adds files loaded chain dir imports before new) :
    Adds files loaded chain dir (path :: imports) before new where
  ordered := h.ordered
  available := by
    rw [List.forall_mem_cons]
    exact ⟨ha.mono (List.Subset.refl _) (by simp), h.available⟩

theorem visited {g : Feature} {inner outer : List Loaded} (ht : target files dir path = .ok q)
    (hg : Feature.load files q = .ok g) (hoff : chain.any (·.same q) = false)
    (hl : loaded.contains q = false) (hb : q ∉ before)
    (hin : Adds files loaded (q :: chain) g.baseDir g.imports before inner)
    (hrest : Adds files loaded chain dir imports (before ++ inner.map (·.path) ++ [q]) outer) :
    Adds files loaded chain dir (path :: imports) before
      (inner ++ { path := q, feature := g } :: outer) := by
  have hsub : chain ⊆ q :: chain := List.subset_cons_self q chain
  -- nothing among the imports of the new file can be the file itself, which was on their chain
  have hself : q ∉ inner.map (·.path) := by
    intro hm
    obtain ⟨l, hm', rfl⟩ := List.mem_map.mp hm
    obtain ⟨pre, -, hr⟩ := hin.ordered.ready_of_mem hm'
    simpa [Path.same_refl] using hr.offChain
  have hready : Ready files loaded chain (before ++ inner.map (·.path)) ⟨q, g⟩ :=
    ⟨hg, isCanonical_of_target ht, hoff, hl, by simp [hb, hself],
      fun path hp => (hin.available path hp).mono hsub (List.Subset.refl _)⟩
  refine ⟨Ordered.append_iff.mpr ⟨hin.ordered.off hsub, hready, hrest.ordered⟩, ?_⟩
  rw [List.forall_mem_cons]
  refine ⟨⟨q, ht, hoff, .inr (by simp)⟩, fun path hp => ?_⟩
  simpa using hrest.available path hp

end Adds

/-- A visit that succeeds keeps what was done and adds to it in order. -/
theorem Visits.adds {done done' : List Loaded} {r : Except SourceError (List Loaded)}
    (h : Visits files loaded chain dir imports done r) (hr : r = .ok done')
    (hdone : ∀ l ∈ done, IsCanonical l.path) :
    ∃ new, done' = done ++ new ∧
      Adds files loaded chain dir imports (done.map (·.path)) new := by
  induction h generalizing done' with
  | nothing => cases hr; exact ⟨[], by simp, .nothing⟩
  | invalid | recursive | unreadable | failed => cases hr
  | @known chain dir path rest done q r ht hc _ hk _ ih =>
    obtain ⟨new, rfl, ha⟩ := ih hr hdone
    refine ⟨new, rfl, ha.known ⟨q, ht, hc, hk.imp_right fun hk => ?_⟩⟩
    obtain ⟨l, hl, hs⟩ := List.any_eq_true.mp hk
    exact List.mem_map.mpr ⟨l, hl, (hdone l hl).eq_of_same (isCanonical_of_target ht) hs⟩
  | @visited chain dir path rest done q g mid r ht hf hg _ _ ihin ihrest =>
    obtain ⟨inner, rfl, hin⟩ := ihin rfl hdone
    have hmid : ∀ l ∈ done ++ inner ++ [⟨q, g⟩], IsCanonical l.path := by
      simp only [List.mem_append, List.mem_singleton]
      rintro l ((hl | hl) | rfl)
      · exact hdone l hl
      · obtain ⟨_, -, hready⟩ := hin.ordered.ready_of_mem hl
        exact hready.canonical
      · exact isCanonical_of_target ht
    obtain ⟨outer, rfl, hrest⟩ := ihrest hr hmid
    refine ⟨inner ++ ⟨q, g⟩ :: outer, by simp, ?_⟩
    refine .visited ht hg hf.offChain hf.notLoaded (fun hm => ?_) hin (by simpa using hrest)
    obtain ⟨l, hl, rfl⟩ := List.mem_map.mp hm
    exact List.any_eq_false.mp hf.notDone l hl (Path.same_refl _)

/-- What holds of the imports and of all that those files import in turn holds of all that is
done. -/
theorem Visits.closed {P : Path → Prop} {done done' : List Loaded}
    {r : Except SourceError (List Loaded)}
    (hP : ∀ p g q, P p → Feature.load files p = .ok g → Declares files g q →
      loaded.contains q = false → P q)
    (h : Visits files loaded chain dir imports done r) (hr : r = .ok done')
    (himports : ∀ path ∈ imports, ∀ q, target files dir path = .ok q →
      loaded.contains q = false → P q)
    (hdone : ∀ l ∈ done, P l.path) : ∀ l ∈ done', P l.path := by
  induction h generalizing done' with
  | nothing => cases hr; exact hdone
  | invalid | recursive | unreadable | failed => cases hr
  | known _ _ _ _ _ ih => exact ih hr (List.forall_mem_cons.mp himports).2 hdone
  | @visited chain dir path rest done q g mid r ht hf hg _ _ ihin ihrest =>
    obtain ⟨hpath, hrest⟩ := List.forall_mem_cons.mp himports
    have hq : P q := hpath q ht hf.notLoaded
    have hmid : ∀ l ∈ mid, P l.path :=
      ihin rfl (fun path hp q' ht' => hP q g q' hq hg ⟨path, hp, ht'⟩) hdone
    refine ihrest hr hrest fun l hl => ?_
    rcases List.mem_append.mp hl with hl | hl
    · exact hmid l hl
    · rw [List.mem_singleton.mp hl]
      exact hq

/-- A chain of imports leads to this file from a feature, by way of files that are not loaded. -/
inductive Reaches (files : FileSystem) (loaded : LoadedPaths) (f : Feature) : Path → Prop
  | direct {q : Path} (hd : Declares files f q) (hq : loaded.contains q = false) :
      Reaches files loaded f q
  | onward {p q : Path} {g : Feature} (hp : Reaches files loaded f p)
      (hg : Feature.load files p = .ok g)
      (hd : Declares files g q) (hq : loaded.contains q = false) : Reaches files loaded f q

variable {f : Feature}

/-- Behind a feature there is all that it reaches, since its imports are and theirs are. -/
theorem Adds.mem_of_reaches (h : Adds files loaded chain f.baseDir f.imports [] new)
    (hp : Reaches files loaded f p) : p ∈ new.map (·.path) := by
  induction hp with
  | direct hd hq => simpa [hq] using (h.of_declares hd).2
  | onward _ hg hd hq ih =>
    obtain ⟨l, hl, rfl⟩ := List.mem_map.mp ih
    obtain ⟨pre, hsub, hready⟩ := h.ordered.ready_of_mem hl
    cases hg.symm.trans hready.read
    have hbefore := (hready.of_declares hd).2
    simp only [hq, Bool.false_eq_true, List.nil_append, false_or] at hbefore
    exact List.map_subset _ hsub hbefore

theorem resolve_adds {ms : List Feature} (h : resolve files loaded f = .ok ms) :
    ∃ new, ms = new.map (·.feature) ∧
      Adds files loaded [rootPath files f] f.baseDir f.imports [] new ∧
      ∀ l ∈ new, Reaches files loaded f l.path := by
  obtain ⟨r, hv, hr⟩ := visits_resolve files loaded f
  cases r with
  | error e => cases hr.symm.trans h
  | ok done =>
    cases hr.symm.trans h
    obtain ⟨_, rfl, ha⟩ := hv.adds rfl (by simp)
    refine ⟨done, rfl, ha, ?_⟩
    exact hv.closed (fun _ _ _ => .onward) rfl (fun path hp q ht => .direct ⟨path, hp, ht⟩)
      (by simp)

/-- The files that a feature needs beyond those loaded, and what is in them: each file once, and
after all that it imports. -/
structure LoadOrder (files : FileSystem) (loaded : LoadedPaths) (f : Feature) (paths : List Path)
    (ms : List Feature) : Prop where
  read : List.Forall₂ (fun p m => m.file = some p ∧ Feature.load files p = .ok m) paths ms
  nodup : paths.Nodup
  mem_iff : ∀ p, p ∈ paths ↔ Reaches files loaded f p
  earlier : ∀ i m, ms[i]? = some m → ∀ path ∈ m.imports, ∃ q,
    target files m.baseDir path = .ok q ∧ (loaded.contains q = true ∨ q ∈ paths.take i)
  needed : ∀ path ∈ f.imports, ∃ q,
    target files f.baseDir path = .ok q ∧ (loaded.contains q = true ∨ q ∈ paths)

/-- Resolution lists the files needed, without repetition and in topological order. -/
theorem resolve_topological {ms : List Feature} (h : resolve files loaded f = .ok ms) :
    ∃ paths, LoadOrder files loaded f paths ms := by
  obtain ⟨new, rfl, ha, hreach⟩ := resolve_adds h
  have hread : ∀ l ∈ new, Feature.load files l.path = .ok l.feature := fun l hl => by
    obtain ⟨pre, -, hready⟩ := ha.ordered.ready_of_mem hl
    exact hready.read
  refine ⟨new.map (·.path), ?_, ha.ordered.nodup.1, fun p => ⟨fun hp => ?_, ha.mem_of_reaches⟩,
    fun i m hm path hp => ?_, fun path hp => ?_⟩
  · rw [List.forall₂_map_left_iff, List.forall₂_map_right_iff, List.forall₂_same]
    exact fun l hl => ⟨Feature.file_of_load (hread l hl), hread l hl⟩
  · obtain ⟨l, hl, rfl⟩ := List.mem_map.mp hp
    exact hreach l hl
  · rw [List.getElem?_map, Option.map_eq_some_iff] at hm
    obtain ⟨l, hl, rfl⟩ := hm
    obtain ⟨q, ht, -, hk⟩ := (ha.ordered.ready_of_getElem? hl).imports path hp
    exact ⟨q, ht, by simpa using hk⟩
  · obtain ⟨q, ht, -, hk⟩ := ha.available path hp
    exact ⟨q, ht, by simpa using hk⟩

/-- One file imports another by a link to it. -/
def sharedFiles : FileSystem where
  root := .dir [("lib", .dir [
    ("base.meta", .file "feature:\n name: Base".toUTF8),
    ("link.meta", .link "../lib/base.meta"),
    ("more.meta", .file "feature:\n name: More\n tags: ['@Import(\"link.meta\")']".toUTF8),
    ("old.meta", .file .empty)])]

/-- Imports both files, and one that is loaded already. -/
def sharing : Feature where
  header := { name := "Sharing", tags :=
    [.imports "lib/more.meta", .imports "./lib/base.meta", .imports "lib/old.meta"] }
  file := some "/sharing.feature"

theorem resolve_topological_sharing :
    let loaded : LoadedPaths := { paths := ["/lib/old.meta"] }
    ∃ ms paths, resolve sharedFiles loaded sharing = .ok ms ∧
      LoadOrder sharedFiles loaded sharing paths ms ∧
      ms.map (·.file) = [some "/lib/base.meta", some "/lib/more.meta"] := by
  intro loaded
  have hfiles : (resolve sharedFiles loaded sharing).map (List.map (·.file)) =
      .ok [some "/lib/base.meta", some "/lib/more.meta"] := by
    decide +kernel
  cases h : resolve sharedFiles loaded sharing with
  | error e => simp [h, Except.map] at hfiles
  | ok ms =>
    obtain ⟨paths, hpaths⟩ := resolve_topological h
    exact ⟨ms, paths, rfl, hpaths, by simpa [h, Except.map] using hfiles⟩

end Gherkin.Import

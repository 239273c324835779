import Gherkin.Proofs.ImportOrder
import Mathlib.Logic.Relation

/-! Recursive imports. A visit that fails because of one has found a chain of imports that closes or
that is too long; one that succeeds has found no cycle among the files that it loaded. -/
namespace Gherkin.Import

open FileSystem (IsCanonical)
open Relation (ReflTransGen TransGen)

variable {files : FileSystem} {loaded : LoadedPaths} {f : Feature} {chain : List Path}
  {dir a b p q : Path} {imports : List Path}

/-- What a file holds as seen from the root, whose own file counts as holding the root. -/
def contents? (files : FileSystem) (root : Feature) (p : Path) : Option Feature :=
  if (rootPath files root).same p then some root else (Feature.load files p).toOption

/-- One file imports another. -/
def Imports (files : FileSystem) (root : Feature) (p q : Path) : Prop :=
  ∃ g, contents? files root p = some g ∧ Declares files g q

/-- Files of which each imports the one before it, back to the root. -/
inductive IsChain (files : FileSystem) (root : Feature) : List Path → Prop
  | root : IsChain files root [rootPath files root]
  | step {p q : Path} {c : List Path} (hc : IsChain files root (p :: c))
      (hi : Imports files root p q) : IsChain files root (q :: p :: c)

theorem contents?_of_same (h : (rootPath files f).same p = true) :
    contents? files f p = some f := if_pos h

theorem contents?_of_load {g : Feature} (h : (rootPath files f).same p = false)
    (hg : Feature.load files p = .ok g) : contents? files f p = some g := by
  rw [contents?, if_neg (by simp [h]), hg]
  rfl

theorem Imports.isCanonical (h : Imports files f p q) : IsCanonical q := by
  obtain ⟨_, _, hd⟩ := h
  exact hd.isCanonical

/-- A path that stands for the root imports what the root imports. -/
theorem Imports.of_same (hs : (rootPath files f).same p = true)
    (h : Imports files f (rootPath files f) q) : Imports files f p q := by
  obtain ⟨g, hg, hd⟩ := h
  rw [contents?_of_same (Path.same_refl _)] at hg
  exact ⟨g, (contents?_of_same hs).trans hg, hd⟩

namespace IsChain

theorem root_mem (h : IsChain files f chain) : rootPath files f ∈ chain := by
  induction h with
  | root => exact List.mem_singleton_self _
  | step _ _ ih => exact List.mem_cons_of_mem _ ih

theorem eq_root_or_isCanonical (h : IsChain files f chain) (hp : p ∈ chain) :
    p = rootPath files f ∨ IsCanonical p := by
  induction h with
  | root => exact .inl (List.mem_singleton.mp hp)
  | step _ hi ih =>
    rcases List.mem_cons.mp hp with rfl | hp
    · exact .inr hi.isCanonical
    · exact ih hp

/-- The imports go from the root by way of each file to the newest one. -/
theorem reaches {c : List Path} (h : IsChain files f (a :: c)) (hp : p ∈ a :: c) :
    ReflTransGen (Imports files f) (rootPath files f) p ∧ ReflTransGen (Imports files f) p a := by
  generalize hac : a :: c = ac at h hp
  induction h generalizing a c p with
  | root =>
    cases hac
    rw [List.mem_singleton.mp hp]
    exact ⟨.refl, .refl⟩
  | @step p' q c' hc hi ih =>
    cases hac
    rcases List.mem_cons.mp hp with rfl | hp
    · exact ⟨(ih rfl List.mem_cons_self).1.tail hi, .refl⟩
    · exact ⟨(ih rfl hp).1, (ih rfl hp).2.tail hi⟩

/-- A chain closes on a cycle that the root reaches. -/
theorem cycle_of_closes {c : List Path} (h : IsChain files f (a :: c)) (hi : Imports files f a b)
    (hb : (a :: c).any (·.same b) = true) :
    ReflTransGen (Imports files f) (rootPath files f) b ∧ TransGen (Imports files f) b b := by
  obtain ⟨d, hd, hs⟩ := List.any_eq_true.mp hb
  obtain ⟨hroot, hlast⟩ := h.reaches hd
  have hdb : TransGen (Imports files f) d b := .tail' hlast hi
  refine ⟨hroot.trans hdb.to_reflTransGen, ?_⟩
  rcases h.eq_root_or_isCanonical hd with rfl | hcan
  · -- the root may be spelled in its own way, so the cycle starts where the root's imports do
    obtain ⟨x, hx, hxb⟩ := TransGen.head'_iff.mp hdb
    exact .head' (hx.of_same hs) hxb
  · rwa [hcan.eq_of_same hi.isCanonical hs] at hdb

end IsChain

theorem target_ne_recursive {path : Path} :
    target files dir path ≠ .error (.recursiveImport a b) := by
  intro h
  rcases target_eq_error h with h | h | h <;> cases h

theorem load_ne_recursive : Feature.load files p ≠ .error (.recursiveImport a b) := by
  intro h
  rcases Feature.load_eq_error h with h | h <;> cases h

/-- The imports being visited are some of those of the file at the end of the chain. -/
structure Visiting (files : FileSystem) (root : Feature) (chain : List Path) (dir : Path)
    (imports : List Path) : Prop where
  isChain : IsChain files root chain
  length_le : chain.length ≤ maxDepth + 1
  feature : ∃ p c g, chain = p :: c ∧ contents? files root p = some g ∧ dir = g.baseDir ∧
    imports ⊆ g.imports

namespace Visiting

theorem root (files : FileSystem) (f : Feature) :
    Visiting files f [rootPath files f] f.baseDir f.imports :=
  ⟨.root, by simp, _, _, f, rfl, contents?_of_same (Path.same_refl _), rfl, List.Subset.refl _⟩

theorem rest {path : Path} (h : Visiting files f chain dir (path :: imports)) :
    Visiting files f chain dir imports := by
  obtain ⟨hc, hl, p, c, g, hp, hg, hdir, hsub⟩ := h
  exact ⟨hc, hl, p, c, g, hp, hg, hdir, List.subset_of_cons_subset hsub⟩

theorem next {path : Path} (h : Visiting files f chain dir (path :: imports))
    (ht : target files dir path = .ok q) : ∃ p c, chain = p :: c ∧ Imports files f p q := by
  obtain ⟨p, c, g, hp, hg, rfl, hsub⟩ := h.feature
  exact ⟨p, c, hp, g, hg, path, hsub List.mem_cons_self, ht⟩

theorem enter {path : Path} {done : List Loaded} {g : Feature}
    (h : Visiting files f chain dir (path :: imports)) (ht : target files dir path = .ok q)
    (hf : Fresh loaded chain done q) (hg : Feature.load files q = .ok g) :
    Visiting files f (q :: chain) g.baseDir g.imports := by
  have hroot : (rootPath files f).same q = false := by
    simpa using List.any_eq_false.mp hf.offChain _ h.isChain.root_mem
  obtain ⟨p, c, rfl, hi⟩ := h.next ht
  exact ⟨.step h.isChain hi, Nat.succ_le_succ hf.shallow, q, p :: c, g, rfl,
    contents?_of_load hroot hg, rfl, List.Subset.refl _⟩

end Visiting

/-- A visit fails with a recursive import only where the chain closes or is full. -/
theorem Visits.closes_or_full {done : List Loaded} {r : Except SourceError (List Loaded)}
    (h : Visits files loaded chain dir imports done r) (hr : r = .error (.recursiveImport a b))
    (hv : Visiting files f chain dir imports) :
    Imports files f a b ∧ ∃ c, IsChain files f (a :: c) ∧
      ((a :: c).any (·.same b) = true ∨ c.length = maxDepth) := by
  induction h with
  | nothing => cases hr
  | invalid ht => cases hr; exact absurd ht target_ne_recursive
  | recursive ht hq =>
    obtain ⟨p, c, rfl, hi⟩ := hv.next ht
    cases hr
    refine ⟨hi, c, hv.isChain, hq.imp_right fun hdeep => ?_⟩
    exact Nat.le_antisymm (Nat.le_of_succ_le_succ hv.length_le) (Nat.le_of_lt_succ hdeep)
  | known _ _ _ _ _ ih => exact ih hr hv.rest
  | unreadable _ _ hg => cases hr; exact absurd hg load_ne_recursive
  | failed ht hf hg _ ih => exact ih hr (hv.enter ht hf hg)
  | visited _ _ _ _ _ _ ihrest => exact ihrest hr hv.rest

/-- With neither a cycle nor a long chain there is nothing for a visit to fail with. -/
theorem not_closes_nor_full
    (hacyclic : ∀ p, ReflTransGen (Imports files f) (rootPath files f) p →
      ¬ TransGen (Imports files f) p p)
    (hshort : ∀ c, IsChain files f c → c.length ≤ maxDepth + 1)
    (hi : Imports files f a b) {c : List Path} (hc : IsChain files f (a :: c)) :
    ¬ ((a :: c).any (·.same b) = true ∨ c.length = maxDepth) := by
  rintro (hb | hfull)
  · obtain ⟨hreach, hcycle⟩ := hc.cycle_of_closes hi hb
    exact hacyclic b hreach hcycle
  · have hlong := hshort _ (hc.step hi)
    simp only [List.length_cons] at hlong
    omega

/-- One of the files of a resolution: the root, however it is spelled, or one that was loaded. -/
def Within (files : FileSystem) (root : Feature) (ms : List Feature) (p : Path) : Prop :=
  (rootPath files root).same p = true ∨ ∃ m ∈ ms, m.file = some p

/-- One of these files imports another of them. -/
def ImportsWithin (files : FileSystem) (root : Feature) (ms : List Feature) (p q : Path) : Prop :=
  Imports files root p q ∧ Within files root ms p ∧ Within files root ms q

/-- The place of a file in the order of loading, where the root comes last. -/
inductive StandsAt (files : FileSystem) (root : Feature) (new : List Loaded) : Path → Nat → Prop
  | last {p : Path} (h : (rootPath files root).same p = true) :
      StandsAt files root new p new.length
  | loaded {l : Loaded} {i : Nat} (h : new[i]? = some l) : StandsAt files root new l.path i

section Acyclic

variable {new : List Loaded} {i : Nat}

theorem root_or_mem_of_within (ho : Ordered files loaded [rootPath files f] [] new)
    (h : Within files f (new.map (·.feature)) p) :
    (rootPath files f).same p = true ∨ ∃ l ∈ new, l.path = p := by
  refine h.imp_right ?_
  rintro ⟨m, hm, hfile⟩
  obtain ⟨l, hl, rfl⟩ := List.mem_map.mp hm
  obtain ⟨_, -, hready⟩ := ho.ready_of_mem hl
  rw [Feature.file_of_load hready.read] at hfile
  exact ⟨l, hl, Option.some.inj hfile⟩

theorem exists_standsAt (ho : Ordered files loaded [rootPath files f] [] new)
    (h : Within files f (new.map (·.feature)) p) : ∃ i, StandsAt files f new p i := by
  rcases root_or_mem_of_within ho h with hroot | ⟨l, hl, rfl⟩
  · exact ⟨_, .last hroot⟩
  · obtain ⟨i, hi⟩ := List.mem_iff_getElem?.mp hl
    exact ⟨i, .loaded hi⟩

theorem standsAt_of_mem_take (ho : Ordered files loaded [rootPath files f] [] new)
    (hoff : [rootPath files f].any (·.same q) = false)
    (hk : loaded.contains q = true ∨ q ∈ (new.take i).map (·.path))
    (hq : Within files f (new.map (·.feature)) q) : ∃ j < i, StandsAt files f new q j := by
  rcases root_or_mem_of_within ho hq with hroot | ⟨l, hl, rfl⟩
  · simp [hroot] at hoff
  obtain ⟨_, -, hready⟩ := ho.ready_of_mem hl
  simp only [hready.notLoaded, Bool.false_eq_true, false_or] at hk
  obtain ⟨l', hl', hpath⟩ := List.mem_map.mp hk
  obtain ⟨j, hj⟩ := List.mem_iff_getElem?.mp hl'
  rw [List.getElem?_take] at hj
  split at hj
  · next hlt => exact ⟨j, hlt, hpath ▸ .loaded hj⟩
  · cases hj

/-- Imports lead to files that stand before the one that has them. -/
theorem standsAt_of_imports
    (ha : Adds files loaded [rootPath files f] f.baseDir f.imports [] new)
    (hp : StandsAt files f new p i) (h : ImportsWithin files f (new.map (·.feature)) p q) :
    ∃ j < i, StandsAt files f new q j := by
  obtain ⟨⟨g, hg, hd⟩, -, hq⟩ := h
  cases hp with
  | last hroot =>
    cases hg.symm.trans (contents?_of_same hroot)
    obtain ⟨hoff, hk⟩ := ha.of_declares hd
    exact standsAt_of_mem_take ha.ordered hoff (by simpa using hk) hq
  | @loaded l i hl =>
    have hready := ha.ordered.ready_of_getElem? hl
    have hroot : (rootPath files f).same l.path = false := by simpa using hready.offChain
    cases hg.symm.trans (contents?_of_load hroot hready.read)
    obtain ⟨hoff, hk⟩ := hready.of_declares hd
    exact standsAt_of_mem_take ha.ordered hoff hk hq

/-- A way along imports only goes forward in the order, so it does not come back. -/
theorem not_cycle_of_standsAt
    (ha : Adds files loaded [rootPath files f] f.baseDir f.imports [] new)
    (hp : StandsAt files f new p i) :
    ¬ TransGen (ImportsWithin files f (new.map (·.feature))) p p := by
  induction i using Nat.strongRecOn generalizing p with
  | ind i ih =>
    intro hcycle
    have hback : ∀ q, TransGen (ImportsWithin files f (new.map (·.feature))) p q →
        ∃ j < i, StandsAt files f new q j := by
      intro q hq
      induction hq with
      | single h => exact standsAt_of_imports ha hp h
      | tail _ h ihq =>
        obtain ⟨j, hj, hs⟩ := ihq
        obtain ⟨k, hk, hs⟩ := standsAt_of_imports ha hs h
        exact ⟨k, Nat.lt_trans hk hj, hs⟩
    obtain ⟨j, hj, hs⟩ := hback p hcycle
    exact ih j hj hs hcycle

end Acyclic

/-- Resolution comes to an end by the rules of visiting. Where it succeeds there is no cycle among
the root and the files that it loaded; where it reports a recursive import, there is that import,
behind a chain on which it closes or which holds all the files that it may; and without a cycle or
an overlong chain in reach of the root it reports none. -/
theorem recursion_detected (files : FileSystem) (loaded : LoadedPaths) (f : Feature) :
    (∃ r, (∀ r', Visits files loaded [rootPath files f] f.baseDir f.imports [] r' ↔ r' = r) ∧
      resolve files loaded f = r.map fun done => done.map (·.feature)) ∧
    (∀ ms, resolve files loaded f = .ok ms → ∀ p, ¬ TransGen (ImportsWithin files f ms) p p) ∧
    (∀ a b, resolve files loaded f = .error (.recursiveImport a b) →
      Imports files f a b ∧ ∃ c, IsChain files f (a :: c) ∧
        ((a :: c).any (·.same b) = true ∨ c.length = maxDepth)) ∧
    ((∀ p, ReflTransGen (Imports files f) (rootPath files f) p →
        ¬ TransGen (Imports files f) p p) →
      (∀ c, IsChain files f c → c.length ≤ maxDepth + 1) →
      ∀ a b, resolve files loaded f ≠ .error (.recursiveImport a b)) := by
  obtain ⟨r, hv, hr⟩ := visits_resolve files loaded f
  have hdetected : ∀ a b, resolve files loaded f = .error (.recursiveImport a b) →
      Imports files f a b ∧ ∃ c, IsChain files f (a :: c) ∧
        ((a :: c).any (·.same b) = true ∨ c.length = maxDepth) := by
    intro a b h
    cases r with
    | error e =>
      cases hr.symm.trans h
      exact hv.closes_or_full rfl (.root files f)
    | ok done => cases hr.symm.trans h
  refine ⟨⟨r, fun r' => ⟨fun hv' => hv'.unique hv, fun h => h ▸ hv⟩, hr⟩,
    fun ms h p hcycle => ?_, hdetected, fun hacyclic hshort a b h => ?_⟩
  · obtain ⟨new, rfl, ha, -⟩ := resolve_adds h
    obtain ⟨_, hfirst, -⟩ := TransGen.head'_iff.mp hcycle
    obtain ⟨i, hi⟩ := exists_standsAt ha.ordered hfirst.2.1
    exact not_cycle_of_standsAt ha hi hcycle
  · obtain ⟨hi, c, hc, hclosed⟩ := hdetected a b h
    exact not_closes_nor_full hacyclic hshort hi hc hclosed

/-- A file that imports itself, by another spelling of its path. -/
def loopFiles : FileSystem where
  root := .dir [
    ("loop.meta", .file "feature:\n name: Loop\n tags: ['@Import(\"./loop.meta\")']".toUTF8)]

def looping : Feature where
  header := { name := "Looping", tags := [.imports "loop.meta"] }
  file := some "/looping.feature"

theorem recursion_detected_loop :
    resolve loopFiles {} looping = .error (.recursiveImport "/loop.meta" "/loop.meta") ∧
      Imports loopFiles looping "/loop.meta" "/loop.meta" ∧
      ∃ c, IsChain loopFiles looping ("/loop.meta" :: c) ∧
        (("/loop.meta" :: c).any (Path.same · "/loop.meta") = true ∨ c.length = maxDepth) := by
  have h : (resolve loopFiles {} looping).map (fun _ => ()) =
      .error (.recursiveImport "/loop.meta" "/loop.meta") := by
    decide +kernel
  cases hr : resolve loopFiles {} looping with
  | ok ms => simp [hr, Except.map] at h
  | error e =>
    simp only [hr, Except.map, Except.error.injEq] at h
    subst h
    exact ⟨rfl, (recursion_detected loopFiles {} looping).2.2.1 _ _ hr⟩

end Gherkin.Import

import Gherkin.FileSystem
import Gherkin.Proofs.Outcomes

/-! Canonical paths. Whatever leads to an entry has one canonical spelling, made of plain names, so
canonical paths are equal as paths only if they are the same text. -/
namespace Gherkin

namespace Path

/-- A name that stands for an entry of its directory. -/
structure IsName (name : String) : Prop where
  ne_empty : name ≠ ""
  ne_here : name ≠ "."
  ne_up : name ≠ ".."
  unbroken : '/' ∉ name.toList

theorem pieces_ne_nil {p : Path} : p.pieces ≠ [] := by
  rw [pieces, ne_eq, List.map_eq_nil_iff]
  exact Text.pieces_ne_nil _ _

theorem unbroken_of_mem_pieces {p : Path} {piece : String} (h : piece ∈ p.pieces) :
    '/' ∉ piece.toList := by
  obtain ⟨cs, hcs, rfl⟩ := List.mem_map.mp h
  rw [String.toList_ofList]
  exact Text.not_mem_of_mem_pieces hcs

theorem pieces_append_slash (p q : Path) : (p ++ "/" ++ q).pieces = p.pieces ++ q.pieces := by
  have hslash : "/".toList = ['/'] := rfl
  rw [pieces, String.toList_append, String.toList_append, hslash, List.append_assoc,
    List.singleton_append, Text.pieces_append, List.map_append]
  rfl

theorem pieces_intercalate {ps : List String} (hne : ps ≠ []) (h : ∀ x ∈ ps, '/' ∉ x.toList) :
    pieces ("/".intercalate ps) = ps := by
  have hslash : "/".toList = ['/'] := rfl
  have hunbroken : ∀ cs ∈ ps.map String.toList, '/' ∉ cs := by
    rintro _ hm
    obtain ⟨x, hx, rfl⟩ := List.mem_map.mp hm
    exact h x hx
  rw [pieces, String.toList_intercalate, hslash, Text.pieces_intercalate (by simpa) hunbroken]
  simp

theorem same_refl (p : Path) : p.same p = true := by simp [same]

theorem same_iff {p q : Path} :
    p.same q = true ↔ p.isAbsolute = q.isAbsolute ∧ p.components = q.components := by
  simp [same]

theorem same_trans {p q r : Path} (h : p.same q = true) (h' : q.same r = true) :
    p.same r = true := by
  rw [same_iff] at *
  exact ⟨h.1.trans h'.1, h.2.trans h'.2⟩

theorem components_of_isAbsolute {p : Path} (h : p.isAbsolute = true) :
    p.components = p.pieces.filter fun piece => piece != "" && piece != "." := by
  have hf : (fun x : String × Nat => isComponent true x.2 x.1) =
      (fun piece => piece != "" && piece != ".") ∘ Prod.fst := by
    funext x
    simp [isComponent]
  calc p.components = (p.pieces.zipIdx.filter
          ((fun piece => piece != "" && piece != ".") ∘ Prod.fst)).map Prod.fst := by
        rw [← hf, components, h]
    _ = p.pieces.filter fun piece => piece != "" && piece != "." := by
        rw [← List.filter_map, List.zipIdx_map_fst]

end Path

namespace FileSystem

open Gherkin.Path

variable {fs : FileSystem} {names : List String} {p q : Path}

theorem isAbsolute_absolute (names : List String) : (absolute names).isAbsolute = true := by
  rw [Path.isAbsolute, String.startsWith_string_iff, absolute, String.toList_append]
  exact List.prefix_append _ _

theorem pieces_absolute (h : ∀ name ∈ names, IsName name) (hne : names ≠ []) :
    (absolute names).pieces = "" :: names := by
  have hpieces := pieces_append_slash "" ("/".intercalate names)
  rw [String.empty_append, pieces_intercalate hne fun name hm => (h name hm).unbroken] at hpieces
  exact hpieces

theorem components_absolute (h : ∀ name ∈ names, IsName name) :
    (absolute names).components = names := by
  cases names with
  | nil => decide +kernel
  | cons name names =>
    rw [components_of_isAbsolute (isAbsolute_absolute _), pieces_absolute h (List.cons_ne_nil _ _),
      List.filter_cons_of_neg (by decide), List.filter_eq_self]
    intro name hm
    simp [(h name hm).ne_empty, (h name hm).ne_here]

/-- A path spelled from the root with plain names. -/
def IsCanonical (p : Path) : Prop :=
  ∃ names, (∀ name ∈ names, IsName name) ∧ p = absolute names

theorem IsCanonical.eq_of_same (hp : IsCanonical p) (hq : IsCanonical q)
    (h : p.same q = true) : p = q := by
  obtain ⟨names, hn, rfl⟩ := hp
  obtain ⟨names', hn', rfl⟩ := hq
  have hc := (same_iff.mp h).2
  rw [components_absolute hn, components_absolute hn'] at hc
  rw [hc]

theorem isName_of_follow {piece : String} {names' : List String}
    (hn : ∀ name ∈ names, IsName name) (hp : '/' ∉ piece.toList)
    (h : fs.follow names piece = .ok names') : ∀ name ∈ names', IsName name := by
  simp only [follow] at h
  split at h
  · split at h
    · cases h
      exact hn
    · next hstep =>
      split at h
      · cases h
        rw [List.dropLast_eq_take]
        exact fun name hm => hn name (List.mem_of_mem_take hm)
      · next hup =>
        split at h
        · cases h
        · split at h
          · cases h
            intro name hm
            rcases List.mem_append.mp hm with hm | hm
            · exact hn name hm
            · obtain rfl := List.mem_singleton.mp hm
              simp only [Bool.or_eq_true, beq_iff_eq, not_or] at hstep
              exact ⟨hstep.1, hstep.2, by simpa using hup, hp⟩
          · cases h
  · cases h
  · cases h

/-- Ways made of such pieces stay among plain names. -/
def Plain (names pieces : List String) : Prop :=
  (∀ name ∈ names, IsName name) ∧ ∀ piece ∈ pieces, '/' ∉ piece.toList

theorem plain_walk {jump : List String → List String → Except Fault (List String × String)}
    (hj : ∀ names pieces dir last, Plain names pieces → jump names pieces = .ok (dir, last) →
      Plain dir [last])
    {pieces : List String} {dir : List String} {last : String} (hp : Plain names pieces)
    (h : fs.walk jump names pieces = .ok (dir, last)) : Plain dir [last] := by
  induction pieces generalizing names with
  | nil => cases h
  | cons piece pieces ih =>
    obtain ⟨hnames, hpieces⟩ := hp
    obtain ⟨hpiece, hrest⟩ := List.forall_mem_cons.mp hpieces
    rw [walk] at h
    split at h
    · next path _ =>
      split at h
      · cases h
      · split at h
        · cases h
        · refine hj _ _ _ _ ⟨?_, ?_⟩ h
          · split
            · simp
            · exact hnames
          · intro x hx
            rcases List.mem_append.mp hx with hx | hx
            · exact unbroken_of_mem_pieces hx
            · exact hrest x hx
    · split at h
      · cases h
        exact ⟨hnames, by simpa using hpiece⟩
      · obtain ⟨next, hf, h⟩ := Outcome.bind_eq_ok.mp h
        exact ih ⟨isName_of_follow hnames hpiece hf, hrest⟩ h

theorem plain_approach {links : Nat} {pieces dir : List String} {last : String}
    (hp : Plain names pieces) (h : fs.approach links names pieces = .ok (dir, last)) :
    Plain dir [last] := by
  induction links generalizing names pieces dir last with
  | zero => exact plain_walk (by rintro _ _ _ _ _ ⟨⟩) hp h
  | succ links ih => exact plain_walk (fun _ _ _ _ => ih) hp h

theorem isName_of_locate (h : fs.locate p = .ok names) : ∀ name ∈ names, IsName name := by
  rw [locate] at h
  split at h
  · cases h
  · split at h
    · cases h
    · rw [arrive] at h
      have hway : Plain [] (fs.fromRoot p p.pieces) := by
        refine ⟨by simp, fun piece hm => ?_⟩
        rw [fromRoot] at hm
        split at hm
        · exact unbroken_of_mem_pieces hm
        · rcases List.mem_append.mp hm with hm | hm <;> exact unbroken_of_mem_pieces hm
      obtain ⟨⟨dir, last⟩, ha, h⟩ := Outcome.bind_eq_ok.mp h
      obtain ⟨hdir, hlast⟩ := plain_approach hway ha
      exact isName_of_follow hdir (hlast _ (List.mem_singleton_self _)) h

theorem isCanonical_canonical? (h : fs.canonical? p = some q) : IsCanonical q := by
  rw [canonical?] at h
  split at h
  · next names hl =>
    cases h
    exact ⟨names, isName_of_locate hl, rfl⟩
  · cases h

end FileSystem

end Gherkin

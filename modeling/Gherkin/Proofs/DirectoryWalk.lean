import Gherkin.Proofs.WritableDirectory
import Mathlib.Data.List.Nodup
import Mathlib.Data.String.Basic

/-! Walking through a directory tree. A walk comes to every entry once, to a directory before what
is in it, and to the entries of a directory in the order of their names. So it goes up in the order
in which ways from the root are compared name by name, and so do the files on it. -/
namespace Gherkin.Entry

open Gherkin.Path

variable {name : String} {names : List String} {e child x : Entry}
  {entries : List (String × Entry)}

mutual

/-- Below the entry, what is in one directory has different names. -/
def WellNamed : Entry → Prop
  | file _ => True
  | dir entries => (entries.map (·.1)).Nodup ∧ WellNamedEach entries
  | link _ => True

def WellNamedEach : List (String × Entry) → Prop
  | [] => True
  | (name, e) :: rest => IsName name ∧ WellNamed e ∧ WellNamedEach rest

end

mutual

/-- The entries to which a walk comes, each with the names that lead to it. -/
def walk : Entry → List (List String × Entry)
  | file content => [([], file content)]
  | dir entries =>
    ([], dir entries) :: ((walkEach entries).mergeSort fun a b => a.1 ≤ b.1).flatMap
      fun (name, found) => found.map fun (names, e) => (name :: names, e)
  | link path => [([], link path)]

def walkEach : List (String × Entry) → List (String × List (List String × Entry))
  | [] => []
  | (name, e) :: rest => (name, walk e) :: walkEach rest

end

/-- The entries of a directory in the order of their names. -/
def inOrder (entries : List (String × Entry)) : List (String × Entry) :=
  entries.mergeSort fun a b => a.1 ≤ b.1

/-- The way and the content, if the walk has come to a file. -/
def fileOn? : List String × Entry → Option (List String × ByteArray)
  | (names, file content) => some (names, content)
  | _ => none

theorem induction {P : Entry → Prop} (file : ∀ content, P (file content))
    (dir : ∀ entries, (∀ x ∈ entries, P x.2) → P (dir entries)) (link : ∀ path, P (link path)) :
    ∀ e, P e :=
  @Entry.rec P (fun entries => ∀ x ∈ entries, P x.2) (fun x => P x.2) file dir link
    (by simp) (fun _ _ hx hxs => List.forall_mem_cons.mpr ⟨hx, hxs⟩) (fun _ _ he => he)

theorem wellNamedEach_iff :
    WellNamedEach entries ↔ ∀ x ∈ entries, IsName x.1 ∧ x.2.WellNamed := by
  induction entries with
  | nil => simp [WellNamedEach]
  | cons x entries ih => rw [WellNamedEach, ih, List.forall_mem_cons, and_assoc]

theorem wellNamed_dir : (dir entries).WellNamed ↔
    (entries.map (·.1)).Nodup ∧ ∀ x ∈ entries, IsName x.1 ∧ x.2.WellNamed := by
  rw [WellNamed, wellNamedEach_iff]

theorem walkEach_eq (entries : List (String × Entry)) :
    walkEach entries = entries.map fun x => (x.1, x.2.walk) := by
  induction entries with
  | nil => rfl
  | cons x entries ih => rw [walkEach, ih, List.map_cons]

theorem filesOfEach_eq (entries : List (String × Entry)) :
    filesOfEach entries = entries.map fun x => (x.1, x.2.filesBelow) := by
  induction entries with
  | nil => rfl
  | cons x entries ih => rw [filesOfEach, ih, List.map_cons]

theorem inOrder_map {α : Type} (f : Entry → α) (entries : List (String × Entry)) :
    (entries.map fun x => (x.1, f x.2)).mergeSort (fun a b => a.1 ≤ b.1) =
      (inOrder entries).map fun x => (x.1, f x.2) := by
  rw [inOrder, List.map_mergeSort]
  exact fun _ _ _ _ => rfl

theorem walk_dir (entries : List (String × Entry)) :
    (dir entries).walk = ([], dir entries) :: (inOrder entries).flatMap fun x =>
      x.2.walk.map fun y => (x.1 :: y.1, y.2) := by
  rw [walk, walkEach_eq, inOrder_map, List.flatMap_map]

theorem filesBelow_dir (entries : List (String × Entry)) :
    (dir entries).filesBelow = (inOrder entries).flatMap fun x =>
      x.2.filesBelow.map fun y => (x.1 :: y.1, y.2) := by
  rw [filesBelow, filesOfEach_eq, inOrder_map, List.flatMap_map]

theorem mem_inOrder {y : String × Entry} : y ∈ inOrder entries ↔ y ∈ entries :=
  List.mem_mergeSort

/-- The files below an entry are those on a walk. -/
theorem filesBelow_eq (e : Entry) : e.filesBelow = e.walk.filterMap fileOn? := by
  induction e using induction with
  | file content => rfl
  | link path => rfl
  | dir entries ih =>
    have hhere : fileOn? ([], dir entries) = none := rfl
    rw [filesBelow_dir, walk_dir, List.filterMap_cons_none hhere, List.filterMap_flatMap]
    refine List.flatMap_congr fun x hx => ?_
    rw [ih x (mem_inOrder.mp hx), List.filterMap_map, List.map_filterMap]
    refine List.filterMap_congr fun ⟨names, e⟩ _ => ?_
    cases e <;> rfl

theorem mem_iff_lookup (h : (entries.map (·.1)).Nodup) :
    (name, e) ∈ entries ↔ entries.lookup name = some e := by
  induction entries with
  | nil => simp
  | cons x entries ih =>
    obtain ⟨hx, hentries⟩ := List.nodup_cons.mp h
    rw [List.mem_cons, ih hentries, lookup_cons]
    split
    · next heq =>
      subst heq
      have hlater : entries.lookup x.1 ≠ some e := fun hlater =>
        hx (List.mem_map.mpr ⟨_, (ih hentries).mpr hlater, rfl⟩)
      simp [hlater, Prod.ext_iff, eq_comm]
    · next hne => simp [hne, Prod.ext_iff]

/-- A walk comes to what some names lead to, and to nothing else. -/
theorem mem_walk (h : e.WellNamed) : (names, x) ∈ e.walk ↔ e.at? names = some x := by
  induction names generalizing e with
  | nil => 
    cases e with
    | file | link => simp [walk, at?, eq_comm]
    | dir entries => simp [walk_dir, at?, eq_comm]
  | cons name names ih =>
    cases e with
    | file | link => simp [walk, at?, child?]
    | dir entries =>
      obtain ⟨hnodup, heach⟩ := wellNamed_dir.mp h
      have hmem : (name :: names, x) ∈ (dir entries).walk ↔
          ∃ child, (name, child) ∈ entries ∧ (names, x) ∈ child.walk := by
        simp [walk_dir, mem_inOrder]
      rw [hmem, at?, child?, Option.bind_eq_some_iff]
      refine exists_congr fun child => ?_
      rw [mem_iff_lookup hnodup]
      refine and_congr_right fun hchild => ih (heach _ ((mem_iff_lookup hnodup).mpr hchild)).2

theorem mem_filesBelow {content : ByteArray} (h : e.WellNamed) :
    (names, content) ∈ e.filesBelow ↔ e.at? names = some (file content) := by
  rw [filesBelow_eq, List.mem_filterMap, ← mem_walk h]
  constructor
  · rintro ⟨⟨names', x⟩, hx, hfile⟩
    cases x <;> cases hfile
    exact hx
  · exact fun hx => ⟨_, hx, rfl⟩

/-- What is below an entry has real names on the way to it, and below it as well. -/
theorem WellNamed.at? (h : e.WellNamed) (hx : e.at? names = some x) :
    (∀ name ∈ names, IsName name) ∧ x.WellNamed := by
  induction names generalizing e with
  | nil =>
    cases hx
    exact ⟨by simp, h⟩
  | cons name names ih =>
    obtain ⟨child, hchild, hbelow⟩ := Option.bind_eq_some_iff.mp hx
    cases e with
    | file | link => cases hchild
    | dir entries =>
      obtain ⟨hnodup, heach⟩ := wellNamed_dir.mp h
      obtain ⟨hname, hwell⟩ := heach _ ((mem_iff_lookup hnodup).mpr hchild)
      obtain ⟨hnames, hx⟩ := ih hwell hbelow
      exact ⟨List.forall_mem_cons.mpr ⟨hname, hnames⟩, hx⟩

theorem pairwise_inOrder (h : (entries.map (·.1)).Nodup) :
    (inOrder entries).Pairwise fun a b => a.1 < b.1 := by
  have hsorted : (inOrder entries).Pairwise fun a b => decide (a.1 ≤ b.1) = true := by
    refine List.pairwise_mergeSort (fun a b c hab hbc => ?_) (fun a b => ?_) entries
    · simp only [decide_eq_true_eq] at hab hbc ⊢
      exact String.le_trans hab hbc
    · simpa using String.le_total a.1 b.1
  have hnodup : ((inOrder entries).map (·.1)).Nodup :=
    ((List.mergeSort_perm entries _).map _).nodup_iff.mpr h
  have hdistinct : (inOrder entries).Pairwise fun a b => a.1 ≠ b.1 := List.pairwise_map.mp hnodup
  refine (hsorted.and hdistinct).imp fun ⟨hle, hne⟩ => ?_
  exact lt_of_le_of_ne (of_decide_eq_true hle) hne

/-- The ways on a walk go up when they are compared name by name. -/
theorem pairwise_walk (h : e.WellNamed) : (e.walk.map (·.1)).Pairwise (· < ·) := by
  induction e using induction with
  | file content => simp [walk]
  | link path => simp [walk]
  | dir entries ih =>
    obtain ⟨hnodup, heach⟩ := wellNamed_dir.mp h
    rw [walk_dir, List.map_cons, List.map_flatMap, List.pairwise_cons, List.pairwise_flatMap]
    refine ⟨?_, fun x hx => ?_, (pairwise_inOrder hnodup).imp fun {a b} hab => ?_⟩
    -- the directory itself comes before all that is in it
    · simp only [List.mem_flatMap, List.mem_map]
      rintro _ ⟨x, -, _, ⟨y, -, rfl⟩, rfl⟩
      exact List.nil_lt_cons x.1 y.1
    -- two ways through one entry differ behind its name
    · have hx := mem_inOrder.mp hx
      have hbelow := ih x hx (heach x hx).2
      rw [List.map_map, List.pairwise_map]
      exact (List.pairwise_map.mp hbelow).imp fun hlt => List.cons_lt_cons_self.mpr hlt
    -- ways through different entries differ in the name of the entry
    · simp only [List.mem_map]
      rintro _ ⟨_, ⟨y, -, rfl⟩, rfl⟩ _ ⟨_, ⟨z, -, rfl⟩, rfl⟩
      exact List.Lex.rel hab

theorem pairwise_filesBelow (h : e.WellNamed) : (e.filesBelow.map (·.1)).Pairwise (· < ·) := by
  rw [filesBelow_eq, List.pairwise_map, List.pairwise_filterMap]
  refine (List.pairwise_map.mp (pairwise_walk h)).imp ?_
  rintro ⟨names, x⟩ ⟨names', x'⟩ hlt _ hx _ hx'
  cases x <;> cases hx
  cases x' <;> cases hx'
  exact hlt

end Gherkin.Entry

import Gherkin.Proofs.Spellings
import Gherkin.Proofs.WritableDirectory
import Mathlib.Data.List.TakeWhile

/-! Paths joined from a directory and names. However the directory is spelled, a name adds one
component, which is the file name. Its extension is what stands behind the last dot, and what is in
front of that dot has no separator either. -/
namespace Gherkin.Path

variable {dir p q : Path} {x name : String} {names : List String}

/-- The pieces that count, of a path that is absolute or not. -/
def counted (absolute : Bool) (ps : List String) : List String :=
  (ps.zipIdx.filter fun (piece, i) => isComponent absolute i piece).map (·.1)

theorem components_eq (p : Path) : p.components = counted p.isAbsolute p.pieces := rfl

theorem counted_concat (absolute : Bool) (ps : List String) {piece : String} (h : piece ≠ ".") :
    counted absolute (ps ++ [piece]) = counted absolute ps ++ [piece].filter (· != "") := by
  rw [counted, List.zipIdx_append, List.filter_append, List.map_append, ← counted]
  by_cases hp : piece = "" <;> simp [isComponent, hp, h]

theorem isAbsolute_iff_head? : p.isAbsolute = true ↔ p.toList.head? = some '/' := by
  have hslash : "/".toList = ['/'] := rfl
  rw [isAbsolute, String.startsWith_string_iff, hslash]
  cases p.toList <;> simp [eq_comm]

theorem isAbsolute_append_of_ne_empty (q : Path) (hp : p ≠ "") :
    (p ++ q).isAbsolute = p.isAbsolute := by
  have hne : p.toList ≠ [] := by simpa using hp
  rw [Bool.eq_iff_iff, isAbsolute_iff_head?, isAbsolute_iff_head?, String.toList_append,
    List.head?_append_of_ne_nil _ hne]

theorem IsName.isAbsolute_eq_false (h : IsName x) : isAbsolute x = false := by
  rw [Bool.eq_false_iff, ne_eq, isAbsolute_iff_head?]
  exact fun hx => h.unbroken (List.mem_of_mem_head? hx)

/-- A name joined to a directory is one more component. -/
theorem IsName.join (h : IsName x) (dir : Path) :
    (dir.join x).isAbsolute = dir.isAbsolute ∧ (dir.join x).components = dir.components ++ [x] := by
  have hx : [x].filter (· != "") = [x] := by simp [h.ne_empty]
  have hpieces := pieces_of_unbroken h.unbroken
  have hlast (absolute : Bool) (ps : List String) :
      counted absolute (ps ++ [x]) = counted absolute ps ++ [x] := by
    rw [counted_concat absolute ps h.ne_here, hx]
  by_cases hempty : dir = ""
  · subst hempty
    have hjoin : Path.join "" x = x := by simp [Path.join]
    have habs : isAbsolute "" = false := rfl
    have hcomponents : components "" = [] := rfl
    rw [hjoin, h.isAbsolute_eq_false, components_eq, h.isAbsolute_eq_false, hpieces, hcomponents]
    exact ⟨habs.symm, hlast false []⟩
  · rw [Path.join, if_neg (by simp [h.isAbsolute_eq_false, hempty])]
    split
    · next hslash =>
      obtain ⟨init, rfl⟩ := exists_of_endsWith hslash
      have hdir : (init ++ "/" : Path).pieces = init.pieces ++ [""] := by
        have h := pieces_append_slash init ""
        rwa [String.append_empty] at h
      refine ⟨isAbsolute_append_of_ne_empty x hempty, ?_⟩
      rw [components_eq, isAbsolute_append_of_ne_empty x hempty, pieces_append_slash, hpieces,
        hlast, components_eq (init ++ "/"), hdir, counted_concat _ _ (by decide)]
      simp
    · have habs : (dir ++ "/" ++ x : Path).isAbsolute = dir.isAbsolute := by
        rw [String.append_assoc, isAbsolute_append_of_ne_empty _ hempty]
      refine ⟨habs, ?_⟩
      rw [components_eq, habs, pieces_append_slash, hpieces, hlast, components_eq dir]

theorem IsName.fileName?_join (h : IsName x) (dir : Path) : (dir.join x).fileName? = some x := by
  simp [fileName?, (h.join dir).2, h.ne_here, h.ne_up]

/-- Names joined to a directory one after the other are its last components. -/
theorem join_names (h : ∀ name ∈ names, IsName name) (dir : Path) :
    (names.foldl Path.join dir).isAbsolute = dir.isAbsolute ∧
      (names.foldl Path.join dir).components = dir.components ++ names := by
  induction names generalizing dir with
  | nil => simp
  | cons name names ih =>
    obtain ⟨hname, h⟩ := List.forall_mem_cons.mp h
    obtain ⟨habs, hcomponents⟩ := hname.join dir
    rw [List.foldl_cons, (ih h _).1, (ih h _).2, habs, hcomponents, List.append_assoc]
    exact ⟨rfl, rfl⟩

theorem exists_last_dot (h : '.' ∈ name.toList) :
    ∃ stem ext : String, name = stem ++ "." ++ ext ∧ '.' ∉ ext.toList := by
  obtain ⟨as, bs, heq, hfresh⟩ := List.eq_append_cons_of_mem (List.mem_reverse.mpr h)
  refine ⟨String.ofList bs.reverse, String.ofList as.reverse, String.ext ?_, by simpa using hfresh⟩
  have hdot : ".".toList = ['.'] := rfl
  rw [← List.reverse_reverse name.toList, heq]
  simp [hdot]

/-- A name is cut at its last dot, unless that is its beginning. -/
theorem splitExtension_append {stem ext : String} (hext : '.' ∉ ext.toList)
    (hup : stem ++ "." ++ ext ≠ "..") :
    splitExtension (stem ++ "." ++ ext) =
      if stem = "" then (stem ++ "." ++ ext, none) else (stem, some ext) := by
  have hdot : ".".toList = ['.'] := rfl
  have hafter : (stem ++ "." ++ ext).toList.reverse.takeWhile (· != '.') = ext.toList.reverse := by
    rw [String.toList_append, String.toList_append, hdot, List.reverse_append,
      List.takeWhile_append_of_pos (by simpa using fun c hc => ne_of_mem_of_not_mem hc hext)]
    simp
  have hlength : (stem ++ "." ++ ext).toList.length - ext.toList.length - 1 =
      stem.toList.length := by
    simp
    omega
  have hbefore : (stem ++ "." ++ ext).toList.take stem.toList.length = stem.toList := by
    rw [String.append_assoc, String.toList_append, List.take_left]
  simp only [splitExtension, hafter, List.reverse_reverse, hlength, hbefore]
  simp [hup]

theorem splitExtension_of_no_dot (h : '.' ∉ name.toList) : (splitExtension name).2 = none := by
  have hafter : name.toList.reverse.takeWhile (· != '.') = name.toList.reverse := by
    rw [List.takeWhile_eq_self_iff]
    simpa using fun c hc => ne_of_mem_of_not_mem hc h
  simp [splitExtension, hafter]

/-- A name has an extension if something stands before its last dot, except for `..`. -/
theorem splitExtension_eq_some_iff {ext : String} (hname : name ≠ "..") :
    (splitExtension name).2 = some ext ↔
      ∃ stem, stem ≠ "" ∧ name = stem ++ "." ++ ext ∧ '.' ∉ ext.toList := by
  constructor
  · intro h
    by_cases hdot : '.' ∈ name.toList
    · obtain ⟨stem, last, rfl, hlast⟩ := exists_last_dot hdot
      rw [splitExtension_append hlast hname] at h
      split at h <;> cases h
      next hstem => exact ⟨stem, hstem, rfl, hlast⟩
    · rw [splitExtension_of_no_dot hdot] at h
      cases h
  · rintro ⟨stem, hstem, rfl, hext⟩
    rw [splitExtension_append hext hname, if_neg hstem]

theorem unbroken_of_fileName? (h : p.fileName? = some name) : '/' ∉ name.toList := by
  unfold fileName? at h
  split at h
  · cases h
  · next hlast =>
    split at h <;> cases h
    have hmem : name ∈ p.components := List.mem_of_getLast? hlast
    obtain ⟨⟨piece, i⟩, hpiece, rfl⟩ := List.mem_map.mp hmem
    exact unbroken_of_mem_pieces (List.fst_mem_of_mem_zipIdx (List.mem_filter.mp hpiece).1)

theorem splitExtension_subset (name : String) :
    (splitExtension name).1.toList ⊆ name.toList := by
  unfold splitExtension
  dsimp only
  split
  · exact List.Subset.refl _
  · rw [String.toList_ofList]
    exact List.take_subset _ _

theorem unbroken_of_fileStem? (h : p.fileStem? = some name) : '/' ∉ name.toList := by
  obtain ⟨file, hfile, rfl⟩ := Option.map_eq_some_iff.mp h
  exact fun hm => unbroken_of_fileName? hfile (splitExtension_subset file hm)

end Gherkin.Path

import Gherkin.AttachmentStore
import Gherkin.Proofs.LinkFree

/-! Directories in which files can be written. One that holds nothing but files takes another file
under any name that fits, whatever is in it, and still holds nothing but files. -/
namespace Gherkin

namespace Entry

variable {name : String} {names rest : List String} {e old : Entry}
  {entries : List (String × Entry)}

theorem lookup_cons (name other : String) (e : Entry) (entries : List (String × Entry)) :
    List.lookup other ((name, e) :: entries) =
      if other = name then some e else entries.lookup other := by
  by_cases h : other = name
  · simp [h]
  · rw [List.lookup_cons, beq_eq_false_iff_ne.mpr h, if_neg h]

theorem lookup_assign (name other : String) (e : Entry) (entries : List (String × Entry)) :
    (assign name e entries).lookup other =
      if other = name then some e else entries.lookup other := by
  induction entries with
  | nil => exact lookup_cons name other e []
  | cons x xs ih =>
    rcases x with ⟨key, value⟩
    by_cases hk : key = name
    · simp only [assign, hk, beq_self_eq_true, if_true, lookup_cons]
      split <;> rfl
    · rw [assign, if_neg (by simpa using hk), lookup_cons, lookup_cons, ih]
      split
      · next ho => rw [if_neg fun hn => hk (ho.symm.trans hn)]
      · rfl

/-- What leads on to a directory is a directory. -/
theorem exists_dir_of_append (h : at? (names ++ rest) e = some (.dir entries)) :
    ∃ above, at? names e = some (.dir above) := by
  induction names generalizing e with
  | nil =>
    cases rest with
    | nil => exact ⟨entries, h⟩
    | cons n rest =>
      obtain ⟨child, hchild, -⟩ := Option.bind_eq_some_iff.mp h
      cases e with
      | dir above => exact ⟨above, rfl⟩
      | file | link => cases hchild
  | cons n names ih =>
    obtain ⟨child, hchild, h⟩ := Option.bind_eq_some_iff.mp h
    obtain ⟨above, ha⟩ := ih h
    exact ⟨above, Option.bind_eq_some_iff.mpr ⟨child, hchild, ha⟩⟩

theorem lookup_of_at?_concat (h : at? (names ++ [name]) e = some old) :
    ∃ above, at? names e = some (.dir above) ∧ above.lookup name = some old := by
  rw [at?_concat, Option.bind_eq_some_iff] at h
  obtain ⟨parent, hp, hc⟩ := h
  cases parent with
  | dir above => exact ⟨above, hp, hc⟩
  | file | link => cases hc

/-- An entry placed in a directory is the only one there that is new. -/
theorem at?_place (e : Entry) (name : String) (h : at? names old = some (.dir entries)) :
    at? names (place e (names ++ [name]) old) = some (.dir (assign name e entries)) := by
  induction names generalizing old with
  | nil =>
    cases h
    rfl
  | cons n names ih =>
    rw [at?, Option.bind_eq_some_iff] at h
    obtain ⟨child, hchild, h⟩ := h
    cases old with
    | dir siblings =>
      have hlookup : siblings.lookup n = some child := hchild
      rw [List.cons_append, place, at?, child?, lookup_assign, if_pos rfl, hlookup]
      exact ih h
    | file | link => cases hchild

end Entry

theorem Path.pieces_of_unbroken {name : String} (h : '/' ∉ name.toList) :
    Path.pieces name = [name] := by
  have hp := pieces_intercalate (List.cons_ne_nil name []) (by simpa using h)
  rwa [String.intercalate_singleton] at hp

namespace FileSystem

open Gherkin.Path

variable {fs : FileSystem} {dir : Path} {names pieces : List String} {x : String}
  {entries : List (String × Entry)}

instance (name : String) : Decidable (IsName name) :=
  decidable_of_iff (name ≠ "" ∧ name ≠ "." ∧ name ≠ ".." ∧ '/' ∉ name.toList)
    ⟨fun h => ⟨h.1, h.2.1, h.2.2.1, h.2.2.2⟩, fun h => ⟨h.1, h.2, h.3, h.4⟩⟩

/-- A name that may stand in a path. -/
def Fits (name : String) : Prop := IsName name ∧ name.utf8ByteSize ≤ nameLimit

instance (name : String) : Decidable (Fits name) := inferInstanceAs (Decidable (_ ∧ _))

theorem link?_of_dir (h : fs.entryAt? names = some (.dir entries)) : fs.link? names = none := by
  simp only [link?, h]

theorem follow_of_lookup {e : Entry} (hd : fs.entryAt? names = some (.dir entries))
    (hx : Fits x) (he : entries.lookup x = some e) : fs.follow names x = .ok (names ++ [x]) := by
  obtain ⟨hname, hsize⟩ := hx
  simp [follow, hd, hname.ne_empty, hname.ne_here, hname.ne_up, Nat.not_lt.mpr hsize, he]

/-- Plain names that lead to a directory are followed one by one. -/
theorem walk_names {jump : List String → List String → Except Fault (List String × String)}
    (hd : fs.entryAt? (names ++ pieces) = some (.dir entries)) (hp : ∀ piece ∈ pieces, Fits piece)
    (hx : fs.link? (names ++ pieces ++ [x]) = none) :
    fs.walk jump names (pieces ++ [x]) = .ok (names ++ pieces, x) := by
  induction pieces generalizing names with
  | nil =>
    rw [List.append_nil] at hx ⊢
    simp [walk, hx]
  | cons piece pieces ih =>
    obtain ⟨hpiece, hp⟩ := List.forall_mem_cons.mp hp
    rw [List.append_cons names piece pieces] at hd hx ⊢
    obtain ⟨inner, hinner⟩ := Entry.exists_dir_of_append hd
    obtain ⟨above, habove, hlookup⟩ := Entry.lookup_of_at?_concat hinner
    have hmore : (pieces ++ [x]).isEmpty = false := by simp
    rw [List.cons_append, walk, link?_of_dir hinner]
    simp only [hmore, Bool.false_eq_true, if_false, follow_of_lookup habove hpiece hlookup]
    exact ih hd hp hx

/-- A directory that holds nothing but files, and the names that lead to it from the root. -/
structure HoldsFiles (fs : FileSystem) (dir : Path) (names : List String) : Prop where
  spelled : dir = absolute names
  below : names ≠ []
  fits : ∀ name ∈ names, Fits name
  closed : dir.endsWith "/" = false
  usable : isUsable dir = true
  root : fs.link? [""] = none
  files : ∃ entries, fs.entryAt? names = some (.dir entries) ∧
    ∀ x e, entries.lookup x = some e → e.isFile = true

/-- However many links may be followed, a way is walked piece by piece. -/
theorem approach_names {links : Nat} (hroot : fs.link? [""] = none)
    (hd : fs.entryAt? names = some (.dir entries)) (hn : ∀ name ∈ names, Fits name)
    (hx : fs.link? (names ++ [x]) = none) :
    fs.approach links [] ("" :: (names ++ [x])) = .ok (names, x) := by
  have hwalk : ∀ jump, fs.walk jump [] ("" :: (names ++ [x])) = .ok (names, x) := by
    intro jump
    obtain ⟨above, habove⟩ : ∃ above, Entry.at? [] fs.root = some (.dir above) :=
      Entry.exists_dir_of_append hd
    have hhere : fs.follow [] "" = .ok [] := by
      simp only [follow, entryAt?, habove]
      rfl
    have hmore : (names ++ [x]).isEmpty = false := by simp
    rw [walk, List.nil_append, hroot]
    simp only [hmore, Bool.false_eq_true, if_false, hhere]
    exact walk_names hd hn hx
  cases links <;> exact hwalk _

theorem arrive_names (hroot : fs.link? [""] = none)
    (hd : fs.entryAt? names = some (.dir entries)) (hn : ∀ name ∈ names, Fits name) :
    fs.arrive ("" :: names) = .ok names := by
  rcases List.eq_nil_or_concat names with rfl | ⟨init, last, rfl⟩
  · have hwalk : ∀ jump, fs.walk jump [] [""] = .ok ([], "") := by
      intro jump
      rw [walk, List.nil_append, hroot]
      rfl
    have happroach : fs.approach maxLinks [] [""] = .ok ([], "") := hwalk _
    rw [arrive, happroach, Outcome.ok_bind]
    simp only [follow, hd]
    rfl
  · rw [List.concat_eq_append] at hd hn ⊢
    obtain ⟨above, habove, hlookup⟩ := Entry.lookup_of_at?_concat hd
    rw [arrive, approach_names hroot habove (fun name hm => hn name (List.mem_append_left _ hm))
      (link?_of_dir hd), Outcome.ok_bind]
    exact follow_of_lookup habove (hn last (by simp)) hlookup

namespace HoldsFiles

variable (h : fs.HoldsFiles dir names)

include h

theorem pieces_eq : dir.pieces = "" :: names := by
  rw [h.spelled]
  exact pieces_absolute (fun name hn => (h.fits name hn).1) h.below

theorem isAbsolute : dir.isAbsolute = true := by
  rw [h.spelled]
  exact isAbsolute_absolute names

theorem ne_empty : dir ≠ "" := by
  intro he
  have hp := h.pieces_eq
  rw [he] at hp
  have hnames : names = [] := (List.cons.inj (hp.symm.trans (by decide : Path.pieces "" = [""]))).2
  exact h.below hnames

theorem isDir : fs.isDir dir = true := by
  obtain ⟨entries, hd, -⟩ := h.files
  have hl : fs.locate dir = .ok names := by
    rw [locate, if_neg (by simpa using h.ne_empty), if_neg (by simp [h.usable]), fromRoot,
      if_pos h.isAbsolute, h.pieces_eq]
    exact arrive_names h.root hd h.fits
  rw [FileSystem.isDir, entry?, hl]
  simp only [hd]
  rfl

/-- It cannot be made, since it is there. -/
theorem makeDir_eq : fs.makeDir dir = .error .blocked := by
  obtain ⟨entries, hd, -⟩ := h.files
  obtain ⟨init, last, rfl⟩ := (List.eq_nil_or_concat names).resolve_left h.below
  rw [List.concat_eq_append] at hd
  obtain ⟨above, habove, -⟩ := Entry.lookup_of_at?_concat hd
  have hfits := h.fits
  simp only [List.concat_eq_append, List.forall_mem_append, List.forall_mem_singleton] at hfits
  have hpieces : (dir.pieces.reverse.dropWhile (· == "")).reverse = "" :: (init ++ [last]) := by
    rw [h.pieces_eq, List.concat_eq_append, ← List.cons_append, List.reverse_append]
    simp [hfits.2.1.ne_empty]
  have hlast : ("" :: (init ++ [last])).getLast? = some last := by
    rw [← List.cons_append, List.getLast?_concat]
  have hinit : ("" :: (init ++ [last])).dropLast = "" :: init := by
    rw [← List.cons_append, List.dropLast_concat]
  have hne : (dir == "") = false := by simpa using h.ne_empty
  simp only [makeDir, hpieces, hne, h.usable, hlast, hinit, fromRoot, h.isAbsolute, Bool.not_true,
    Bool.false_eq_true, if_false, if_true, arrive_names h.root habove hfits.1, Outcome.ok_bind, hd]
  simp

theorem makeDirs?_eq : fs.makeDirs? dir = some fs := by
  have hne : (dir == "") = false := by simpa using h.ne_empty
  unfold makeDirs? makeDirsWithin
  simp only [hne, h.makeDir_eq, h.isDir, Bool.false_eq_true, if_false, if_true]

theorem join_eq (hx : Fits x) : dir.join x = dir ++ "/" ++ x := by
  have hrelative : Path.isAbsolute x = false := by
    rw [Bool.eq_false_iff, Path.isAbsolute, ne_eq, String.startsWith_string_iff]
    exact fun hp => hx.1.unbroken (hp.subset (by simp))
  rw [join, hrelative, Bool.false_or, if_neg (by simpa using h.ne_empty), h.closed]
  rfl

/-- What is placed below stands under a name, so nothing changes where there is none. -/
theorem root_placed (below : List String) (e : Entry) :
    (fs.placed (names ++ below) e).link? [""] = none := by
  obtain ⟨entries, hd, -⟩ := h.files
  obtain ⟨top, htop⟩ : ∃ top, Entry.at? [] fs.root = some (.dir top) :=
    Entry.exists_dir_of_append hd
  have hroot : fs.root = .dir top := Option.some.inj htop
  obtain ⟨name, rest, rfl⟩ := List.exists_cons_of_ne_nil h.below
  have hname : "" ≠ name := (h.fits name (by simp)).1.ne_empty.symm
  have hsame : (fs.placed (name :: rest ++ below) e).entryAt? [""] = fs.entryAt? [""] := by
    simp only [entryAt?, placed, hroot, List.cons_append, Entry.place, Entry.at?, Entry.child?,
      Entry.lookup_assign, if_neg hname]
  rw [link?, hsame]
  exact h.root

/-- Any file that fits is written, and the directory stays as it is otherwise. -/
theorem write?_eq (hx : Fits x) (hu : isUsable (dir.join x) = true) (content : ByteArray) :
    ∃ fs', fs.write? (dir.join x) content = some fs' ∧ fs'.HoldsFiles dir names := by
  obtain ⟨entries, hd, hfiles⟩ := h.files
  have hlookup : fs.entryAt? (names ++ [x]) = entries.lookup x := by
    rw [entryAt?, Entry.at?_concat]
    simp only [entryAt?] at hd
    rw [hd]
    rfl
  have hfile : ∀ e, fs.entryAt? (names ++ [x]) = some e → e.isFile = true := by
    rw [hlookup]
    exact hfiles x
  have hlink : fs.link? (names ++ [x]) = none := by
    unfold link?
    split
    · next hl => cases hfile _ hl
    · rfl
  refine ⟨fs.placed (names ++ [x]) (.file content), ?_, ?_⟩
  · have hpieces : (dir.join x).pieces = "" :: (names ++ [x]) := by
      rw [h.join_eq hx, pieces_append_slash, h.pieces_eq, pieces_of_unbroken hx.1.unbroken]
      rfl
    have habs : (dir.join x).isAbsolute = true := by
      have hslash := h.isAbsolute
      rw [Path.isAbsolute, String.startsWith_string_iff] at hslash ⊢
      rw [h.join_eq hx, String.append_assoc, String.toList_append]
      exact hslash.trans (List.prefix_append _ _)
    have hne : dir.join x ≠ "" := by
      intro he
      rw [he] at habs
      revert habs
      decide
    have hdir : (fs.entryAt? (names ++ [x])).elim false Entry.isDir = false := by
      cases he : fs.entryAt? (names ++ [x]) with
      | none => rfl
      | some e =>
        have hisFile := hfile e he
        cases e with
        | file => rfl
        | dir | link => cases hisFile
    have hholds : fs.mayHold names x = true := by
      simp only [mayHold, hd, isStep]
      simp [Entry.isDir, hx.1.ne_empty, hx.1.ne_here, hx.1.ne_up, hx.2]
    rw [write?, if_neg (by simp [hne, hu]), hpieces, fromRoot, if_pos habs,
      approach_names h.root hd h.fits hlink]
    simp only [hholds, hdir]
    rfl
  · refine ⟨h.spelled, h.below, h.fits, h.closed, h.usable, ?_, _, Entry.at?_place _ _ hd, ?_⟩
    · exact h.root_placed _ _
    · intro y e he
      rw [Entry.lookup_assign] at he
      split at he
      · cases he
        rfl
      · exact hfiles y e he

end HoldsFiles

end FileSystem

end Gherkin

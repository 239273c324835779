import Gherkin.Proofs.CanonicalPaths

/-! Trees without links. There a path ends in the name of the file that it leads to, so the
canonical spelling of the path keeps its extension. -/
namespace Gherkin

namespace Entry

theorem at?_concat (names : List String) (name : String) (e : Entry) :
    at? (names ++ [name]) e = (at? names e).bind (child? name) := by
  induction names generalizing e with
  | nil => simp [at?]
  | cons n names ih =>
    rw [List.cons_append, at?, at?]
    cases e.child? n with
    | none => rfl
    | some child => exact ih child

/-- Above a directory there are directories only. -/
theorem exists_dir_of_dropLast {names : List String} {e : Entry}
    {entries : List (String × Entry)} (h : at? names e = some (.dir entries)) :
    ∃ above, at? names.dropLast e = some (.dir above) := by
  rcases List.eq_nil_or_concat names with rfl | ⟨init, name, rfl⟩
  · exact ⟨entries, h⟩
  · rw [List.concat_eq_append] at *
    rw [at?_concat, Option.bind_eq_some_iff] at h
    obtain ⟨parent, hp, hc⟩ := h
    cases parent with
    | dir above => exact ⟨above, by simpa using hp⟩
    | file | link => cases hc

end Entry

namespace Path

/-- What a path ends in, unless it is no component. -/
theorem getLast?_components {p : Path} {last : String} (h : p.pieces.getLast? = some last)
    (hempty : last ≠ "") (hhere : last ≠ ".") : p.components.getLast? = some last := by
  obtain ⟨init, hi⟩ := List.getLast?_eq_some_iff.mp h
  rw [components, hi, List.zipIdx_append]
  simp [isComponent, hempty, hhere]

end Path

namespace FileSystem

open Gherkin.Path

variable {fs : FileSystem} {names pieces dir : List String} {last piece : String} {p q : Path}

/-- No entry is a link. -/
def LinkFree (fs : FileSystem) : Prop := ∀ names path, fs.entryAt? names ≠ some (.link path)

theorem LinkFree.link?_eq_none (h : fs.LinkFree) (names : List String) : fs.link? names = none := by
  unfold link?
  split
  · next hl => exact absurd hl (h _ _)
  · rfl

theorem LinkFree.getLast?_of_approach (h : fs.LinkFree) {links : Nat}
    (ha : fs.approach links names pieces = .ok (dir, last)) : pieces.getLast? = some last := by
  have hwalk : ∀ jump, fs.walk jump names pieces = .ok (dir, last) →
      pieces.getLast? = some last := by
    intro jump hw
    clear ha
    induction pieces generalizing names with
    | nil => cases hw
    | cons piece pieces ih =>
      rw [walk, h.link?_eq_none] at hw
      dsimp only at hw
      split at hw
      · next hp =>
        cases hw
        rw [List.isEmpty_iff.mp hp]
        rfl
      · next hp =>
        obtain ⟨next, -, hw⟩ := Outcome.bind_eq_ok.mp hw
        rw [List.getLast?_cons_of_ne_nil (by simpa using hp)]
        exact ih hw
  cases links with
  | zero => exact hwalk _ ha
  | succ links => exact hwalk _ ha

theorem LinkFree.follow_of_locate (h : fs.LinkFree) (hl : fs.locate p = .ok names) :
    ∃ dir last, p.pieces.getLast? = some last ∧ fs.follow dir last = .ok names := by
  rw [locate] at hl
  split at hl
  · cases hl
  · split at hl
    · cases hl
    · obtain ⟨⟨dir, last⟩, ha, hf⟩ := Outcome.bind_eq_ok.mp hl
      refine ⟨dir, last, ?_, hf⟩
      have hlast := h.getLast?_of_approach ha
      rw [fromRoot] at hlast
      split at hlast
      · exact hlast
      · rwa [List.getLast?_append, Option.or_of_isSome] at hlast
        exact List.getLast?_isSome.mpr pieces_ne_nil

/-- The last piece on the way to a file is the name of the file. -/
theorem name_of_follow {content : ByteArray} (h : fs.follow dir piece = .ok names)
    (hf : fs.entryAt? names = some (.file content)) :
    names = dir ++ [piece] ∧ piece ≠ "" ∧ piece ≠ "." ∧ piece ≠ ".." := by
  simp only [follow] at h
  split at h
  · next hdir =>
    split at h
    · cases h
      cases hdir.symm.trans hf
    · next hstep =>
      split at h
      · cases h
        obtain ⟨above, ha⟩ := Entry.exists_dir_of_dropLast hdir
        cases ha.symm.trans hf
      · next hup =>
        split at h
        · cases h
        · split at h
          · cases h
            simp only [Bool.or_eq_true, beq_iff_eq, not_or] at hstep
            exact ⟨rfl, hstep.1, hstep.2, by simpa using hup⟩
          · cases h
  · cases h
  · cases h

theorem LinkFree.fileName?_canonical (h : fs.LinkFree) (hf : fs.isFile p = true)
    (hc : fs.canonical? p = some q) : q.fileName? = p.fileName? := by
  unfold canonical? at hc
  cases hl : fs.locate p with
  | error e => simp [hl] at hc
  | ok names =>
    simp only [hl, Option.some.injEq] at hc
    obtain ⟨content, hfile⟩ : ∃ content, fs.entryAt? names = some (.file content) := by
      rw [isFile, entry?, hl] at hf
      dsimp only at hf
      cases he : fs.entryAt? names with
      | none => simp [he] at hf
      | some e =>
        cases e with
        | file content => exact ⟨content, rfl⟩
        | dir | link => simp [he, Entry.isFile] at hf
    obtain ⟨dir, last, hlast, hfollow⟩ := h.follow_of_locate hl
    obtain ⟨rfl, hempty, hhere, -⟩ := name_of_follow hfollow hfile
    subst hc
    rw [fileName?, fileName?, components_absolute (isName_of_locate hl),
      getLast?_components hlast hempty hhere, List.getLast?_concat]

theorem LinkFree.extension?_canonical (h : fs.LinkFree) (hf : fs.isFile p = true)
    (hc : fs.canonical? p = some q) : q.extension? = p.extension? := by
  rw [extension?, extension?, h.fileName?_canonical hf hc]

end FileSystem

end Gherkin

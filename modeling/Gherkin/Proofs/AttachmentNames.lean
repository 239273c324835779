import Gherkin.Proofs.AttachmentHistory
import Gherkin.Proofs.ByteOrder
import Gherkin.Proofs.JoinedNames
import Gherkin.Proofs.NumberedNames
import Mathlib.Data.List.Nodup

/-! The names under which a store writes its attachments. Until the numbers begin again each is
numbered above all that were given before, so no two are the same, and as long as the numbers fit
their places the order of the names is the order in which they were given. -/
namespace Gherkin

/-- The path of an entry of the directory. -/
def Path.LiesIn (dir p : Path) (name : String) : Prop :=
  p.isAbsolute = dir.isAbsolute ∧ p.components = dir.components ++ [name] ∧
    p.fileName? = some name

theorem Path.IsName.liesIn {name : String} (h : IsName name) (dir : Path) :
    LiesIn dir (dir.join name) name :=
  ⟨(h.join dir).1, (h.join dir).2, h.fileName?_join dir⟩

namespace AttachmentStore

/-- What is to be attached, and the files as they are then: others may have changed them. -/
structure Request where
  name : String
  extension : String
  content : ByteArray
  files : FileSystem

namespace Request

/-- The extension has no separator. -/
def Plain (r : Request) : Prop := '/' ∉ r.extension.toList

/-- The directory is there, or it can be made. -/
def reaches (dir : Path) (r : Request) : Bool := (r.files.makeDirs? dir).isSome

end Request

variable {α : Type} {s t : AttachmentStore} {dir : Path} {rs : List Request} {r : Request}
  {x : String} {k n : Nat}

/-- The number that is the `k`-th to be given out from now on. -/
def number (s : AttachmentStore) (k : Nat) : Nat := (s.used + UInt32.ofNat k).toNat

theorem number_of_used_eq (h : t.used = s.used) (k : Nat) : t.number k = s.number k := by
  rw [number, number, h]

theorem number_of_used_eq_add_one (h : t.used = s.used + 1) (k : Nat) :
    t.number k = s.number (k + 1) := by
  rw [number, number, h, UInt32.add_assoc, Nat.add_comm k 1, UInt32.ofNat_add]
  rfl

/-- As long as there is room the numbers follow each other. -/
theorem HasRoom.number_eq (h : s.HasRoom n) (hk : k ≤ n) : s.number k = s.used.toNat + k := by
  have hlt : s.used.toNat + k < UInt32.size := Nat.lt_of_le_of_lt (Nat.add_le_add_left hk _) h
  have hkth : (UInt32.ofNat k).toNat = k := UInt32.toNat_ofNat_of_lt' (by omega)
  rw [number, UInt32.toNat_add, hkth]
  exact Nat.mod_eq_of_lt hlt

def serve (s : AttachmentStore) (r : Request) : Outcome × AttachmentStore :=
  { s with files := r.files }.attach r.name r.extension r.content

/-- The store after requests one after the other. -/
def after (s : AttachmentStore) (rs : List Request) : AttachmentStore :=
  rs.foldl (fun s r => (s.serve r).2) s

/-- The name that a request is given, with the number that it uses up if there is one. -/
def given? (s : AttachmentStore) (r : Request) : Option String :=
  if (s.serve r).2.used = s.used then none
  else some (fileName (s.serve r).2.used.toNat r.name r.extension)

def written? (s : AttachmentStore) (r : Request) : Option Attachment :=
  match (s.serve r).1 with
  | .written a => some a
  | _ => none

/-- What requests come to one after the other. -/
def collect (f : AttachmentStore → Request → Option α) : AttachmentStore → List Request → List α
  | _, [] => []
  | s, r :: rs => (f s r).toList ++ collect f (s.serve r).2 rs

/-- The file names that are given to requests, also to those that could not be written. -/
def namesGiven : AttachmentStore → List Request → List String := collect given?

def written : AttachmentStore → List Request → List Attachment := collect written?

/-- What a request does to the store of a directory. It is refused if the directory cannot be made;
otherwise it is given the next number, and lost if the file cannot be written. -/
inductive Served (dir : Path) (s : AttachmentStore) (r : Request) : Prop
  | refused (hreaches : r.reaches dir = false) (hgiven : s.given? r = none)
      (hwritten : s.written? r = none) (hused : (s.serve r).2.used = s.used)
      (hentries : (s.serve r).2.entries = s.entries)
  | lost (hreaches : r.reaches dir = true)
      (hgiven : s.given? r = some (fileName (s.number 1) r.name r.extension))
      (hwritten : s.written? r = none) (hused : (s.serve r).2.used = s.used + 1)
      (hentries : (s.serve r).2.entries = s.entries)
  | kept (a : Attachment) (hreaches : r.reaches dir = true)
      (hgiven : s.given? r = some (fileName (s.number 1) r.name r.extension))
      (hwritten : s.written? r = some a) (hused : (s.serve r).2.used = s.used + 1)
      (hentries : (s.serve r).2.entries = s.entries ++ [a])
      (hfile : a.file = dir.join (fileName (s.number 1) r.name r.extension))

theorem serve_cases (hd : s.dir = some dir) (r : Request) :
    (s.serve r).2.dir = some dir ∧ Served dir s r := by
  rcases hmade : r.files.makeDirs? dir with _ | made
  · have hserve : s.serve r = (.failed, { s with files := r.files }) := by
      simp only [serve, attach, hd, hmade]
    refine ⟨by rw [hserve]; exact hd, .refused (by rw [Request.reaches, hmade]; rfl) ?_ ?_ ?_ ?_⟩ <;>
      simp [given?, written?, hserve]
  · have hreaches : r.reaches dir = true := by rw [Request.reaches, hmade]; rfl
    have hnumber : s.number 1 = (s.used + 1).toNat := rfl
    rcases hwrite : made.write? (dir.join (fileName (s.number 1) r.name r.extension)) r.content
      with _ | files
    · have hserve : s.serve r = (.failed, { s with used := s.used + 1, files := made }) := by
        simp only [serve, attach, hd, hmade, ← hnumber, hwrite]
      refine ⟨by rw [hserve]; exact hd, .lost hreaches ?_ ?_ ?_ ?_⟩ <;>
        simp [given?, written?, hserve, hnumber]
    · generalize hfile : dir.join (fileName (s.number 1) r.name r.extension) = file at hwrite
      have hserve : s.serve r = (.written { name := r.name, file },
          { s with
            used := s.used + 1
            entries := s.entries ++ [{ name := r.name, file }]
            files }) := by
        simp only [serve, attach, hd, hmade, ← hnumber, hfile, hwrite]
      refine ⟨by rw [hserve]; exact hd,
        .kept { name := r.name, file } hreaches ?_ ?_ ?_ ?_ hfile.symm⟩ <;>
        simp [given?, written?, hserve, hnumber]

theorem after_cons (s : AttachmentStore) (r : Request) (rs : List Request) :
    s.after (r :: rs) = (s.serve r).2.after rs := rfl

theorem after_append (s : AttachmentStore) (rs rs' : List Request) :
    s.after (rs ++ rs') = (s.after rs).after rs' := List.foldl_append

theorem namesGiven_cons (s : AttachmentStore) (r : Request) (rs : List Request) :
    s.namesGiven (r :: rs) = (s.given? r).toList ++ (s.serve r).2.namesGiven rs := rfl

theorem written_cons (s : AttachmentStore) (r : Request) (rs : List Request) :
    s.written (r :: rs) = (s.written? r).toList ++ (s.serve r).2.written rs := rfl

theorem entries_after (hd : s.dir = some dir) (rs : List Request) :
    (s.after rs).entries = s.entries ++ s.written rs := by
  induction rs generalizing s with
  | nil => exact (List.append_nil _).symm
  | cons r rs ih =>
    obtain ⟨hdir, hserved⟩ := serve_cases hd r
    rw [after_cons, ih hdir, written_cons]
    cases hserved with
    | refused _ _ hwritten _ hentries | lost _ _ hwritten _ hentries => simp [hwritten, hentries]
    | kept a _ _ hwritten _ hentries => simp [hwritten, hentries]

/-- The requests that reach the directory are given the numbers one after the other. -/
theorem namesGiven_eq (hd : s.dir = some dir) (rs : List Request) :
    s.namesGiven rs = (rs.filter (·.reaches dir)).mapIdx
      fun k r => fileName (s.number (k + 1)) r.name r.extension := by
  induction rs generalizing s with
  | nil => rfl
  | cons r rs ih =>
    obtain ⟨hdir, hserved⟩ := serve_cases hd r
    rw [namesGiven_cons, ih hdir]
    cases hserved with
    | refused hreaches hgiven _ hused =>
      rw [hgiven, List.filter_cons_of_neg (by simp [hreaches])]
      simp only [number_of_used_eq hused]
      rfl
    | lost hreaches hgiven _ hused | kept _ hreaches hgiven _ hused =>
      rw [hgiven, List.filter_cons_of_pos hreaches, List.mapIdx_cons]
      simp only [number_of_used_eq_add_one hused]
      rfl

theorem length_namesGiven_le (hd : s.dir = some dir) (rs : List Request) :
    (s.namesGiven rs).length ≤ rs.length := by
  rw [namesGiven_eq hd, List.length_mapIdx]
  exact List.length_filter_le _ rs

theorem toNat_used_after (hd : s.dir = some dir) (rs : List Request) :
    (s.after rs).used.toNat = s.number (s.namesGiven rs).length := by
  induction rs generalizing s with
  | nil => exact congrArg UInt32.toNat (UInt32.add_zero s.used).symm
  | cons r rs ih =>
    obtain ⟨hdir, hserved⟩ := serve_cases hd r
    rw [after_cons, ih hdir, namesGiven_cons, List.length_append]
    cases hserved with
    | refused _ hgiven _ hused => rw [number_of_used_eq hused, hgiven, Option.toList_none,
        List.length_nil, Nat.zero_add]
    | lost _ hgiven _ hused | kept _ _ hgiven _ hused => rw [number_of_used_eq_add_one hused, hgiven,
        Option.toList_some, List.length_singleton, Nat.add_comm]

/-- What is written is written under names that are given, in their order. -/
theorem written_sublist (hd : s.dir = some dir) (rs : List Request) :
    ((s.written rs).map (·.file)).Sublist ((s.namesGiven rs).map dir.join) := by
  induction rs generalizing s with
  | nil => exact .slnil
  | cons r rs ih =>
    obtain ⟨hdir, hserved⟩ := serve_cases hd r
    rw [written_cons, namesGiven_cons, List.map_append, List.map_append]
    refine List.Sublist.append ?_ (ih hdir)
    cases hserved with
    | refused _ _ hwritten | lost _ _ hwritten => simp [hwritten]
    | kept a _ hgiven hwritten _ _ hfile => simp [hgiven, hwritten, hfile]

/-- A file name is numbered. -/
theorem fileName_eq (n : Nat) (name extension : String) :
    fileName n name extension = Path.numbered 4 n (stem name ++ "." ++ extension) := by
  simp only [fileName, Path.numbered, String.append_assoc]

theorem toLower_ne_slash {c : Char} (h : c.isAlphanum = true) : c.toLower ≠ '/' := by
  intro hc
  unfold Char.toLower at hc
  split at hc
  · next hupper =>
    have hge : 65 ≤ c.val.toNat := hupper.1
    have hle : c.val.toNat ≤ 90 := hupper.2
    have hval : c.val.toNat + 32 = 47 := by
      have h := congrArg (·.val.toNat) hc
      simp only [UInt32.toNat_add] at h
      have hshift : ('a'.val - 'A'.val).toNat = 32 := rfl
      have hslash : '/'.val.toNat = 47 := rfl
      omega
    omega
  · subst hc
    cases h

theorem slash_not_mem_stem (name : String) : '/' ∉ (stem name).toList := by
  rw [stem, String.toList_ofList, List.mem_map]
  rintro ⟨c, -, hc⟩
  split at hc
  · next halphanum => exact toLower_ne_slash halphanum hc
  · cases hc

theorem isName_fileName {extension : String} (h : '/' ∉ extension.toList) (n : Nat)
    (name : String) : Path.IsName (fileName n name extension) := by
  rw [fileName_eq]
  refine Path.isName_numbered ?_ 4 n
  simpa [slash_not_mem_stem] using h

theorem isName_of_given (hd : s.dir = some dir) (hp : ∀ r ∈ rs, r.Plain)
    (hx : x ∈ s.namesGiven rs) : Path.IsName x := by
  rw [namesGiven_eq hd, List.mem_mapIdx] at hx
  obtain ⟨k, hk, rfl⟩ := hx
  exact isName_fileName (hp _ (List.mem_filter.mp (List.getElem_mem hk)).1) _ _

/-- Of two names the one given later has the greater number. -/
theorem pairwise_namesGiven (hd : s.dir = some dir) (hroom : s.HasRoom (s.namesGiven rs).length) :
    (s.namesGiven rs).Pairwise fun x y => ∃ m n rest rest', m < n ∧
      n ≤ s.used.toNat + (s.namesGiven rs).length ∧
      x = Path.numbered 4 m rest ∧ y = Path.numbered 4 n rest' := by
  have hnumbered (k : Nat) (hk : k < (s.namesGiven rs).length) :
      ∃ rest, (s.namesGiven rs)[k] = Path.numbered 4 (s.used.toNat + (k + 1)) rest := by
    rw [← hroom.number_eq hk]
    simp only [namesGiven_eq hd, List.getElem_mapIdx]
    exact ⟨_, fileName_eq ..⟩
  refine List.pairwise_iff_getElem.mpr fun i j hi hj hij => ?_
  obtain ⟨rest, hrest⟩ := hnumbered i hi
  obtain ⟨rest', hrest'⟩ := hnumbered j hj
  exact ⟨_, _, rest, rest', by omega, by omega, hrest, hrest'⟩

/-- No name is given twice. -/
theorem nodup_namesGiven (hd : s.dir = some dir) (hroom : s.HasRoom (s.namesGiven rs).length) :
    (s.namesGiven rs).Nodup := by
  refine (pairwise_namesGiven hd hroom).imp ?_
  rintro _ _ ⟨m, n, rest, rest', hlt, -, rfl, rfl⟩ heq
  exact Nat.ne_of_lt hlt (Path.number_unique heq)

theorem number_add_size (s : AttachmentStore) (k : Nat) :
    s.number (k + UInt32.size) = s.number k := by
  have hzero : UInt32.ofNat UInt32.size = 0 := rfl
  rw [number, UInt32.ofNat_add, hzero, UInt32.add_zero]
  rfl

theorem getElem?_namesGiven_replicate (hd : s.dir = some dir) (hr : r.reaches dir = true)
    (hk : k < n) : (s.namesGiven (List.replicate n r))[k]? =
      some (fileName (s.number (k + 1)) r.name r.extension) := by
  rw [namesGiven_eq hd, List.filter_replicate_of_pos hr, List.getElem?_mapIdx,
    List.getElem?_replicate_of_lt hk]
  rfl

/-- Without a bound on the numbers names are given twice: a request made over and over again gets
its first name back as soon as all numbers have been given out. -/
theorem name_given_again (hd : s.dir = some dir) (hr : r.reaches dir = true)
    (hk : k + UInt32.size < n) : (s.namesGiven (List.replicate n r))[k + UInt32.size]? =
      (s.namesGiven (List.replicate n r))[k]? := by
  rw [getElem?_namesGiven_replicate hd hr hk,
    getElem?_namesGiven_replicate hd hr (by omega), Nat.add_right_comm, number_add_size]

/-- One and the same request, once more than there are numbers. -/
def tooMany : List Request :=
  List.replicate (UInt32.size + 1)
    { name := "knock", extension := "txt", content := .empty, files := {} }

theorem name_given_again_knock :
    (∀ r ∈ tooMany, r.Plain) ∧
    (namesGiven { dir := some "out" } tooMany)[0]? = some "0001-knock.txt" ∧
    (namesGiven { dir := some "out" } tooMany)[UInt32.size]? = some "0001-knock.txt" ∧
    ¬ (namesGiven { dir := some "out" } tooMany).Nodup := by
  have hdir : ({ dir := some "out" } : AttachmentStore).dir = some "out" := rfl
  have hreaches : Request.reaches "out"
      { name := "knock", extension := "txt", content := .empty, files := {} } = true := by
    decide +kernel
  have hfirst : (namesGiven { dir := some "out" } tooMany)[0]? = some "0001-knock.txt" := by
    rw [tooMany, getElem?_namesGiven_replicate hdir hreaches (Nat.succ_pos _)]
    decide +kernel
  have hlast : (namesGiven { dir := some "out" } tooMany)[UInt32.size]? = some "0001-knock.txt" := by
    rw [← hfirst]
    have hagain := @name_given_again _ _ _ 0 _ hdir hreaches (Nat.lt_succ_self _)
    rwa [Nat.zero_add] at hagain
  refine ⟨fun r hr => ?_, hfirst, hlast, fun hnodup => ?_⟩
  · rw [List.eq_of_mem_replicate hr]
    simp [Request.Plain]
  · obtain ⟨hlt, hname⟩ := List.getElem?_eq_some_iff.mp hlast
    obtain ⟨hpos, hname'⟩ := List.getElem?_eq_some_iff.mp hfirst
    exact absurd (hnodup.getElem_inj_iff.mp (hname'.trans hname.symm)) (by decide)

/-- What relates the names of two attachments when it relates the names that were given. -/
theorem pairwise_written {R : String → String → Prop} (hd : s.dir = some dir)
    (hp : ∀ r ∈ rs, r.Plain) (h : (s.namesGiven rs).Pairwise R) :
    (s.written rs).Pairwise fun a b =>
      ∃ x y, a.file.fileName? = some x ∧ b.file.fileName? = some y ∧ R x y := by
  have hfiles : ((s.namesGiven rs).map dir.join).Pairwise fun p q =>
      ∃ x y, Path.fileName? p = some x ∧ Path.fileName? q = some y ∧ R x y := by
    refine List.pairwise_map.mpr (h.imp_of_mem fun {x y} hx hy hxy => ?_)
    exact ⟨x, y, (isName_of_given hd hp hx).fileName?_join dir,
      (isName_of_given hd hp hy).fileName?_join dir, hxy⟩
  exact List.pairwise_map.mp (hfiles.sublist (written_sublist hd rs))

/-- The file names of two attachments, compared byte by byte. -/
def NamedBefore (a b : Attachment) : Prop :=
  ∃ x y, a.file.fileName? = some x ∧ b.file.fileName? = some y ∧ Text.bytes x < Text.bytes y

/-- A store that has nothing yet lists what was written to it in the order of the file names. -/
theorem list_after (hd : s.dir = some dir) (hs : s.entries = []) (rs : List Request) :
    (s.after rs).list.Perm (s.written rs) ∧
      (s.after rs).list.Pairwise fun a b => ¬ NamedBefore b a := by
  have hentries : (s.after rs).entries = s.written rs := by
    rw [entries_after hd, hs, List.nil_append]
  obtain ⟨hperm, hsorted⟩ := (s.after rs).list_sorted
  rw [hentries] at hperm
  refine ⟨hperm, hsorted.imp ?_⟩
  rintro a b hle ⟨y, x, hy, hx, hlt⟩
  rw [hx, hy, nameLe, decide_eq_true_eq] at hle
  exact absurd (Text.lt_iff_bytes_lt.mpr hlt) (not_lt_of_ge hle)

/-- No two files that it lists have the same name. -/
theorem pairwise_list_after (hd : s.dir = some dir) (hs : s.entries = []) (hp : ∀ r ∈ rs, r.Plain)
    (hroom : s.HasRoom (s.namesGiven rs).length) : (s.after rs).list.Pairwise NamedBefore := by
  obtain ⟨hperm, hsorted⟩ := list_after hd hs rs
  have hdistinct : (s.after rs).list.Pairwise fun a b =>
      ∃ x y, a.file.fileName? = some x ∧ b.file.fileName? = some y ∧ x ≠ y := by
    refine hperm.symm.pairwise (pairwise_written hd hp (nodup_namesGiven hd hroom)) ?_
    rintro a b ⟨x, y, hx, hy, hne⟩
    exact ⟨y, x, hy, hx, hne.symm⟩
  refine (hsorted.and hdistinct).imp ?_
  rintro a b ⟨hle, x, y, hx, hy, hne⟩
  refine ⟨x, y, hx, hy, Text.lt_iff_bytes_lt.mp (lt_of_le_of_ne (not_lt.mp fun hlt => ?_) hne)⟩
  exact hle ⟨y, x, hy, hx, Text.lt_iff_bytes_lt.mp hlt⟩

/-- As long as all numbers have four digits, that is the order in which it was written. -/
theorem list_eq_written (hd : s.dir = some dir) (hs : s.entries = []) (hp : ∀ r ∈ rs, r.Plain)
    (hfew : s.used.toNat + (s.namesGiven rs).length ≤ 9999) :
    (s.after rs).list = s.written rs := by
  have hentries : (s.after rs).entries = s.written rs := by
    rw [entries_after hd, hs, List.nil_append]
  have hroom : s.HasRoom (s.namesGiven rs).length := Nat.lt_of_le_of_lt hfew (by decide)
  have hordered : (s.namesGiven rs).Pairwise fun x y => x < y := by
    refine (pairwise_namesGiven hd hroom).imp ?_
    rintro _ _ ⟨m, n, rest, rest', hlt, hn, rfl, rfl⟩
    exact Path.numbered_lt hlt (by omega) (by decide) rest rest'
  rw [list, hentries]
  refine List.mergeSort_of_pairwise ((pairwise_written hd hp hordered).imp ?_)
  rintro a b ⟨x, y, hx, hy, hlt⟩
  rw [hx, hy]
  simpa [nameLe] using le_of_lt hlt

end AttachmentStore

end Gherkin

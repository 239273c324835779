import Gherkin.Proofs.ImportOrder
import Mathlib.Data.List.Induction

/-! Spellings of one path. Where every entry has a real name, empty pieces and those that stand for
the directory itself make no difference to where a path leads; so absolute paths that are equal as
paths lead to the same file, and its imports to the same files. -/
namespace Gherkin

open Import

/-- The pieces on the right are those on the left without some that stand for a directory itself. -/
inductive Trims : List String → List String → Prop
  | nil : Trims [] []
  | keep (x : String) {xs ys : List String} (h : Trims xs ys) : Trims (x :: xs) (x :: ys)
  | drop {x : String} {xs ys : List String} (hx : x = "" ∨ x = ".") (h : Trims xs ys) :
      Trims (x :: xs) ys

namespace Trims

variable {xs ys : List String}

theorem append_left (zs : List String) (h : Trims xs ys) : Trims (zs ++ xs) (zs ++ ys) := by
  induction zs with
  | nil => exact h
  | cons z zs ih => exact .keep z ih

theorem filter (xs : List String) : Trims xs (xs.filter fun x => x != "" && x != ".") := by
  induction xs with
  | nil => exact .nil
  | cons x xs ih =>
    rw [List.filter_cons]
    split
    · exact .keep x ih
    · next hx =>
      refine .drop ?_ ih
      simpa [← not_and_or, Classical.or_iff_not_imp_left] using hx

end Trims

namespace Path

variable {p q dir dir' : Path}

theorem isAbsolute_iff : p.isAbsolute = true ↔ ∃ rest, rest ≠ [] ∧ p.pieces = "" :: rest := by
  have hslash : "/".toList = ['/'] := rfl
  rw [isAbsolute, String.startsWith_string_iff, hslash, pieces]
  cases p.toList with
  | nil => simp [Text.pieces]
  | cons c cs =>
    rw [List.cons_prefix_cons, and_iff_left (List.nil_prefix), Text.pieces]
    split
    · next hc => simp [hc, Text.pieces_ne_nil]
    · next hc =>
      split <;> simp [Ne.symm hc, String.ext_iff]

/-- An absolute path goes from the root through its components. -/
theorem trims_pieces (hp : p.isAbsolute = true) : Trims p.pieces ("" :: p.components) := by
  obtain ⟨rest, -, hrest⟩ := isAbsolute_iff.mp hp
  rw [components_of_isAbsolute hp, hrest, List.filter_cons_of_neg (by decide)]
  exact .keep "" (.filter rest)

theorem isAbsolute_append (q : Path) (hp : p.isAbsolute = true) : (p ++ q).isAbsolute = true := by
  rw [isAbsolute, String.startsWith_string_iff] at *
  rw [String.toList_append]
  exact hp.trans (List.prefix_append _ _)

theorem exists_of_endsWith (h : p.endsWith "/" = true) : ∃ init : Path, p = init ++ "/" := by
  rw [String.endsWith_eq_endsWith_toSlice, String.Slice.endsWith_string_iff,
    String.copy_toSlice] at h
  obtain ⟨init, hinit⟩ := h
  refine ⟨String.ofList init, String.ext ?_⟩
  rw [String.toList_append, String.toList_ofList, hinit]

/-- What is joined to an absolute directory goes on from it. -/
theorem components_join (hdir : dir.isAbsolute = true) (hp : p.isAbsolute = false) :
    (dir.join p).isAbsolute = true ∧ (dir.join p).components =
      dir.components ++ p.pieces.filter fun piece => piece != "" && piece != "." := by
  have hempty : dir ≠ "" := by
    rintro rfl
    cases hdir
  rw [join, if_neg (by simp [hp, hempty])]
  split
  · next hslash =>
    obtain ⟨init, rfl⟩ := exists_of_endsWith hslash
    have habs := isAbsolute_append p hdir
    have hpieces : (init ++ "/" : Path).pieces = init.pieces ++ [""] := by
      have h := pieces_append_slash init ""
      rwa [String.append_empty] at h
    refine ⟨habs, ?_⟩
    rw [components_of_isAbsolute habs, components_of_isAbsolute hdir, pieces_append_slash, hpieces,
      List.filter_append, List.filter_append, List.filter_cons_of_neg (by decide), List.filter_nil,
      List.append_nil]
  · have habs := isAbsolute_append p (isAbsolute_append "/" hdir)
    refine ⟨habs, ?_⟩
    rw [components_of_isAbsolute habs, components_of_isAbsolute hdir, pieces_append_slash,
      List.filter_append]

theorem same_join (hdir : dir.isAbsolute = true) (hs : dir.same dir' = true) (p : Path) :
    (dir.join p).isAbsolute = true ∧ (dir.join p).same (dir'.join p) = true := by
  cases hp : p.isAbsolute with
  | true => simp [join, hp, same_refl]
  | false =>
    obtain ⟨habs, hcomponents⟩ := same_iff.mp hs
    have hjoin := components_join hdir hp
    have hjoin' := components_join (habs ▸ hdir) hp
    rw [same_iff, hjoin.1, hjoin'.1, hjoin.2, hjoin'.2, hcomponents]
    exact ⟨rfl, rfl, rfl⟩

/-- The places of the pieces that count, the last one first. -/
def places (P : String → Bool) (ps : List String) : List Nat :=
  ((ps.zipIdx.filter fun x => P x.1).map (·.2)).reverse

theorem places_concat (P : String → Bool) (ps : List String) (x : String) :
    places P (ps ++ [x]) = if P x then ps.length :: places P ps else places P ps := by
  cases hx : P x <;> simp [places, List.zipIdx_append, hx]

theorem length_places (P : String → Bool) (ps : List String) :
    (places P ps).length = (ps.filter P).length := by
  induction ps using List.reverseRecOn with
  | nil => rfl
  | append_singleton ps x ih =>
    rw [places_concat, List.filter_append]
    cases hx : P x <;> simp [hx, ih]

/-- Up to and with the piece at one of the places there are those that count till then. -/
theorem filter_take_of_places {P : String → Bool} {ps : List String} {i : Nat}
    {later earlier : List Nat} (h : places P ps = later ++ i :: earlier) :
    i < ps.length ∧ (ps.take (i + 1)).filter P = (ps.filter P).take (earlier.length + 1) := by
  induction ps using List.reverseRecOn generalizing later with
  | nil => simp [places] at h
  | append_singleton ps x ih =>
    rw [places_concat] at h
    cases hx : P x with
    | false =>
      obtain ⟨hi, htake⟩ := ih (by simpa [hx] using h)
      rw [List.take_append_of_le_length hi, htake]
      refine ⟨?_, by simp [hx]⟩
      rw [List.length_append]
      omega
    | true =>
      rw [if_pos hx] at h
      cases later with
      | nil =>
        obtain ⟨rfl, rfl⟩ := List.cons.inj h
        simp [hx, length_places, List.take_of_length_le]
      | cons j later =>
        have hinner : places P ps = later ++ i :: earlier := (List.cons.inj h).2
        obtain ⟨hi, htake⟩ := ih hinner
        have hlength := congrArg List.length hinner
        rw [length_places, List.length_append, List.length_cons] at hlength
        rw [List.take_append_of_le_length hi, htake, List.filter_append,
          List.take_append_of_le_length (by omega), List.length_append]
        exact ⟨by omega, rfl⟩

/-- The parent of an absolute path whose pieces count at these places, the last one first. -/
def parentAt (ps : List String) : List Nat → Option Path
  | [] => none
  | [_] => some "/"
  | _ :: i :: _ => some ("/".intercalate (ps.take (i + 1)))

theorem parent?_of_isAbsolute (hp : p.isAbsolute = true) :
    p.parent? = parentAt p.pieces (places (fun x => x != "" && x != ".") p.pieces) := by
  have hcounts : (fun x : String × Nat => isComponent true x.2 x.1) =
      fun x => x.1 != "" && x.1 != "." := by
    funext x
    simp [isComponent]
  simp only [parent?, hp, if_true, hcounts]
  rfl

theorem exists_parent (hp : p.isAbsolute = true) (hne : p.components ≠ []) :
    ∃ dir, p.parent? = some dir ∧ dir.isAbsolute = true ∧
      dir.components = p.components.dropLast := by
  have hlength := length_places (fun x => x != "" && x != ".") p.pieces
  rw [components_of_isAbsolute hp] at hne ⊢
  rw [parent?_of_isAbsolute hp]
  rcases h : places (fun x => x != "" && x != ".") p.pieces with _ | ⟨j, _ | ⟨i, rest⟩⟩
  · rw [h] at hlength
    exact absurd (List.eq_nil_of_length_eq_zero hlength.symm) hne
  · rw [h] at hlength
    obtain ⟨x, hx⟩ := List.length_eq_one_iff.mp hlength.symm
    rw [hx]
    exact ⟨"/", rfl, by decide +kernel, rfl⟩
  · have hlast : rest.length + 1 = (p.pieces.filter fun x => x != "" && x != ".").length - 1 := by
      rw [← hlength, h]
      rfl
    have hplaces : places (fun x => x != "" && x != ".") p.pieces = [j] ++ i :: rest := h
    obtain ⟨-, htake⟩ := filter_take_of_places hplaces
    rw [hlast, ← List.dropLast_eq_take] at htake
    have hunbroken : ∀ x ∈ p.pieces.take (i + 1), '/' ∉ x.toList :=
      fun x hx => unbroken_of_mem_pieces (List.mem_of_mem_take hx)
    have hpieces := pieces_intercalate (by simpa using pieces_ne_nil) hunbroken
    have habs : isAbsolute ("/".intercalate (p.pieces.take (i + 1))) = true := by
      obtain ⟨ps, -, hps⟩ := isAbsolute_iff.mp hp
      refine isAbsolute_iff.mpr
        ⟨ps.take i, fun hnil => ?_, by rw [hpieces, hps, List.take_succ_cons]⟩
      rw [hps, List.take_succ_cons, hnil, ← hps] at htake
      have hshort := congrArg List.length htake
      rw [List.length_dropLast, ← hlength, h] at hshort
      simp at hshort
    exact ⟨_, rfl, habs, by rw [components_of_isAbsolute habs, hpieces, htake]⟩

end Path

namespace FileSystem

variable {fs : FileSystem} {names xs ys r r' : List String} {p q : Path}

/-- Every entry stands under a name of its own. -/
def Named (fs : FileSystem) : Prop :=
  ∀ names piece, isStep piece = true → fs.entryAt? (names ++ [piece]) = none

/-- Follows pieces to their end. -/
def reach (fs : FileSystem)
    (approach : List String → List String → Except Fault (List String × String))
    (names pieces : List String) : Except Fault (List String) := do
  let (dir, last) ← approach names pieces
  fs.follow dir last

theorem follow_here {piece : String} (hp : piece = "" ∨ piece = ".")
    (h : fs.follow names piece = .ok r) : r = names := by
  unfold follow at h
  split at h
  · rw [if_pos (by simpa using hp)] at h
    cases h
    rfl
  · cases h
  · cases h

theorem Named.link?_eq_none (hfs : fs.Named) {piece : String} (hp : piece = "" ∨ piece = ".") :
    fs.link? (names ++ [piece]) = none := by
  have hstep : isStep piece = true := by
    rcases hp with rfl | rfl <;> rfl
  simp [link?, hfs names piece hstep]

/-- Trimmed pieces lead where the others lead; if all are trimmed away, nowhere else. -/
def Steady (fs : FileSystem)
    (approach : List String → List String → Except Fault (List String × String)) : Prop :=
  ∀ names xs ys r, Trims xs ys → fs.reach approach names xs = .ok r →
    (ys = [] → r = names) ∧ (ys ≠ [] → fs.reach approach names ys = .ok r)

theorem reach_walk_cons (fs : FileSystem)
    (jump : List String → List String → Except Fault (List String × String))
    (names : List String) (x : String) (xs : List String) :
    fs.reach (fs.walk jump) names (x :: xs) =
      match fs.link? (names ++ [x]) with
      | some path =>
        if path == "" then .error .absent
        else if !isUsable path then .error .blocked
        else fs.reach jump (if path.isAbsolute then [] else names) (path.pieces ++ xs)
      | none =>
        if xs.isEmpty then fs.follow names x
        else fs.follow names x >>= fun next => fs.reach (fs.walk jump) next xs := by
  rw [reach, walk]
  cases fs.link? (names ++ [x]) with
  | some path =>
    dsimp only
    split
    · rfl
    · split <;> rfl
  | none =>
    dsimp only
    split
    · rfl
    · cases fs.follow names x <;> rfl

theorem Named.steady_walk (hfs : fs.Named)
    {jump : List String → List String → Except Fault (List String × String)}
    (hj : fs.Steady jump) : fs.Steady (fs.walk jump) := by
  intro names xs ys r ht h
  induction ht generalizing names r with
  | nil => cases h
  | @drop x xs ys hx ht ih =>
    rw [reach_walk_cons, hfs.link?_eq_none hx] at h
    dsimp only at h
    split at h
    · next hxs =>
      rw [List.isEmpty_iff] at hxs
      subst hxs
      cases ht
      exact ⟨fun _ => follow_here hx h, fun hne => absurd rfl hne⟩
    · obtain ⟨next, hnext, h⟩ := Outcome.bind_eq_ok.mp h
      rw [follow_here hx hnext] at h
      exact ih names r h
  | @keep x xs ys ht ih =>
    refine ⟨fun h => absurd h (List.cons_ne_nil x ys), fun _ => ?_⟩
    rw [reach_walk_cons] at h ⊢
    cases hl : fs.link? (names ++ [x]) with
    | some path =>
      rw [hl] at h
      dsimp only at h ⊢
      split at h
      · cases h
      · next hpath =>
        split at h
        · cases h
        · next husable =>
          rw [if_neg hpath, if_neg husable]
          refine (hj _ _ _ r (ht.append_left path.pieces) h).2 fun hnil => ?_
          exact Path.pieces_ne_nil (List.append_eq_nil_iff.mp hnil).1
    | none =>
      rw [hl] at h
      dsimp only at h ⊢
      split at h
      · next hxs =>
        rw [List.isEmpty_iff] at hxs
        subst hxs
        cases ht
        exact h
      · obtain ⟨next, hnext, h⟩ := Outcome.bind_eq_ok.mp h
        obtain ⟨hnil, hcons⟩ := ih next r h
        rw [hnext]
        split
        · next hys => rw [hnil (List.isEmpty_iff.mp hys)]
        · next hys => exact hcons (by simpa using hys)

theorem Named.steady_approach (hfs : fs.Named) (links : Nat) : fs.Steady (fs.approach links) := by
  induction links with
  | zero => exact hfs.steady_walk fun _ _ _ _ _ h => by cases h
  | succ links ih => exact hfs.steady_walk ih

/-- Pieces that can be trimmed to the same pieces lead to the same place. -/
theorem Named.arrive_unique (hfs : fs.Named) {zs : List String} (hx : Trims xs zs)
    (hy : Trims ys zs) (hzs : zs ≠ []) (h : fs.arrive xs = .ok r) (h' : fs.arrive ys = .ok r') :
    r = r' := by
  have hsteady := hfs.steady_approach maxLinks
  have hr := (hsteady [] xs zs r hx h).2 hzs
  have hr' := (hsteady [] ys zs r' hy h').2 hzs
  exact Except.ok.inj (hr.symm.trans hr')

theorem arrive_of_locate (hp : p.isAbsolute = true) (h : fs.locate p = .ok r) :
    fs.arrive p.pieces = .ok r := by
  unfold locate at h
  split at h
  · cases h
  · split at h
    · cases h
    · rwa [fromRoot, if_pos hp] at h

theorem locate_of_canonical? (h : fs.canonical? p = some q) :
    ∃ names, fs.locate p = .ok names ∧ q = absolute names := by
  unfold canonical? at h
  split at h
  · next names hnames =>
    cases h
    exact ⟨names, hnames, rfl⟩
  · cases h

theorem locate_of_readText? {text : String} (h : fs.readText? p = some text) :
    ∃ names, fs.locate p = .ok names ∧ fs.entry? p = fs.entryAt? names := by
  unfold entry?
  cases hl : fs.locate p with
  | error e => simp [readText?, read?, entry?, hl] at h
  | ok names => exact ⟨names, rfl, rfl⟩

/-- Absolute paths that are equal as paths lead to the same place. -/
theorem Named.locate_unique (hfs : fs.Named) (hp : p.isAbsolute = true) (hs : p.same q = true)
    (h : fs.locate p = .ok r) (h' : fs.locate q = .ok r') : r = r' := by
  obtain ⟨habs, hcomponents⟩ := Path.same_iff.mp hs
  have hq := habs ▸ hp
  have htrim := Path.trims_pieces hp
  have htrim' := Path.trims_pieces hq
  rw [← hcomponents] at htrim'
  exact hfs.arrive_unique htrim htrim' (List.cons_ne_nil _ _) (arrive_of_locate hp h)
    (arrive_of_locate hq h')

theorem Named.canonical?_unique {c c' : Path} (hfs : fs.Named) (hp : p.isAbsolute = true)
    (hs : p.same q = true) (h : fs.canonical? p = some c) (h' : fs.canonical? q = some c') :
    c = c' := by
  obtain ⟨r, hr, rfl⟩ := locate_of_canonical? h
  obtain ⟨r', hr', rfl⟩ := locate_of_canonical? h'
  rw [hfs.locate_unique hp hs hr hr']

theorem Named.readText?_unique {text text' : String} (hfs : fs.Named) (hp : p.isAbsolute = true)
    (hs : p.same q = true) (h : fs.readText? p = some text) (h' : fs.readText? q = some text') :
    text = text' := by
  obtain ⟨r, hr, he⟩ := locate_of_readText? h
  obtain ⟨r', hr', he'⟩ := locate_of_readText? h'
  have hentry : fs.entry? p = fs.entry? q := by rw [he, he', hfs.locate_unique hp hs hr hr']
  rw [readText?, read?, hentry, ← read?, ← readText?, h'] at h
  exact (Option.some.inj h).symm

end FileSystem

open FileSystem

variable {files : FileSystem} {p q t : Path} {f g : Feature}

theorem Feature.baseDir_of_isAbsolute (hp : p.isAbsolute = true) (hne : p.components ≠ [])
    (hf : f.file = some p) :
    f.baseDir.isAbsolute = true ∧ f.baseDir.components = p.components.dropLast := by
  obtain ⟨dir, hparent, habs, hdir⟩ := Path.exists_parent hp hne
  have hbase : f.baseDir = dir := by
    have hempty : dir ≠ "" := by
      rintro rfl
      cases habs
    simp [baseDir, hf, hparent, Option.filter, hempty]
  rw [hbase]
  exact ⟨habs, hdir⟩

/-- One file read by paths that are equal as paths has the same imports. -/
theorem FileSystem.Named.imports_unique (hfs : files.Named) (hp : p.isAbsolute = true)
    (hs : p.same q = true) (hf : Feature.load files p = .ok f) (hg : Feature.load files q = .ok g) :
    f.imports = g.imports := by
  obtain ⟨text, doc, m, ht, hdoc, hm, rfl⟩ := Feature.load_ok hf
  obtain ⟨text', doc', m', ht', hdoc', hm', rfl⟩ := Feature.load_ok hg
  cases hfs.readText?_unique hp hs ht ht'
  cases hdoc.symm.trans hdoc'
  cases hm.symm.trans hm'
  rfl

/-- They lead to the same files, if they lead anywhere. -/
theorem FileSystem.Named.declares_of_same (hfs : files.Named) (hp : p.isAbsolute = true)
    (hne : p.components ≠ []) (hs : p.same q = true) (hf : Feature.load files p = .ok f)
    (hg : Feature.load files q = .ok g)
    (htargets : ∀ path ∈ f.imports, ∃ t, target files f.baseDir path = .ok t)
    (hd : Declares files g t) : Declares files f t := by
  obtain ⟨path, hpath, ht⟩ := hd
  rw [← hfs.imports_unique hp hs hf hg] at hpath
  obtain ⟨t', ht'⟩ := htargets path hpath
  obtain ⟨habs, hcomponents⟩ := Path.same_iff.mp hs
  have hbase := Feature.baseDir_of_isAbsolute hp hne (Feature.file_of_load hf)
  have hbase' := Feature.baseDir_of_isAbsolute (habs ▸ hp) (hcomponents ▸ hne)
    (Feature.file_of_load hg)
  have hdirs : f.baseDir.same g.baseDir = true := by
    rw [Path.same_iff, hbase.1, hbase'.1, hbase.2, hbase'.2, hcomponents]
    exact ⟨rfl, rfl⟩
  obtain ⟨hjoined, hsame⟩ := Path.same_join hbase.1 hdirs path
  rw [hfs.canonical?_unique hjoined hsame (target_eq_ok ht').2.2 (target_eq_ok ht).2.2] at ht'
  exact ⟨path, hpath, ht'⟩

end Gherkin

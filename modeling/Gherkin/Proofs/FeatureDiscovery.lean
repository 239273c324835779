import Gherkin.Proofs.ByteOrder
import Gherkin.Proofs.DirectoryWalk
import Gherkin.Proofs.JoinedNames
import Gherkin.Run
import Mathlib.Data.List.Sort

/-! Discovery of features. A directory stands for all features below it, each found once, in the
order of the ways that lead to them; a file stands for itself; and the first path that is neither
ends the discovery. -/
namespace Gherkin

namespace Entry

/-- The names lead to a file, and the last of them is a stem with the extension of features. -/
def LeadsToFeature (e : Entry) (names : List String) : Prop :=
  (∃ content, e.at? names = some (file content)) ∧
    ∃ above stem, stem ≠ "" ∧ names = above ++ [stem ++ ".feature"]

/-- Ways are compared name by name, and names byte by byte. -/
def Before : List String → List String → Prop :=
  List.Lex fun x y => Text.bytes x < Text.bytes y

theorem before_iff_lt {names names' : List String} : Before names names' ↔ names < names' := by
  have hbytes : (fun x y : String => Text.bytes x < Text.bytes y) = (· < ·) := by
    funext x y
    exact propext Text.lt_iff_bytes_lt.symm
  rw [Before, hbytes]
  rfl

end Entry

namespace Run

open Entry

variable {files : FileSystem} {dir p : Path} {paths ps : List Path} {names : List String}
  {e : Entry} {entries : List (String × Entry)}

/-- The ways from a directory to the files below it that have the extension of features. -/
def featureWays (dir : Path) (e : Entry) : List (List String) :=
  (e.filesBelow.map (·.1)).filter fun names =>
    (names.foldl Path.join dir).extension? == some Feature.featureExtension

/-- All features below the directory and nothing else, each of them once, in the order of the ways
that lead to them from the directory. -/
def ListsFeatures (files : FileSystem) (dir : Path) (found : List Path) : Prop :=
  ∃ (e : Entry) (ways : List (List String)), files.entry? dir = some e ∧
    (∀ names, names ∈ ways ↔ e.LeadsToFeature names) ∧
    ways.Pairwise Before ∧ found = ways.map (·.foldl Path.join dir) ∧ found.Nodup ∧
    ∀ names ∈ ways, (names.foldl Path.join dir).isAbsolute = dir.isAbsolute ∧
      (names.foldl Path.join dir).components = dir.components ++ names

/-- The path leads to a file or to a directory. -/
def Present (files : FileSystem) (p : Path) : Prop := files.isFile p = true ∨ files.isDir p = true

theorem extension?_join_names (h : ∀ name ∈ names, Path.IsName name) (hne : names ≠ [])
    (dir : Path) : (names.foldl Path.join dir).extension? = some Feature.featureExtension ↔
      ∃ above stem, stem ≠ "" ∧ names = above ++ [stem ++ ".feature"] := by
  obtain ⟨above, last, rfl⟩ := (List.eq_nil_or_concat' names).resolve_left hne
  have hlast := h last (by simp)
  rw [List.foldl_append, List.foldl_cons, List.foldl_nil, Path.extension?, hlast.fileName?_join,
    Option.bind_some, Path.splitExtension_eq_some_iff hlast.ne_up]
  constructor
  · rintro ⟨stem, hstem, rfl, -⟩
    exact ⟨above, stem, hstem, by rw [String.append_assoc]; rfl⟩
  · rintro ⟨above', stem, hstem, heq⟩
    obtain ⟨-, hname⟩ := List.append_inj' heq rfl
    refine ⟨stem, hstem, ?_, by decide⟩
    rw [String.append_assoc]
    exact List.singleton_injective hname

theorem exists_dir_of_isDir (hd : files.isDir dir = true) :
    ∃ entries, files.entry? dir = some (.dir entries) := by
  rw [FileSystem.isDir] at hd
  cases he : files.entry? dir with
  | none =>
    rw [he] at hd
    cases hd
  | some e =>
    rw [he] at hd
    cases e with
    | dir entries => exact ⟨entries, rfl⟩
    | file | link => cases hd

theorem wellNamed_of_entry? (hw : files.root.WellNamed) (he : files.entry? p = some e) :
    e.WellNamed := by
  unfold FileSystem.entry? at he
  split at he
  · exact (hw.at? he).2
  · cases he

theorem featuresBelow_eq (he : files.entry? dir = some (.dir entries)) :
    featuresBelow files dir =
      (featureWays dir (.dir entries)).map (·.foldl Path.join dir) := by
  simp only [featuresBelow, FileSystem.filesBelow, he, featureWays, List.map_map, List.filter_map]
  rfl

theorem mem_featureWays (hw : (Entry.dir entries).WellNamed) :
    names ∈ featureWays dir (.dir entries) ↔ (Entry.dir entries).LeadsToFeature names := by
  simp only [featureWays, List.mem_filter, List.mem_map, Prod.exists, exists_and_right,
    exists_eq_right, mem_filesBelow hw, beq_iff_eq, LeadsToFeature]
  refine and_congr_right fun ⟨content, hfile⟩ => ?_
  refine extension?_join_names (hw.at? hfile).1 ?_ dir
  rintro rfl
  cases hfile

theorem pairwise_featureWays (hw : e.WellNamed) : (featureWays dir e).Pairwise (· < ·) :=
  (pairwise_filesBelow hw).filter _

/-- A search through a directory finds its features in order. -/
theorem listsFeatures_featuresBelow (hw : files.root.WellNamed) (hd : files.isDir dir = true) :
    ListsFeatures files dir (featuresBelow files dir) := by
  obtain ⟨entries, he⟩ := exists_dir_of_isDir hd
  have hwell := wellNamed_of_entry? hw he
  have hpaths : ∀ names ∈ featureWays dir (.dir entries),
      (names.foldl Path.join dir).isAbsolute = dir.isAbsolute ∧
        (names.foldl Path.join dir).components = dir.components ++ names := by
    intro names hnames
    obtain ⟨⟨content, hfile⟩, -⟩ := (mem_featureWays hwell).mp hnames
    exact Path.join_names (hwell.at? hfile).1 dir
  have hordered : (featureWays dir (.dir entries)).Pairwise (· < ·) := pairwise_featureWays hwell
  refine ⟨.dir entries, _, he, fun names => mem_featureWays hwell,
    hordered.imp before_iff_lt.mpr, featuresBelow_eq he, ?_, hpaths⟩
  rw [featuresBelow_eq he]
  refine List.Nodup.map_on (fun names hn names' hn' heq => ?_) (hordered.imp fun hlt => ne_of_lt hlt)
  have hcomponents := congrArg Path.components heq
  rw [(hpaths names hn).2, (hpaths names' hn').2] at hcomponents
  exact List.append_cancel_left hcomponents

/-- A directory stands for one list of features only. -/
theorem ListsFeatures.unique {found found' : List Path} (h : ListsFeatures files dir found)
    (h' : ListsFeatures files dir found') : found = found' := by
  obtain ⟨e, ways, he, hways, hordered, rfl, -⟩ := h
  obtain ⟨e', ways', he', hways', hordered', rfl, -⟩ := h'
  cases he.symm.trans he'
  have hmem (names : List String) : names ∈ ways ↔ names ∈ ways' :=
    (hways names).trans (hways' names).symm
  rw [(hordered.imp before_iff_lt.mp).eq_of_mem_iff (hordered'.imp before_iff_lt.mp) hmem]

/-- What a path comes to: itself, the features below it, or an error that names it. -/
theorem featuresAt_cases (files : FileSystem) (p : Path) :
    files.isFile p = true ∧ featuresAt files p = .ok [p] ∨
    files.isDir p = true ∧ featuresAt files p = .ok (featuresBelow files p) ∨
    ¬Present files p ∧ featuresAt files p = .error (.pathNotFound p) := by
  by_cases hf : files.isFile p = true
  · exact .inl ⟨hf, if_pos hf⟩
  · by_cases hd : files.isDir p = true
    · exact .inr (.inl ⟨hd, (if_neg hf).trans (if_pos hd)⟩)
    · refine .inr (.inr ⟨?_, (if_neg hf).trans (if_neg hd)⟩)
      rintro (h | h)
      · exact hf h
      · exact hd h

theorem exists_featuresAt_iff : (∃ ps, featuresAt files p = .ok ps) ↔ Present files p := by
  rcases featuresAt_cases files p with ⟨hf, heq⟩ | ⟨hd, heq⟩ | ⟨habsent, heq⟩
  · exact iff_of_true ⟨_, heq⟩ (.inl hf)
  · exact iff_of_true ⟨_, heq⟩ (.inr hd)
  · simp [heq, habsent]

theorem featuresAt_eq_pathNotFound_iff {q : Path} :
    featuresAt files p = .error (.pathNotFound q) ↔ ¬Present files p ∧ p = q := by
  rcases featuresAt_cases files p with ⟨hf, heq⟩ | ⟨hd, heq⟩ | ⟨habsent, heq⟩
  · simp [heq, Present, hf]
  · simp [heq, Present, hd]
  · simp [heq, habsent]

theorem listsFeatures_of_featuresAt (hw : files.root.WellNamed)
    (h : featuresAt files p = .ok ps) :
    files.isFile p = true ∧ ps = [p] ∨ files.isDir p = true ∧ ListsFeatures files p ps := by
  rcases featuresAt_cases files p with ⟨hf, heq⟩ | ⟨hd, heq⟩ | ⟨-, heq⟩ <;>
    cases heq.symm.trans h
  · exact .inl ⟨hf, rfl⟩
  · exact .inr ⟨hd, listsFeatures_featuresBelow hw hd⟩

theorem discover_eq_pathNotFound_iff :
    discover files paths = .error (.pathNotFound p) ↔
      paths.mapM (featuresAt files) = .error (.pathNotFound p) := by
  rw [discover, Outcome.bind_eq_error]
  refine or_iff_left ?_
  rintro ⟨found, -, h⟩
  split at h <;> cases h

/-- Discovery fails at the first path that leads nowhere. Otherwise each path stands for itself or
for the features below it, in the order of the paths, and it is an error if there are none. -/
theorem discovery_complete (hw : files.root.WellNamed) (paths : List Path) :
    (∀ p, discover files paths = .error (.pathNotFound p) ↔ ∃ before after,
      paths = before ++ p :: after ∧ (∀ q ∈ before, Present files q) ∧ ¬Present files p) ∧
    ((∀ p ∈ paths, Present files p) → ∃ found : List (List Path),
      List.Forall₂ (fun p ps => files.isFile p = true ∧ ps = [p] ∨
        files.isDir p = true ∧ ListsFeatures files p ps) paths found ∧
      (found.flatten = [] → discover files paths = .error .noFeatures) ∧
      (found.flatten ≠ [] → discover files paths = .ok found.flatten)) := by
  constructor
  · intro p
    rw [discover_eq_pathNotFound_iff, Outcome.mapM_eq_error]
    simp only [exists_featuresAt_iff, featuresAt_eq_pathNotFound_iff]
    constructor
    · rintro ⟨before, _, after, heq, hbefore, habsent, rfl⟩
      exact ⟨before, after, heq, hbefore, habsent⟩
    · rintro ⟨before, after, heq, hbefore, habsent⟩
      exact ⟨before, p, after, heq, hbefore, habsent, rfl⟩
  · intro hpresent
    obtain ⟨found, hfound⟩ := Outcome.exists_mapM_eq_ok.mpr fun p hp =>
      exists_featuresAt_iff.mpr (hpresent p hp)
    refine ⟨found, ?_, fun hnone => ?_, fun hsome => ?_⟩
    · exact (Outcome.mapM_eq_ok.mp hfound).imp fun p ps => listsFeatures_of_featuresAt hw
    · rw [discover, hfound, Outcome.ok_bind, hnone]
      rfl
    · rw [discover, hfound, Outcome.ok_bind, if_neg (by simpa using hsome)]

/-- A directory beside a file that is called like it, one that is called like a feature, and a file
that is named by its extension only. -/
def specs : List (String × Entry) :=
  [("b.feature", .file .empty), ("a.feature", .file .empty), (".feature", .file .empty),
    ("a", .dir [("z.feature", .file .empty)]),
    ("x.feature", .dir [("c.feature", .file .empty), ("notes.txt", .file .empty)])]

def shelf : FileSystem :=
  { root := .dir [("specs", .dir specs), ("one.txt", .file .empty)] }

theorem featuresBelow_shelf : featuresBelow shelf "/specs" =
    ["/specs/a/z.feature", "/specs/a.feature", "/specs/b.feature",
      "/specs/x.feature/c.feature"] := by
  have hlocate : shelf.locate "/specs" = .ok ["specs"] := by decide +kernel
  have hentry : shelf.entry? "/specs" = some (.dir specs) := by
    simp only [FileSystem.entry?, hlocate]
    rfl
  have hways : (Entry.dir specs).filesBelow.map (·.1) = [[".feature"], ["a", "z.feature"],
      ["a.feature"], ["b.feature"], ["x.feature", "c.feature"], ["x.feature", "notes.txt"]] := by
    simp [filesBelow, filesOfEach, specs, List.mergeSort, List.MergeSort.Internal.splitInTwo]
  have hpaths : (shelf.filesBelow "/specs").map (·.1) =
      ((Entry.dir specs).filesBelow.map (·.1)).map (·.foldl Path.join "/specs") := by
    simp only [FileSystem.filesBelow, hentry, List.map_map]
    rfl
  rw [featuresBelow, hpaths, hways]
  decide +kernel

theorem discovery_complete_shelf :
    shelf.root.WellNamed ∧ (∀ p ∈ ["/specs", "/one.txt"], Present shelf p) ∧
      discover shelf ["/specs", "/one.txt"] = .ok ["/specs/a/z.feature", "/specs/a.feature",
        "/specs/b.feature", "/specs/x.feature/c.feature", "/one.txt"] ∧
      discover shelf ["/specs", "/two.txt", "/"] = .error (.pathNotFound "/two.txt") := by
  have hwell : shelf.root.WellNamed := by
    simp only [shelf, specs, WellNamed, WellNamedEach]
    decide
  have hspecs : shelf.isDir "/specs" = true := by decide +kernel
  have hfile : shelf.isFile "/specs" = false := by decide +kernel
  have hone : shelf.isFile "/one.txt" = true := by decide +kernel
  have hplain : shelf.isDir "/one.txt" = false := by decide +kernel
  have hpresent : ∀ p ∈ ["/specs", "/one.txt"], Present shelf p := by
    simp [Present, hspecs, hone]
  have hmissing : ¬Present shelf "/two.txt" := by
    unfold Present
    decide +kernel
  refine ⟨hwell, hpresent, ?_, ?_⟩
  · obtain ⟨found, hfound, -, hok⟩ := (discovery_complete hwell ["/specs", "/one.txt"]).2 hpresent
    cases hfound with
    | @cons _ ps _ _ hps hfound =>
      cases hfound with
      | @cons _ qs _ _ hqs hfound =>
        cases hfound
        simp only [hfile, Bool.false_eq_true, false_and, false_or] at hps
        simp only [hplain, Bool.false_eq_true, false_and, or_false] at hqs
        have hlist := hps.2.unique (listsFeatures_featuresBelow hwell hspecs)
        rw [featuresBelow_shelf] at hlist
        rw [hlist, hqs.2] at hok
        exact hok (by simp)
  · refine ((discovery_complete hwell _).1 _).mpr ⟨["/specs"], ["/"], rfl, ?_, hmissing⟩
    simp [Present, hspecs]

end Run

end Gherkin

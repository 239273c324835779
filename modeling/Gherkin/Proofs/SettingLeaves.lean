import Gherkin.Settings

/-! Settings told by the leaves of the documents that they were loaded from. Of the leaves that
spell one name the last one counts. -/
namespace Gherkin

namespace Json

mutual

/-- The leaves of a value in its order, each with the keys and positions that lead to it. -/
def places : Json → List (List String × Json)
  | .obj fields => placesOfFields fields
  | .arr items => placesOfItems 0 items
  | leaf => [([], leaf)]

def placesOfFields : List (String × Json) → List (List String × Json)
  | [] => []
  | (key, v) :: fields =>
    (places v).map (fun (path, leaf) => (key :: path, leaf)) ++ placesOfFields fields

def placesOfItems (index : Nat) : List Json → List (List String × Json)
  | [] => []
  | v :: items =>
    (places v).map (fun (path, leaf) => (toString index :: path, leaf)) ++
      placesOfItems (index + 1) items

end

/-- What settings may be read from. -/
def IsRoot (doc : Json) : Prop := doc = .null ∨ ∃ fields, doc = .obj fields

/-- The leaves that keys lead to. A document that is null has none. -/
def settingPlaces : Json → List (List String × Json)
  | .obj fields => placesOfFields fields
  | _ => []

end Json

namespace Settings

variable {files : FileSystem} {s t : Settings} {path : Path} {doc : Json} {docs : List Json}

/-- The name that keys and positions spell, joined by dots. -/
def spelled (path : List String) : String := ".".intercalate path

mutual

theorem leaves_eq (name : String) : ∀ v : Json,
    leaves name v = v.places.map fun p => (spelled (name :: p.1), leafText p.2)
  | .obj fields => fieldLeaves_eq (fun _ _ => String.intercalate_cons_cons) fields
  | .arr items => itemLeaves_eq (fun _ _ => String.intercalate_cons_cons) 0 items
  | .null | .bool _ | .int _ | .float _ | .str _ => rfl

/-- What stands in front of the keys is a part of each name. -/
theorem fieldLeaves_eq {start : String} {spell : List String → String}
    (h : ∀ key path, spell (key :: path) = start ++ spelled (key :: path)) :
    ∀ fields : List (String × Json),
      fieldLeaves start fields = (Json.placesOfFields fields).map fun p => (spell p.1, leafText p.2)
  | [] => rfl
  | (key, v) :: fields => by
    rw [fieldLeaves, Json.placesOfFields, List.map_append, List.map_map, leaves_eq,
      fieldLeaves_eq h]
    simp only [Function.comp_def, h, spelled, String.intercalate_cons_append]

theorem itemLeaves_eq {start : String} {spell : List String → String}
    (h : ∀ key path, spell (key :: path) = start ++ spelled (key :: path)) (index : Nat) :
    ∀ items : List Json,
      itemLeaves start index items =
        (Json.placesOfItems index items).map fun p => (spell p.1, leafText p.2)
  | [] => rfl
  | v :: items => by
    rw [itemLeaves, Json.placesOfItems, List.map_append, List.map_map, leaves_eq, itemLeaves_eq h]
    simp only [Function.comp_def, h, spelled, String.intercalate_cons_append]

end

/-- The names and texts of the leaves of a document. -/
def spelledLeaves (doc : Json) : Pairs :=
  doc.settingPlaces.map fun p => (spelled p.1, leafText p.2)

theorem ofJson?_eq_some_iff :
    ofJson? doc = some t ↔ doc.IsRoot ∧ t = { entries := Pairs.putAll [] (spelledLeaves doc) } := by
  cases doc with
  | obj fields =>
    have hleaves : fieldLeaves "" fields = spelledLeaves (.obj fields) :=
      fieldLeaves_eq (fun _ _ => (String.empty_append).symm) fields
    simp only [ofJson?, hleaves, Json.IsRoot, Option.some.injEq, eq_comm (b := t)]
    simp
  | null =>
    simp [ofJson?, Json.IsRoot, spelledLeaves, Json.settingPlaces, Pairs.putAll, empty, eq_comm]
  | _ => simp [ofJson?, Json.IsRoot]

/-- It makes no difference to what is merged into settings if it was merged before. -/
theorem merge_merge (s t u : Settings) :
    s.merge ((empty.merge t).merge u) = (s.merge t).merge u := by
  have hnodup : ((Pairs.putAll [] t.entries).map (·.1)).Nodup :=
    @Pairs.nodup_names_putAll [] List.nodup_nil t.entries
  simp only [merge, empty, Pairs.putAll_assoc hnodup, Pairs.putAll_putAll_nil]

/-- Merges what is read from each of `xs` into settings, one after the other. -/
def mergeEach {m : Type → Type} [Monad m] {α : Type} (read : α → m Settings) (s : Settings)
    (xs : List α) : m Settings :=
  xs.foldlM (fun s x => return s.merge (← read x)) s

section

variable {m : Type → Type} [Monad m] [LawfulMonad m] {α : Type} {read : α → m Settings}

theorem mergeEach_cons (s : Settings) (x : α) (xs : List α) :
    mergeEach read s (x :: xs) = read x >>= fun t => mergeEach read (s.merge t) xs := by
  simp only [mergeEach, List.foldlM_cons, bind_assoc, pure_bind]

/-- Settings read into given ones are those read into none, merged into the given ones. -/
theorem mergeEach_eq (read : α → m Settings) (s : Settings) (xs : List α) :
    mergeEach read s xs = s.merge <$> mergeEach read empty xs := by
  induction xs generalizing s with
  | nil => exact (map_pure s.merge empty).symm
  | cons x xs ih =>
    rw [mergeEach_cons, mergeEach_cons, map_bind]
    congr 1
    funext t
    rw [ih (s.merge t), ih (empty.merge t), Functor.map_map]
    simp only [merge_merge]

theorem mergeEach_append (read : α → m Settings) (xs ys : List α) :
    mergeEach read empty (xs ++ ys) =
      (do return (← mergeEach read empty xs).merge (← mergeEach read empty ys)) := by
  rw [mergeEach, List.foldlM_append]
  change (mergeEach read empty xs >>= fun s => mergeEach read s ys) = _
  congr 1
  funext s
  rw [mergeEach_eq, map_eq_pure_bind]

end

/-- The settings of some documents, the later ones over the earlier ones. -/
def ofDocuments? (docs : List Json) : Option Settings :=
  mergeEach ofJson? empty docs

theorem mergeEach_ofJson?_eq_some_iff :
    mergeEach ofJson? s docs = some t ↔ (∀ doc ∈ docs, doc.IsRoot) ∧
      t = { entries := s.entries.putAll (docs.flatMap spelledLeaves) } := by
  induction docs generalizing s with
  | nil => simp [mergeEach, Pairs.putAll, eq_comm]
  | cons doc docs ih =>
    have hmerge : s.merge { entries := Pairs.putAll [] (spelledLeaves doc) } =
        { entries := s.entries.putAll (spelledLeaves doc) } := by
      rw [merge, Pairs.putAll_putAll_nil]
    rw [mergeEach_cons, Option.bind_eq_bind, Option.bind_eq_some_iff, List.forall_mem_cons,
      List.flatMap_cons, Pairs.putAll_append]
    simp only [ofJson?_eq_some_iff]
    constructor
    · rintro ⟨_, ⟨hroot, rfl⟩, ht⟩
      rw [hmerge, ih] at ht
      exact ⟨⟨hroot, ht.1⟩, ht.2⟩
    · rintro ⟨⟨hroot, hroots⟩, rfl⟩
      refine ⟨_, ⟨hroot, rfl⟩, ?_⟩
      rw [hmerge, ih]
      exact ⟨hroots, rfl⟩

theorem flatMap_spelledLeaves (docs : List Json) :
    docs.flatMap spelledLeaves =
      (docs.flatMap Json.settingPlaces).map fun p => (spelled p.1, leafText p.2) :=
  List.map_flatMap.symm

theorem get?_putAll_spelledLeaves (docs : List Json) (name : String) :
    Pairs.get? (Pairs.putAll [] (docs.flatMap spelledLeaves)) name =
      ((docs.flatMap Json.settingPlaces).filter (spelled ·.1 == name)).getLast?.map
        (leafText ·.2) := by
  rw [Pairs.get?_putAll, Pairs.get?_nil, Option.or_none, flatMap_spelledLeaves,
    List.getLast?_filter, ← List.map_reverse, Pairs.get?, List.find?_map, Option.map_map]
  rfl

/-- The document in a file, as the reader of the files has it. A text without one counts as null. -/
def document? (files : FileSystem) (path : Path) : Option Json := do
  let text ← files.readText? path
  let doc ← files.reader text
  return doc.elim .null Yaml.toJson

theorem toOption_load (h : document? files path = some doc) :
    (load files path).toOption = ofJson? doc := by
  obtain ⟨text, htext, h⟩ := Option.bind_eq_some_iff.mp h
  obtain ⟨parsed, hparsed, hdoc⟩ := Option.bind_eq_some_iff.mp h
  cases hdoc
  rw [load, htext]
  simp only [parse, hparsed]
  cases ofJson? (parsed.elim .null Yaml.toJson) <;> rfl

/-- Files give what the documents in them give. -/
theorem toOption_mergeEach_load {paths : List Path}
    (h : paths.map (document? files) = docs.map some) :
    (mergeEach (load files) s paths).toOption = mergeEach ofJson? s docs := by
  induction paths generalizing s docs with
  | nil =>
    obtain rfl := List.map_eq_nil_iff.mp h.symm
    rfl
  | cons path paths ih =>
    obtain ⟨doc, docs, rfl, hdoc, hdocs⟩ := List.map_eq_cons_iff.mp h.symm
    rw [mergeEach_cons, mergeEach_cons, ← toOption_load hdoc.symm]
    cases load files path with
    | error fault => rfl
    | ok t => exact ih hdocs.symm

/-- The settings of documents exist exactly if each document is a mapping or null. Then a name has
the text of the last leaf that spells it, and the names that leaves spell stand in the order in
which they come first. Files that hold the documents are loaded to the same settings, and to load
more files is to merge what they give into what the files before gave. -/
theorem last_leaf_wins (docs : List Json) :
    let leaves := docs.flatMap Json.settingPlaces
    ((∃ s, ofDocuments? docs = some s) ↔ ∀ doc ∈ docs, doc = .null ∨ ∃ fields, doc = .obj fields) ∧
    (∀ s, ofDocuments? docs = some s →
      (∀ name, s.get? name =
        (leaves.filter (spelled ·.1 == name)).getLast?.map (leafText ·.2)) ∧
      s.entries.map (·.1) = (leaves.map (spelled ·.1)).eraseDups ∧
      s.size = (leaves.map (spelled ·.1)).eraseDups.length) ∧
    (∀ (files : FileSystem) paths, paths.map (document? files) = docs.map some →
      (loadAll files paths).toOption = ofDocuments? docs) ∧
    (∀ (files : FileSystem) ps qs, loadAll files (ps ++ qs) =
      (do return (← loadAll files ps).merge (← loadAll files qs))) ∧
    ∀ more, ofDocuments? (docs ++ more) =
      (do return (← ofDocuments? docs).merge (← ofDocuments? more)) := by
  intro leaves
  have hsome (t : Settings) : ofDocuments? docs = some t ↔ (∀ doc ∈ docs, doc.IsRoot) ∧
      t = { entries := Pairs.putAll [] (docs.flatMap spelledLeaves) } :=
    mergeEach_ofJson?_eq_some_iff
  refine ⟨⟨fun ⟨s, hs⟩ => ((hsome s).mp hs).1, fun hroots => ⟨_, (hsome _).mpr ⟨hroots, rfl⟩⟩⟩,
    fun s hs => ?_, fun files paths h => toOption_mergeEach_load h,
    fun files => mergeEach_append (load files), mergeEach_append ofJson? docs⟩
  obtain ⟨-, rfl⟩ := (hsome s).mp hs
  have hnames : (Pairs.putAll [] (docs.flatMap spelledLeaves)).map (·.1) =
      (leaves.map (spelled ·.1)).eraseDups := by
    rw [Pairs.names_putAll_nil, flatMap_spelledLeaves, List.map_map]
    rfl
  refine ⟨get?_putAll_spelledLeaves docs, hnames, ?_⟩
  rw [← hnames, List.length_map, size]

/-- Two files, in the second of which a key with a dot spells a name of the first. -/
def settingFiles : FileSystem where
  root := .dir [
    ("base.yml", .file "env:\n  url: a\n  users: [ada, eve]\n  none: {}".toUTF8),
    ("more.yml", .file "env.users.0: joan".toUTF8)]

/-- The third document holds a leaf that is null and one that spells a name of the first anew, and
files hold documents that do so. -/
theorem last_leaf_wins_env :
    let docs : List Json := [
      .obj [("env", .obj [("url", .str "a"), ("users", .arr [.str "ada", .str "eve"])])], .null,
      .obj [("env.users.0", .str "joan"), ("none", .null), ("all", .obj [])]]
    let paths := ["/base.yml", "/more.yml"]
    (∃ s, ofDocuments? docs = some s ∧
      s.entries.map (·.1) = ["env.url", "env.users.0", "env.users.1", "none"] ∧ s.size = 4 ∧
      s.get? "env.users.0" = some "joan" ∧ s.get? "none" = some "" ∧ s.get? "all" = none) ∧
    ∃ docs', paths.map (document? settingFiles) = docs'.map some ∧
      (loadAll settingFiles paths).toOption = ofDocuments? docs' ∧
      (ofDocuments? docs').bind (·.get? "env.users.0") = some "joan" := by
  intro docs paths
  constructor
  · obtain ⟨hroots, hsettings, -⟩ := last_leaf_wins docs
    obtain ⟨s, hs⟩ := hroots.mpr (by simp [docs])
    obtain ⟨hget, hnames, hsize⟩ := hsettings s hs
    exact ⟨s, hs, hnames.trans (by decide), hsize.trans (by decide), (hget _).trans (by decide),
      (hget _).trans (by decide), (hget _).trans (by decide)⟩
  · obtain ⟨base, hbase⟩ : ∃ doc, document? settingFiles "/base.yml" = some doc :=
      Option.isSome_iff_exists.mp (by decide +kernel)
    obtain ⟨more, hmore⟩ : ∃ doc, document? settingFiles "/more.yml" = some doc :=
      Option.isSome_iff_exists.mp (by decide +kernel)
    have hpaths : paths.map (document? settingFiles) = [base, more].map some := by
      simp only [paths, List.map_cons, List.map_nil, hbase, hmore]
    have hloaded := (last_leaf_wins [base, more]).2.2.1 settingFiles paths hpaths
    refine ⟨[base, more], hpaths, hloaded, ?_⟩
    rw [← hloaded]
    decide +kernel

end Settings

end Gherkin

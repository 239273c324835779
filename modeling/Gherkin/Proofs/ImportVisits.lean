import Gherkin.Import
import Gherkin.Proofs.CanonicalPaths

/-! How the imports of a feature are visited, one after another and each before the file that has
it. The rules here know no bound but the one on the length of a chain; they always come to an end,
and what they come to is what `collect` returns. -/
namespace Gherkin

/-- The paths that a feature imports, as it spells them. -/
def Feature.imports (f : Feature) : List Path := f.header.tags.filterMap Tag.importPath?

/-- What is loaded is read from the document in the file. -/
theorem Feature.load_ok {files : FileSystem} {p : Path} {f : Feature}
    (h : Feature.load files p = .ok f) :
    ∃ text doc m, files.readText? p = some text ∧ files.reader text = some (some doc) ∧
      Feature.ofYaml? doc = some m ∧ f = { m with file := some p } := by
  unfold Feature.load at h
  split at h
  · cases h
  · next text ht =>
    unfold Feature.parse at h
    split at h
    · next doc hdoc =>
      cases hd : Feature.ofYaml? doc with
      | none => simp [hd] at h
      | some m =>
        rw [hd] at h
        cases h
        exact ⟨text, doc, m, ht, hdoc, hd, rfl⟩
    · cases h

theorem Feature.file_of_load {files : FileSystem} {p : Path} {f : Feature}
    (h : Feature.load files p = .ok f) : f.file = some p := by
  obtain ⟨_, _, _, -, -, -, rfl⟩ := Feature.load_ok h
  rfl

theorem Feature.load_eq_error {files : FileSystem} {p : Path} {e : SourceError}
    (h : Feature.load files p = .error e) : e = .unreadable p ∨ e = .malformed p := by
  unfold Feature.load at h
  split at h
  · cases h
    exact Or.inl rfl
  · refine Or.inr ?_
    unfold Feature.parse at h
    split at h
    · next doc _ =>
      cases hd : Feature.ofYaml? doc <;> rw [hd] at h <;> cases h
      rfl
    · cases h
      rfl

namespace Import

theorem target_eq_error {files : FileSystem} {dir path : Path} {e : SourceError}
    (h : target files dir path = .error e) : e = .unsupportedImport (dir.join path) ∨
      e = .missingImport (dir.join path) ∨ e = .unreadable (dir.join path) := by
  simp only [target] at h
  split at h
  · cases h
    exact Or.inl rfl
  · split at h
    · cases h
      exact Or.inr (Or.inl rfl)
    · cases hc : files.canonical? (dir.join path) <;> rw [hc] at h <;> cases h
      exact Or.inr (Or.inr rfl)

theorem target_eq_ok {files : FileSystem} {dir path q : Path} (h : target files dir path = .ok q) :
    (dir.join path).extension? = some Feature.metaExtension ∧
      files.isFile (dir.join path) = true ∧ files.canonical? (dir.join path) = some q := by
  simp only [target] at h
  split at h
  · cases h
  · next hext =>
    split at h
    · cases h
    · next hfile =>
      cases hc : files.canonical? (dir.join path) with
      | none => simp [hc] at h
      | some c =>
        rw [hc] at h
        cases h
        exact ⟨by simpa using hext, by simpa using hfile, rfl⟩

theorem isCanonical_of_target {files : FileSystem} {dir path q : Path}
    (h : target files dir path = .ok q) : FileSystem.IsCanonical q :=
  FileSystem.isCanonical_canonical? (target_eq_ok h).2.2

/-- A file that is in none of the ways known: not on the chain, not loaded before, not visited. -/
structure Fresh (loaded : LoadedPaths) (chain : List Path) (done : List Loaded) (q : Path) :
    Prop where
  offChain : chain.any (·.same q) = false
  shallow : chain.length ≤ maxDepth
  notLoaded : loaded.contains q = false
  notDone : done.any (·.path.same q) = false

/-- Visiting imports from a directory, at the end of a chain, ends with these files or this
error. -/
inductive Visits (files : FileSystem) (loaded : LoadedPaths) :
    (chain : List Path) → (dir : Path) → (imports : List Path) → (done : List Loaded) →
      Except SourceError (List Loaded) → Prop
  | nothing {chain dir done} : Visits files loaded chain dir [] done (.ok done)
  | invalid {chain dir path rest done e} (ht : target files dir path = .error e) :
      Visits files loaded chain dir (path :: rest) done (.error e)
  | recursive {chain dir path rest done q} (ht : target files dir path = .ok q)
      (hr : chain.any (·.same q) = true ∨ maxDepth < chain.length) :
      Visits files loaded chain dir (path :: rest) done
        (.error (.recursiveImport (chain.headD "") q))
  | known {chain dir path rest done q r} (ht : target files dir path = .ok q)
      (hc : chain.any (·.same q) = false) (hl : chain.length ≤ maxDepth)
      (hk : loaded.contains q = true ∨ done.any (·.path.same q) = true)
      (hrest : Visits files loaded chain dir rest done r) :
      Visits files loaded chain dir (path :: rest) done r
  | unreadable {chain dir path rest done q e} (ht : target files dir path = .ok q)
      (hf : Fresh loaded chain done q) (hg : Feature.load files q = .error e) :
      Visits files loaded chain dir (path :: rest) done (.error e)
  | failed {chain dir path rest done q g e} (ht : target files dir path = .ok q)
      (hf : Fresh loaded chain done q) (hg : Feature.load files q = .ok g)
      (hin : Visits files loaded (q :: chain) g.baseDir g.imports done (.error e)) :
      Visits files loaded chain dir (path :: rest) done (.error e)
  | visited {chain dir path rest done q g mid r} (ht : target files dir path = .ok q)
      (hf : Fresh loaded chain done q) (hg : Feature.load files q = .ok g)
      (hin : Visits files loaded (q :: chain) g.baseDir g.imports done (.ok mid))
      (hrest : Visits files loaded chain dir rest (mid ++ [{ path := q, feature := g }]) r) :
      Visits files loaded chain dir (path :: rest) done r

/-- The room left to `collect` is what the chain leaves of its bound. -/
theorem visits_collect {files : FileSystem} {loaded : LoadedPaths} {room : Nat} {chain : List Path}
    (hroom : chain.length + room = maxDepth + 1) (f : Feature) (done : List Loaded) :
    Visits files loaded chain f.baseDir f.imports done
      (collect files loaded room chain f done) := by
  induction room generalizing chain f done with
  | zero =>
    rw [collect, ← Feature.imports]
    cases f.imports with
    | nil => exact .nothing
    | cons path rest =>
      rw [List.foldlM_cons]
      cases ht : target files f.baseDir path with
      | error e => exact .invalid ht
      | ok q => exact .recursive ht (.inr (by omega))
  | succ room ih =>
    rw [collect, ← Feature.imports]
    generalize f.imports = imports
    induction imports generalizing done with
    | nil => exact .nothing
    | cons path rest ihrest =>
      rw [List.foldlM_cons]
      cases ht : target files f.baseDir path with
      | error e => exact .invalid ht
      | ok q =>
        rw [Outcome.ok_bind]
        split
        · next hchain => exact .recursive ht (.inl hchain)
        · next hchain =>
          rw [Bool.not_eq_true] at hchain
          split
          · next hk =>
            exact .known ht hchain (by omega) (by simpa using hk) (ihrest done)
          · next hk =>
            simp only [Bool.or_eq_true, not_or, Bool.not_eq_true] at hk
            have hf : Fresh loaded chain done q := ⟨hchain, by omega, hk.1, hk.2⟩
            cases hg : Feature.load files q with
            | error e => exact .unreadable ht hf hg
            | ok g =>
              have hroom' : (q :: chain).length + room = maxDepth + 1 := by
                rw [List.length_cons]
                omega
              have hin := ih hroom' g done
              rw [Outcome.ok_bind]
              cases hc : collect files loaded room (q :: chain) g done with
              | error e => exact .failed ht hf hg (hc ▸ hin)
              | ok mid => exact .visited ht hf hg (hc ▸ hin) (ihrest _)

/-- A visit has one end: the rules exclude each other by what they ask of the first import. -/
theorem Visits.unique {files : FileSystem} {loaded : LoadedPaths} {chain : List Path} {dir : Path}
    {imports : List Path} {done : List Loaded} {r r' : Except SourceError (List Loaded)}
    (h : Visits files loaded chain dir imports done r)
    (h' : Visits files loaded chain dir imports done r') : r = r' := by
  induction h generalizing r' with
  | nothing => cases h'; rfl
  | invalid ht => cases h' <;> simp_all
  | recursive ht hr => cases h' <;> grind [Fresh]
  | known ht hc hl hk _ ih => cases h' <;> grind [Fresh]
  | unreadable ht hf hg => cases h' <;> grind [Fresh]
  | failed ht hf hg _ ih => cases h' <;> grind [Fresh]
  | visited ht hf hg _ _ ihin ihrest => cases h' <;> grind [Fresh]

/-- Resolution is the visit of all that a feature imports, and it ends. -/
theorem visits_resolve (files : FileSystem) (loaded : LoadedPaths) (f : Feature) :
    ∃ r, Visits files loaded [rootPath files f] f.baseDir f.imports [] r ∧
      resolve files loaded f = r.map fun done => done.map (·.feature) := by
  have hroom : [rootPath files f].length + maxDepth = maxDepth + 1 := Nat.add_comm _ _
  refine ⟨_, visits_collect hroom f [], ?_⟩
  rw [resolve]
  cases collect files loaded maxDepth [rootPath files f] f [] <;> rfl

theorem resolve_of_no_imports {files : FileSystem} {loaded : LoadedPaths} {f : Feature}
    (h : f.imports = []) : resolve files loaded f = .ok [] := by
  rw [resolve, maxDepth, collect, ← Feature.imports, h]
  rfl

end Import

end Gherkin

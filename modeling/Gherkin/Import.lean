import Gherkin.Source

/-!
Meta files that a feature imports, and those that they import in turn. Each is loaded once, after
all that it needs.
-/

namespace Gherkin

/-- The paths of the meta files loaded so far. -/
structure LoadedPaths where
  paths : List Path := []
deriving Repr

namespace LoadedPaths

def contains (l : LoadedPaths) (p : Path) : Bool :=
  l.paths.any (·.same p)

/-- Adds a path unless it is there already. -/
def insert (l : LoadedPaths) (p : Path) : LoadedPaths :=
  if l.contains p then l else { paths := l.paths ++ [p] }

def size (l : LoadedPaths) : Nat :=
  l.paths.length

end LoadedPaths

namespace Import

/-- A meta file and the canonical path it was loaded from. -/
structure Loaded where
  path : Path
  feature : Feature

/-- No chain of imports is longer than this. -/
def maxDepth : Nat := 32

/-- Stands for a feature that is in no file. -/
def nowhere : Path := "<memory>"

/-- The canonical path of an import, seen from the directory of the file that has it. -/
def target (files : FileSystem) (dir path : Path) : Except SourceError Path :=
  let joined := dir.join path
  if joined.extension? != some Feature.metaExtension then .error (.unsupportedImport joined)
  else if !files.isFile joined then .error (.missingImport joined)
  else (files.canonical? joined).elim (.error (.unreadable joined)) .ok

/-- Loads what a feature imports, behind what was loaded before. The chain leads from the file of
the feature back to the root, and `room` more files may be put on it. -/
def collect (files : FileSystem) (loaded : LoadedPaths) :
    (room : Nat) → (chain : List Path) → Feature → List Loaded → Except SourceError (List Loaded)
  | 0, chain, f, done =>
    (f.header.tags.filterMap Tag.importPath?).foldlM (fun _ path => do
      let path ← target files f.baseDir path
      throw (.recursiveImport (chain.headD "") path)) done
  | room + 1, chain, f, done =>
    (f.header.tags.filterMap Tag.importPath?).foldlM (fun done path => do
      let path ← target files f.baseDir path
      if chain.any (·.same path) then throw (.recursiveImport (chain.headD "") path)
      else if loaded.contains path || done.any (·.path.same path) then return done
      else
        let feature ← Feature.load files path
        let done ← collect files loaded room (path :: chain) feature done
        return done ++ [{ path, feature }]) done

/-- The file at which the imports of a feature begin. -/
def rootPath (files : FileSystem) (f : Feature) : Path :=
  match f.file with
  | none => nowhere
  | some path => (files.canonical? path).getD path

/-- The meta files that a feature needs and that are not loaded yet, those that others need
first. -/
def resolve (files : FileSystem) (loaded : LoadedPaths) (f : Feature) :
    Except SourceError (List Feature) := do
  let done ← collect files loaded maxDepth [rootPath files f] f []
  return done.map (·.feature)

end Import

end Gherkin

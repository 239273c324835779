import Gherkin.Import
import Gherkin.Outline

/-!
The normal form of a feature, which is what runs: outlines are expanded, imports are resolved, each
scenario has its background, and the scenarios of a meta file are step definitions.
-/

namespace Gherkin

namespace Scenario

/-- A scenario of a meta file as a step definition that knows its file. -/
def ofMeta (file : Option Path) (s : Scenario) : Scenario :=
  { s with
    tags := (if s.isStepDef then s.tags else s.tags ++ [.stepDef]) ++ file.toList.map .definedIn
    background := none
    metaFile := file }

/-- The scenarios that one stands for. Only an outline takes rows from a file. -/
def unfold (files : FileSystem) (dir : Path) (s : Scenario) : Except SourceError (List Scenario) :=
  if s.isOutline then s.expand files dir
  else if s.tags.any fun t => t.examplesPath?.isSome then .error (.examplesOnScenario s.name)
  else .ok [s]

/-- A scenario that runs gets the background, if it has none of its own. -/
def withBackground (background : Option Background) (s : Scenario) : Scenario :=
  if s.isStepDef || s.background.isSome then s else { s with background }

end Scenario

namespace Header

def withoutImports (h : Header) : Header :=
  { h with tags := h.tags.filter fun t => t.importPath?.isNone }

end Header

namespace Feature

/-- The normal form of one file by itself. -/
def normalizeAlone (files : FileSystem) (f : Feature) : Except SourceError Feature := do
  let sources := if f.isMeta then f.scenarios.map (·.ofMeta f.file) else f.scenarios
  let unfolded ← sources.mapM (·.unfold files f.baseDir)
  let background := if f.isMeta then none else f.background
  return {
    header := f.header.withoutImports
    background
    scenarios := unfolded.flatten.map (·.withBackground background)
    file := f.file
    metas := [] }

/-- The normal form of a feature, with the meta files it needs and, in front of its scenarios, the
one that binds a data record. -/
def normalize (files : FileSystem) (loaded : LoadedPaths) (f : Feature) (record : Option Record) :
    Except SourceError Feature := do
  let metas ← (← Import.resolve files loaded f).mapM (·.normalizeAlone files)
  let body ← f.normalizeAlone files
  return { body with
    scenarios := record.toList.map Record.binder ++ body.scenarios
    metas }

end Feature

end Gherkin

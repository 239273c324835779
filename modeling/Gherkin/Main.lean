import Gherkin.Run

/-!
The command. It reads the directories that the arguments lead to, runs in this picture of them, and
writes the files that the run has made.
-/

namespace Gherkin.Command

/-- Reads what stands in a directory. A link leads where it leads outside of this picture, and what
cannot be read is left out. -/
partial def readEntry (e : IO.FS.DirEntry) : IO (Option (String × Entry)) := do
  try
    match (← e.path.symlinkMetadata).type with
    | .file => return some (e.fileName, .file (← IO.FS.readBinFile e.path))
    | .dir =>
      let entries ← (← e.path.readDir).filterMapM readEntry
      return some (e.fileName, .dir entries.toList)
    | .symlink => return some (e.fileName, .link (← IO.FS.realPath e.path).toString)
    | _ => return none
  catch _ => return none

def namesOf (path : String) : IO (List String) := do
  return (← IO.FS.realPath path).components.filter (· != "")

/-- Adds a directory with all that lies below it. -/
def addDirectory (files : FileSystem) (path : String) : IO FileSystem := do
  try
    let real ← IO.FS.realPath path
    let entries ← (← real.readDir).filterMapM readEntry
    return files.placed (← namesOf path) (.dir entries.toList)
  catch _ => return files

/-- The directories to read: the current one, and for each argument itself and its parent. -/
def directories (c : CommandLine) : List Path :=
  let given := c.paths ++ c.settings ++ c.data.toList ++ c.attachments.toList ++ c.report.toList
  "." :: given.flatMap fun p => p.parent?.toList.filter (· != "") ++ [p]

/-- Writes the files that are new or have changed. -/
def writeChanges (before after : FileSystem) : IO Unit := do
  let old := before.root.filesBelow
  for (names, content) in after.root.filesBelow do
    if old.lookup names != some content then
      IO.FS.createDirAll (FileSystem.absolute names.dropLast)
      IO.FS.writeBinFile (FileSystem.absolute names) content

def run (c : CommandLine) : IO Nat := do
  let start : FileSystem := { start := ← namesOf "." }
  let files ← (directories c).foldlM addDirectory start
  let (result, after) := (Run.run c).run.run files
  writeChanges files after
  match result with
  | .error failure =>
    IO.eprintln ("error: " ++ failure.render)
    return 1
  | .ok status =>
    if c.verbose then IO.eprintln status.render
    return status.exitCode

def answer (args : List String) : IO Nat := do
  match CommandLine.parse args with
  | .ok c => run c
  | .error .displayHelp =>
    IO.println CommandLine.usage
    return CommandLineError.displayHelp.exitCode
  | .error .displayVersion =>
    IO.println "gherkin 0.1.0"
    return CommandLineError.displayVersion.exitCode
  | .error fault =>
    IO.eprintln ("error: " ++ fault.message)
    return fault.exitCode

end Gherkin.Command

def main (args : List String) : IO UInt32 := do
  return (← Gherkin.Command.answer args).toUInt32

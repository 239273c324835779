import Gherkin.Path
import Gherkin.Yaml.Reader

/-!
A tree of directories, files and links, and what paths mean in it. A link stands for the path that
it holds, seen from the directory of the link. How documents are written in the files is left to a
reader that comes with the tree.
-/

namespace Gherkin

inductive Entry where
  | file (content : ByteArray)
  | dir (entries : List (String × Entry))
  | link (path : Path)

/-- What a text holds as a document: `none` if the text is malformed, and `some none` if it holds no
document. Aliases are replaced by what they stand for, and merges are carried out. -/
abbrev DocumentReader := String → Option (Option Yaml)

/-- The entries below the root, the directory from which relative paths start, and how the texts of
files are read as documents. -/
structure FileSystem where
  root : Entry := .dir []
  start : List String := []
  reader : DocumentReader := Yaml.parse?

namespace Entry

def isFile : Entry → Bool
  | file _ => true
  | _ => false

def isDir : Entry → Bool
  | dir _ => true
  | _ => false

def child? (name : String) : Entry → Option Entry
  | dir entries => entries.lookup name
  | _ => none

/-- The entry at the end of these names. -/
def at? : List String → Entry → Option Entry
  | [], e => some e
  | name :: names, e => (e.child? name).bind (at? names)

/-- Replaces the value under a name, or adds one. -/
def assign (name : String) (e : Entry) : List (String × Entry) → List (String × Entry)
  | [] => [(name, e)]
  | x :: xs => if x.1 == name then (name, e) :: xs else x :: assign name e xs

/-- The tree with `e` at the end of these names. -/
def place (e : Entry) : List String → Entry → Entry
  | [], _ => e
  | name :: names, old =>
    let entries := match old with
      | dir entries => entries
      | _ => []
    dir (assign name (place e names ((entries.lookup name).getD (dir []))) entries)

mutual

/-- The files below an entry by the names that lead to them. The entries of each directory are
walked in the order of the bytes of their names, with all that is below a directory in its place. A
link is neither followed nor a file itself, and every directory can be read. -/
def filesBelow : Entry → List (List String × ByteArray)
  | file content => [([], content)]
  | link _ => []
  | dir entries =>
    ((filesOfEach entries).mergeSort fun a b => a.1 ≤ b.1).flatMap fun (name, files) =>
      files.map fun (names, content) => (name :: names, content)

def filesOfEach : List (String × Entry) → List (String × List (List String × ByteArray))
  | [] => []
  | (name, e) :: rest => (name, filesBelow e) :: filesOfEach rest

end

end Entry

namespace FileSystem

/-- Why a path cannot be followed: something on the way is missing, or it is of the wrong kind. -/
inductive Fault where
  | absent
  | blocked
deriving DecidableEq

/-- A name has at most this many bytes. -/
def nameLimit : Nat := 255

/-- A path has fewer bytes than this. -/
def pathLimit : Nat := 4096

def entryAt? (fs : FileSystem) (names : List String) : Option Entry :=
  fs.root.at? names

/-- On one way at most this many links are followed. -/
def maxLinks : Nat := 40

/-- The path that is held by the link at the end of these names, if there is one. -/
def link? (fs : FileSystem) (names : List String) : Option Path :=
  match fs.entryAt? names with
  | some (.link path) => some path
  | _ => none

/-- Follows one piece of a path, which is no link, from a directory given by its names. -/
def follow (fs : FileSystem) (names : List String) (piece : String) :
    Except Fault (List String) :=
  match fs.entryAt? names with
  | some (.dir entries) =>
    if piece == "" || piece == "." then .ok names
    else if piece == ".." then .ok names.dropLast
    else if piece.utf8ByteSize > nameLimit then .error .blocked
    else if (entries.lookup piece).isSome then .ok (names ++ [piece])
    else .error .absent
  | some _ => .error .blocked
  | none => .error .absent

def isUsable (p : Path) : Bool :=
  !p.toList.contains (Char.ofNat 0) && p.utf8ByteSize < pathLimit

/-- Follows pieces up to the last one, unless a link stands in the way: then `jump` goes on with the
pieces of its path. -/
def walk (fs : FileSystem)
    (jump : List String → List String → Except Fault (List String × String)) :
    (names pieces : List String) → Except Fault (List String × String)
  | _, [] => .error .absent
  | names, piece :: pieces =>
    match fs.link? (names ++ [piece]) with
    | some path =>
      if path == "" then .error .absent
      else if !isUsable path then .error .blocked
      else jump (if path.isAbsolute then [] else names) (path.pieces ++ pieces)
    | none =>
      if pieces.isEmpty then .ok (names, piece)
      else do fs.walk jump (← fs.follow names piece) pieces

/-- The directory in which a way ends and the last piece on it, which is no link. -/
def approach (fs : FileSystem) :
    (links : Nat) → (names pieces : List String) → Except Fault (List String × String)
  | 0 => fs.walk fun _ _ => .error .blocked
  | links + 1 => fs.walk (fs.approach links)

def absolute (names : List String) : Path :=
  "/" ++ "/".intercalate names

/-- The way from the root that some pieces of a path stand for. -/
def fromRoot (fs : FileSystem) (p : Path) (pieces : List String) : List String :=
  if p.isAbsolute then pieces else (absolute fs.start).pieces ++ pieces

/-- The names from the root to what these pieces lead to. -/
def arrive (fs : FileSystem) (pieces : List String) : Except Fault (List String) := do
  let (dir, last) ← fs.approach maxLinks [] pieces
  fs.follow dir last

/-- The names from the root to what a path leads to. -/
def locate (fs : FileSystem) (p : Path) : Except Fault (List String) :=
  if p == "" then .error .absent
  else if !isUsable p then .error .blocked
  else fs.arrive (fs.fromRoot p p.pieces)

def entry? (fs : FileSystem) (p : Path) : Option Entry :=
  match fs.locate p with
  | .ok names => fs.entryAt? names
  | .error _ => none

def isFile (fs : FileSystem) (p : Path) : Bool :=
  (fs.entry? p).elim false Entry.isFile

def isDir (fs : FileSystem) (p : Path) : Bool :=
  (fs.entry? p).elim false Entry.isDir

/-- The one spelling, from the root and without links, of a path that leads somewhere. -/
def canonical? (fs : FileSystem) (p : Path) : Option Path :=
  match fs.locate p with
  | .ok names => some (absolute names)
  | .error _ => none

def read? (fs : FileSystem) (p : Path) : Option ByteArray :=
  match fs.entry? p with
  | some (.file content) => some content
  | _ => none

/-- The text of a file, if it is UTF-8. -/
def readText? (fs : FileSystem) (p : Path) : Option String :=
  (fs.read? p).bind String.fromUTF8?

def placed (fs : FileSystem) (names : List String) (e : Entry) : FileSystem :=
  { fs with root := Entry.place e names fs.root }

/-- Whether a piece is no name of its own. -/
def isStep (piece : String) : Bool :=
  piece == "" || piece == "." || piece == ".."

/-- Whether a file or a directory may stand under this name in a directory that is there. -/
def mayHold (fs : FileSystem) (dir : List String) (name : String) : Bool :=
  (fs.entryAt? dir).elim false Entry.isDir && !isStep name && name.utf8ByteSize ≤ nameLimit

/-- Writes a file, in place of one that is there already. A link is followed even if it leads to
nothing yet. -/
def write? (fs : FileSystem) (p : Path) (content : ByteArray) : Option FileSystem :=
  if p == "" || !isUsable p then none
  else match fs.approach maxLinks [] (fs.fromRoot p p.pieces) with
    | .error _ => none
    | .ok (dir, name) =>
      if !fs.mayHold dir name || (fs.entryAt? (dir ++ [name])).elim false Entry.isDir then none
      else some (fs.placed (dir ++ [name]) (.file content))

/-- Makes one directory in a directory that is there. -/
def makeDir (fs : FileSystem) (p : Path) : Except Fault FileSystem := do
  let pieces := (p.pieces.reverse.dropWhile (· == "")).reverse
  if p == "" then .error .absent
  else if !isUsable p then .error .blocked
  else match pieces.getLast? with
    | none => .error .blocked
    | some name =>
      let dir ← fs.arrive (fs.fromRoot p pieces.dropLast)
      if !fs.mayHold dir name || (fs.entryAt? (dir ++ [name])).isSome then .error .blocked
      else .ok (fs.placed (dir ++ [name]) (.dir []))

/-- Makes a directory and those above it that are missing; `depth` bounds how many. -/
def makeDirsWithin : Nat → FileSystem → Path → Option FileSystem
  | depth, fs, p =>
    if p == "" then some fs
    else match fs.makeDir p with
      | .ok made => some made
      | .error .blocked => if fs.isDir p then some fs else none
      | .error .absent =>
        match depth, p.parent? with
        | depth + 1, some parent => do
          let above ← makeDirsWithin depth fs parent
          match above.makeDir p with
          | .ok made => some made
          | .error _ => if above.isDir p then some above else none
        | _, _ => none

def makeDirs? (fs : FileSystem) (p : Path) : Option FileSystem :=
  makeDirsWithin (p.components.length + 1) fs p

/-- The files below a directory, each under the path that leads to it from there. -/
def filesBelow (fs : FileSystem) (dir : Path) : List (Path × ByteArray) :=
  match fs.entry? dir with
  | some (.dir entries) =>
    (Entry.dir entries).filesBelow.map fun (names, content) => (names.foldl Path.join dir, content)
  | _ => []

end FileSystem

end Gherkin

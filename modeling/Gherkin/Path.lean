import Gherkin.Text.Split

/-!
Paths are texts with `/` between their components. Two spellings name the same components when they
differ only in repeated separators, in `.` past the beginning, or in a final separator.
-/

namespace Gherkin

abbrev Path := String

namespace Path

def pieces (p : Path) : List String :=
  (Text.pieces '/' p.toList).map String.ofList

def isAbsolute (p : Path) : Bool :=
  p.startsWith "/"

/-- Whether a piece counts as a component. A `.` counts only where a relative path begins. -/
def isComponent (absolute : Bool) (index : Nat) (piece : String) : Bool :=
  piece != "" && (piece != "." || (!absolute && index == 0))

/-- The components in order, without the root. -/
def components (p : Path) : List String :=
  (p.pieces.zipIdx.filter fun (piece, i) => isComponent p.isAbsolute i piece).map (·.1)

/-- Equality of paths: absolute alike, and component by component. -/
def same (p q : Path) : Bool :=
  p.isAbsolute == q.isAbsolute && p.components == q.components

/-- `p` seen from the directory `dir`; an absolute `p` stands for itself. -/
def join (dir p : Path) : Path :=
  if p.isAbsolute || dir == "" then p
  else if dir.endsWith "/" then dir ++ p
  else dir ++ "/" ++ p

/-- The last component, unless it is `.` or `..`. -/
def fileName? (p : Path) : Option String :=
  match p.components.getLast? with
  | none => none
  | some name => if name == "." || name == ".." then none else some name

/-- A file name cut at its last dot. A dot at the beginning does not count, nor do the dots of
`..`. -/
def splitExtension (name : String) : String × Option String :=
  let cs := name.toList
  let after := (cs.reverse.takeWhile (· != '.')).reverse
  let before := cs.take (cs.length - after.length - 1)
  if before.isEmpty || name == ".." then (name, none)
  else (String.ofList before, some (String.ofList after))

def extension? (p : Path) : Option String :=
  p.fileName?.bind fun name => (splitExtension name).2

def fileStem? (p : Path) : Option String :=
  p.fileName?.map fun name => (splitExtension name).1

/-- The path without its last component, spelled as in the path itself. -/
def parent? (p : Path) : Option Path :=
  let parts := p.pieces
  let indices := (parts.zipIdx.filter fun (piece, i) => isComponent p.isAbsolute i piece).map (·.2)
  match indices.reverse with
  | [] => none
  | [_] => some (if p.isAbsolute then "/" else "")
  | _ :: i :: _ => some ("/".intercalate (parts.take (i + 1)))

end Path

end Gherkin

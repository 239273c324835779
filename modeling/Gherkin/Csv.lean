import Gherkin.Feature

/-!
Tables of comma-separated cells. A cell in double quotes may hold commas and line ends, and a quote
inside it is written twice. Empty lines between rows vanish. Tables are read from bytes, and the
bytes of each cell have to be the encoding of a text; those of the file as a whole need not be.

No text is refused for its commas and quotes. A quote counts as the beginning of a quoted cell only
at the front of a cell, and inside any other cell as itself; what follows the closing quote up to the
next comma belongs to the cell; a quote that is never closed reaches to the end of the file. Rows may
have different numbers of cells, nothing is trimmed, and the first row is a row like the others.
-/

namespace Gherkin.Csv

/-- What the next byte belongs to. -/
inductive Mode where
  /-- Nothing of the next row is there yet. -/
  | betweenRows
  | cellStart
  | bare
  | quoted
  /-- Right behind a quote in a quoted cell. -/
  | afterQuote
deriving DecidableEq

/-- The byte of an ASCII character. -/
def byte (c : Char) : UInt8 :=
  UInt8.ofNat c.toNat

def isLineEnd (b : UInt8) : Bool :=
  b == byte '\r' || b == byte '\n'

/-- A row being read: the line it is counted from, the cells before the current one and the bytes of
the current one, both backwards. -/
structure Draft where
  line : Nat := 1
  cells : List (List UInt8) := []
  cell : List UInt8 := []

namespace Draft

def add (d : Draft) (b : UInt8) : Draft :=
  { d with cell := b :: d.cell }

def endCell (d : Draft) : Draft :=
  { d with cells := d.cell :: d.cells, cell := [] }

/-- The text of a cell, if it is one. -/
def text? (cell : List UInt8) : Option String :=
  String.fromUTF8? (ByteArray.mk cell.reverse.toArray)

def toRow? (d : Draft) : Option Row := do
  return { line := d.line, cells := ← d.endCell.cells.reverse.mapM text? }

end Draft

/-- Reads rows, where `ends` counts the line feeds before this point. The line of a row is one more
than the line feeds up to the end of the row before it. -/
def readRows (mode : Mode) (ends : Nat) (d : Draft) : List UInt8 → List Draft
  | [] => if mode = .betweenRows then [] else [d]
  | b :: bs =>
    let ends := if b = byte '\n' then ends + 1 else ends
    match mode with
    | .quoted =>
      if b = byte '"' then readRows .afterQuote ends d bs else readRows .quoted ends (d.add b) bs
    | .betweenRows =>
      if isLineEnd b then readRows .betweenRows ends d bs
      else if b = byte '"' then readRows .quoted ends d bs
      else if b = byte ',' then readRows .cellStart ends d.endCell bs
      else readRows .bare ends (d.add b) bs
    | .cellStart =>
      if isLineEnd b then d :: readRows .betweenRows ends { line := 1 + ends } bs
      else if b = byte '"' then readRows .quoted ends d bs
      else if b = byte ',' then readRows .cellStart ends d.endCell bs
      else readRows .bare ends (d.add b) bs
    | .bare =>
      if isLineEnd b then d :: readRows .betweenRows ends { line := 1 + ends } bs
      else if b = byte ',' then readRows .cellStart ends d.endCell bs
      else readRows .bare ends (d.add b) bs
    | .afterQuote =>
      if isLineEnd b then d :: readRows .betweenRows ends { line := 1 + ends } bs
      else if b = byte '"' then readRows .quoted ends (d.add b) bs
      else if b = byte ',' then readRows .cellStart ends d.endCell bs
      else readRows .bare ends (d.add b) bs

/-- The bytes of a byte order mark. -/
def byteOrderMark : List UInt8 := [0xEF, 0xBB, 0xBF]

/-- The rows of a table, if all its cells are texts; a byte order mark in front is passed over. -/
def parse? (content : ByteArray) : Option (List Row) :=
  let bytes := content.data.toList
  let body := if byteOrderMark.isPrefixOf bytes then bytes.drop 3 else bytes
  (readRows .betweenRows 0 {} body).mapM (·.toRow?)

end Gherkin.Csv

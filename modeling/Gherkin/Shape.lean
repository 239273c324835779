import Gherkin.Yaml.Scalar

/-!
The shapes of feature documents: which records they consist of, and what each field of a record
holds. A shape tells what a document means whose notation leaves that open. JSON may give a record
as the list of its fields in order, and YAML scalars have no type of their own.
-/

namespace Gherkin

inductive RecordKind where
  | position
  | attachment
  | row
  | step
  | background
  | examples
  | scenario
  | header
  | feature
deriving DecidableEq, Repr

inductive Shape where
  | any
  | text
  /-- A whole number that is not negative. -/
  | count
  | flag
  /-- One of a few words. -/
  | word
  | list (item : Shape)
  /-- What may be null. -/
  | optional (shape : Shape)
  | record (kind : RecordKind)
deriving DecidableEq, Repr

namespace RecordKind

/-- The fields of a record in their order. -/
def fields : RecordKind → List (String × Shape)
  | position => [("line", .count), ("column", .count)]
  | attachment => [("name", .text), ("file", .text)]
  | row => [("line", .count), ("cells", .list .text)]
  | step =>
    [("keyword", .word), ("expression", .text), ("pos", .record position),
      ("table", .list (.list .text)), ("status", .any), ("attachments", .list (.record attachment)),
      ("stepdef", .optional (.record scenario))]
  | background =>
    [("name", .text), ("description", .list .text), ("steps", .list (.record step))]
  | examples =>
    [("name", .text), ("description", .list .text), ("table", .list (.record row)),
      ("scenarios", .list (.record scenario))]
  | scenario =>
    [("tags", .list .text), ("name", .text), ("description", .list .text),
      ("background", .optional (.record background)), ("steps", .list (.record step)),
      ("is_outline", .flag), ("examples", .list (.record examples)),
      ("meta_file", .optional .text), ("pos", .record position)]
  | header => [("name", .text), ("description", .list .text), ("tags", .list .text)]
  | feature =>
    [("feature", .record header), ("background", .optional (.record background)),
      ("scenarios", .list (.record scenario)), ("file", .optional .text),
      ("metas", .list (.record feature))]

end RecordKind

namespace Shape

/-- The shape of what is not null. -/
def core : Shape → Shape
  | optional s => core s
  | s => s

@[simp] theorem core_optional (s : Shape) : (optional s).core = s.core := rfl

/-- What a scalar of this shape says. Null is an empty list and a record without fields. -/
def ofScalar? (s : Yaml.Scalar) : Shape → Option Json
  | any => some s.toJson
  | text => some (.str s.text)
  | count => (Yaml.count? s.text).map .nat
  | flag => (Yaml.truth? s.text).map .bool
  | word => some (.str s.text)
  | list _ => if s.isNull then some (.arr []) else none
  | optional shape => if s.isNull then some .null else ofScalar? s shape
  | record _ => if s.isNull then some (.obj []) else none

end Shape

namespace Json

mutual

/-- The document with every record as an object, and every word as a text that may have been given
as a key of null. What does not fit the shape is left as it is. -/
def keyed (shape : Shape) : Json → Json
  | arr items =>
    match shape.core with
    | .list s => arr (keyedItems s items)
    | .record kind =>
      if items.length ≤ kind.fields.length then obj (keyedInOrder kind.fields items) else arr items
    | _ => arr items
  | obj fields =>
    match shape.core, fields with
    | .record kind, _ => obj (keyedFields kind.fields fields)
    | .word, [(name, null)] => str name
    | _, _ => obj fields
  | v => v

def keyedItems (shape : Shape) : List Json → List Json
  | [] => []
  | v :: vs => keyed shape v :: keyedItems shape vs

def keyedInOrder : List (String × Shape) → List Json → List (String × Json)
  | (key, shape) :: shapes, v :: vs => (key, keyed shape v) :: keyedInOrder shapes vs
  | _, _ => []

def keyedFields (shapes : List (String × Shape)) : List (String × Json) → List (String × Json)
  | [] => []
  | (key, v) :: fields =>
    (key, keyed ((shapes.lookup key).getD .any) v) :: keyedFields shapes fields

end

end Json

namespace Yaml

/-- A word that is given as a key of null. -/
def word? : List (Scalar × Yaml) → Option Json
  | [(k, scalar s)] => if s.isNull then some (.str k.text) else none
  | _ => none

mutual

/-- The document as a JSON value, if it has the shape. Fields that a record does not have are left
out. -/
def shaped? (shape : Shape) : Yaml → Option Json
  | scalar s => shape.ofScalar? s
  | seq items =>
    match shape.core with
    | .list s => (shapedItems? s items).map .arr
    | .any => some (toJson (seq items))
    | _ => none
  | map entries =>
    match shape.core with
    | .record kind => (shapedEntries? kind.fields entries).map .obj
    | .any => some (toJson (map entries))
    | .word => word? entries
    | _ => none

def shapedItems? (shape : Shape) : List Yaml → Option (List Json)
  | [] => some []
  | y :: ys => do some ((← shaped? shape y) :: (← shapedItems? shape ys))

def shapedEntries? (shapes : List (String × Shape)) :
    List (Scalar × Yaml) → Option (List (String × Json))
  | [] => some []
  | (k, y) :: entries =>
    match shapes.lookup k.text with
    | some shape => do some ((k.text, ← shaped? shape y) :: (← shapedEntries? shapes entries))
    | none => shapedEntries? shapes entries

end

end Yaml

end Gherkin

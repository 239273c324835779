import Gherkin.Feature
import Gherkin.Shape

/-!
Features as documents. Writing leaves out what is empty or absent, and reading supplies it again; a
field that no record knows is passed over.
-/

namespace Gherkin

namespace Json

def fields? : Json → Option (List (String × Json))
  | obj fields => some fields
  | _ => none

/-- The fields of a record, given as an object or as the list of its fields in order. -/
def record? (keys : List String) : Json → Option (List (String × Json))
  | obj fields => some fields
  | arr items => if items.length ≤ keys.length then some (keys.zip items) else none
  | _ => none

/-- The value of a field that must be there. -/
def need (fields : List (String × Json)) (key : String) (read : Json → Option α) : Option α :=
  (fields.lookup key).bind read

/-- The value of a field, or `default` if the field is missing. -/
def orDefault (fields : List (String × Json)) (key : String) (default : α)
    (read : Json → Option α) : Option α :=
  match fields.lookup key with
  | none => some default
  | some v => read v

/-- Nothing for `null`, and otherwise what `read` makes of the value. -/
def optional? (read : Json → Option α) : Json → Option (Option α)
  | null => some none
  | v => (read v).map some

def list? (read : Json → Option α) : Json → Option (List α)
  | arr items => items.mapM read
  | _ => none

def strings? : Json → Option (List String) := list? str?

/-- The field, unless it is left out. -/
def fieldIf (present : Bool) (key : String) (value : Json) : List (String × Json) :=
  if present then [(key, value)] else []

end Json

open Json

namespace Duration

def toJson (d : Duration) : Json :=
  obj [("secs", nat d.seconds), ("nanos", nat d.subsecond)]

/-- Nanoseconds have 32 bits, and whole seconds among them carry over. -/
def ofJson? (j : Json) : Option Duration := do
  let fields ← record? ["secs", "nanos"] j
  let secs ← need fields "secs" nat?
  let nanos ← need fields "nanos" nat?
  if fields.all (fun (k, _) => k == "secs" || k == "nanos") && nanos < UInt32.size then
    ofNanos? (secs * nanosPerSecond + nanos)
  else none

end Duration

namespace Status

def toJson (s : Status) : Json :=
  obj (("status", str s.keyword) :: match s with
    | passed d => [("duration", d.toJson)]
    | failed d c => [("duration", d.toJson), ("cause", str c)]
    | _ => [])

/-- The fields of the status of that name in order. -/
def keys : String → List String
  | "Passed" => ["status", "duration"]
  | "Failed" => ["status", "duration", "cause"]
  | _ => ["status"]

/-- The fields of a status. Given as a list none of them may be missing. -/
def fields? : Json → Option (List (String × Json))
  | obj fields => some fields
  | arr (str name :: items) =>
    if items.length + 1 = (keys name).length then some ((keys name).zip (str name :: items))
    else none
  | _ => none

def ofJson? (j : Json) : Option Status := do
  let fields ← fields? j
  match ← need fields "status" str? with
  | "Passed" => (need fields "duration" Duration.ofJson?).map passed
  | "Failed" => do
    some (failed (← need fields "duration" Duration.ofJson?) (← need fields "cause" str?))
  | "Skipped" => some skipped
  | "Pending" => some pending
  | "Loaded" => some loaded
  | _ => none

end Status

namespace Tag

def toJson (t : Tag) : Json := str t.render

def ofJson? (j : Json) : Option Tag := do
  match parse (← j.str?) with
  | .ok t => some t
  | .error _ => none

end Tag

namespace Keyword

def ofJson? (j : Json) : Option Keyword := j.str?.bind ofName?

end Keyword

namespace Position

def toJson (p : Position) : Json :=
  obj [("line", nat p.line), ("column", nat p.column)]

def ofJson? (j : Json) : Option Position := do
  let fields ← j.fields?
  some { line := ← need fields "line" nat?, column := ← need fields "column" nat? }

end Position

namespace Attachment

def toJson (a : Attachment) : Json :=
  obj [("name", str a.name), ("file", str a.file)]

def ofJson? (j : Json) : Option Attachment := do
  let fields ← j.fields?
  some { name := ← need fields "name" str?, file := ← need fields "file" str? }

end Attachment

namespace Row

def toJson (r : Row) : Json :=
  obj [("line", nat r.line), ("cells", strings r.cells)]

def ofJson? (j : Json) : Option Row := do
  let fields ← j.fields?
  some { line := ← orDefault fields "line" 0 nat?, cells := ← need fields "cells" strings? }

end Row

namespace Header

def toJson (h : Header) : Json :=
  obj [("name", str h.name), ("description", strings h.description),
    ("tags", arr (h.tags.map Tag.toJson))]

def ofJson? (j : Json) : Option Header := do
  let fields ← j.fields?
  some { name := ← need fields "name" str?
         description := ← orDefault fields "description" [] strings?
         tags := ← orDefault fields "tags" [] (list? Tag.ofJson?) }

end Header

mutual

def Step.toJson : Step → Json
  | ⟨keyword, expression, pos, table, status, attachments, body⟩ =>
    obj ([("keyword", str keyword.render), ("expression", str expression), ("pos", pos.toJson)]
      ++ fieldIf (!table.isEmpty) "table" (arr (table.map strings))
      ++ [("status", status.toJson)]
      ++ fieldIf (!attachments.isEmpty) "attachments" (arr (attachments.map Attachment.toJson))
      ++ Scenario.bodyToFields body)

def Scenario.bodyToFields : Option Scenario → List (String × Json)
  | none => []
  | some s => [("stepdef", s.toJson)]

def Step.listToJson : List Step → List Json
  | [] => []
  | s :: ss => s.toJson :: Step.listToJson ss

def Background.toJson : Background → Json
  | ⟨name, description, steps⟩ =>
    obj [("name", str name), ("description", strings description),
      ("steps", arr (Step.listToJson steps))]

def Background.toFields : Option Background → List (String × Json)
  | none => []
  | some b => [("background", b.toJson)]

def Examples.toJson : Examples → Json
  | ⟨name, description, table, scenarios⟩ =>
    obj ([("name", str name), ("description", strings description),
        ("table", arr (table.map Row.toJson))]
      ++ fieldIf (!scenarios.isEmpty) "scenarios" (arr (Scenario.listToJson scenarios)))

def Examples.listToJson : List Examples → List Json
  | [] => []
  | e :: es => e.toJson :: Examples.listToJson es

def Scenario.toJson : Scenario → Json
  | ⟨tags, name, description, background, steps, isOutline, examples, metaFile, pos⟩ =>
    obj ([("tags", arr (tags.map Tag.toJson)), ("name", str name),
        ("description", strings description)]
      ++ Background.toFields background
      ++ [("steps", arr (Step.listToJson steps)), ("is_outline", bool isOutline)]
      ++ fieldIf (!examples.isEmpty) "examples" (arr (Examples.listToJson examples))
      ++ fieldIf metaFile.isSome "meta_file" (opt str metaFile)
      ++ [("pos", pos.toJson)])

def Scenario.listToJson : List Scenario → List Json
  | [] => []
  | s :: ss => s.toJson :: Scenario.listToJson ss

end

mutual

def Feature.toJson : Feature → Json
  | ⟨header, background, scenarios, file, metas⟩ =>
    obj ([("feature", header.toJson)]
      ++ Background.toFields background
      ++ [("scenarios", arr (Scenario.listToJson scenarios))]
      ++ fieldIf file.isSome "file" (opt str file)
      ++ fieldIf (!metas.isEmpty) "metas" (arr (Feature.listToJson metas)))

def Feature.listToJson : List Feature → List Json
  | [] => []
  | f :: fs => f.toJson :: Feature.listToJson fs

end

mutual

/-- Reads a step whose records are objects. -/
def Step.ofRecord? : Json → Option Step
  | obj fields => do
    some { keyword := ← need fields "keyword" Keyword.ofJson?
           expression := ← need fields "expression" str?
           pos := ← orDefault fields "pos" {} Position.ofJson?
           table := ← orDefault fields "table" [] (list? strings?)
           status := ← orDefault fields "status" .pending Status.ofJson?
           attachments := ← orDefault fields "attachments" [] (list? Attachment.ofJson?)
           body := ← Scenario.bodyIn? fields }
  | _ => none

/-- The field `stepdef`, which may be missing or `null`. -/
def Scenario.bodyIn? : List (String × Json) → Option (Option Scenario)
  | [] => some none
  | (key, v) :: rest =>
    if key == "stepdef" then
      match v with
      | null => some none
      | v => (Scenario.ofRecord? v).map some
    else Scenario.bodyIn? rest

def Step.listIn? : List (String × Json) → Option (List Step)
  | [] => some []
  | (key, v) :: rest => if key == "steps" then Step.ofList? v else Step.listIn? rest

def Step.ofList? : Json → Option (List Step)
  | arr items => Step.ofItems? items
  | _ => none

def Step.ofItems? : List Json → Option (List Step)
  | [] => some []
  | v :: vs => do some ((← Step.ofRecord? v) :: (← Step.ofItems? vs))

def Background.ofRecord? : Json → Option Background
  | obj fields => do
    some { name := ← orDefault fields "name" "" str?
           description := ← orDefault fields "description" [] strings?
           steps := ← Step.listIn? fields }
  | _ => none

/-- The field `background`, which may be missing or `null`. -/
def Background.in? : List (String × Json) → Option (Option Background)
  | [] => some none
  | (key, v) :: rest =>
    if key == "background" then
      match v with
      | null => some none
      | v => (Background.ofRecord? v).map some
    else Background.in? rest

def Examples.ofRecord? : Json → Option Examples
  | obj fields => do
    some { name := ← orDefault fields "name" "" str?
           description := ← orDefault fields "description" [] strings?
           table := ← orDefault fields "table" [] (list? Row.ofJson?)
           scenarios := ← Scenario.listIn? fields }
  | _ => none

def Examples.listIn? : List (String × Json) → Option (List Examples)
  | [] => some []
  | (key, v) :: rest => if key == "examples" then Examples.ofList? v else Examples.listIn? rest

def Examples.ofList? : Json → Option (List Examples)
  | arr items => Examples.ofItems? items
  | _ => none

def Examples.ofItems? : List Json → Option (List Examples)
  | [] => some []
  | v :: vs => do some ((← Examples.ofRecord? v) :: (← Examples.ofItems? vs))

def Scenario.ofRecord? : Json → Option Scenario
  | obj fields => do
    some { tags := ← orDefault fields "tags" [] (list? Tag.ofJson?)
           name := ← need fields "name" str?
           description := ← orDefault fields "description" [] strings?
           background := ← Background.in? fields
           steps := ← Step.listIn? fields
           isOutline := ← orDefault fields "is_outline" false bool?
           examples := ← Examples.listIn? fields
           metaFile := ← orDefault fields "meta_file" none (optional? str?)
           pos := ← orDefault fields "pos" {} Position.ofJson? }
  | _ => none

def Scenario.listIn? : List (String × Json) → Option (List Scenario)
  | [] => some []
  | (key, v) :: rest => if key == "scenarios" then Scenario.ofList? v else Scenario.listIn? rest

def Scenario.ofList? : Json → Option (List Scenario)
  | arr items => Scenario.ofItems? items
  | _ => none

def Scenario.ofItems? : List Json → Option (List Scenario)
  | [] => some []
  | v :: vs => do some ((← Scenario.ofRecord? v) :: (← Scenario.ofItems? vs))

end

mutual

def Feature.ofRecord? : Json → Option Feature
  | obj fields => do
    some { header := ← need fields "feature" Header.ofJson?
           background := ← Background.in? fields
           scenarios := ← Scenario.listIn? fields
           file := ← orDefault fields "file" none (optional? str?)
           metas := ← Feature.metasIn? fields }
  | _ => none

def Feature.metasIn? : List (String × Json) → Option (List Feature)
  | [] => some []
  | (key, v) :: rest => if key == "metas" then Feature.ofList? v else Feature.metasIn? rest

def Feature.ofList? : Json → Option (List Feature)
  | arr items => Feature.ofItems? items
  | _ => none

def Feature.ofItems? : List Json → Option (List Feature)
  | [] => some []
  | v :: vs => do some ((← Feature.ofRecord? v) :: (← Feature.ofItems? vs))

end

def Scenario.ofJson? (j : Json) : Option Scenario :=
  Scenario.ofRecord? (j.keyed (.record .scenario))

def Feature.ofJson? (j : Json) : Option Feature :=
  Feature.ofRecord? (j.keyed (.record .feature))

def Feature.ofYaml? (y : Yaml) : Option Feature :=
  (y.shaped? (.record .feature)).bind Feature.ofRecord?

end Gherkin

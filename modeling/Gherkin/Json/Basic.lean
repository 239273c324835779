import Gherkin.Number.Binary64

/-!
JSON values. The fields of an object keep their order.
-/

namespace Gherkin

inductive Json where
  | null
  | bool (value : Bool)
  | int (value : Int)
  | float (value : Binary64)
  | str (value : String)
  | arr (items : List Json)
  | obj (fields : List (String × Json))

namespace Json

instance : Inhabited Json := ⟨null⟩

/-- The value of a field; `none` if the field is missing or this is no object. -/
def field? (key : String) : Json → Option Json
  | obj fields => (fields.find? (·.1 == key)).map (·.2)
  | _ => none

def str? : Json → Option String
  | str s => some s
  | _ => none

def bool? : Json → Option Bool
  | bool b => some b
  | _ => none

def nat? : Json → Option Nat
  | int i => if i < 0 then none else some i.toNat
  | _ => none

def arr? : Json → Option (List Json)
  | arr items => some items
  | _ => none

def nat (n : Nat) : Json := int n

def strings (ss : List String) : Json := arr (ss.map str)

/-- The value, or `null` for nothing. -/
def opt (encode : α → Json) : Option α → Json
  | none => null
  | some a => encode a

/-- Key and text of each field, as two-element arrays. -/
def pairs (ps : List (String × String)) : Json :=
  arr (ps.map fun (k, v) => strings [k, v])

end Json

end Gherkin

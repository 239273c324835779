/-!
YAML documents: scalars, sequences and mappings. A scalar is a text; whether quotes stood around it
decides what else it may mean.
-/

namespace Gherkin

structure Yaml.Scalar where
  text : String
  /-- No quotes stood around the text. -/
  plain : Bool
deriving DecidableEq, Repr

inductive Yaml where
  | scalar (value : Yaml.Scalar)
  | seq (items : List Yaml)
  | map (entries : List (Yaml.Scalar × Yaml))

namespace Yaml

/-- What stands where a document has room for a scalar and holds none. -/
def Scalar.missing : Scalar := { text := "~", plain := true }

instance : Inhabited Scalar := ⟨.missing⟩

instance : Inhabited Yaml := ⟨scalar .missing⟩

/-- The scalar that a node consists of; only such a node may be a key. -/
def scalar? : Yaml → Option Scalar
  | scalar s => some s
  | _ => none

/-- A scalar without quotes that says that there is nothing. -/
def Scalar.isNull (s : Scalar) : Bool :=
  s.plain && (s.text == "" || s.text == "~" || s.text.toList.map Char.toLower == "null".toList)

/-- The key under which a mapping takes over the entries of others. -/
def Scalar.isMerge (s : Scalar) : Bool :=
  s.plain && s.text == "<<"

@[simp] theorem Scalar.isNull_missing : Scalar.missing.isNull = true := by decide

end Yaml

end Gherkin

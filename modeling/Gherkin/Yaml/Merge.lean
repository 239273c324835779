import Gherkin.Yaml.Basic

/-!
Mappings may take over the entries of other mappings under the key `<<`. A mapping's own entries
count before those, and of those the ones that were taken over last. No mapping may hold a key of
its own twice.
-/

namespace Gherkin.Yaml

/-- A node seen from two sides: as a value, if it is well formed, and as what it lends to a mapping
that takes it over, if it can be taken over. An entry is lent even if its value is malformed. -/
structure Merged where
  value : Option Yaml
  lent : Option (List (Scalar × Option Yaml))

/-- The first entry of each key. -/
def firstOfEach (entries : List (Scalar × α)) : List (Scalar × α) :=
  entries.foldr (fun e rest => e :: rest.filter (·.1.text != e.1.text)) []

namespace Merged

/-- Nothing can be taken over from a scalar, except for nothing. -/
def ofScalar (s : Scalar) : Merged :=
  { value := some (scalar s), lent := if s.isNull then some [] else none }

/-- A sequence lends what each of its items lends, the last item first. -/
def ofItems (items : List Merged) : Merged :=
  { value := (items.mapM value).map seq
    lent := (items.mapM lent).map fun groups => groups.reverse.flatten }

def ofEntries (entries : List (Scalar × Merged)) : Merged :=
  let (taken, own) := entries.partition fun e => e.1.isMerge
  let lent := (taken.mapM fun e => lent e.2).map fun groups =>
    own.map (fun (k, m) => (k, m.value)) ++ groups.reverse.flatten
  let complete (all : List (Scalar × Option Yaml)) : Option Yaml := do
    guard (own.map (·.1.text)).Nodup
    map (← (firstOfEach all).mapM fun (k, v) => v.map (k, ·))
  { value := lent.bind complete, lent }

end Merged

mutual

def merged : Yaml → Merged
  | scalar s => .ofScalar s
  | seq items => .ofItems (mergedItems items)
  | map entries => .ofEntries (mergedEntries entries)

def mergedItems : List Yaml → List Merged
  | [] => []
  | y :: ys => merged y :: mergedItems ys

def mergedEntries : List (Scalar × Yaml) → List (Scalar × Merged)
  | [] => []
  | (k, y) :: es => (k, merged y) :: mergedEntries es

end

/-- The document with everything taken over in place. -/
def merge? (y : Yaml) : Option Yaml :=
  y.merged.value

end Gherkin.Yaml

import Gherkin.Yaml.Token

/-!
The nodes that tokens make up. Readers take one form off the front of the tokens and give back the
rest. The first argument of each bounds the recursion, and the second says how many collections may
still be opened inside one another.
-/

namespace Gherkin.Yaml

def missing : Yaml := scalar .missing

namespace Token

/-- No node stands between a key's or a value's token in a block and this token. -/
def endsBlockNode : Token → Bool
  | key | value | blockEnd => true
  | _ => false

/-- No node stands between the token of a key in braces and this token. -/
def endsFlowKey : Token → Bool
  | value | flowEntry | flowMapEnd | flowSeqEnd => true
  | _ => false

/-- No node stands between the token of a value between brackets and this token. -/
def endsFlowValue : Token → Bool
  | flowEntry | flowMapEnd | flowSeqEnd => true
  | _ => false

end Token

/-- The tokens behind the comma before an entry that is not the first. -/
def dropComma? (first : Bool) (ts : List Token) : Option (List Token) :=
  match ts with
  | .flowEntry :: r => if first then some ts else some r
  | _ => if first then some ts else none

/-- The next token is of the kind. -/
def nextIs (p : Token → Bool) (ts : List Token) : Bool :=
  (ts.head?.map p).getD false

mutual

/-- Reads a node. A block may begin only where `block` holds, and the items of a sequence may stand
at the column of the key before it only where `flush` holds. -/
def readNode : Nat → Nat → Bool → Bool → List Token → Option (Yaml × List Token)
  | 0, _, _, _, _ => none
  | _, _, _, _, .scalar s :: r => some (scalar s, r)
  | _, 0, _, _, _ => none
  | fuel + 1, room + 1, block, flush, ts =>
    match ts with
    | .flowSeqStart :: r => (readFlowItems fuel room true r).map fun (ys, r) => (seq ys, r)
    | .flowMapStart :: r => (readFlowEntries fuel room true r).map fun (es, r) => (map es, r)
    | .blockSeqStart :: r =>
      if block then (readItems fuel room true r).map fun (ys, r) => (seq ys, r) else none
    | .blockMapStart :: r =>
      if block then (readEntries fuel room r).map fun (es, r) => (map es, r) else none
    | .blockEntry :: _ =>
      if flush then (readItems fuel room false ts).map fun (ys, r) => (seq ys, r) else none
    | _ => none

/-- Reads the items of a block, which has a token at its end if it is `closed`. -/
def readItems : Nat → Nat → Bool → List Token → Option (List Yaml × List Token)
  | 0, _, _, _ => none
  | fuel + 1, room, closed, ts =>
    match ts with
    | .blockEntry :: r => do
      let isMissing := nextIs (fun t => t == .blockEntry || t == .blockEnd) r ||
        (!closed && nextIs Token.endsBlockNode r)
      let (y, r) ← if isMissing then some (missing, r) else readNode fuel room true false r
      (readItems fuel room closed r).map fun (ys, r) => (y :: ys, r)
    | .blockEnd :: r => if closed then some ([], r) else some ([], ts)
    | _ => if closed then none else some ([], ts)

/-- Reads the entries of a block up to its end. -/
def readEntries : Nat → Nat → List Token → Option (List (Scalar × Yaml) × List Token)
  | 0, _, _ => none
  | fuel + 1, room, ts =>
    match ts with
    | .blockEnd :: r => some ([], r)
    | .key :: r => do
      let (k, r) ← if nextIs Token.endsBlockNode r then some (missing, r)
        else readNode fuel room true true r
      readEntry fuel room (← k.scalar?) r
    | .value :: _ => readEntry fuel room .missing ts
    | _ => none

/-- Reads the value of a key and the entries behind it. -/
def readEntry : Nat → Nat → Scalar → List Token → Option (List (Scalar × Yaml) × List Token)
  | 0, _, _, _ => none
  | fuel + 1, room, k, ts => do
    let (y, r) ← match ts with
      | .value :: r =>
        if nextIs Token.endsBlockNode r then some (missing, r) else readNode fuel room true true r
      | _ => some (missing, ts)
    (readEntries fuel room r).map fun (es, r) => ((k, y) :: es, r)

/-- Reads the items between square brackets. A key among them makes a mapping of one entry. -/
def readFlowItems : Nat → Nat → Bool → List Token → Option (List Yaml × List Token)
  | 0, _, _, _ => none
  | _, _, _, .flowSeqEnd :: r => some ([], r)
  | fuel + 1, room, first, ts => do
    match ← dropComma? first ts with
    | .flowSeqEnd :: r => some ([], r)
    | .key :: r =>
      let inner ← if room = 0 then none else some (room - 1)
      let (k, r) ← readFlowKey fuel inner r
      let (y, r) ← readFlowValue fuel inner r
      (readFlowItems fuel room false r).map fun (ys, r) => (map [(k, y)] :: ys, r)
    | r => do
      let (y, r) ← readNode fuel room false false r
      (readFlowItems fuel room false r).map fun (ys, r) => (y :: ys, r)

/-- Reads the entries between braces. A node that is no key is one without a value. -/
def readFlowEntries : Nat → Nat → Bool → List Token → Option (List (Scalar × Yaml) × List Token)
  | 0, _, _, _ => none
  | _, _, _, .flowMapEnd :: r => some ([], r)
  | fuel + 1, room, first, ts => do
    match ← dropComma? first ts with
    | .flowMapEnd :: r => some ([], r)
    | .key :: r =>
      let (k, r) ← readFlowKey fuel room r
      let (y, r) ← readFlowValue fuel room r
      (readFlowEntries fuel room false r).map fun (es, r) => ((k, y) :: es, r)
    | .value :: r =>
      let (y, r) ← readFlowValue fuel room (.value :: r)
      (readFlowEntries fuel room false r).map fun (es, r) => ((.missing, y) :: es, r)
    | r => do
      let (k, r) ← readNode fuel room false false r
      let k ← k.scalar?
      (readFlowEntries fuel room false r).map fun (es, r) => ((k, missing) :: es, r)

def readFlowKey : Nat → Nat → List Token → Option (Scalar × List Token)
  | 0, _, _ => none
  | fuel + 1, room, ts =>
    if nextIs Token.endsFlowKey ts then some (.missing, ts)
    else do
      let (k, r) ← readNode fuel room false false ts
      some (← k.scalar?, r)

/-- Reads the value behind a key, which is missing if no colon follows the key. -/
def readFlowValue : Nat → Nat → List Token → Option (Yaml × List Token)
  | 0, _, _ => none
  | fuel + 1, room, ts =>
    match ts with
    | .value :: r =>
      if nextIs Token.endsFlowValue r then some (missing, r) else readNode fuel room false false r
    | _ => some (missing, ts)

end

end Gherkin.Yaml

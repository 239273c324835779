import Gherkin.Yaml.Quoted
import Gherkin.Yaml.Token

/-!
Cutting a text into tokens. Indentation opens and closes blocks, and a token turns out to begin a
key only when the colon behind it comes; until then it is a candidate, and no token from it on is
final. `tokens` yields what is final when the text can be cut no further.

This is a part of YAML only. What begins a block scalar (`|` and `>`), an anchor (`&`), an alias
(`*`), a tag (`!`), a directive (`%`) or a key that is told to be one (`?`) is cut off as broken.
-/

namespace Gherkin.Yaml

/-- A token that may yet begin a key. -/
structure Candidate where
  /-- Its place among the tokens. -/
  token : Nat
  spot : Spot
  /-- It stands where its block allows nothing but a key. -/
  required : Bool

/-- An indentation that was left for a deeper one. -/
structure Level where
  indent : Int
  /-- The deeper one belongs to a block and not to a value that has begun on its key's line. -/
  isBlock : Bool

structure Lexer where
  rest : Spots
  /-- The tokens so far, backwards. -/
  tokens : List Token := []
  count : Nat := 0
  /-- A candidate for each bracket that is open, the innermost first, and one outside of them. -/
  keys : List (Option Candidate) := [none]
  /-- The next token may begin a key. -/
  mayKey : Bool := true
  /-- The column of the current block, or -1 outside of any. -/
  indent : Int := -1
  levels : List Level := []
  /-- The number of open brackets. -/
  depth : Nat := 0
  /-- A brace has opened since the last pair without one ended. -/
  braced : Bool := false
  /-- For each open square bracket the depth at which a key stands between its commas without a
  brace before it, if one does. -/
  pairs : List (Option Nat) := []
  /-- Where a value may follow its colon without a blank, because its key was in quotes or
  brackets. -/
  adjacent : Nat := 0

namespace Lexer

/-- At most this many brackets are open at a time. -/
def maxBrackets : Nat := 255

/-- A key on a line of its own is no longer than this. -/
def maxKey : Nat := 1024

def here (lx : Lexer) : Spot :=
  lx.rest.headD { char := endChar }

def push (t : Token) (lx : Lexer) : Lexer :=
  { lx with tokens := t :: lx.tokens, count := lx.count + 1 }

/-- Puts a token before the one at this place. -/
def insert (place : Nat) (t : Token) (lx : Lexer) : Lexer :=
  let (later, earlier) := lx.tokens.splitAt (lx.count - place)
  { lx with tokens := later ++ t :: earlier, count := lx.count + 1 }

/-- Goes on behind so many characters. -/
def skip (n : Nat) (lx : Lexer) : Lexer :=
  { lx with rest := lx.rest.drop n }

/-- Skips blanks and a comment up to the end of the line. -/
def skipBlanks? (lx : Lexer) : Option Lexer :=
  lx.rest.skipBlanks?.map fun (_, rest) => { lx with rest }

/-- Gives up the levels that lie right of a column; counts the blocks among them. -/
def closeLevels (column : Int) (indent : Int) : List Level → Nat × Int × List Level
  | [] => (0, indent, [])
  | l :: ls =>
    if indent > column then
      let (n, rest) := closeLevels column l.indent ls
      (if l.isBlock then n + 1 else n, rest)
    else (0, indent, l :: ls)

/-- Ends the blocks that lie right of a column. Between brackets columns have no such meaning. -/
def unroll (column : Int) (lx : Lexer) : Lexer :=
  if lx.depth > 0 then lx
  else
    let (n, indent, levels) := closeLevels column lx.indent lx.levels
    n.repeat (push .blockEnd) { lx with indent, levels }

/-- Gives up the levels of values that have begun on their key's line. -/
def dropHanging (lx : Lexer) : Lexer :=
  let hanging := lx.levels.takeWhile (!·.isBlock)
  { lx with levels := lx.levels.drop hanging.length
            indent := (hanging.getLast?.map (·.indent)).getD lx.indent }

/-- What follows has to stand one column further right than the block. -/
def hang (lx : Lexer) : Lexer :=
  if lx.depth = 0 && (lx.levels.head?.map (·.isBlock)).getD false then
    { lx with levels := { indent := lx.indent, isBlock := false } :: lx.levels
              indent := lx.indent + 1 }
  else lx

/-- Begins a block at a column, with a token before the one at `place`, unless it has begun. -/
def openBlock (column : Int) (place : Nat) (t : Token) (lx : Lexer) : Lexer :=
  if lx.depth > 0 then lx
  else
    let lx := match lx.levels with
      | [] => lx
      | l :: ls =>
        if lx.indent ≤ column && !l.isBlock then { lx with indent := l.indent, levels := ls }
        else lx
    if lx.indent < column then
      insert place t
        { lx with levels := { indent := lx.indent, isBlock := true } :: lx.levels, indent := column }
    else lx

/-- Makes the next token a candidate, if it may begin a key. -/
def saveKey (lx : Lexer) : Lexer :=
  let spot := lx.here
  let required := lx.depth = 0 && lx.indent = spot.column &&
    (lx.levels.head?.map (·.isBlock)).getD false
  if lx.mayKey then
    { lx with keys := some { token := lx.count, spot, required } :: lx.keys.drop 1 }
  else lx

/-- The innermost candidate is none any more; fails if it had to become a key. -/
def forgetKey? (lx : Lexer) : Option Lexer :=
  match lx.keys with
  | some k :: ks => if k.required then none else some { lx with keys := none :: ks }
  | _ => some lx

/-- Outside of brackets a key is not longer than its line, nor than `maxKey`. -/
def retireKey? (lx : Lexer) : Option Lexer :=
  match lx.keys with
  | some k :: _ =>
    if lx.depth = 0 &&
        (k.spot.line < lx.here.line || k.spot.index + maxKey < lx.here.index) then lx.forgetKey?
    else some lx
  | _ => some lx

/-- Skips blanks, line ends and comments. A tab must not indent what belongs to a block. -/
def skipGap? (lx : Lexer) : Spots → Bool → Bool → Option (Spots × Bool)
  | [], _, newline => some ([], newline)
  | x :: rest, inComment, newline =>
    let c := x.char
    if isBreak c then skipGap? lx rest false true
    else if isEnd c then some (x :: rest, newline)
    else if inComment || c == '#' then skipGap? lx rest true newline
    else if isInline c then
      if c == '\t' && !lx.levels.isEmpty && x.fresh && x.column < lx.indent &&
          !Spots.isBare (x :: rest) then none
      else skipGap? lx rest false newline
    else some (x :: rest, newline)

def nextContent? (lx : Lexer) : Option Lexer :=
  (lx.skipGap? lx.rest false false).map fun (rest, newline) =>
    { lx with rest, mayKey := lx.mayKey || (newline && lx.depth = 0) }

/-- Ends the pair without a brace, if one is open at this depth. -/
def endPair (lx : Lexer) : Lexer :=
  match lx.pairs with
  | some depth :: rest =>
    if depth = lx.depth then push .flowMapEnd { lx with braced := false, pairs := none :: rest }
    else lx
  | _ => lx

def flowStart? (t : Token) (lx : Lexer) : Option Lexer := do
  let lx := lx.saveKey.hang
  guard (lx.depth < maxBrackets)
  let lx := { lx with depth := lx.depth + 1, keys := none :: lx.keys, mayKey := true }
  let lx := if t == .flowMapStart then { lx with braced := true }
    else { lx with pairs := none :: lx.pairs }
  return (← (lx.skip 1).skipBlanks?).push t

def flowEnd? (t : Token) (lx : Lexer) : Option Lexer := do
  let lx ← lx.forgetKey?
  let lx := if t == .flowSeqEnd then { lx.endPair with pairs := lx.pairs.drop 1 } else lx
  let lx := if lx.depth > 0 then { lx with depth := lx.depth - 1, keys := lx.keys.drop 1 } else lx
  let lx ← (lx.skip 1).skipBlanks?
  return push t
    { lx with mayKey := false
              adjacent := if lx.depth > 0 then lx.here.index else lx.adjacent }

def flowEntry? (lx : Lexer) : Option Lexer := do
  let lx := { (← lx.forgetKey?) with mayKey := true }
  return (← (lx.endPair.skip 1).skipBlanks?).push .flowEntry

/-- A dash opens an item where a key could stand too. -/
def blockEntry? (lx : Lexer) : Option Lexer := do
  guard (lx.depth = 0 && lx.mayKey)
  let lx := lx.openBlock lx.here.column lx.count .blockSeqStart
  let (blanks, rest) ← (lx.skip 1).rest.skipBlanks?
  let c := rest.charAt 0
  if blanks.contains '\t' && c == '-' && !isContent (rest.charAt 1) then none
  else
    let lx := { lx with rest }
    let lx ← (if isBreak c || isFlowIndicator c then lx.hang else lx).forgetKey?
    return { lx with mayKey := true }.push .blockEntry

/-- Skips the blanks behind a colon. A word must not follow a tab alone. -/
def skipTab? (lx : Lexer) : Option Lexer :=
  if lx.here.char != '\t' then some lx
  else do
    let (blanks, rest) ← lx.rest.skipBlanks?
    let c := rest.charAt 0
    guard (blanks.contains ' ' || !(c.isAlphanum || c == '_' || c == '-'))
    return { lx with rest }

/-- A colon makes the candidate a key. Without one its key is empty. -/
def value? (lx : Lexer) : Option Lexer := do
  let spot := lx.here
  let bare := !lx.pairs.isEmpty && !lx.braced
  let lx := if bare then { lx with pairs := some lx.depth :: lx.pairs.drop 1 } else lx
  let lx ← (lx.skip 1).skipTab?
  match lx.keys with
  | some k :: ks =>
    guard (!bare || k.spot.line = spot.line)
    let lx := { lx with keys := none :: ks, mayKey := false }.insert k.token .key
    let lx := if bare then lx.insert k.token .flowMapStart else lx
    return (lx.openBlock k.spot.column k.token .blockMapStart).hang.push .value
  | _ =>
    guard (lx.depth > 0 || lx.mayKey)
    let lx := if bare then lx.push .flowMapStart else lx
    let lx := (lx.openBlock spot.column lx.count .blockMapStart).hang
    return { lx with mayKey := lx.depth = 0 }.push .value

/-- A colon between brackets whose value follows without a blank. -/
def flowValue? (lx : Lexer) : Option Lexer := do
  let next := lx.rest.charAt 1
  guard (lx.here.index = lx.adjacent || !(next == '[' || next == '\x7b'))
  lx.value?

def plain? (lx : Lexer) : Option Lexer := do
  let lx := { lx.saveKey with mayKey := false }.dropHanging
  guard (lx.depth = 0 || lx.indent < lx.here.column)
  let (text, rest) ← lx.rest.plain? (lx.depth > 0) lx.indent
  let lx := { lx with rest }
  return { lx with mayKey := lx.here.fresh }.push (.scalar { text, plain := true })

/-- Nothing may follow a scalar in quotes on its line but what structures the document. -/
def quoted? (lx : Lexer) : Option Lexer := do
  let start := lx.here
  let lx := { lx.saveKey with mayKey := false }
  let (text, rest) ← lx.rest.quoted? lx.indent
  let lx ← { lx with rest }.skipBlanks?
  let c := lx.here.char
  let follows := if lx.depth > 0 then c == ',' || c == ']' || c == '\x7d' || c == ':'
    else c == ':' && start.line = lx.here.line
  guard (follows || isBreak c || isEnd c)
  return { lx with adjacent := lx.here.index }.push (.scalar { text, plain := false })

/-- Ends every block and forgets the candidates, which must not have had to become keys. -/
def endAll? (t : Token) (lx : Lexer) : Option Lexer := do
  guard (lx.keys.all fun k => (k.map (!·.required)).getD true)
  return { lx with keys := lx.keys.map fun _ => none, mayKey := false }.unroll (-1) |>.push t

/-- Reads the marker at the start or the end of a document. Nothing may follow the latter. -/
def marker? (t : Token) (lx : Lexer) : Option Lexer := do
  let lx := (← (lx.unroll (-1)).forgetKey?).skip 3
  let lx := { lx with mayKey := false }.push t
  if t == .documentStart then return lx
  let lx ← lx.skipBlanks?
  guard (!isContent lx.here.char)
  return lx

/-- Characters that begin neither a token nor a scalar without quotes: those of anchors, aliases, tags
and directives, and two that YAML has no use for. -/
def isReserved (c : Char) : Bool :=
  "&*!%@".toList.contains c || c == Char.ofNat 0x60

/-- Reads the token that begins here. -/
def token? (lx : Lexer) : Option Lexer :=
  let spot := lx.here
  let c := spot.char
  let next := lx.rest.charAt 1
  if isEnd c then lx.endAll? .streamEnd
  else if spot.column = 0 && lx.rest.atStartMarker then lx.marker? .documentStart
  else if spot.column = 0 && lx.rest.atEndMarker then lx.marker? .documentEnd
  else if spot.column < lx.indent then none
  else if c == '[' then lx.flowStart? .flowSeqStart
  else if c == '\x7b' then lx.flowStart? .flowMapStart
  else if c == ']' then lx.flowEnd? .flowSeqEnd
  else if c == '\x7d' then lx.flowEnd? .flowMapEnd
  else if c == ',' then lx.flowEntry?
  else if c == '-' && !isContent next then lx.blockEntry?
  else if c == ':' && !isContent next then lx.value?
  else if c == ':' && lx.depth > 0 && (isFlowIndicator next || spot.index = lx.adjacent) then
    lx.flowValue?
  else if c == '\'' || c == '"' then lx.quoted?
  else if isReserved c || (c == '?' && !isContent next) then none
  else if lx.depth = 0 && (c == '|' || c == '>') then none
  else lx.plain?

/-- Reads the next token of the text, and those that its position implies before it. -/
def next? (lx : Lexer) : Option Lexer := do
  let lx ← (← lx.nextContent?).retireKey?
  (lx.unroll lx.here.column).token?

/-- The number of tokens before the first candidate. -/
def settled (lx : Lexer) : Nat :=
  lx.keys.foldl (fun n k => (k.map fun k => min n k.token).getD n) lx.count

/-- Reads tokens to the end, where the first `sure` of them were final before the last one. -/
def run : Nat → Nat → Lexer → List Token
  | 0, _, _ => [.broken]
  | fuel + 1, sure, lx =>
    match lx.retireKey? with
    | none => lx.tokens.reverse.take sure ++ [.broken]
    | some lx =>
      match lx.next? with
      | none => lx.tokens.reverse.take lx.settled ++ [.broken]
      | some after =>
        if after.tokens.head? = some .streamEnd then after.tokens.reverse
        else run fuel lx.settled after

end Lexer

/-- The tokens of a text. The last of them is `streamEnd` or `broken`. -/
def tokens (text : Spots) : List Token :=
  Lexer.run (text.length + 1) 0 { rest := text }

end Gherkin.Yaml

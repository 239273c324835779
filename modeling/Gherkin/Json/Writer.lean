import Gherkin.Json.Basic

/-!
Two written forms of a JSON value: without any blanks, and with a line for each item.
-/

namespace Gherkin.Json

/-- Numbers are written without an exponent from `0.00001` up to sixteen digits before the point. -/
def numberLayout : Binary64.Layout := { lowest := -5, highest := 16 }

def hexDigit (n : Nat) : Char :=
  (Nat.toDigits 16 n).headD '0'

/-- Control characters, quotes and backslashes are escaped, and nothing else. -/
def escapeChar (c : Char) : List Char :=
  if c = '"' then ['\\', '"']
  else if c = '\\' then ['\\', '\\']
  else if c.toNat = 8 then ['\\', 'b']
  else if c.toNat = 12 then ['\\', 'f']
  else if c = '\n' then ['\\', 'n']
  else if c = '\r' then ['\\', 'r']
  else if c = '\t' then ['\\', 't']
  else if c.toNat < 32 then
    ['\\', 'u', '0', '0', hexDigit (c.toNat / 16), hexDigit (c.toNat % 16)]
  else [c]

def quote (s : String) : String :=
  "\"" ++ String.ofList (s.toList.flatMap escapeChar) ++ "\""

def scalar : Json → String
  | null => "null"
  | bool b => if b then "true" else "false"
  | int i => toString i
  | float x => x.render numberLayout
  | str s => quote s
  | arr _ => "[]"
  | obj _ => "\x7b\x7d"

mutual

/-- The value on one line, without blanks. -/
def compact : Json → String
  | arr items => "[" ++ ",".intercalate (compactItems items) ++ "]"
  | obj fields => "\x7b" ++ ",".intercalate (compactFields fields) ++ "\x7d"
  | v => scalar v

def compactItems : List Json → List String
  | [] => []
  | v :: vs => compact v :: compactItems vs

def compactFields : List (String × Json) → List String
  | [] => []
  | (k, v) :: fs => (quote k ++ ":" ++ compact v) :: compactFields fs

end

/-- Items on lines of their own between two brackets; nothing between the brackets if there is no
item. -/
def block (opening closing indent : String) (items : List String) : String :=
  if items.isEmpty then opening ++ closing
  else
    let line := "\n" ++ indent ++ "  "
    opening ++ line ++ ("," ++ line).intercalate items ++ "\n" ++ indent ++ closing

mutual

/-- The value with an item on each line, two blanks deeper at each level. -/
def prettyAt (indent : String) : Json → String
  | arr items => block "[" "]" indent (prettyItems (indent ++ "  ") items)
  | obj fields => block "\x7b" "\x7d" indent (prettyFields (indent ++ "  ") fields)
  | v => scalar v

def prettyItems (indent : String) : List Json → List String
  | [] => []
  | v :: vs => prettyAt indent v :: prettyItems indent vs

def prettyFields (indent : String) : List (String × Json) → List String
  | [] => []
  | (k, v) :: fs => (quote k ++ ": " ++ prettyAt indent v) :: prettyFields indent fs

end

def pretty (v : Json) : String :=
  prettyAt "" v

end Gherkin.Json

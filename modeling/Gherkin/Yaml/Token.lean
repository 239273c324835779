import Gherkin.Yaml.Basic

/-!
The tokens that a document consists of. Where a block begins or ends, and what is a key, shows in
the text by position only; each of these has a token of its own.
-/

namespace Gherkin.Yaml

inductive Token where
  | documentStart
  | documentEnd
  | blockSeqStart
  | blockMapStart
  | blockEnd
  | flowSeqStart
  | flowSeqEnd
  | flowMapStart
  | flowMapEnd
  /-- The dash before an item of a block. -/
  | blockEntry
  /-- The comma between brackets. -/
  | flowEntry
  | key
  | value
  | scalar (value : Scalar)
  | streamEnd
  /-- From here on the text is no sequence of tokens. -/
  | broken
deriving DecidableEq

namespace Token

/-- A document whose first token is this one holds something. -/
def opensNode : Token → Bool
  | scalar _ | flowSeqStart | flowMapStart | blockSeqStart | blockMapStart => true
  | _ => false

/-- A document ends before this token. -/
def endsDocument : Token → Bool
  | documentStart | documentEnd | streamEnd => true
  | _ => false

end Token

end Gherkin.Yaml

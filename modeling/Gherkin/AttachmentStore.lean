import Gherkin.Feature
import Gherkin.FileSystem

/-!
Attachments are files numbered in the order in which they are written, all in one directory. A
store without a directory writes nothing. Numbers have 32 bits: after the last of them they begin
again, with zero.
-/

namespace Gherkin

structure AttachmentStore where
  dir : Option Path := none
  /-- The last number given out, also if the file could not be written. -/
  used : UInt32 := 0
  entries : List Attachment := []
  /-- All files, with those written to this store. -/
  files : FileSystem := {}

namespace AttachmentStore

def isEnabled (s : AttachmentStore) : Bool :=
  s.dir.isSome

/-- There are `n` more numbers before they begin again. -/
def HasRoom (s : AttachmentStore) (n : Nat) : Prop :=
  s.used.toNat + n < UInt32.size

instance (s : AttachmentStore) (n : Nat) : Decidable (s.HasRoom n) :=
  inferInstanceAs (Decidable (_ < _))

/-- Letters and digits of ASCII in lower case, with a dash for every other character. -/
def stem (name : String) : String :=
  String.ofList (name.toList.map fun c => if c.isAlphanum then c.toLower else '-')

def fileName (number : Nat) (name extension : String) : String :=
  String.ofList (Text.zeroPadded 4 number) ++ "-" ++ stem name ++ "." ++ extension

/-- What came of writing an attachment. -/
inductive Outcome where
  | disabled
  | written (a : Attachment)
  | failed
deriving DecidableEq, Repr

/-- Writes an attachment under the next number. The number is used up once the directory is
there. -/
def attach (s : AttachmentStore) (name extension : String) (content : ByteArray) :
    Outcome × AttachmentStore :=
  match s.dir with
  | none => (.disabled, s)
  | some dir =>
    match s.files.makeDirs? dir with
    | none => (.failed, s)
    | some files =>
      let s := { s with used := s.used + 1, files }
      let file := dir.join (fileName s.used.toNat name extension)
      match files.write? file content with
      | none => (.failed, s)
      | some files =>
        let a : Attachment := { name, file }
        (.written a, { s with entries := s.entries ++ [a], files })

/-- Nothing comes before every name. -/
def nameLe : Option String → Option String → Bool
  | none, _ => true
  | some _, none => false
  | some a, some b => a ≤ b

/-- The attachments in the order of their file names. -/
def list (s : AttachmentStore) : List Attachment :=
  s.entries.mergeSort fun a b => nameLe a.file.fileName? b.file.fileName?

end AttachmentStore

end Gherkin

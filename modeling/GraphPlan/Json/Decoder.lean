import GraphPlan.Json.Document

/-!
How documents stand for typed values.

A record is an object with its fields in any order, or an array with its fields in their declared order.
An alternative is the text of its name, or an object whose one key is its name and whose value is its
payload. A decoder is told how many brackets it may still open, so the nesting of what is used is
bounded; a part that is left unused, as the value of an unknown key, is not looked into.
-/

namespace GraphPlan

/-- Reads a value from a document within a number of nested brackets. -/
abbrev Decoder (α : Type) := Nat → Document → Option α

/-- The nesting that a text may have. -/
def nestingLimit : Nat := 127

def Decoder.run {α : Type} (decode : Decoder α) (text : String) : Option α :=
  (Document.ofText text).bind (decode nestingLimit)

namespace Decoder

variable {α β : Type}

def text : Decoder String
  | _, .text s => some s
  | _, _ => none

def bool : Decoder Bool
  | _, .bool b => some b
  | _, _ => none

/-- Only an integer spelling within 32 bits. -/
def word : Decoder UInt32
  | _, .number (.int z) => if 0 ≤ z.val ∧ z.val < 0x100000000 then some z.val.toNat.toUInt32 else none
  | _, _ => none

def list (decode : Decoder α) : Decoder (List α)
  | depth + 1, .array items => items.mapM (decode depth)
  | _, _ => none

def pair (first : Decoder α) (second : Decoder β) : Decoder (α × β)
  | depth + 1, .array [a, b] => do some (← first depth a, ← second depth b)
  | _, _ => none

/-- Members in the order in which they are written. -/
def members (decode : Decoder α) : Decoder (List (String × α))
  | depth + 1, .object ms => ms.mapM fun (key, d) => (decode depth d).map (key, ·)
  | _, _ => none

/-- A value or, in its place, nothing. -/
def nullable (decode : Decoder α) : Decoder (Option α)
  | _, .null => some none
  | depth, d => (decode depth d).map some

end Decoder

/-- The fields that a record was given. -/
abbrev Fields := List (String × Document)

namespace Fields

variable {α : Type}

def get? (fields : Fields) (name : String) : Option Document :=
  (fields.find? (·.1 == name)).map (·.2)

/-- A field that must be there. -/
def required (fields : Fields) (name : String) (decode : Document → Option α) : Option α :=
  (fields.get? name).bind decode

/-- A field that may be left out, but not given wrongly. -/
def optional (fields : Fields) (name : String) (decode : Document → Option α) (default : α) :
    Option α :=
  match fields.get? name with
  | none => some default
  | some d => decode d

end Fields

namespace Document

/-- The given ones of the declared fields. An object may have other keys too, unless the record is
closed, but none of the declared ones twice; an array may break off early. -/
def fields (names : List String) (closed : Bool) : Document → Option Fields
  | .object members =>
    let known := members.filter fun (key, _) => names.contains key
    if (known.map Prod.fst).Nodup ∧ ¬(closed ∧ known.length < members.length) then some known
    else none
  | .array items => if items.length ≤ names.length then some (names.zip items) else none
  | _ => none

end Document

namespace Decoder

variable {α : Type}

/-- A record is one bracket around its fields. -/
def record (names : List String) (build : Fields → Nat → Option α) : Decoder α
  | depth + 1, d => (d.fields names false).bind (build · depth)
  | 0, _ => none

/-- A record that admits no other keys. -/
def closedRecord (names : List String) (build : Fields → Nat → Option α) : Decoder α
  | depth + 1, d => (d.fields names true).bind (build · depth)
  | 0, _ => none

/-- An alternative without payload, by its name. -/
def tag (value? : String → Option α) : Decoder α
  | _, .text name => value? name
  | _ + 1, .object [(name, .null)] => value? name
  | _, _ => none

end Decoder

end GraphPlan

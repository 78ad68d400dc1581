import TreeEditor.Json.Reader
import TreeEditor.Table
import TreeEditor.Text.Numeral

/-!
# Decoding JSON

A decoder turns a JSON value into a value of the domain, or refuses it. It is given the number of
arrays and objects that the value may still nest; what a decoder does not look at may nest deeper.

Three kinds of form occur:

* a *record* is an object with named fields in any order, further fields being ignored and a
  repeated one refused, or an array of the fields in their order, in which fields with a default
  may be left off at the end;
* a *choice* is an object with one member, named for the alternative, or for an alternative
  without content just its name;
* a *table* is an object whose members are the entries.
-/

namespace TreeEditor.Json

/-- How deep a text may nest arrays and objects. -/
def depthLimit : Nat := 127

/-- A reading of JSON values that may nest so many further arrays and objects. -/
abbrev Decoder (α : Type) := Nat → Json → Option α

/-- The first number beyond the signed 64-bit numbers. -/
def signedBound : Int := Nat.pow 2 63

namespace Decoder

/-- A truth value. -/
def bool : Decoder Bool
  | _, .bool b => some b
  | _, _ => none

/-- A text. -/
def text : Decoder String
  | _, .str s => some s
  | _, _ => none

/-- A position or count. -/
def position : Decoder Nat
  | _, .int n => if 0 ≤ n ∧ n < Text.positionBound then some n.toNat else none
  | _, _ => none

/-- A handle's half: a natural number of 32 bits. -/
def word : Decoder Nat
  | _, .int n => if 0 ≤ n ∧ n < Nat.pow 2 32 then some n.toNat else none
  | _, _ => none

/-- A signed distance. -/
def distance : Decoder Int
  | _, .int n => if -signedBound ≤ n ∧ n < signedBound then some n else none
  | _, _ => none

/-- A value that may be `null`. -/
def nullable {α : Type} (decode : Decoder α) : Decoder (Option α)
  | _, .null => some none
  | depth, value => (decode depth value).map some

/-- An array of values. -/
def list {α : Type} (decode : Decoder α) : Decoder (List α)
  | depth + 1, .arr items => items.mapM (decode depth)
  | _, _ => none

/-- An object of entries; a repeated name keeps its first place and takes the last value. -/
def table {α : Type} (decode : Decoder α) : Decoder (Table String α)
  | depth + 1, .obj members =>
    (members.mapM fun member => (decode depth member.2).map (member.1, ·)).map Table.ofList
  | _, _ => none

/-- The alternatives of a choice: given the name and the content that came with it, if any. -/
def choice {α : Type} (alternative : Nat → String → Option Json → Option α) : Decoder α
  | depth, .str name => alternative depth name none
  | depth + 1, .obj [(name, content)] => alternative depth name (some content)
  | _, _ => none

end Decoder

/-! ## Records -/

/-- What is left to read of a record. -/
inductive Fields where
  | named (members : List (String × Json))
  | listed (items : List Json)

/-- A reading of some fields of a record. -/
abbrev Record (α : Type) := Fields → Option (α × Fields)

namespace Record

variable {α β : Type}

/-- Reads one part of a record and then another one. -/
def andThen (first : Record α) (next : α → Record β) : Record β := fun fields => do
  let (a, fields) ← first fields
  next a fields

instance : Monad Record where
  pure a fields := some (a, fields)
  bind := andThen

/-- The value given for a field: its member, or the next item. A member may not be repeated. -/
def given (name : String) : Record (Option Json)
  | .named members =>
    match members.filter (·.1 = name) with
    | [] => some (none, .named members)
    | [(_, value)] => some (some value, .named members)
    | _ => none
  | .listed [] => some (none, .listed [])
  | .listed (item :: items) => some (some item, .listed items)

/-- A field that must be given. -/
def required (name : String) (decode : Json → Option α) : Record α := fun fields => do
  let (value, fields) ← given name fields
  return (← decode (← value), fields)

/-- A field with a value for its absence. -/
def defaulted (name : String) (default : α) (decode : Json → Option α) : Record α :=
  fun fields => do
    let (value, fields) ← given name fields
    match value with
    | none => return (default, fields)
    | some value => return (← decode value, fields)

/-- A field that an object may leave off, but not an array. -/
def omittable (name : String) (decode : Json → Option (Option α)) : Record (Option α) :=
  fun fields => do
    let (value, fields) ← given name fields
    match value, fields with
    | none, .named _ => return (none, fields)
    | none, .listed _ => none
    | some value, _ => return (← decode value, fields)

end Record

/-- A record: an object, or an array without items left over. -/
def Decoder.record {α : Type} (body : Nat → Record α) : Decoder α
  | depth + 1, .obj members => (body depth (.named members)).map Prod.fst
  | depth + 1, .arr items =>
    match body depth (.listed items) with
    | some (value, .listed []) => some value
    | _ => none
  | _, _ => none

/-- The value that a decoder reads from a JSON value within the limit of depth. -/
def decodeValue {α : Type} (decode : Decoder α) (value : Json) : Option α :=
  decode depthLimit value

/-- The value that a decoder reads from a text. -/
def decodeText {α : Type} (decode : Decoder α) (text : String) : Option α :=
  (parse text).bind (decodeValue decode)

end TreeEditor.Json

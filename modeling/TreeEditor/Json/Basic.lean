/-!
# JSON values

The values that a JSON text can hold, as far as the documents of the editor need them. Integers of
64 bits are kept exactly; of every other number only its presence is kept, because no form of the
editor accepts one. A text may hold parts that cannot be kept at all (a string with half of a
surrogate pair, a number beyond every finite one); such a part is `garbled`, and it is an error
only where its value is asked for.
-/

namespace TreeEditor

/-- A JSON value; the members of an object keep their order and their repetitions. -/
inductive Json where
  | null
  | bool (value : Bool)
  /-- An integer without fraction or exponent that fits 64 bits, signed or unsigned. -/
  | int (value : Int)
  /-- Any other finite number, the negative zero included. -/
  | real
  | str (value : String)
  | arr (items : List Json)
  | obj (members : List (String × Json))
  | garbled
deriving Inhabited

namespace Json

/-- A count as a JSON number. -/
def nat (n : Nat) : Json := .int n

/-- A list of texts. -/
def strs (texts : List String) : Json := .arr (texts.map .str)

/-- A value that may be absent, absence being written as `null`. -/
def ofOption (value : Option Json) : Json := value.getD .null

mutual

/-- Nothing in the value is garbled and it nests at most `depth` arrays and objects. -/
def fits : Nat → Json → Bool
  | _, .null | _, .bool _ | _, .int _ | _, .real | _, .str _ => true
  | _, .garbled => false
  | 0, .arr _ | 0, .obj _ => false
  | depth + 1, .arr items => fitsAll depth items
  | depth + 1, .obj members => fitsMembers depth members

/-- Every item fits. -/
def fitsAll : Nat → List Json → Bool
  | _, [] => true
  | depth, item :: rest => fits depth item && fitsAll depth rest

/-- The value of every member fits. -/
def fitsMembers : Nat → List (String × Json) → Bool
  | _, [] => true
  | depth, (_, value) :: rest => fits depth value && fitsMembers depth rest

end

end Json

end TreeEditor

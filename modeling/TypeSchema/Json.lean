/-!
# JSON values

Numbers are kept as they are written, and objects keep their members in order, repeated keys
included; `settle` leaves the last member of every key.
-/

namespace TypeSchema

/-- A number as it is written: sign, whole part, and the digits of a fraction and an exponent. -/
structure Json.Number where
  negative : Bool := false
  whole : Nat
  fraction : Option String := none
  exponent : Option String := none
  deriving DecidableEq, Repr

/-- A JSON value. -/
inductive Json where
  | null
  | bool (b : Bool)
  | number (n : Json.Number)
  | string (s : String)
  | array (items : List Json)
  | object (members : List (String × Json))
  deriving Repr, Inhabited

namespace Json

/-- The natural number `n` as a value. -/
def ofNat (n : Nat) : Json := .number { whole := n }

/-- Whether a number is written as an integer and fits into a signed or an unsigned word of 64 bits.
Negative zero does not count. -/
def Number.isWord (n : Number) : Bool :=
  n.fraction.isNone && n.exponent.isNone &&
    if n.negative then 0 < n.whole && n.whole ≤ Nat.pow 2 63 else n.whole < Nat.pow 2 64

/-- The members of an object that count: of several with one key, the last. -/
def settle : List (String × Json) → List (String × Json)
  | [] => []
  | (key, v) :: members =>
    if members.any fun m => m.1 == key then settle members else (key, v) :: settle members

/-- The value under a key. -/
def member? (members : List (String × Json)) (key : String) : Option Json :=
  (settle members).lookup key

end Json

end TypeSchema

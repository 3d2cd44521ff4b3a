/-!
# JSON values

The tree form of JSON. A number is an integer divided by a power of ten, as it
was written: one without a fraction has scale zero, and `1.0` is `10` at scale
one, which is not a whole number to a reader that asks for one.

A record is read from an object by field name or from an array by position;
fields that the record does not have are ignored, and an array must not be
longer than the record.
-/

namespace HornResolution

inductive Json where
  | null
  | bool (b : Bool)
  | number (mantissa : Int) (scale : Nat)
  | string (s : String)
  | array (items : List Json)
  | object (fields : List (String × Json))
deriving Inhabited

namespace Json

def ofNat (n : Nat) : Json := .number n 0

/-- A whole number that fits in 32 bits. -/
def toWord? : Json → Option Nat
  | .number (.ofNat n) 0 => if n < 4294967296 then some n else none
  | _ => none

def toString? : Json → Option String
  | .string s => some s
  | _ => none

def isNumber : Json → Bool
  | .number _ _ => true
  | _ => false

/-- Whether the value can hold a record of the given number of fields. -/
def isRecord (width : Nat) : Json → Bool
  | .object _ => true
  | .array items => items.length ≤ width
  | _ => false

/-- The field of a record that is named or stands at a position. -/
def field? (position : Nat) (name : String) : Json → Option Json
  | .object fields => fields.lookup name
  | .array items => items[position]?
  | _ => none

/-- The items of a field that holds an array. -/
def items? (position : Nat) (name : String) (j : Json) : Option (List Json) :=
  match j.field? position name with
  | some (.array items) => some items
  | _ => none

/-- The text of a field that holds a string. -/
def text? (position : Nat) (name : String) (j : Json) : Option String :=
  (j.field? position name).bind toString?

/-- A field that may be missing or null; any other value has to be readable. -/
def optional? {α : Type} (read : Json → Option α) (position : Nat) (name : String) (j : Json) :
    Option (Option α) :=
  match j.field? position name with
  | none => some none
  | some .null => some none
  | some value => (read value).map some

end Json

end HornResolution

/-!
# Json/Value — JSON values

Objects keep their fields in written order. A number is an integer when it is written as one, and
otherwise its text is kept.
-/

namespace SwiftStyle

/-- A JSON value. -/
inductive Json where
  | null
  | boolean (b : Bool)
  | integer (i : Int)
  | decimal (text : String)
  | string (text : String)
  | array (items : List Json)
  | object (fields : List (String × Json))
deriving Repr, Inhabited

namespace Json

/-- The value of a field, when the value is an object that has it. -/
def field? (j : Json) (key : String) : Option Json :=
  match j with
  | object fields => (fields.find? (·.1 == key)).map (·.2)
  | _ => none

/-- The text of a string. -/
def asString? : Json → Option String
  | string text => some text
  | _ => none

/-- The truth value of a boolean. -/
def asBoolean? : Json → Option Bool
  | boolean b => some b
  | _ => none

/-- The items of an array. -/
def asArray? : Json → Option (List Json)
  | array items => some items
  | _ => none

/-- The number, when it is an integer from 0 up to the largest in 64 bits. -/
def asCount? : Json → Option Nat
  | integer (.ofNat n) => if n < Nat.pow 2 64 then some n else none
  | _ => none

end Json

end SwiftStyle

/-
**JSON values.**

A value keeps what a reader of schemas can ask of a JSON text: objects keep their members in the
order in which the text gives them, and a number keeps the decimal that was written.

* `Json.Number` — an integer of the supported range, or any other decimal;
* `Json.Value` — a JSON value; `Json.Members` — the members of an object;
* `Json.Value.inductionOn` — induction along the parts of a value;
* `Json.Kind` — the six kinds of value and the names they go by in messages.
-/

import SchemaAudit.Record

set_option relaxedAutoImplicit false
set_option autoImplicit false

namespace SchemaAudit.Json

/-! ### Values -/

/-- A number of a JSON text. -/
inductive Number where
  /-- An integer between `-2^63` and `2^64 - 1` that was written without fraction or exponent. -/
  | int (value : Int)
  /-- Any other number: plus or minus `digits * 10 ^ exponent`. -/
  | decimal (negative : Bool) (digits : Nat) (exponent : Int)
deriving DecidableEq, Inhabited

/-- A JSON value. -/
inductive Value where
  | null
  | bool (value : Bool)
  | number (value : Number)
  | string (text : String)
  | array (items : List Value)
  | object (members : List (String × Value))
deriving Inhabited

/-- The members of an object, in the order of the text; no key occurs twice. -/
abbrev Members := Record Value

/-- What holds of a value as soon as it holds of its items or members holds of all values. -/
theorem Value.inductionOn {motive : Value → Prop} (value : Value)
    (null : motive .null) (bool : ∀ value, motive (.bool value))
    (number : ∀ value, motive (.number value)) (string : ∀ text, motive (.string text))
    (array : ∀ items : List Value, (∀ item ∈ items, motive item) → motive (.array items))
    (object : ∀ members : Members, (∀ member ∈ members, motive member.2) →
      motive (.object members)) :
    motive value :=
  match value with
  | .null => null
  | .bool value => bool value
  | .number value => number value
  | .string text => string text
  | .array items =>
    array items fun item h =>
      have := List.sizeOf_lt_of_mem h
      inductionOn item null bool number string array object
  | .object members =>
    object members fun member h =>
      have := List.sizeOf_lt_of_mem h
      inductionOn member.2 null bool number string array object
termination_by sizeOf value
decreasing_by
  · simp only [Value.array.sizeOf_spec]
    omega
  · obtain ⟨name, value⟩ := member
    simp only [Prod.mk.sizeOf_spec] at this
    simp only [Value.object.sizeOf_spec]
    omega

/-- The text of a string value. -/
def Value.string? : Value → Option String
  | .string text => some text
  | _ => none

/-! ### Kinds -/

/-- The kinds of JSON value. -/
inductive Kind where
  | null
  | boolean
  | number
  | string
  | array
  | object
deriving DecidableEq, Inhabited

/-- The name of a kind, as messages write it. -/
def Kind.name : Kind → String
  | .null => "null"
  | .boolean => "boolean"
  | .number => "number"
  | .string => "string"
  | .array => "array"
  | .object => "object"

/-- The kind of a value. -/
def Value.kind : Value → Kind
  | .null => .null
  | .bool _ => .boolean
  | .number _ => .number
  | .string _ => .string
  | .array _ => .array
  | .object _ => .object

end SchemaAudit.Json

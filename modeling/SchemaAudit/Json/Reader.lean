/-
**Reading JSON text.**

Tokens drive a pushdown machine whose stack holds the arrays and objects that are still open. The
stack is bounded: a text that nests deeper than the limit is refused, like one that is malformed.

* `Json.Frame`, `Json.State` — an open container, and where in the grammar the machine stands. A
  repeated key keeps its first position and takes its last value;
* `Json.State.step` — the effect of one token;
* `Json.scanner` — the machine together with the automaton of `Json.Token`;
* `Json.read?`, `Json.Value.ofText?`, `Json.Value.ofBytes?` — the value of a whole text.
-/

import SchemaAudit.Json.Token

set_option relaxedAutoImplicit false
set_option autoImplicit false

namespace SchemaAudit.Json

/-! ### The machine on tokens -/

/-- A container that is still open. -/
inductive Frame where
  /-- An array with the items read so far, last first. -/
  | array (items : List Value)
  /-- An object with the members read so far; `key` waits for its value. -/
  | object (members : Members) (key : String)

/-- Where the machine stands. -/
inductive State where
  /-- A value must follow. -/
  | expectValue (stack : List Frame)
  /-- An array was opened: its first item or its end must follow. -/
  | expectItem (stack : List Frame)
  /-- In an object, a key must follow, or its end if it was just opened. -/
  | expectKey (first : Bool) (members : Members) (stack : List Frame)
  /-- In an object, the colon after a key must follow. -/
  | expectColon (members : Members) (name : String) (stack : List Frame)
  /-- A value has been read. -/
  | complete (value : Value) (stack : List Frame)

/-- The effect of the first token of a value. At most `limit` containers are open at once. -/
def State.begin (limit : Nat) (stack : List Frame) : Token → Option State
  | .string text => some (.complete (.string text) stack)
  | .word value => some (.complete value stack)
  | .openBracket => if stack.length < limit then some (.expectItem stack) else none
  | .openBrace => if stack.length < limit then some (.expectKey true [] stack) else none
  | _ => none

/-- The effect of one token. -/
def State.step (limit : Nat) : State → Token → Option State
  | .expectValue stack, token => begin limit stack token
  | .expectItem stack, .closeBracket => some (.complete (.array []) stack)
  | .expectItem stack, token => begin limit (.array [] :: stack) token
  | .expectKey true members stack, .closeBrace => some (.complete (.object members) stack)
  | .expectKey _ members stack, .string name => some (.expectColon members name stack)
  | .expectColon members name stack, .colon => some (.expectValue (.object members name :: stack))
  | .complete value (.array items :: stack), .comma =>
    some (.expectValue (.array (value :: items) :: stack))
  | .complete value (.array items :: stack), .closeBracket =>
    some (.complete (.array (value :: items).reverse) stack)
  | .complete value (.object members name :: stack), .comma =>
    some (.expectKey false (members.put name value) stack)
  | .complete value (.object members name :: stack), .closeBrace =>
    some (.complete (.object (members.put name value)) stack)
  | _, _ => none

/-- The value that has been read, once nothing is open. -/
def State.result? : State → Option Value
  | .complete value [] => some value
  | _ => none

/-! ### Whole texts -/

/-- The automaton of tokens and the machine that they drive. -/
def scanner (limit : Nat) : Scanner Mode Token State where
  step := Mode.step
  finish := Mode.finish
  drive := State.step limit

/-- The value that a sequence of characters writes, with at most `limit` nested containers. -/
def readChars? (limit : Nat) (cs : List Char) : Option Value :=
  (scanner limit).run (.between, .expectValue []) cs >>= State.result?

/-- The value that a text writes, with at most `limit` nested containers. -/
def read? (limit : Nat) (text : String) : Option Value :=
  readChars? limit text.toList

/-- The number of containers that a document may nest. -/
def maxNesting : Nat := 127

/-- The value that a document's text writes. -/
def Value.ofText? (text : String) : Option Value :=
  read? maxNesting text

/-- The value that a document's bytes write; they must be UTF-8. -/
def Value.ofBytes? (bytes : ByteArray) : Option Value :=
  String.fromUTF8? bytes >>= Value.ofText?

example : (Value.ofText? "[1, null]").isSome = true ∧ (Value.ofText? "[1,]").isNone = true := by
  decide

example : (read? 1 "[]").isSome = true ∧ (read? 1 "[[]]").isNone = true := by decide

end SchemaAudit.Json

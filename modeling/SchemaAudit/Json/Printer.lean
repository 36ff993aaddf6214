/-
**Writing JSON text.**

Containers that are not empty take one line per item, indented by two spaces for every level.
Strings escape quotes, backslashes and the control characters below the space, and nothing else.

* `Json.escape`, `Json.quote` — a character and a string between quotes;
* `Json.Value.layout`, `Json.Value.pretty` — a value, over several lines.
-/

import SchemaAudit.Json.Literal

set_option relaxedAutoImplicit false
set_option autoImplicit false

namespace SchemaAudit.Json

/-- A character as it stands within quotes. -/
def escape (c : Char) : List Char :=
  match c with
  | '"' => ['\\', '"']
  | '\\' => ['\\', '\\']
  | '\x08' => ['\\', 'b']
  | '\x0c' => ['\\', 'f']
  | '\n' => ['\\', 'n']
  | '\r' => ['\\', 'r']
  | '\t' => ['\\', 't']
  | c =>
    if c.toNat < 0x20 then
      ['\\', 'u', '0', '0', hexDigit (c.toNat / 16), hexDigit (c.toNat % 16)]
    else [c]

/-- A string between quotes. -/
def quote (text : String) : List Char :=
  '"' :: (text.toList.flatMap escape ++ ['"'])

/-- The end of a line and the indentation of the next one. -/
def lineBreak (level : Nat) : List Char :=
  '\n' :: List.replicate (2 * level) ' '

mutual

/-- The text of a value that starts within a line of the given level. -/
def Value.layout (level : Nat) : Value → List Char
  | .null => ['n', 'u', 'l', 'l']
  | .bool true => ['t', 'r', 'u', 'e']
  | .bool false => ['f', 'a', 'l', 's', 'e']
  | .number n => n.text
  | .string text => quote text
  | .array [] => ['[', ']']
  | .array (item :: items) =>
    '[' :: (lineBreak (level + 1) ++ (item.layout (level + 1) ++
      (layoutItems (level + 1) items ++ (lineBreak level ++ [']']))))
  | .object [] => ['{', '}']
  | .object ((key, value) :: members) =>
    '{' :: (lineBreak (level + 1) ++ (quote key ++ (':' :: ' ' :: (value.layout (level + 1) ++
      (layoutMembers (level + 1) members ++ (lineBreak level ++ ['}']))))))

/-- The items after the first one, each on a line of its own. -/
def layoutItems (level : Nat) : List Value → List Char
  | [] => []
  | item :: items => ',' :: (lineBreak level ++ (item.layout level ++ layoutItems level items))

/-- The members after the first one, each on a line of its own. -/
def layoutMembers (level : Nat) : List (String × Value) → List Char
  | [] => []
  | (key, value) :: members =>
    ',' :: (lineBreak level ++ (quote key ++ (':' :: ' ' :: (value.layout level ++
      layoutMembers level members))))

end

/-- The text of a value, over several lines. -/
def Value.pretty (value : Value) : String :=
  String.ofList (value.layout 0)

example : (Value.string "a\"\n\x01é").pretty = "\"a\\\"\\n\\u0001é\"" := by decide

end SchemaAudit.Json

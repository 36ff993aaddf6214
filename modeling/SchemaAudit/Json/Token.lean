/-
**Tokens of JSON text.**

The text is read one character at a time by an automaton. Its state, a `Json.Mode`, says what is
being read: nothing, a word (a number or one of `true`, `false`, `null`), or a string in one of the
stages of an escape.

* `Json.Token` — punctuation, strings, and values that are one word;
* `Json.Mode.step` — the effect of one character, with the tokens that it completes;
* `Json.Mode.finish` — the token that the end of the text completes.
-/

import SchemaAudit.Json.Literal

set_option relaxedAutoImplicit false
set_option autoImplicit false

namespace SchemaAudit.Json

/-! ### Tokens -/

/-- A token of JSON text. -/
inductive Token where
  | openBrace
  | closeBrace
  | openBracket
  | closeBracket
  | comma
  | colon
  /-- A string, its escapes resolved. -/
  | string (text : String)
  /-- `null`, `true`, `false` or a number. -/
  | word (value : Value)

/-- The value that a word stands for. -/
def Value.ofWord? : List Char → Option Value
  | ['n', 'u', 'l', 'l'] => some .null
  | ['t', 'r', 'u', 'e'] => some (.bool true)
  | ['f', 'a', 'l', 's', 'e'] => some (.bool false)
  | cs => (Number.ofChars? cs).map .number

/-! ### Characters -/

/-- The characters that separate tokens. -/
def isBlank (c : Char) : Bool :=
  c = ' ' || c = '\t' || c = '\n' || c = '\r'

/-- The characters of which numbers and the three fixed words are made. -/
def isWordChar (c : Char) : Bool :=
  c.isAlphanum || c = '+' || c = '-' || c = '.'

/-- The character that a backslash and one more character stand for. -/
def simpleEscape? : Char → Option Char
  | '"' => some '"'
  | '\\' => some '\\'
  | '/' => some '/'
  | 'b' => some '\x08'
  | 'f' => some '\x0c'
  | 'n' => some '\n'
  | 'r' => some '\r'
  | 't' => some '\t'
  | _ => none

/-- The first half of a surrogate pair. -/
def isHighSurrogate (unit : Nat) : Bool := 0xd800 ≤ unit && unit < 0xdc00

/-- The second half of a surrogate pair. -/
def isLowSurrogate (unit : Nat) : Bool := 0xdc00 ≤ unit && unit < 0xe000

/-- The character that a surrogate pair encodes. -/
def ofSurrogates (high low : Nat) : Char :=
  Char.ofNat (0x10000 + (high - 0xd800) * 0x400 + (low - 0xdc00))

/-! ### The automaton -/

/-- What is being read. Characters of a token under way are kept last first. -/
inductive Mode where
  /-- Between tokens. -/
  | between
  /-- Within a word. -/
  | word (seen : List Char)
  /-- Within a string. -/
  | text (seen : List Char)
  /-- Within a string, after a backslash. -/
  | escape (seen : List Char)
  /-- Within a string, after `\u` and `count` digits of value `unit`; `high` is the first half of
  the pair that is to be completed. -/
  | hex (seen : List Char) (high : Option Nat) (count unit : Nat)
  /-- Within a string, after the first half of a surrogate pair. -/
  | pair (seen : List Char) (high : Nat)
  /-- Within a string, after the first half of a surrogate pair and a backslash. -/
  | pairEscape (seen : List Char) (high : Nat)

/-- The effect of a character between tokens. -/
def Mode.start (c : Char) : Option (List Token × Mode) :=
  match c with
  | '{' => some ([.openBrace], .between)
  | '}' => some ([.closeBrace], .between)
  | '[' => some ([.openBracket], .between)
  | ']' => some ([.closeBracket], .between)
  | ',' => some ([.comma], .between)
  | ':' => some ([.colon], .between)
  | '"' => some ([], .text [])
  | c =>
    if isBlank c then some ([], .between)
    else if isWordChar c then some ([], .word [c])
    else none

/-- The effect of the fourth digit of a `\u` escape. A lone half of a surrogate pair is refused. -/
def Mode.closeHex (seen : List Char) (high : Option Nat) (unit : Nat) : Option Mode :=
  match high with
  | none =>
    if isHighSurrogate unit then some (.pair seen unit)
    else if isLowSurrogate unit then none
    else some (.text (Char.ofNat unit :: seen))
  | some first =>
    if isLowSurrogate unit then some (.text (ofSurrogates first unit :: seen)) else none

/-- The effect of one character: the tokens that it completes and the mode after it. -/
def Mode.step : Mode → Char → Option (List Token × Mode)
  | .between, c => start c
  | .word seen, c =>
    if isWordChar c then some ([], .word (c :: seen))
    else do
      let value ← Value.ofWord? seen.reverse
      let (tokens, mode) ← start c
      some (.word value :: tokens, mode)
  | .text seen, c =>
    if c = '"' then some ([.string (String.ofList seen.reverse)], .between)
    else if c = '\\' then some ([], .escape seen)
    else if c.toNat < 0x20 then none
    else some ([], .text (c :: seen))
  | .escape seen, c =>
    if c = 'u' then some ([], .hex seen none 0 0)
    else (simpleEscape? c).map fun e => ([], .text (e :: seen))
  | .hex seen high count unit, c => do
    let digit ← hexValue? c
    let unit := 16 * unit + digit
    if count < 3 then some ([], .hex seen high (count + 1) unit)
    else (closeHex seen high unit).map fun mode => ([], mode)
  | .pair seen high, c => if c = '\\' then some ([], .pairEscape seen high) else none
  | .pairEscape seen high, c => if c = 'u' then some ([], .hex seen (some high) 0 0) else none

/-- The tokens that the end of the text completes. Within a string there is no end. -/
def Mode.finish : Mode → Option (List Token)
  | .between => some []
  | .word seen => (Value.ofWord? seen.reverse).map fun value => [.word value]
  | _ => none

end SchemaAudit.Json

/-
**Tokens of settings files.**

Like JSON, a settings file is read one character at a time by an automaton. There are two kinds of
quotes: within double quotes a backslash escapes, within single ones every character stands for
itself. Either kind may be tripled, and the string may then run over several lines.

* `Settings.Token` — punctuation, ends of lines, words and strings;
* `Settings.Mode.step` — the effect of one character, with the tokens that it completes;
* `Settings.Mode.finish` — the tokens that the end of the file completes.
-/

import SchemaAudit.Text

set_option relaxedAutoImplicit false
set_option autoImplicit false

namespace SchemaAudit.Settings

/-! ### Tokens -/

/-- A token of a settings file. Comments and blanks leave none. -/
inductive Token where
  | newline
  | equals
  | comma
  | openBracket
  | closeBracket
  /-- A bare key or a number. -/
  | word (text : List Char)
  /-- A string on one line. -/
  | line (text : String)
  /-- A string between tripled quotes. -/
  | block (text : String)

/-- A kind of quotes. -/
inductive Quote where
  /-- Double quotes, within which a backslash escapes. -/
  | double
  /-- Single quotes, within which every character stands for itself. -/
  | single
deriving DecidableEq

/-- The character of a kind of quotes. -/
def Quote.char : Quote → Char
  | .double => '"'
  | .single => '\''

/-! ### Characters -/

/-- The characters of bare keys and numbers. -/
def isWordChar (c : Char) : Bool :=
  c.isAlphanum || c = '_' || c = '-' || c = '+'

/-- The characters that separate tokens on a line. -/
def isBlank (c : Char) : Bool := c = ' ' || c = '\t'

/-- The characters that may stand in comments and strings: all but control characters, of which
the tabulator is allowed. -/
def isPlain (c : Char) : Bool :=
  c = '\t' || (0x20 ≤ c.toNat && c.toNat ≠ 0x7f)

/-- The character that a backslash and one more character stand for. -/
def simpleEscape? : Char → Option Char
  | '"' => some '"'
  | '\\' => some '\\'
  | 'b' => some '\x08'
  | 'e' => some '\x1b'
  | 'f' => some '\x0c'
  | 'n' => some '\n'
  | 'r' => some '\r'
  | 't' => some '\t'
  | _ => none

/-- The character of a code point, unless it is out of range or half of a surrogate pair. -/
def ofCodePoint? (n : Nat) : Option Char :=
  if n.isValidChar then some (Char.ofNat n) else none

/-! ### The automaton -/

/-- What is being read. The characters of a token under way are kept last first. In the modes for
escapes, `tripled` tells in which kind of string the escape stands. -/
inductive Mode where
  /-- Between tokens. -/
  | between
  /-- Within a comment. -/
  | comment
  /-- After a carriage return that must end a line. -/
  | lineReturn
  /-- Within a word. -/
  | word (seen : List Char)
  /-- After one opening quote, or after two. -/
  | opening (quote : Quote) (two : Bool)
  /-- Within a string on one line. -/
  | line (quote : Quote) (seen : List Char)
  /-- After tripled quotes, where an end of line does not count. -/
  | blockStart (quote : Quote)
  /-- After tripled quotes and a carriage return that must end a line. -/
  | blockStartReturn (quote : Quote)
  /-- Within tripled quotes, after as many quotes as `pending` says. -/
  | block (quote : Quote) (seen : List Char) (pending : Nat)
  /-- Within tripled quotes, after a carriage return that must end a line. -/
  | blockReturn (quote : Quote) (seen : List Char)
  /-- After a backslash. -/
  | escape (tripled : Bool) (seen : List Char)
  /-- Within a numeric escape that lacks `missing + 1` digits. -/
  | hex (tripled : Bool) (seen : List Char) (missing code : Nat)
  /-- After a backslash that joins lines. Blanks and ends of lines do not count; `broken` tells
  whether there was an end of line. -/
  | joining (seen : List Char) (broken : Bool)
  /-- After a backslash that joins lines and a carriage return that must end a line. -/
  | joiningReturn (seen : List Char)

namespace Mode

/-- The mode within a string of a kind. -/
def within (tripled : Bool) (seen : List Char) : Mode :=
  if tripled then .block .double seen 0 else .line .double seen

/-- The effect of a character between tokens. -/
def start (c : Char) : Option (List Token × Mode) :=
  match c with
  | '\n' => some ([.newline], .between)
  | '\r' => some ([], .lineReturn)
  | '#' => some ([], .comment)
  | '=' => some ([.equals], .between)
  | ',' => some ([.comma], .between)
  | '[' => some ([.openBracket], .between)
  | ']' => some ([.closeBracket], .between)
  | '"' => some ([], .opening .double false)
  | '\'' => some ([], .opening .single false)
  | c =>
    if isBlank c then some ([], .between)
    else if isWordChar c then some ([], .word [c])
    else none

/-- A token that a character ends without being part of it. -/
def endWith (token : Token) (c : Char) : Option (List Token × Mode) :=
  (start c).map fun next => (token :: next.1, next.2)

/-- The effect of a character within a string on one line. -/
def stepLine (quote : Quote) (seen : List Char) (c : Char) : Option (List Token × Mode) :=
  if c = quote.char then some ([.line (String.ofList seen.reverse)], .between)
  else if quote = .double ∧ c = '\\' then some ([], .escape false seen)
  else if isPlain c then some ([], .line quote (c :: seen))
  else none

/-- The effect of a character within tripled quotes that is not a quote. -/
def stepPlain (quote : Quote) (seen : List Char) (c : Char) : Option Mode :=
  if quote = .double ∧ c = '\\' then some (.escape true seen)
  else if c = '\r' then some (.blockReturn quote seen)
  else if c = '\n' ∨ isPlain c then some (.block quote (c :: seen) 0)
  else none

/-- The string between tripled quotes that ends with the `pending` quotes read last: three of them
close it. -/
def closeBlock (quote : Quote) (seen : List Char) (pending : Nat) : Token :=
  .block (String.ofList (List.replicate (pending - 3) quote.char ++ seen).reverse)

/-- The effect of a character within tripled quotes. At most five quotes stand in a row, of which
the last three close the string. -/
def stepBlock (quote : Quote) (seen : List Char) (pending : Nat) (c : Char) :
    Option (List Token × Mode) :=
  if c = quote.char then
    if pending < 4 then some ([], .block quote seen (pending + 1))
    else some ([closeBlock quote seen (pending + 1)], .between)
  else if 3 ≤ pending then endWith (closeBlock quote seen pending) c
  else (stepPlain quote (List.replicate pending quote.char ++ seen) c).map fun mode => ([], mode)

/-- The effect of a character after a backslash. A numeric escape has two digits after `x`, four
after `u` and eight after `U`. -/
def stepEscape (tripled : Bool) (seen : List Char) (c : Char) : Option Mode :=
  if c = 'x' then some (.hex tripled seen 1 0)
  else if c = 'u' then some (.hex tripled seen 3 0)
  else if c = 'U' then some (.hex tripled seen 7 0)
  else if tripled ∧ isBlank c then some (.joining seen false)
  else if tripled ∧ c = '\n' then some (.joining seen true)
  else if tripled ∧ c = '\r' then some (.joiningReturn seen)
  else (simpleEscape? c).map fun e => within tripled (e :: seen)

/-- The effect of a digit of a numeric escape. -/
def stepHex (tripled : Bool) (seen : List Char) (missing code : Nat) (c : Char) : Option Mode := do
  let code := 16 * code + (← hexValue? c)
  match missing with
  | missing + 1 => some (.hex tripled seen missing code)
  | 0 => (ofCodePoint? code).map fun e => within tripled (e :: seen)

/-- The effect of one character: the tokens that it completes and the mode after it. -/
def step : Mode → Char → Option (List Token × Mode)
  | .between, c => start c
  | .comment, c =>
    if isPlain c then some ([], .comment)
    else if c = '\n' ∨ c = '\r' then start c
    else none
  | .lineReturn, c => if c = '\n' then some ([.newline], .between) else none
  | .word seen, c =>
    if isWordChar c then some ([], .word (c :: seen)) else endWith (.word seen.reverse) c
  | .opening quote false, c =>
    if c = quote.char then some ([], .opening quote true) else stepLine quote [] c
  | .opening quote true, c =>
    if c = quote.char then some ([], .blockStart quote) else endWith (.line "") c
  | .line quote seen, c => stepLine quote seen c
  | .blockStart quote, c =>
    if c = '\n' then some ([], .block quote [] 0)
    else if c = '\r' then some ([], .blockStartReturn quote)
    else stepBlock quote [] 0 c
  | .blockStartReturn quote, c => if c = '\n' then some ([], .block quote [] 0) else none
  | .block quote seen pending, c => stepBlock quote seen pending c
  | .blockReturn quote seen, c =>
    if c = '\n' then some ([], .block quote ('\n' :: '\r' :: seen) 0) else none
  | .escape tripled seen, c => (stepEscape tripled seen c).map fun mode => ([], mode)
  | .hex tripled seen missing code, c =>
    (stepHex tripled seen missing code c).map fun mode => ([], mode)
  | .joining seen broken, c =>
    if isBlank c then some ([], .joining seen broken)
    else if c = '\n' then some ([], .joining seen true)
    else if c = '\r' then some ([], .joiningReturn seen)
    else if broken then stepBlock .double seen 0 c
    else none
  | .joiningReturn seen, c => if c = '\n' then some ([], .joining seen true) else none

/-- The tokens that the end of the file completes. -/
def finish : Mode → Option (List Token)
  | .between | .comment => some []
  | .word seen => some [.word seen.reverse]
  | .opening _ true => some [.line ""]
  | .block quote seen pending =>
    if 3 ≤ pending then some [closeBlock quote seen pending] else none
  | _ => none

end Mode

end SchemaAudit.Settings

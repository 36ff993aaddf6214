/-
**Number literals and their range.**

A literal is an optional minus sign, a whole part without superfluous leading zeros, an optional
fraction and an optional exponent.

For its range, a number is taken as a significand of at most 64 bits times a power of ten. Both
factors are rounded to 53 significant bits, and the number is out of range when the product of the
two rounds beyond the largest double. A number that is too small for a double is never out of range.

* `Json.roundSignificand` — nearest number of 53 significant bits, a tie going to the even one;
* `Json.takeWord` — the leading digits that fit into a 64-bit word;
* `Json.inRange` — whether a significand times a power of ten is in range;
* `Json.Literal` — the parts of a literal; `Json.Literal.ofChars?` splits one;
* `Json.Literal.number?` — its number, unless it is out of range;
* `Json.Number.text` — a literal for a number.
-/

import SchemaAudit.Json.Value
import SchemaAudit.Text

set_option relaxedAutoImplicit false
set_option autoImplicit false

namespace SchemaAudit.Json

/-! ### The range of numbers -/

/-- The nearest number with 53 significant bits; of two equally near ones, the even one. -/
def roundSignificand (n : Nat) : Nat :=
  let step := Nat.pow 2 (n.log2 + 1 - 53)
  let quotient := n / step
  let rest := n % step
  let up := step < 2 * rest ∨ (2 * rest = step ∧ quotient % 2 = 1)
  (if up then quotient + 1 else quotient) * step

/-- Appends digits to `word` as long as the result fits into 64 bits. Gives the word reached and
the digits that no longer fit, from the first one that does not. -/
def takeWord (word : Nat) : List Char → Nat × List Char
  | [] => (word, [])
  | c :: rest =>
    let next := 10 * word + digitValue c
    if next < wordBound then takeWord next rest else (word, c :: rest)

/-- Numbers from here on round beyond the largest double, which is `(2^53 - 1) * 2^971`: the middle
between it and the next power of two is `(2^54 - 1) * 2^970`. -/
def overflowBound : Nat := (Nat.pow 2 54 - 1) * Nat.pow (Nat.pow 2 97) 10

/-- Whether `significand * 10 ^ exponent` is in range. -/
def inRange (significand : Nat) (exponent : Int) : Bool :=
  match exponent with
  | .negSucc _ => true
  | .ofNat e =>
    significand == 0 ||
      (e ≤ 308 && roundSignificand significand * roundSignificand (Nat.pow 10 e) < overflowBound)

/-! ### Literals -/

/-- The parts of a number literal. -/
structure Literal where
  /-- Whether a minus sign stands in front. -/
  negative : Bool
  /-- The digits of the whole part. -/
  whole : List Char
  /-- The digits after the point, if there is one. -/
  fraction : Option (List Char)
  /-- The exponent, if one is written. -/
  exponent : Option Int

/-- Splits a minus sign off. -/
def splitMinus : List Char → Bool × List Char
  | '-' :: rest => (true, rest)
  | cs => (false, cs)

/-- Splits off the whole part: one digit, or several of which the first is not zero. -/
def splitWhole? (cs : List Char) : Option (List Char × List Char) :=
  match cs.span Char.isDigit with
  | ([], _) => none
  | ('0' :: _ :: _, _) => none
  | (digits, rest) => some (digits, rest)

/-- Splits off a fraction, if a point stands in front. At least one digit follows the point. -/
def splitFraction? : List Char → Option (Option (List Char) × List Char)
  | '.' :: rest =>
    match rest.span Char.isDigit with
    | ([], _) => none
    | (digits, rest) => some (some digits, rest)
  | cs => some (none, cs)

/-- The digits that make up the whole of the text. -/
def allDigits? (cs : List Char) : Option Nat :=
  if cs.isEmpty || !cs.all Char.isDigit then none else some (ofDigits cs)

/-- Reads the exponent that is left at the end of a literal, if there is one. -/
def exponentPart? : List Char → Option (Option Int)
  | [] => some none
  | e :: rest =>
    if e = 'e' ∨ e = 'E' then
      match rest with
      | '-' :: digits => (allDigits? digits).map fun n => some (-(n : Int))
      | '+' :: digits => (allDigits? digits).map fun n => some (n : Int)
      | digits => (allDigits? digits).map fun n => some (n : Int)
    else none

/-- Splits a literal into its parts. -/
def Literal.ofChars? (cs : List Char) : Option Literal := do
  let (negative, rest) := splitMinus cs
  let (whole, rest) ← splitWhole? rest
  let (fraction, rest) ← splitFraction? rest
  let exponent ← exponentPart? rest
  some ⟨negative, whole, fraction, exponent⟩

/-- The significand of a literal that fits into a word, with the power of ten that places it.
Digits of the whole part that do not fit count as zeros, those of the fraction not at all. -/
def Literal.scaled (l : Literal) : Nat × Int :=
  let fraction := l.fraction.getD []
  let (word, lost) := takeWord 0 l.whole
  let (significand, dropped) := takeWord word fraction
  (significand, (lost.length : Int) - ((fraction.length - dropped.length : Nat) : Int)
    + l.exponent.getD 0)

/-- The number of a literal as it is written, range aside. -/
def Literal.number (l : Literal) : Number :=
  let fraction := l.fraction.getD []
  let digits := ofDigits (l.whole ++ fraction)
  let decimal := Number.decimal l.negative digits (l.exponent.getD 0 - (fraction.length : Int))
  if l.fraction.isSome || l.exponent.isSome then decimal
  else if l.negative then
    if digits = 0 ∨ wordBound < 2 * digits then decimal else .int (-(digits : Int))
  else if digits < wordBound then .int digits else decimal

/-- The number of a literal, unless it is out of range. -/
def Literal.number? (l : Literal) : Option Number :=
  let (significand, exponent) := l.scaled
  if inRange significand exponent then some l.number else none

/-- The number that a text writes. -/
def Number.ofChars? (cs : List Char) : Option Number :=
  Literal.ofChars? cs >>= Literal.number?

/-- A literal for a number. -/
def Number.text : Number → List Char
  | .int value => (toString value).toList
  | .decimal negative digits exponent =>
    (if negative then ['-'] else []) ++ (toString digits).toList ++
      'e' :: (toString exponent).toList

/-- A fraction or an exponent makes a decimal, whatever its value. -/
example : Number.ofChars? "15".toList = some (.int 15) ∧
    Number.ofChars? "1.5e1".toList = some (.decimal false 15 0) := by decide

/-- Too large is out of range, too small is not. -/
example : Number.ofChars? "1e309".toList = none ∧
    Number.ofChars? "1e-400".toList = some (.decimal false 1 (-400)) := by decide

end SchemaAudit.Json

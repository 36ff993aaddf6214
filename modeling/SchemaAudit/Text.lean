/-
**Digits, and reading text in two stages.**

An automaton on characters produces tokens, and the tokens drive a machine. Both stages go forward
one step at a time, so that reading a text is a fold over its characters, and what a text leads to
depends on nothing but the pair of states in which its characters are met.

* `digitValue`, `ofDigits` — the value of a decimal digit, and the number that digits write;
* `wordBound` — the bound of numbers that fit into a word;
* `hexValue?`, `hexDigit` — the value of a hexadecimal digit of either case, and a digit in lower
  case;
* `Scanner` — the two stages; `Scanner.feed`, `Scanner.run` — one character, and a whole text;
* `Scanner.run_cons` — a text is read character by character;
* `Scanner.run_of_step`, `Scanner.run_of_ends` — reading goes on from the tokens of a character, and
  from a token that ends without a character of its own;
* `Scanner.run_pieces` — characters within a token are read one after the other.
-/

set_option relaxedAutoImplicit false
set_option autoImplicit false

namespace SchemaAudit

/-! ### Digits -/

/-- The value of a decimal digit. -/
def digitValue (c : Char) : Nat := c.toNat - '0'.toNat

/-- The number that a sequence of decimal digits writes. -/
def ofDigits (digits : List Char) : Nat :=
  digits.foldl (fun n c => 10 * n + digitValue c) 0

/-- Numbers below this bound fit into a word of 64 bits. -/
def wordBound : Nat := Nat.pow 2 64

/-- The value of a hexadecimal digit of either case. -/
def hexValue? (c : Char) : Option Nat :=
  if c.isDigit then some (c.toNat - '0'.toNat)
  else if 'a' ≤ c ∧ c ≤ 'f' then some (c.toNat - 'a'.toNat + 10)
  else if 'A' ≤ c ∧ c ≤ 'F' then some (c.toNat - 'A'.toNat + 10)
  else none

/-- The digit of a value below sixteen, in lower case. -/
def hexDigit (n : Nat) : Char :=
  if n < 10 then Char.ofNat ('0'.toNat + n) else Char.ofNat ('a'.toNat + (n - 10))

/-- A digit has the value that it was made from. -/
theorem hexValue?_hexDigit {n : Nat} (h : n < 16) : hexValue? (hexDigit n) = some n := by
  have table : ∀ m ∈ List.range 16, hexValue? (hexDigit m) = some m := by decide
  exact table n (List.mem_range.2 h)

/-! ### Two stages -/

/-- An automaton with states `μ` that turns characters into tokens `τ`, and a machine with states
`σ` that they drive. A step that is refused gives `none`. -/
structure Scanner (μ τ σ : Type) where
  /-- The tokens that a character completes, and the mode after it. -/
  step : μ → Char → Option (List τ × μ)
  /-- The tokens that the end of the text completes. -/
  finish : μ → Option (List τ)
  /-- The state after a token. -/
  drive : σ → τ → Option σ

namespace Scanner

variable {μ τ σ : Type} (scanner : Scanner μ τ σ)

/-- The effect of one character. -/
def feed (position : μ × σ) (c : Char) : Option (μ × σ) := do
  let (tokens, mode) ← scanner.step position.1 c
  let state ← tokens.foldlM scanner.drive position.2
  some (mode, state)

/-- The effect of the end of the text. -/
def close (position : μ × σ) : Option σ := do
  let tokens ← scanner.finish position.1
  tokens.foldlM scanner.drive position.2

/-- The state to which a whole text leads. -/
def run (position : μ × σ) (text : List Char) : Option σ := do
  let final ← text.foldlM scanner.feed position
  scanner.close final

/-- A text is read character by character. -/
theorem run_cons (position : μ × σ) (c : Char) (text : List Char) :
    scanner.run position (c :: text) =
      (scanner.feed position c).bind fun next => scanner.run next text := by
  simp only [run, List.foldlM_cons, Option.bind_eq_bind, Option.bind_assoc]

variable {scanner} {mode next : μ} {state : σ} {text : List Char}

/-- Reading goes on from the tokens that a character completes. -/
theorem run_of_step {c : Char} {tokens : List τ} (h : scanner.step mode c = some (tokens, next)) :
    scanner.run (mode, state) (c :: text) =
      (tokens.foldlM scanner.drive state).bind fun after => scanner.run (next, after) text := by
  rw [run_cons]
  simp only [feed, h, Option.bind_eq_bind, Option.bind_some, Option.bind_assoc]

/-- A character that completes no token only changes the mode. -/
theorem run_silent {c : Char} (h : scanner.step mode c = some ([], next)) :
    scanner.run (mode, state) (c :: text) = scanner.run (next, state) text :=
  run_of_step h

/-- Characters that are read one by one, each from a piece of the text, are read one after the
other. A mode holds those that have been read, last first. -/
theorem run_pieces (within : List Char → μ) (piece : Char → List Char) {chars : List Char}
    (h : ∀ c ∈ chars, ∀ seen text, scanner.run (within seen, state) (piece c ++ text) =
      scanner.run (within (c :: seen), state) text) (seen text : List Char) :
    scanner.run (within seen, state) (chars.flatMap piece ++ text) =
      scanner.run (within (chars.reverse ++ seen), state) text := by
  induction chars generalizing seen with
  | nil => rfl
  | cons c chars ih =>
    rw [List.flatMap_cons, List.append_assoc, h c List.mem_cons_self,
      ih (fun d hd => h d (List.mem_cons_of_mem c hd)), List.reverse_cons, List.append_assoc,
      List.singleton_append]

/-- A token that ends where something else begins is completed first, and what follows means what it
means after the token. -/
theorem run_of_ends {token : τ} (hmode : scanner.finish mode = some [token])
    (hnext : scanner.finish next = some [])
    (hstep : ∀ c ∈ text.head?, scanner.step mode c =
      (scanner.step next c).map fun done => (token :: done.1, done.2)) :
    scanner.run (mode, state) text =
      (scanner.drive state token).bind fun after => scanner.run (next, after) text := by
  cases text with
  | nil => simp [run, close, hmode, hnext]
  | cons c text =>
      have hfeed : scanner.feed (mode, state) c =
          (scanner.drive state token).bind fun after => scanner.feed (next, after) c := by
        simp only [feed, hstep c rfl, Option.bind_eq_bind]
        cases scanner.step next c with
        | none => simp
        | some done => simp [List.foldlM_cons, Option.bind_assoc]
      rw [run_cons, hfeed, Option.bind_assoc]
      simp only [run_cons]

end Scanner

end SchemaAudit

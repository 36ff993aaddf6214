/-
**Tokens of a settings file are read back.**

A token may be written in several ways, and blanks and comments may stand between tokens.  This
module says which texts write which tokens, without following the automaton, and proves that a
reader which stands between two tokens is driven by just the tokens that a text writes.

Main definitions:

* `Token.Spelled` — a text for a token; `Token.EndsAt` — a text that does not go on with it;
* `Writes` — **a text that writes some tokens**.

Main results:

* `run_escape` — a character within double quotes is read back, escaped or not;
* `Token.Spelled.run` — a token is read where it ends;
* `run_writes` — **the reader is driven by the tokens that a text writes**;
* `exists_writes` — tokens that have texts can be written one after the other.
-/

import Mathlib
import SchemaAudit.Settings.Reader

set_option relaxedAutoImplicit false
set_option autoImplicit false

namespace SchemaAudit.Settings

/-! ### Texts of tokens -/

/-- A character within double quotes. -/
def escape (c : Char) : List Char :=
  if c = '"' ∨ c = '\\' then ['\\', c]
  else if isPlain c then [c]
  else ['\\', 'u', '0', '0', hexDigit (c.toNat / 16), hexDigit (c.toNat % 16)]

/-- **A text for a token.** -/
inductive Token.Spelled : Token → List Char → Prop
  | newline : Spelled .newline ['\n']
  | equals : Spelled .equals ['=']
  | comma : Spelled .comma [',']
  | openBracket : Spelled .openBracket ['[']
  | closeBracket : Spelled .closeBracket [']']
  | word {word : List Char} (nonempty : word ≠ []) (chars : ∀ c ∈ word, isWordChar c = true) :
      Spelled (.word word) word
  | double (content : String) :
      Spelled (.line content) ('"' :: (content.toList.flatMap escape ++ ['"']))
  | single {content : String} (plain : ∀ c ∈ content.toList, isPlain c = true ∧ c ≠ '\'') :
      Spelled (.line content) ('\'' :: (content.toList ++ ['\'']))

/-- The text does not go on with a token that stands in front of it. -/
def Token.EndsAt : Token → List Char → Prop
  | .word _, c :: _ => isWordChar c = false
  | .line _, c :: _ => c ≠ '"' ∧ c ≠ '\''
  | _, _ => True

/-- **The text writes the tokens**, with blanks and comments. -/
inductive Writes : List Token → List Char → Prop
  | nil : Writes [] []
  | blank {c : Char} {cs : List Char} {tokens : List Token} (blank : isBlank c = true)
      (rest : Writes tokens cs) : Writes tokens (c :: cs)
  | comment {comment cs : List Char} {tokens : List Token}
      (plain : ∀ c ∈ comment, isPlain c = true) (ends : ∀ c ∈ cs.head?, c = '\n')
      (rest : Writes tokens cs) : Writes tokens ('#' :: (comment ++ cs))
  | token {token : Token} {text cs : List Char} {tokens : List Token}
      (spelled : token.Spelled text) (ends : token.EndsAt cs) (rest : Writes tokens cs) :
      Writes (token :: tokens) (text ++ cs)

/-! ### Reading tokens -/

variable {state : State} {text cs : List Char} {token : Token} {tokens : List Token}

/-- A character that stands for itself drives the reader with its token. -/
theorem run_mark {c : Char} (h : Mode.start c = some ([token], .between)) :
    scanner.run (.between, state) (c :: cs) =
      (state.step token).bind fun next => scanner.run (.between, next) cs := by
  have step : scanner.step .between c = some ([token], .between) := h
  rw [Scanner.run_of_step step]
  simp [scanner]

theorem start_of_isWordChar {c : Char} (h : isWordChar c = true) :
    Mode.start c = some ([], .word [c]) := by
  unfold Mode.start
  split
  case h_10 =>
      have hblank : ¬isBlank c = true := by
        simp only [isBlank, Bool.or_eq_true, decide_eq_true_eq]
        rintro (rfl | rfl) <;> cases h
      rw [if_neg hblank, if_pos h]
  all_goals cases h

/-- A word is read where it ends. -/
theorem run_word {word : List Char} (hne : word ≠ []) (hword : ∀ c ∈ word, isWordChar c = true)
    (hcs : Token.EndsAt (.word word) cs) :
    scanner.run (.between, state) (word ++ cs) =
      (state.step (.word word)).bind fun next => scanner.run (.between, next) cs := by
  have step {c : Char} (hc : isWordChar c = true) (seen : List Char) :
      scanner.step (.word seen) c = some ([], .word (c :: seen)) := if_pos hc
  obtain ⟨c, rest, rfl⟩ := List.exists_cons_of_ne_nil hne
  obtain ⟨hc, hrest⟩ := List.forall_mem_cons.1 hword
  have opened : scanner.step .between c = some ([], .word [c]) := start_of_isWordChar hc
  have hseen : (rest.reverse ++ [c]).reverse = c :: rest := by simp
  have finish : scanner.finish (.word (rest.reverse ++ [c])) = some [.word (c :: rest)] := by
    rw [← hseen]
    rfl
  have body : scanner.run (.word [c], state) (rest.flatMap (fun c => [c]) ++ cs) =
      scanner.run (.word (rest.reverse ++ [c]), state) cs :=
    Scanner.run_pieces Mode.word _
      (fun c hc seen _ => Scanner.run_silent (step (hrest c hc) seen)) [c] cs
  rw [List.flatMap_singleton'] at body
  rw [List.cons_append, Scanner.run_silent opened, body]
  refine Scanner.run_of_ends finish rfl fun d hd => ?_
  cases cs with
  | nil => cases hd
  | cons e cs =>
      obtain rfl := Option.some.inj hd
      have hstep : Mode.step (.word (rest.reverse ++ [c])) e =
          Mode.endWith (.word (rest.reverse ++ [c]).reverse) e :=
        if_neg (by rw [show isWordChar e = false from hcs]; decide)
      rw [hseen] at hstep
      exact hstep

/-- A character within a string on one line. -/
theorem run_line_plain {quote : Quote} {seen : List Char} {c : Char} (hquote : c ≠ quote.char)
    (hescape : ¬(quote = .double ∧ c = '\\')) (hc : isPlain c = true) :
    scanner.run (.line quote seen, state) (c :: cs) =
      scanner.run (.line quote (c :: seen), state) cs := by
  refine Scanner.run_silent ?_
  show Mode.stepLine quote seen c = _
  rw [Mode.stepLine, if_neg hquote, if_neg hescape, if_pos hc]

theorem step_hex {seen : List Char} {missing code n : ℕ} (hn : n < 16) :
    scanner.step (.hex false seen (missing + 1) code) (hexDigit n) =
      some ([], .hex false seen missing (16 * code + n)) := by
  simp [scanner, Mode.step, Mode.stepHex, hexValue?_hexDigit hn]

/-- The last digit completes a character. -/
theorem step_hex_last {seen : List Char} {code n : ℕ} (hn : n < 16)
    (hvalid : (16 * code + n).isValidChar) :
    scanner.step (.hex false seen 0 code) (hexDigit n) =
      some ([], .line .double (Char.ofNat (16 * code + n) :: seen)) := by
  simp [scanner, Mode.step, Mode.stepHex, hexValue?_hexDigit hn, ofCodePoint?, hvalid, Mode.within]

/-- **A character within double quotes is read back**, escaped or not. -/
theorem run_escape (c : Char) (seen : List Char) :
    scanner.run (.line .double seen, state) (escape c ++ cs) =
      scanner.run (.line .double (c :: seen), state) cs := by
  unfold escape
  split
  · rename_i hc
    have opened : scanner.step (.line .double seen) '\\' = some ([], .escape false seen) := rfl
    have closed : scanner.step (.escape false seen) c = some ([], .line .double (c :: seen)) := by
      rcases hc with rfl | rfl <;> rfl
    rw [List.cons_append, Scanner.run_silent opened, List.cons_append, Scanner.run_silent closed,
      List.nil_append]
  · rename_i hc
    have hquote : c ≠ '"' := fun h => hc (.inl h)
    have hescape : c ≠ '\\' := fun h => hc (.inr h)
    split
    · rename_i hplain
      exact run_line_plain hquote (fun h => hescape h.2) hplain
    · -- a control character, whose code has the digits 0, 0, `c / 16` and `c % 16`
      rename_i hplain
      have hcode : c.toNat < 0x80 := by
        simp only [isPlain, Bool.or_eq_true, Bool.and_eq_true, decide_eq_true_eq] at hplain
        omega
      have zero : '0' = hexDigit 0 := rfl
      have code : 16 * (16 * (16 * (16 * 0 + 0) + 0) + c.toNat / 16) + c.toNat % 16 = c.toNat := by
        omega
      have valid : (16 * (16 * (16 * (16 * 0 + 0) + 0) + c.toNat / 16) +
          c.toNat % 16).isValidChar := by
        rw [code]
        exact c.valid
      have opened : scanner.step (.line .double seen) '\\' = some ([], .escape false seen) := rfl
      have digits : scanner.step (.escape false seen) 'u' = some ([], .hex false seen 3 0) := rfl
      simp only [List.cons_append, List.nil_append]
      rw [Scanner.run_silent opened, Scanner.run_silent digits, zero,
        Scanner.run_silent (step_hex (by omega)), Scanner.run_silent (step_hex (by omega)),
        Scanner.run_silent (step_hex (by omega)),
        Scanner.run_silent (step_hex_last (by omega) valid), code, Char.ofNat_toNat]

/-- The first character after a quote decides nothing yet, unless it is a quote itself. -/
theorem run_opening {quote : Quote} {c : Char} (h : c ≠ quote.char) :
    scanner.run (.between, state) (quote.char :: c :: cs) =
      scanner.run (.line quote [], state) (c :: cs) := by
  have opened : scanner.step .between quote.char = some ([], .opening quote false) := by
    cases quote <;> rfl
  have same : scanner.step (.opening quote false) c = scanner.step (.line quote []) c := if_neg h
  rw [Scanner.run_silent opened, Scanner.run_cons, Scanner.run_cons, Scanner.feed, Scanner.feed,
    same]

/-- Two quotes are an empty string, unless a third one follows. -/
theorem run_empty {quote : Quote} (h : ∀ c ∈ cs.head?, c ≠ quote.char) :
    scanner.run (.between, state) (quote.char :: quote.char :: cs) =
      (state.step (.line "")).bind fun next => scanner.run (.between, next) cs := by
  have opened : scanner.step .between quote.char = some ([], .opening quote false) := by
    cases quote <;> rfl
  have twice : scanner.step (.opening quote false) quote.char = some ([], .opening quote true) :=
    if_pos rfl
  rw [Scanner.run_silent opened, Scanner.run_silent twice]
  exact Scanner.run_of_ends rfl rfl fun c hc => if_neg (h c hc)

/-- A quote ends a string on one line. -/
theorem run_close {quote : Quote} {seen : List Char} :
    scanner.run (.line quote seen, state) (quote.char :: cs) =
      (state.step (.line (String.ofList seen.reverse))).bind fun next =>
        scanner.run (.between, next) cs := by
  have closed : scanner.step (.line quote seen) quote.char =
      some ([.line (String.ofList seen.reverse)], .between) := if_pos rfl
  rw [Scanner.run_of_step closed]
  simp [scanner]

/-- A string is read back, if its characters are read back one by one and none of them looks like
the end of the string. -/
theorem run_quoted (quote : Quote) (piece : Char → List Char) (content : String)
    (hcs : Token.EndsAt (.line content) cs)
    (hne : ∀ c ∈ content.toList, ∃ first rest, piece c = first :: rest ∧ first ≠ quote.char)
    (hpiece : ∀ c ∈ content.toList, ∀ seen cs,
      scanner.run (.line quote seen, state) (piece c ++ cs) =
        scanner.run (.line quote (c :: seen), state) cs) :
    scanner.run (.between, state)
        (quote.char :: (content.toList.flatMap piece ++ quote.char :: cs)) =
      (state.step (.line content)).bind fun next => scanner.run (.between, next) cs := by
  have body := Scanner.run_pieces (Mode.line quote) piece hpiece [] (quote.char :: cs)
  cases hcontent : content.toList with
  | nil =>
      obtain rfl : content = "" := String.toList_injective hcontent
      refine run_empty fun c hc => ?_
      cases cs with
      | nil => cases hc
      | cons d cs =>
          obtain rfl := Option.some.inj hc
          cases quote
          · exact hcs.1
          · exact hcs.2
  | cons c chars =>
      obtain ⟨first, rest, hfirst, hquote⟩ := hne c (by simp [hcontent])
      rw [List.append_nil, run_close, List.reverse_reverse, String.ofList_toList, hcontent,
        List.flatMap_cons, hfirst] at body
      rw [List.flatMap_cons, hfirst, List.cons_append, List.cons_append, run_opening hquote]
      exact body

theorem exists_escape_eq_cons (c : Char) :
    ∃ first rest, escape c = first :: rest ∧ first ≠ '"' := by
  unfold escape
  split
  · exact ⟨_, _, rfl, by decide⟩
  · rename_i hc
    split
    · exact ⟨c, [], rfl, fun h => hc (.inl h)⟩
    · exact ⟨_, _, rfl, by decide⟩

/-- A token is read where it ends. -/
theorem Token.Spelled.run (h : token.Spelled text) (hcs : token.EndsAt cs) :
    scanner.run (.between, state) (text ++ cs) =
      (state.step token).bind fun next => scanner.run (.between, next) cs := by
  cases h with
  | word nonempty chars => exact run_word nonempty chars hcs
  | double content =>
      rw [List.cons_append, List.append_assoc, List.singleton_append]
      exact run_quoted .double escape content hcs (fun c _ => exists_escape_eq_cons c)
        fun c _ seen cs => run_escape c seen
  | @single content plain =>
      rw [List.cons_append, List.append_assoc, List.singleton_append,
        ← List.flatMap_singleton' content.toList]
      exact run_quoted .single (fun c => [c]) content hcs
        (fun c hc => ⟨c, [], rfl, (plain c hc).2⟩)
        fun c hc seen cs => run_line_plain (plain c hc).2 nofun (plain c hc).1
  | _ => exact run_mark rfl

/-- **The reader is driven by the tokens that a text writes.** -/
theorem run_writes (h : Writes tokens text) :
    scanner.run (.between, state) text = tokens.foldlM State.step state := by
  induction h generalizing state with
  | nil => rfl
  | @blank c cs tokens blank _ ih =>
      have step : scanner.step .between c = some ([], .between) := by
        simp only [isBlank, Bool.or_eq_true, decide_eq_true_eq] at blank
        rcases blank with rfl | rfl <;> rfl
      rw [Scanner.run_silent step, ih]
  | @comment comment cs tokens plain ends _ ih =>
      have opened : scanner.step .between '#' = some ([], .comment) := rfl
      rw [Scanner.run_silent opened, ← ih]
      clear opened
      induction comment with
      | nil =>
          -- the end of the line means what it means on its own
          cases cs with
          | nil => rfl
          | cons c cs =>
              obtain rfl := ends c rfl
              rfl
      | cons c comment ihcomment =>
          obtain ⟨hc, hcomment⟩ := List.forall_mem_cons.1 plain
          have step : scanner.step .comment c = some ([], .comment) := if_pos hc
          rw [List.cons_append, Scanner.run_silent step]
          exact ihcomment hcomment
  | token spelled ends _ ih =>
      rw [spelled.run ends, List.foldlM_cons]
      exact Option.bind_congr fun next _ => ih

/-- Tokens that have texts are written with a blank after each of them. -/
theorem exists_writes (h : ∀ t ∈ tokens, ∃ text, t.Spelled text) :
    ∃ text, Writes tokens text := by
  induction tokens with
  | nil => exact ⟨[], .nil⟩
  | cons token tokens ih =>
      obtain ⟨⟨text, spelled⟩, h⟩ := List.forall_mem_cons.1 h
      obtain ⟨rest, writes⟩ := ih h
      have ends : token.EndsAt (' ' :: rest) := by
        cases token with
        | word => rfl
        | line => exact ⟨by decide, by decide⟩
        | _ => trivial
      exact ⟨_, .token spelled ends (.blank rfl writes)⟩

end SchemaAudit.Settings

/-
**What is written is read back.**

The text of a value is read in two stages, and so is the proof that it gives the value.  The layout
of a value is one of many texts with the same tokens: a reader that stands between two tokens is
driven by the tokens of the value, whatever the line breaks and the escapes, and stands between two
tokens again.  And the tokens of a value, wherever a value may follow, complete this value.

Main definitions:

* `Value.tokens` — the tokens of a value, in order;
* `EndsWord`, `LaysOut` — a text that ends a word in front of it, and **a text that stands for some
  tokens**;
* `Value.Readable` — values within a bound of nesting whose numbers are read back;
* `State.Awaits` — a reader for which a value may follow.

Main results:

* `run_quote` — a string is read back, whatever it holds;
* `Value.laysOut` — **the layout of a value stands for its tokens**;
* `Value.foldlM_tokens` — **the tokens of a value complete it**;
* `Value.ofText?_pretty` — **what is written is read back**.
-/

import SchemaAudit.Proofs.DistinctKeys
import SchemaAudit.Json.Printer

set_option relaxedAutoImplicit false
set_option autoImplicit false

namespace SchemaAudit.Json

variable {limit : ℕ} {s : State} {seen cs : List Char}

/-! ### Characters between tokens -/

/-- A character that completes no token only changes the mode. -/
theorem run_silent {mode mode' : Mode} {c : Char} (h : Mode.step mode c = some ([], mode')) :
    (scanner limit).run (mode, s) (c :: cs) = (scanner limit).run (mode', s) cs :=
  Scanner.run_silent h

/-- A character that stands for itself drives the reader with its tokens. -/
theorem run_start {c : Char} {tokens : List Token} (h : Mode.start c = some (tokens, .between)) :
    (scanner limit).run (.between, s) (c :: cs) =
      (tokens.foldlM (State.step limit) s).bind fun next =>
        (scanner limit).run (.between, next) cs :=
  Scanner.run_of_step h

/-- Line breaks and indentation are skipped. -/
theorem run_lineBreak (level : ℕ) :
    (scanner limit).run (.between, s) (lineBreak level ++ cs) =
      (scanner limit).run (.between, s) cs := by
  have spaces : ∀ count : ℕ,
      (scanner limit).run (.between, s) (List.replicate count ' ' ++ cs) =
        (scanner limit).run (.between, s) cs := by
    intro count
    induction count with
    | zero => rfl
    | succ count ih =>
        rw [List.replicate_succ, List.cons_append, run_silent rfl]
        exact ih
  rw [lineBreak, List.cons_append, run_silent rfl]
  exact spaces _

/-! ### Strings -/

theorem step_hex {high : Option ℕ} {count unit n : ℕ} (hcount : count < 3) (hn : n < 16) :
    Mode.step (.hex seen high count unit) (hexDigit n) =
      some ([], .hex seen high (count + 1) (16 * unit + n)) := by
  simp [Mode.step, hexValue?_hexDigit hn, hcount]

/-- The fourth digit completes a character, below the surrogates. -/
theorem step_hex_last {unit n : ℕ} (hn : n < 16) (hunit : 16 * unit + n < 0xd800) :
    Mode.step (.hex seen none 3 unit) (hexDigit n) =
      some ([], .text (Char.ofNat (16 * unit + n) :: seen)) := by
  have high : isHighSurrogate (16 * unit + n) = false := by
    simp only [isHighSurrogate, Bool.and_eq_false_iff, decide_eq_false_iff_not]
    omega
  have low : isLowSurrogate (16 * unit + n) = false := by
    simp only [isLowSurrogate, Bool.and_eq_false_iff, decide_eq_false_iff_not]
    omega
  simp [Mode.step, hexValue?_hexDigit hn, Mode.closeHex, high, low]

/-- **A character within quotes is read back**, escaped or not. -/
theorem run_escape (c : Char) :
    (scanner limit).run (.text seen, s) (escape c ++ cs) =
      (scanner limit).run (.text (c :: seen), s) cs := by
  unfold escape
  split
  case h_8 quotes backslash _ _ _ _ _ =>
      split
      · -- a control character, whose code has the digits 0, 0, `c / 16` and `c % 16`
        have zero : '0' = hexDigit 0 := rfl
        have code : 16 * (16 * (16 * (16 * 0 + 0) + 0) + c.toNat / 16) + c.toNat % 16 =
            c.toNat := by omega
        simp only [List.cons_append, List.nil_append]
        rw [run_silent rfl, run_silent rfl, zero, run_silent (step_hex (by omega) (by omega)),
          run_silent (step_hex (by omega) (by omega)), run_silent (step_hex (by omega) (by omega)),
          run_silent (step_hex_last (by omega) (by omega)), code, Char.ofNat_toNat]
      · rename_i hc
        refine run_silent ?_
        rw [Mode.step, if_neg quotes, if_neg backslash, if_neg hc]
  all_goals rfl

/-- **A string is read back**, whatever it holds. -/
theorem run_quote (text : String) :
    (scanner limit).run (.between, s) (quote text ++ cs) =
      (State.step limit s (.string text)).bind fun next =>
        (scanner limit).run (.between, next) cs := by
  have body : (scanner limit).run (.text [], s) (text.toList.flatMap escape ++ '"' :: cs) =
      (scanner limit).run (.text (text.toList.reverse ++ []), s) ('"' :: cs) :=
    Scanner.run_pieces Mode.text escape (fun c _ seen cs => run_escape c) [] _
  have opened : Mode.step .between '"' = some ([], .text []) := rfl
  rw [quote, List.cons_append, List.append_assoc, List.singleton_append, run_silent opened, body,
    Scanner.run_cons]
  simp only [Scanner.feed, scanner, Mode.step, List.append_nil, List.reverse_reverse,
    String.ofList_toList, if_true, Option.bind_eq_bind, Option.bind_some, List.foldlM_cons,
    List.foldlM_nil, Option.bind_assoc, Option.pure_def]

/-! ### Words -/

/-- The text does not go on with a word that stands in front of it. -/
def EndsWord (cs : List Char) : Prop := ∀ c ∈ cs.head?, isWordChar c = false

theorem endsWord_cons {c : Char} (h : isWordChar c = false) : EndsWord (c :: cs) := by
  simp [EndsWord, h]

theorem EndsWord.append {text : List Char} (h : EndsWord text) (hcs : EndsWord cs) :
    EndsWord (text ++ cs) := by
  cases text with
  | nil => exact hcs
  | cons c text => exact endsWord_cons (h c rfl)

/-- A word is read where it ends. -/
theorem run_word {word : List Char} {value : Value} (hword : ∀ c ∈ word, isWordChar c = true)
    (hne : word ≠ []) (hvalue : Value.ofWord? word = some value) (hcs : EndsWord cs) :
    (scanner limit).run (.between, s) (word ++ cs) =
      (State.step limit s (.word value)).bind fun next =>
        (scanner limit).run (.between, next) cs := by
  have step {c : Char} (hc : isWordChar c = true) (seen : List Char) :
      Mode.step (.word seen) c = some ([], .word (c :: seen)) := by rw [Mode.step, if_pos hc]
  obtain ⟨c, rest, rfl⟩ := List.exists_cons_of_ne_nil hne
  obtain ⟨hc, hrest⟩ := List.forall_mem_cons.1 hword
  have start : Mode.step .between c = some ([], .word [c]) := by
    rw [Mode.step, Mode.start.eq_def]
    split
    case h_8 =>
        have hblank : ¬isBlank c = true := by
          simp only [isBlank, Bool.or_eq_true, decide_eq_true_eq]
          rintro (((rfl | rfl) | rfl) | rfl) <;> cases hc
        rw [if_neg hblank, if_pos hc]
    all_goals cases hc
  have hseen : (rest.reverse ++ [c]).reverse = c :: rest := by simp
  have finish : (scanner limit).finish (.word (rest.reverse ++ [c])) = some [.word value] := by
    show (Value.ofWord? (rest.reverse ++ [c]).reverse).map _ = _
    rw [hseen, hvalue]
    rfl
  have body : (scanner limit).run (.word [c], s) (rest.flatMap (fun c => [c]) ++ cs) =
      (scanner limit).run (.word (rest.reverse ++ [c]), s) cs :=
    Scanner.run_pieces Mode.word _ (fun c hc seen _ => run_silent (step (hrest c hc) seen)) [c] cs
  rw [List.flatMap_singleton'] at body
  rw [List.cons_append, run_silent start, body]
  refine Scanner.run_of_ends finish rfl fun d hd => ?_
  have hd : ¬isWordChar d = true := by simp [hcs d hd]
  simp only [scanner, Mode.step, if_neg hd, hseen, hvalue, Option.bind_eq_bind, Option.bind_some,
    Option.map_eq_bind]
  rfl

theorem isWordChar_of_isDigit {c : Char} (h : c.isDigit = true) : isWordChar c = true := by
  simp [isWordChar, Char.isAlphanum, h]

theorem isDigit_of_mem_repr {n : ℕ} {c : Char} (h : c ∈ n.repr.toList) : c.isDigit = true := by
  rw [Nat.toList_repr] at h
  exact Nat.isDigit_of_mem_toDigits (by decide) (by decide) h

theorem isWordChar_of_mem_repr {value : ℤ} {c : Char} (h : c ∈ value.repr.toList) :
    isWordChar c = true := by
  cases value with
  | ofNat n => exact isWordChar_of_isDigit (isDigit_of_mem_repr h)
  | negSucc n =>
      rw [Int.repr, String.toList_append] at h
      rcases List.mem_append.1 h with h | h
      · rw [List.mem_singleton.1 h]
        rfl
      · exact isWordChar_of_isDigit (isDigit_of_mem_repr h)

/-- The literal for a number is a word. -/
theorem isWordChar_of_mem_text {n : Number} {c : Char} (h : c ∈ n.text) : isWordChar c = true := by
  cases n with
  | int value => exact isWordChar_of_mem_repr h
  | decimal negative digits exponent =>
      simp only [Number.text, List.mem_append, List.mem_cons] at h
      rcases h with (h | h) | rfl | h
      · split at h
        · rw [List.mem_singleton.1 h]
          rfl
        · cases h
      · exact isWordChar_of_isDigit (isDigit_of_mem_repr h)
      · rfl
      · exact isWordChar_of_mem_repr h

theorem Value.ofWord?_text {n : Number} (h : Number.ofChars? n.text = some n) :
    Value.ofWord? n.text = some (.number n) := by
  -- none of the three fixed words is a number
  have fixed : ∀ {word : List Char}, n.text = word → Number.ofChars? word = none → False := by
    intro word hword hnone
    rw [hword, hnone] at h
    cases h
  unfold Value.ofWord?
  split
  · exact (fixed ‹_› rfl).elim
  · exact (fixed ‹_› rfl).elim
  · exact (fixed ‹_› rfl).elim
  · rw [h, Option.map_some]

/-! ### Tokens of a value -/

mutual

/-- The tokens of a value, in the order of its text. -/
def Value.tokens : Value → List Token
  | .string text => [.string text]
  | .array [] => [.openBracket, .closeBracket]
  | .array (item :: items) =>
    .openBracket :: (item.tokens ++ (itemTokens items ++ [.closeBracket]))
  | .object [] => [.openBrace, .closeBrace]
  | .object ((key, value) :: members) =>
    .openBrace :: .string key :: .colon ::
      (value.tokens ++ (memberTokens members ++ [.closeBrace]))
  | word => [.word word]

/-- The tokens of the items after the first one. -/
def itemTokens : List Value → List Token
  | [] => []
  | item :: items => .comma :: (item.tokens ++ itemTokens items)

/-- The tokens of the members after the first one. -/
def memberTokens : List (String × Value) → List Token
  | [] => []
  | (key, value) :: members =>
    .comma :: .string key :: .colon :: (value.tokens ++ memberTokens members)

end

/-- The value nests at most `depth` containers, and its numbers are read back from their
literals. -/
inductive Value.Readable : ℕ → Value → Prop
  | null {depth : ℕ} : Readable depth .null
  | bool {depth : ℕ} (value : Bool) : Readable depth (.bool value)
  | number {depth : ℕ} {n : Number} (read : Number.ofChars? n.text = some n) :
      Readable depth (.number n)
  | string {depth : ℕ} (text : String) : Readable depth (.string text)
  | array {depth : ℕ} {items : List Value} (parts : ∀ item ∈ items, Readable depth item) :
      Readable (depth + 1) (.array items)
  | object {depth : ℕ} {members : List (String × Value)}
      (parts : ∀ m ∈ members, Readable depth m.2) : Readable (depth + 1) (.object members)

/-! ### Layout -/

/-- **The text stands for the tokens**: a reader that meets it between two tokens is driven by them,
and goes on between two tokens. -/
def LaysOut (text : List Char) (tokens : List Token) : Prop :=
  ∀ (limit : ℕ) (s : State) (cs : List Char), EndsWord cs →
    (scanner limit).run (.between, s) (text ++ cs) =
      (tokens.foldlM (State.step limit) s).bind fun next =>
        (scanner limit).run (.between, next) cs

section Layout

variable {text more : List Char} {tokens others : List Token}

theorem laysOut_nil : LaysOut [] [] := fun _ _ _ _ => rfl

theorem LaysOut.append (h : LaysOut text tokens) (h' : LaysOut more others)
    (hmore : EndsWord more) : LaysOut (text ++ more) (tokens ++ others) := by
  intro limit s cs hcs
  rw [List.append_assoc, h limit s _ (hmore.append hcs), List.foldlM_append, Option.bind_eq_bind,
    Option.bind_assoc]
  exact Option.bind_congr fun next _ => h' limit next cs hcs

theorem LaysOut.mark {c : Char} {token : Token} (h : LaysOut text tokens)
    (hc : Mode.start c = some ([token], .between)) : LaysOut (c :: text) (token :: tokens) := by
  intro limit s cs hcs
  rw [List.cons_append, run_start hc, List.foldlM_cons, List.foldlM_cons]
  simp only [List.foldlM_nil, Option.bind_eq_bind, Option.pure_def, Option.bind_fun_some,
    Option.bind_assoc]
  exact Option.bind_congr fun next _ => h limit next cs hcs

theorem LaysOut.lineBreak (h : LaysOut text tokens) (level : ℕ) :
    LaysOut (lineBreak level ++ text) tokens := by
  intro limit s cs hcs
  rw [List.append_assoc, run_lineBreak]
  exact h limit s cs hcs

theorem laysOut_quote (text : String) : LaysOut (quote text) [.string text] := by
  intro limit s cs _
  rw [run_quote, List.foldlM_cons]
  simp

theorem laysOut_word {word : List Char} {value : Value} (hword : word.all isWordChar = true)
    (hne : word ≠ []) (hvalue : Value.ofWord? word = some value) :
    LaysOut word [.word value] := by
  intro limit s cs hcs
  rw [run_word (List.all_eq_true.1 hword) hne hvalue hcs, List.foldlM_cons]
  simp

theorem LaysOut.key (h : LaysOut text tokens) (key : String) :
    LaysOut (quote key ++ ':' :: ' ' :: text) (.string key :: .colon :: tokens) := by
  have blank : LaysOut (' ' :: text) tokens := by
    intro limit s cs hcs
    rw [List.cons_append, run_silent rfl]
    exact h limit s cs hcs
  exact (laysOut_quote key).append (blank.mark rfl) (endsWord_cons rfl)

end Layout

theorem endsWord_lineBreak (level : ℕ) : EndsWord (lineBreak level ++ cs) := endsWord_cons rfl

theorem endsWord_layoutItems (level : ℕ) (items : List Value) :
    EndsWord (layoutItems level items) := by
  cases items with
  | nil => exact fun c h => by cases h
  | cons item items => exact endsWord_cons rfl

theorem endsWord_layoutMembers (level : ℕ) (members : List (String × Value)) :
    EndsWord (layoutMembers level members) := by
  cases members with
  | nil => exact fun c h => by cases h
  | cons member members => exact endsWord_cons rfl

theorem laysOut_items {level : ℕ} {items : List Value}
    (h : ∀ item ∈ items, LaysOut (item.layout level) item.tokens) :
    LaysOut (layoutItems level items) (itemTokens items) := by
  induction items with
  | nil => exact laysOut_nil
  | cons item items ih =>
      obtain ⟨hitem, hitems⟩ := List.forall_mem_cons.1 h
      have later := hitem.append (ih hitems) (endsWord_layoutItems level items)
      exact (later.lineBreak level).mark rfl

theorem laysOut_members {level : ℕ} {members : List (String × Value)}
    (h : ∀ m ∈ members, LaysOut (m.2.layout level) m.2.tokens) :
    LaysOut (layoutMembers level members) (memberTokens members) := by
  induction members with
  | nil => exact laysOut_nil
  | cons member members ih =>
      obtain ⟨hvalue, hmembers⟩ := List.forall_mem_cons.1 h
      have later := hvalue.append (ih hmembers) (endsWord_layoutMembers level members)
      exact ((later.key member.1).lineBreak level).mark rfl

/-- **The layout of a value stands for its tokens**, at every level of indentation. -/
theorem Value.laysOut {depth : ℕ} {value : Value} (h : value.Readable depth) (level : ℕ) :
    LaysOut (value.layout level) value.tokens := by
  induction h generalizing level with
  | null =>
      show LaysOut ['n', 'u', 'l', 'l'] [.word .null]
      exact laysOut_word rfl (by decide) rfl
  | bool value =>
      cases value with
      | false =>
          show LaysOut ['f', 'a', 'l', 's', 'e'] [.word (.bool false)]
          exact laysOut_word rfl (by decide) rfl
      | true =>
          show LaysOut ['t', 'r', 'u', 'e'] [.word (.bool true)]
          exact laysOut_word rfl (by decide) rfl
  | @number depth n read =>
      refine laysOut_word (List.all_eq_true.2 fun c => isWordChar_of_mem_text) (fun hnil => ?_)
        (ofWord?_text read)
      have hnil : n.text = [] := hnil
      rw [hnil] at read
      cases read
  | string text => exact laysOut_quote text
  | @array depth items parts ih =>
      cases items with
      | nil => exact (laysOut_nil.mark rfl).mark rfl
      | cons item items =>
          obtain ⟨hitem, hitems⟩ := List.forall_mem_cons.1 ih
          have last : LaysOut (Json.lineBreak level ++ [']']) [.closeBracket] :=
            (laysOut_nil.mark rfl).lineBreak level
          have rest := (laysOut_items fun item h => hitems item h (level + 1)).append last
            (endsWord_lineBreak level)
          have all := (hitem (level + 1)).append rest
            ((endsWord_layoutItems _ _).append (endsWord_lineBreak level))
          exact (all.lineBreak (level + 1)).mark rfl
  | @object depth members parts ih =>
      cases members with
      | nil => exact (laysOut_nil.mark rfl).mark rfl
      | cons member members =>
          obtain ⟨hvalue, hmembers⟩ := List.forall_mem_cons.1 ih
          have last : LaysOut (Json.lineBreak level ++ ['}']) [.closeBrace] :=
            (laysOut_nil.mark rfl).lineBreak level
          have rest := (laysOut_members fun m h => hmembers m h (level + 1)).append last
            (endsWord_lineBreak level)
          have all := (hvalue (level + 1)).append rest
            ((endsWord_layoutMembers _ _).append (endsWord_lineBreak level))
          exact ((all.key member.1).lineBreak (level + 1)).mark rfl

/-! ### Tokens that complete a value -/

/-- **A value may follow**: the reader treats a token as the first one of a value whose place is on
top of the stack. -/
def State.Awaits (limit : ℕ) (s : State) (stack : List Frame) : Prop :=
  ∀ t, t ≠ .closeBracket → State.step limit s t = State.begin limit stack t

theorem State.awaits_expectValue (stack : List Frame) :
    (State.expectValue stack).Awaits limit stack := fun _ _ => rfl

theorem State.awaits_expectItem (stack : List Frame) :
    (State.expectItem stack).Awaits limit (.array [] :: stack) := by
  intro t ht
  cases t <;> first | rfl | exact (ht rfl).elim

theorem State.Awaits.word {stack : List Frame} (hs : s.Awaits limit stack) (value : Value) :
    State.step limit s (.word value) = some (.complete value stack) := hs (.word value) (by simp)

theorem State.Awaits.string {stack : List Frame} (hs : s.Awaits limit stack) (text : String) :
    State.step limit s (.string text) = some (.complete (.string text) stack) :=
  hs (.string text) (by simp)

theorem State.Awaits.openBracket {stack : List Frame} (hs : s.Awaits limit stack)
    (hroom : stack.length < limit) :
    State.step limit s .openBracket = some (.expectItem stack) := by
  rw [hs .openBracket (by simp), State.begin, if_pos hroom]

theorem State.Awaits.openBrace {stack : List Frame} (hs : s.Awaits limit stack)
    (hroom : stack.length < limit) :
    State.step limit s .openBrace = some (.expectKey true [] stack) := by
  rw [hs .openBrace (by simp), State.begin, if_pos hroom]

/-- The reader goes on from the state after the first token. -/
theorem foldlM_cons_of_step {t : Token} {next : State} (h : State.step limit s t = some next)
    (tokens : List Token) :
    (t :: tokens).foldlM (State.step limit) s = tokens.foldlM (State.step limit) next := by
  rw [List.foldlM_cons, h, Option.bind_eq_bind, Option.bind_some]

theorem foldlM_append_of_foldlM {first : List Token} {next : State}
    (h : first.foldlM (State.step limit) s = some next) (tokens : List Token) :
    (first ++ tokens).foldlM (State.step limit) s = tokens.foldlM (State.step limit) next := by
  rw [List.foldlM_append, h, Option.bind_eq_bind, Option.bind_some]

/-- The tokens of the value complete it, where there is room for `depth` more containers. -/
def Value.IsRead (limit depth : ℕ) (value : Value) : Prop :=
  ∀ (s : State) (stack : List Frame), s.Awaits limit stack → stack.length + depth ≤ limit →
    value.tokens.foldlM (State.step limit) s = some (.complete value stack)

/-- A new key is added at the end. -/
theorem put_of_nodup {α : Type} {done rest : Record α} {key : String} {value : α}
    (h : ((done ++ (key, value) :: rest).map Prod.fst).Nodup) :
    done.put key value = done ++ [(key, value)] := by
  induction done with
  | nil => rfl
  | cons head done ih =>
      obtain ⟨k, v⟩ := head
      obtain ⟨hk, hdone⟩ := List.nodup_cons.1 h
      have hne : k ≠ key := fun heq => hk (by simp [heq])
      rw [Record.put, if_neg hne, ih hdone, List.cons_append]

/-- The items that are left and the closing bracket complete an array. -/
theorem foldlM_itemTokens {depth : ℕ} {stack : List Frame} {items : List Value}
    (h : ∀ item ∈ items, item.IsRead limit depth) (hroom : stack.length + (depth + 1) ≤ limit)
    (item : Value) (done : List Value) :
    (itemTokens items ++ [Token.closeBracket]).foldlM (State.step limit)
        (.complete item (.array done :: stack)) =
      some (.complete (.array (done.reverse ++ item :: items)) stack) := by
  induction items generalizing item done with
  | nil =>
      rw [itemTokens, List.nil_append, foldlM_cons_of_step rfl, List.reverse_cons]
      rfl
  | cons next items ih =>
      obtain ⟨hnext, hitems⟩ := List.forall_mem_cons.1 h
      have read := hnext (.expectValue (.array (item :: done) :: stack)) _
        (State.awaits_expectValue _) (by rw [List.length_cons]; omega)
      rw [itemTokens, List.cons_append, List.append_assoc, foldlM_cons_of_step rfl,
        foldlM_append_of_foldlM read, ih hitems, List.reverse_cons, List.append_assoc,
        List.singleton_append]

/-- The members that are left and the closing brace complete an object. -/
theorem foldlM_memberTokens {depth : ℕ} {stack : List Frame} {members : Members}
    (h : ∀ m ∈ members, m.2.IsRead limit depth) (hroom : stack.length + (depth + 1) ≤ limit)
    {done : Members} {key : String} {value : Value}
    (hkeys : ((done ++ (key, value) :: members).map Prod.fst).Nodup) :
    (memberTokens members ++ [Token.closeBrace]).foldlM (State.step limit)
        (.complete value (.object done key :: stack)) =
      some (.complete (.object (done ++ (key, value) :: members)) stack) := by
  induction members generalizing key value done with
  | nil =>
      rw [memberTokens, List.nil_append, foldlM_cons_of_step rfl, put_of_nodup hkeys]
      rfl
  | cons next members ih =>
      obtain ⟨name, later⟩ := next
      obtain ⟨hnext, hmembers⟩ := List.forall_mem_cons.1 h
      have read := hnext (.expectValue (.object (done ++ [(key, value)]) name :: stack)) _
        (State.awaits_expectValue _) (by rw [List.length_cons]; omega)
      rw [memberTokens, List.cons_append, List.cons_append, List.cons_append, List.append_assoc,
        foldlM_cons_of_step rfl, put_of_nodup hkeys, foldlM_cons_of_step rfl,
        foldlM_cons_of_step rfl, foldlM_append_of_foldlM read, ih hmembers (by simpa using hkeys),
        List.append_assoc, List.singleton_append]

/-- **The tokens of a value complete it**, wherever a value may follow. -/
theorem Value.foldlM_tokens {depth : ℕ} {value : Value} (h : value.Readable depth)
    (hkeys : value.KeysDistinct) : value.IsRead limit depth := by
  induction h with
  | @array depth items parts ih =>
      intro s stack hs hroom
      have opened := hs.openBracket (by omega)
      cases items with
      | nil => exact foldlM_cons_of_step opened _
      | cons item items =>
          obtain ⟨hitem, hitems⟩ := List.forall_mem_cons.1 fun item h =>
            ih item h (keysDistinct_array_iff.1 hkeys item h)
          have read := hitem (.expectItem stack) _ (State.awaits_expectItem stack)
            (by rw [List.length_cons]; omega)
          rw [Value.tokens, foldlM_cons_of_step opened, foldlM_append_of_foldlM read]
          exact foldlM_itemTokens hitems hroom item []
  | @object depth members parts ih =>
      intro s stack hs hroom
      obtain ⟨nodup, values⟩ := keysDistinct_object_iff.1 hkeys
      have opened := hs.openBrace (by omega)
      cases members with
      | nil => exact foldlM_cons_of_step opened _
      | cons member members =>
          obtain ⟨key, value⟩ := member
          obtain ⟨hvalue, hmembers⟩ := List.forall_mem_cons.1 fun m h => ih m h (values m h)
          have read := hvalue (.expectValue (.object [] key :: stack)) _
            (State.awaits_expectValue _) (by rw [List.length_cons]; omega)
          rw [Value.tokens, foldlM_cons_of_step opened, foldlM_cons_of_step rfl,
            foldlM_cons_of_step rfl, foldlM_append_of_foldlM read]
          exact foldlM_memberTokens hmembers hroom nodup
  | string text => exact fun s stack hs _ => foldlM_cons_of_step (hs.string text) []
  | _ => exact fun s stack hs _ => foldlM_cons_of_step (hs.word _) []

/-- **What is written is read back**, if it is not nested too deeply. -/
theorem Value.ofText?_pretty {value : Value} (h : value.Readable maxNesting)
    (hkeys : value.KeysDistinct) : Value.ofText? value.pretty = some value := by
  have run : (scanner maxNesting).run (.between, .expectValue []) (value.layout 0) =
      some (.complete value []) := by
    have laid := laysOut h 0 maxNesting (.expectValue []) [] nofun
    rw [List.append_nil, foldlM_tokens h hkeys _ [] (State.awaits_expectValue _) (by simp)] at laid
    exact laid
  rw [Value.ofText?, read?, readChars?, Value.pretty, String.toList_ofList, run]
  rfl

end SchemaAudit.Json

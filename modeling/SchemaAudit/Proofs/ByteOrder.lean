/-
**The order of names by their bytes.**

Names are compared character by character.  Other programs compare texts byte by byte, in the
encoding in which they are stored.  Both orders are the same: of two characters the lesser one has
the lesser encoding, whatever follows, since the first byte tells how many bytes there are and the
bytes are the digits of the character, the most significant one first.

Main definitions:

* `nameBytes` — the bytes of a name.

Main results:

* `utf8EncodeChar_append_lt` — the encodings of characters are in the order of the characters;
* `nameBytes_lt_iff` — **names are in the order of their bytes**.
-/

import Mathlib

set_option relaxedAutoImplicit false
set_option autoImplicit false

namespace SchemaAudit

/-- The bytes of a name, as it is stored. -/
def nameBytes (name : String) : List UInt8 := name.toUTF8.data.toList

theorem nameBytes_eq (name : String) :
    nameBytes name = name.toList.flatMap String.utf8EncodeChar := by
  rw [nameBytes, String.toUTF8_eq_toByteArray, ← String.utf8Encode_toList, List.utf8Encode,
    List.data_toByteArray]

/-- **The encodings of characters are in the order of the characters**, whatever follows them. -/
theorem utf8EncodeChar_append_lt {c d : Char} (h : c < d) (r r' : List UInt8) :
    String.utf8EncodeChar c ++ r < String.utf8EncodeChar d ++ r' := by
  have hlt : c.val.toNat < d.val.toNat := h
  have hmax : d.val.toNat < 1114112 := d.valid.elim (fun h => by omega) (fun h => h.2)
  simp only [String.utf8EncodeChar]
  generalize c.val.toNat = m at *
  generalize d.val.toNat = n at *
  -- the marks leave room in a byte for the digits beside them
  have rest : ∀ x : ℕ, (x % 64 + 128) % 256 = x % 64 + 128 := by omega
  have first : ∀ x : ℕ, (x % 8 + 240) % 256 = x % 8 + 240 := by omega
  have second : ∀ x : ℕ, x / 4096 = x / 64 / 64 := by omega
  have third : ∀ x : ℕ, x / 262144 = x / 64 / 64 / 64 := by omega
  -- one case for every two numbers of bytes
  split_ifs <;>
    simp only [List.cons_append, List.nil_append, List.cons_lt_cons_iff, UInt8.lt_iff_toNat_lt,
      ← UInt8.toNat_inj, UInt8.toNat_ofNat', Nat.reducePow, rest, first, second, third] <;>
    omega

theorem flatMap_utf8EncodeChar_lt {cs ds : List Char} (h : cs < ds) :
    cs.flatMap String.utf8EncodeChar < ds.flatMap String.utf8EncodeChar := by
  induction cs generalizing ds with
  | nil =>
      cases ds with
      | nil => exact absurd h (lt_irrefl _)
      | cons d ds =>
          obtain ⟨b, bs, hb⟩ := List.exists_cons_of_ne_nil (String.utf8EncodeChar_ne_nil (c := d))
          simp [hb]
  | cons c cs ih =>
      cases ds with
      | nil => simp at h
      | cons d ds =>
          rw [List.flatMap_cons, List.flatMap_cons]
          rcases List.cons_lt_cons_iff.1 h with hlt | ⟨rfl, hlt⟩
          · exact utf8EncodeChar_append_lt hlt _ _
          · exact List.append_left_lt (ih hlt)

/-- **Names are in the order of their bytes.** -/
theorem nameBytes_lt_iff {name other : String} :
    nameBytes name < nameBytes other ↔ name < other := by
  have mono : ∀ {name other : String}, name < other → nameBytes name < nameBytes other := by
    intro name other h
    rw [nameBytes_eq, nameBytes_eq]
    exact flatMap_utf8EncodeChar_lt h
  refine ⟨fun h => ?_, mono⟩
  rcases lt_trichotomy name other with hlt | rfl | hgt
  · exact hlt
  · exact absurd h (List.lt_irrefl _)
  · exact absurd h (List.lt_asymm (mono hgt))

end SchemaAudit

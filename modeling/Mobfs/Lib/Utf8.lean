import Mathlib.Data.String.Basic
/-!
# The byte order of strings

A program that compares strings by their UTF-8 bytes orders them by their characters:
the leading byte of the longer encodings is the larger one, and encodings of the same
length have the digits of the character in order (`utf8Bytes_lt`).
-/

namespace Lib

def utf8Bytes (s : String) : List UInt8 := s.toByteArray.data.toList

theorem utf8Bytes_eq (s : String) : utf8Bytes s = s.toList.flatMap String.utf8EncodeChar := by
  rw [utf8Bytes, ← String.utf8Encode_toList, List.utf8Encode]
  simp

/-- The encodings of two characters differ before either ends. -/
theorem utf8EncodeChar_lt {c d : Char} (h : c < d) (x y : List UInt8) :
    String.utf8EncodeChar c ++ x < String.utf8EncodeChar d ++ y := by
  have hd : d.val.toNat < 0x110000 := by
    rcases d.valid with h | h
    · exact Nat.lt_trans h (by decide)
    · exact h.2
  have hlt : c.val.toNat < d.val.toNat := h
  -- The four kinds of bytes, and the digits of the character to the base 64.
  have hrest (k : Nat) : (k % 0x40 + 0x80) % 2 ^ 8 = k % 0x40 + 0x80 := by omega
  have htwo (k : Nat) : (k % 0x20 + 0xc0) % 2 ^ 8 = k % 0x20 + 0xc0 := by omega
  have hthree (k : Nat) : (k % 0x10 + 0xe0) % 2 ^ 8 = k % 0x10 + 0xe0 := by omega
  have hfour (k : Nat) : (k % 0x08 + 0xf0) % 2 ^ 8 = k % 0x08 + 0xf0 := by omega
  have hdiv (k : Nat) : k / 4096 = k / 64 / 64 := by omega
  have hdiv' (k : Nat) : k / 262144 = k / 64 / 64 / 64 := by omega
  unfold String.utf8EncodeChar
  generalize c.val.toNat = n at *
  generalize d.val.toNat = m at *
  simp only
  split_ifs <;>
    simp only [List.cons_append, List.nil_append, List.cons_lt_cons_iff, UInt8.lt_iff_toNat_lt, ← UInt8.toNat_inj,
      UInt8.toNat_ofNat', hrest, htwo, hthree, hfour, hdiv, hdiv'] <;>
    omega

section Order
variable {α β : Type} [LT α] [LT β]

/-- Words are in the order of their letters if they are so in any context. -/
theorem flatMap_lt {f : α → List β} (hf : ∀ a b, a < b → ∀ x y, f a ++ x < f b ++ y) (hne : ∀ a, f a ≠ []) {l m : List α}
    (h : l < m) : l.flatMap f < m.flatMap f := by
  induction l generalizing m with
  | nil =>
    cases m with
    | nil => exact absurd h (List.not_lt_nil [])
    | cons b m =>
      rw [List.flatMap_nil, List.flatMap_cons]
      cases hb : f b with
      | nil => exact absurd hb (hne b)
      | cons x xs => exact List.nil_lt_cons x _
  | cons a l ih =>
    cases m with
    | nil => exact absurd h (List.not_lt_nil _)
    | cons b m =>
      rw [List.flatMap_cons, List.flatMap_cons]
      rcases List.cons_lt_cons_iff.1 h with hab | ⟨rfl, hlm⟩
      · exact hf a b hab _ _
      · exact List.append_left_lt (ih hlm)

end Order

theorem utf8Bytes_lt {s t : String} (h : s < t) : utf8Bytes s < utf8Bytes t := by
  rw [utf8Bytes_eq, utf8Bytes_eq]
  exact flatMap_lt (fun c d hcd => utf8EncodeChar_lt hcd) (fun c => String.utf8EncodeChar_ne_nil) (String.lt_iff_toList_lt.1 h)

end Lib

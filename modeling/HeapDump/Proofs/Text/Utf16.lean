import HeapDump.Text.Utf16
import Mathlib.Data.List.Basic

/-! UTF-16 text read back.  A character of the basic plane is one unit and no surrogate, and any other
character is a high surrogate and a low one, so a decoder takes the units of a character together
wherever they stand.  The units of Latin-1 text are its bytes. -/

namespace HeapDump.Text.Utf16

/-- A character beyond the basic plane is a pair of surrogates. -/
def units (c : Char) : List UInt16 :=
  if c.toNat < 0x10000 then [.ofNat c.toNat]
  else [.ofNat (0xD800 + (c.toNat - 0x10000) / 0x400), .ofNat (0xDC00 + (c.toNat - 0x10000) % 0x400)]

def encode (text : String) : List UInt16 := text.toList.flatMap units

/-! ### Units of one character -/

theorem isHigh_ofNat {n : Nat} (hn : n < 0x10000) : IsHigh (.ofNat n) ↔ 0xD800 ≤ n ∧ n < 0xDC00 := by
  rw [IsHigh, UInt16.le_iff_toNat_le, UInt16.lt_iff_toNat_lt, UInt16.toNat_ofNat_of_lt' hn]
  rfl

theorem isLow_ofNat {n : Nat} (hn : n < 0x10000) : IsLow (.ofNat n) ↔ 0xDC00 ≤ n ∧ n < 0xE000 := by
  rw [IsLow, UInt16.le_iff_toNat_le, UInt16.lt_iff_toNat_lt, UInt16.toNat_ofNat_of_lt' hn]
  rfl

/-- No character is a surrogate or beyond the last plane. -/
theorem toNat_range (c : Char) : c.toNat < 0xD800 ∨ 0xDFFF < c.toNat ∧ c.toNat < 0x110000 := c.valid

theorem chars_single {u : UInt16} (h : ¬IsHigh u) (rest : List UInt16) :
    chars (u :: rest) = single u :: chars rest := by
  cases rest with
  | nil => rfl
  | cons v rest => rw [chars, if_neg fun hpair => h hpair.1]

theorem chars_units_append (c : Char) (rest : List UInt16) :
    chars (units c ++ rest) = c :: chars rest := by
  have hrange := toNat_range c
  rw [units]
  split
  · next hplane =>
    have hhigh : ¬IsHigh (.ofNat c.toNat) := by rw [isHigh_ofNat hplane]; omega
    have hlow : ¬IsLow (.ofNat c.toNat) := by rw [isLow_ofNat hplane]; omega
    rw [List.singleton_append, chars_single hhigh, single, if_neg (not_or.mpr ⟨hhigh, hlow⟩),
      UInt16.toNat_ofNat_of_lt' hplane, Char.ofNat_toNat]
  · next hplane =>
    have hhigh : 0xD800 + (c.toNat - 0x10000) / 0x400 < 0x10000 := by omega
    have hlow : 0xDC00 + (c.toNat - 0x10000) % 0x400 < 0x10000 := by omega
    rw [List.cons_append, List.singleton_append, chars, if_pos, pair,
      UInt16.toNat_ofNat_of_lt' hhigh, UInt16.toNat_ofNat_of_lt' hlow]
    · have hsum : 0x10000 + 0x400 * (0xD800 + (c.toNat - 0x10000) / 0x400 - 0xD800) +
          (0xDC00 + (c.toNat - 0x10000) % 0x400 - 0xDC00) = c.toNat := by omega
      rw [hsum, Char.ofNat_toNat]
    · rw [isHigh_ofNat hhigh, isLow_ofNat hlow]
      omega

/-! ### Texts -/

theorem decodeLossy_encode (text : String) : decodeLossy (encode text) = text := by
  have hchars : ∀ cs : List Char, chars (cs.flatMap units) = cs := by
    intro cs
    induction cs with
    | nil => rfl
    | cons c cs ih => rw [List.flatMap_cons, chars_units_append, ih]
  rw [decodeLossy, encode, hchars, String.ofList_toList]

/-- Characters of one byte are their own units. -/
theorem encode_latin {text : String} (h : ∀ c ∈ text.toList, c.toNat ≤ 0xFF) :
    encode text = text.toList.map fun c => (UInt8.ofNat c.toNat).toUInt16 := by
  have hunits : ∀ c : Char, c.toNat ≤ 0xFF → units c = [(UInt8.ofNat c.toNat).toUInt16] := by
    intro c hc
    rw [units, if_pos (by omega), List.singleton_inj, ← UInt16.toNat_inj, UInt8.toNat_toUInt16,
      UInt16.toNat_ofNat_of_lt' (show c.toNat < 0x10000 by omega),
      UInt8.toNat_ofNat_of_lt' (show c.toNat < 0x100 by omega)]
  rw [encode, List.flatMap_congr fun c hc => hunits c (h c hc), List.map_eq_flatMap]

end HeapDump.Text.Utf16

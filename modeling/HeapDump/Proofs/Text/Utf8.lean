import HeapDump.Text.Utf8
import Mathlib.Data.List.Basic

/-! Encoded text read back.  The bytes of a character are one chunk wherever they stand, since none of them
is out of the range that the bytes before it leave.  So lossy decoding gives back every text that has been
encoded.  No byte of it is `C0`, so there is no two byte NUL to undo, and none is zero but for NUL. -/

namespace HeapDump.Text.Utf8

/-! ### Bytes of one character -/

theorem chunksFrom_plain {n : Nat} (h : n < 0x80) (bytes : List UInt8) :
    chunksFrom none (.ofNat n :: bytes) = .scalar (Char.ofNat n) :: chunksFrom none bytes := by
  have hlead : ∀ n < 0x80, lead (.ofNat n) = .inl (.scalar (Char.ofNat n)) := by decide +kernel
  rw [chunksFrom, hlead n h]

/-- A first byte says how many bytes are missing. -/
theorem chunksFrom_lead {n : Nat} {p : Partial} (h : lead (.ofNat n) = .inr p)
    (bytes : List UInt8) : chunksFrom none (.ofNat n :: bytes) = chunksFrom (some p) bytes := by
  rw [chunksFrom, h]

theorem lead_two {n : Nat} (h : 2 ≤ n) (hlt : n < 0x20) :
    lead (.ofNat (n + 0xC0)) = .inr ⟨n, 1, 1, 0x80, 0xBF⟩ := by
  have hall : ∀ n < 0x20, 2 ≤ n → lead (.ofNat (n + 0xC0)) = .inr ⟨n, 1, 1, 0x80, 0xBF⟩ := by
    decide +kernel
  exact hall n hlt h

theorem lead_three {n : Nat} (hlt : n < 0x10) :
    lead (.ofNat (n + 0xE0)) =
      .inr ⟨n, 1, 2, if n = 0 then 0xA0 else 0x80, if n = 0xD then 0x9F else 0xBF⟩ := by
  have hall : ∀ n < 0x10, lead (.ofNat (n + 0xE0)) =
      .inr ⟨n, 1, 2, if n = 0 then 0xA0 else 0x80, if n = 0xD then 0x9F else 0xBF⟩ := by
    decide +kernel
  exact hall n hlt

theorem lead_four {n : Nat} (hlt : n < 5) :
    lead (.ofNat (n + 0xF0)) =
      .inr ⟨n, 1, 3, if n = 0 then 0x90 else 0x80, if n = 4 then 0x8F else 0xBF⟩ := by
  have hall : ∀ n < 5, lead (.ofNat (n + 0xF0)) =
      .inr ⟨n, 1, 3, if n = 0 then 0x90 else 0x80, if n = 4 then 0x8F else 0xBF⟩ := by
    decide +kernel
  exact hall n hlt

theorem le_ofNat_le_iff {low high : UInt8} {n : Nat} (hlt : n < 0x40) :
    low ≤ .ofNat (n + 0x80) ∧ .ofNat (n + 0x80) ≤ high ↔
      low.toNat ≤ n + 0x80 ∧ n + 0x80 ≤ high.toNat := by
  have hbyte : (UInt8.ofNat (n + 0x80)).toNat = n + 0x80 :=
    UInt8.toNat_ofNat_of_lt' (show n + 0x80 < 256 by omega)
  rw [UInt8.le_iff_toNat_le, UInt8.le_iff_toNat_le, hbyte]

section Continued

variable {value taken : Nat} {low high : UInt8} {n : Nat} (hlt : n < 0x40)
  (hrange : low.toNat ≤ n + 0x80 ∧ n + 0x80 ≤ high.toNat) (bytes : List UInt8)
include hlt hrange

/-- The last byte of a character. -/
theorem chunksFrom_last : chunksFrom (some ⟨value, taken, 1, low, high⟩)
    (.ofNat (n + 0x80) :: bytes) =
      .scalar (Char.ofNat (64 * value + n)) :: chunksFrom none bytes := by
  have hbyte : (UInt8.ofNat (n + 0x80)).toNat = n + 0x80 :=
    UInt8.toNat_ofNat_of_lt' (show n + 0x80 < 256 by omega)
  rw [chunksFrom, if_pos ((le_ofNat_le_iff hlt).mpr hrange), Partial.push, if_pos rfl, hbyte,
    Nat.add_sub_cancel]

/-- A byte of a character that is not its last one. -/
theorem chunksFrom_next {missing : Nat} : chunksFrom (some ⟨value, taken, missing + 2, low, high⟩)
    (.ofNat (n + 0x80) :: bytes) =
      chunksFrom (some ⟨64 * value + n, taken + 1, missing + 1, 0x80, 0xBF⟩) bytes := by
  have hbyte : (UInt8.ofNat (n + 0x80)).toNat = n + 0x80 :=
    UInt8.toNat_ofNat_of_lt' (show n + 0x80 < 256 by omega)
  rw [chunksFrom, if_pos ((le_ofNat_le_iff hlt).mpr hrange), Partial.push, if_neg (by simp), hbyte,
    Nat.add_sub_cancel]
  rfl

end Continued

/-- The full range of a byte that continues a character. -/
theorem continues {n : Nat} (hlt : n < 0x40) :
    (0x80 : UInt8).toNat ≤ n + 0x80 ∧ n + 0x80 ≤ (0xBF : UInt8).toNat := by
  simp
  omega

/-! ### Characters -/

/-- The bytes of a character are one chunk. -/
theorem chunksFrom_utf8EncodeChar (c : Char) (bytes : List UInt8) :
    chunksFrom none (String.utf8EncodeChar c ++ bytes) = .scalar c :: chunksFrom none bytes := by
  have hvalid : c.val.toNat < 0xD800 ∨ 0xDFFF < c.val.toNat ∧ c.val.toNat < 0x110000 := c.valid
  have hchar : Char.ofNat c.val.toNat = c := Char.ofNat_toNat c
  unfold String.utf8EncodeChar
  dsimp only
  generalize c.val.toNat = v at hvalid hchar ⊢
  have hlast : v % 0x40 < 0x40 := Nat.mod_lt _ (by decide)
  have hmiddle : v / 64 % 0x40 < 0x40 := Nat.mod_lt _ (by decide)
  split
  · rw [List.singleton_append, chunksFrom_plain (by omega), hchar]
  · split
    · have hvalue : 64 * (v / 64 % 0x20) + v % 0x40 = v := by omega
      simp only [List.cons_append, List.nil_append]
      rw [chunksFrom_lead (lead_two (by omega) (by omega)),
        chunksFrom_last hlast (continues hlast), hvalue, hchar]
    · split
      · -- Not overlong, and no surrogate.
        have hrange : (if v / 4096 % 0x10 = 0 then 0xA0 else 0x80 : UInt8).toNat ≤
              v / 64 % 0x40 + 0x80 ∧
            v / 64 % 0x40 + 0x80 ≤ (if v / 4096 % 0x10 = 0xD then 0x9F else 0xBF : UInt8).toNat := by
          constructor <;> split <;> simp <;> omega
        have hvalue : 64 * (64 * (v / 4096 % 0x10) + v / 64 % 0x40) + v % 0x40 = v := by omega
        simp only [List.cons_append, List.nil_append]
        rw [chunksFrom_lead (lead_three (by omega)), chunksFrom_next hmiddle hrange,
          chunksFrom_last hlast (continues hlast), hvalue, hchar]
      · -- Not overlong, and not past the last character.
        have hsecond : v / 4096 % 0x40 < 0x40 := Nat.mod_lt _ (by decide)
        have hrange : (if v / 262144 % 0x08 = 0 then 0x90 else 0x80 : UInt8).toNat ≤
              v / 4096 % 0x40 + 0x80 ∧
            v / 4096 % 0x40 + 0x80 ≤ (if v / 262144 % 0x08 = 4 then 0x8F else 0xBF : UInt8).toNat := by
          constructor <;> split <;> simp <;> omega
        have hvalue : 64 * (64 * (64 * (v / 262144 % 0x08) + v / 4096 % 0x40) + v / 64 % 0x40) +
            v % 0x40 = v := by omega
        simp only [List.cons_append, List.nil_append]
        rw [chunksFrom_lead (lead_four (by omega)), chunksFrom_next hsecond hrange,
          chunksFrom_next hmiddle (continues hmiddle), chunksFrom_last hlast (continues hlast),
          hvalue, hchar]

/-! ### Texts -/

theorem chunks_encode (text : String) : chunks (encode text) = text.toList.map .scalar := by
  unfold chunks encode
  induction text.toList with
  | nil => rfl
  | cons c chars ih => rw [List.flatMap_cons, chunksFrom_utf8EncodeChar, ih, List.map_cons]

theorem decodeLossy_encode (text : String) : decodeLossy (encode text) = text := by
  rw [decodeLossy, chunks_encode, List.map_map]
  exact (congrArg String.ofList (List.map_id' _)).trans String.ofList_toList

theorem restoreNul_cons {b : UInt8} (h : b ≠ 0xC0) (bytes : List UInt8) :
    restoreNul (b :: bytes) = b :: restoreNul bytes := by
  cases bytes with
  | nil => rfl
  | cons next bytes => rw [restoreNul, if_neg fun hnul => h hnul.1]

/-- Bytes none of which is `C0` stay as they are, whatever follows them. -/
theorem restoreNul_append {front : List UInt8} (h : ∀ b ∈ front, b ≠ 0xC0) (rest : List UInt8) :
    restoreNul (front ++ rest) = front ++ restoreNul rest := by
  induction front with
  | nil => rfl
  | cons b front ih =>
    obtain ⟨hb, hfront⟩ := List.forall_mem_cons.mp h
    rw [List.cons_append, restoreNul_cons hb, ih hfront, List.cons_append]

theorem restoreNul_eq_self {bytes : List UInt8} (h : ∀ b ∈ bytes, b ≠ 0xC0) :
    restoreNul bytes = bytes := by
  have hnone := restoreNul_append h []
  rwa [List.append_nil, show restoreNul [] = [] from rfl, List.append_nil] at hnone

/-- A byte of an encoded text is an ASCII character of it, or part of a character past ASCII, of which none
begins with `C0`. -/
theorem of_mem_encode {text : String} {b : UInt8} (hb : b ∈ encode text) :
    (∃ c ∈ text.toList, b.toNat = c.val.toNat ∧ b.toNat < 0x80) ∨
      0x80 ≤ b.toNat ∧ b.toNat ≠ 0xC0 := by
  obtain ⟨c, hc, hb⟩ := List.mem_flatMap.mp hb
  have hpart : ∀ n, b = .ofNat n → n < 256 → 0x80 ≤ n → n ≠ 0xC0 →
      0x80 ≤ b.toNat ∧ b.toNat ≠ 0xC0 := by
    rintro n rfl hlt hle hne
    rw [UInt8.toNat_ofNat_of_lt' hlt]
    exact ⟨hle, hne⟩
  unfold String.utf8EncodeChar at hb
  dsimp only at hb
  split at hb
  · obtain rfl := List.mem_singleton.mp hb
    rw [UInt8.toNat_ofNat_of_lt' (show c.val.toNat < 256 by omega)]
    exact .inl ⟨c, hc, rfl, by omega⟩
  · refine .inr ?_
    split at hb
    · simp only [List.mem_cons, List.not_mem_nil, or_false] at hb
      rcases hb with hb | hb <;> exact hpart _ hb (by omega) (by omega) (by omega)
    · split at hb
      · simp only [List.mem_cons, List.not_mem_nil, or_false] at hb
        rcases hb with hb | hb | hb <;> exact hpart _ hb (by omega) (by omega) (by omega)
      · simp only [List.mem_cons, List.not_mem_nil, or_false] at hb
        rcases hb with hb | hb | hb | hb <;> exact hpart _ hb (by omega) (by omega) (by omega)

/-- Only the character NUL is written with a zero byte. -/
theorem encode_ne_zero {text : String} (h : '\x00' ∉ text.toList) :
    ∀ b ∈ encode text, b ≠ 0 := by
  rintro b hb rfl
  rcases of_mem_encode hb with ⟨c, hc, hval, -⟩ | ⟨hle, -⟩
  · have hnul : c = '\x00' := Char.ext (UInt32.toNat_inj.mp hval.symm)
    exact h (hnul ▸ hc)
  · exact absurd hle (by decide)

theorem encode_ne_C0 (text : String) : ∀ b ∈ encode text, b ≠ 0xC0 := by
  rintro b hb rfl
  rcases of_mem_encode hb with ⟨c, -, -, hlt⟩ | ⟨-, hne⟩
  · exact absurd hlt (by decide)
  · exact hne rfl

/-- An encoded text holds no two byte NUL. -/
theorem restoreNul_encode (text : String) : restoreNul (encode text) = encode text :=
  restoreNul_eq_self (encode_ne_C0 text)

end HeapDump.Text.Utf8

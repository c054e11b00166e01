import HeapDump.Word
import Mathlib.Algebra.Group.Nat.Defs

/-! Reading and writing words undo each other.  What is read of a word that has been written is the
number less what its width has no room for, and a byte string is written again as it was read. -/

namespace HeapDump.Word

/-- The high byte of a word of `n + 1` bytes. -/
theorem toBytes_succ (n v : Nat) : toBytes (n + 1) v = UInt8.ofNat (v / 256 ^ n) :: toBytes n v := by
  rw [toBytes, Nat.shiftRight_eq_div_pow, Nat.pow_mul]

theorem foldl_eq (bytes : List UInt8) (start : Nat) :
    bytes.foldl (fun n b => 256 * n + b.toNat) start =
      256 ^ bytes.length * start + ofBytes bytes := by
  induction bytes generalizing start with
  | nil => simp [ofBytes]
  | cons b bytes ih =>
    have h := ih (256 * 0 + b.toNat)
    rw [ofBytes, List.foldl_cons, List.foldl_cons, h, ih, List.length_cons, Nat.pow_succ]
    simp only [Nat.mul_zero, Nat.zero_add, Nat.mul_add, Nat.add_assoc, Nat.mul_assoc]

theorem ofBytes_cons (b : UInt8) (bytes : List UInt8) :
    ofBytes (b :: bytes) = 256 ^ bytes.length * b.toNat + ofBytes bytes := by
  rw [ofBytes, List.foldl_cons, foldl_eq]
  simp

theorem ofBytes_toBytes (n v : Nat) : ofBytes (toBytes n v) = v % 256 ^ n := by
  induction n with
  | zero => simp [toBytes, ofBytes, Nat.mod_one]
  | succ n ih =>
    rw [toBytes_succ, ofBytes_cons, ih, length_toBytes, Nat.pow_succ, Nat.mod_mul, Nat.add_comm]
    simp

theorem ofBytes_lt (bytes : List UInt8) : ofBytes bytes < 256 ^ bytes.length := by
  induction bytes with
  | nil => simp [ofBytes]
  | cons b bytes ih =>
    have hb : b.toNat + 1 ≤ 256 := b.toNat_lt_size
    have := Nat.mul_le_mul_left (256 ^ bytes.length) hb
    rw [ofBytes_cons, List.length_cons, Nat.pow_succ]
    rw [Nat.mul_add] at this
    omega

theorem ofBytes_lt_of_length_le {n : Nat} {bytes : List UInt8} (h : bytes.length ≤ n) :
    ofBytes bytes < 256 ^ n :=
  Nat.lt_of_lt_of_le (ofBytes_lt bytes) (Nat.pow_le_pow_right (by decide) h)

theorem toBytes_ofBytes_append (n : Nat) (bytes : List UInt8) (h : bytes.length = n) (k : Nat) :
    toBytes n (256 ^ n * k + ofBytes bytes) = bytes := by
  induction bytes generalizing n k with
  | nil => subst h; rfl
  | cons b bytes ih =>
    subst h
    have hpos : 0 < 256 ^ bytes.length := Nat.pow_pos (by decide)
    have hlt := ofBytes_lt bytes
    rw [List.length_cons, toBytes_succ, ofBytes_cons]
    have hsplit : 256 ^ (bytes.length + 1) * k + (256 ^ bytes.length * b.toNat + ofBytes bytes) =
        256 ^ bytes.length * (256 * k + b.toNat) + ofBytes bytes := by
      rw [Nat.pow_succ, Nat.mul_add, Nat.mul_assoc, Nat.add_assoc]
    rw [hsplit, ih _ rfl, Nat.mul_add_div hpos, Nat.div_eq_of_lt hlt]
    congr 1
    apply UInt8.toNat_inj.mp
    have := b.toNat_lt_size
    simp [UInt8.size] at *

/-- A byte string is the only one of its length that spells its number. -/
theorem toBytes_ofBytes {n : Nat} {bytes : List UInt8} (h : bytes.length = n) :
    toBytes n (ofBytes bytes) = bytes := by
  simpa using toBytes_ofBytes_append n bytes h 0

/-! ### Words with room for their bytes -/

section Room

variable {bytes : List UInt8}

theorem ofBytes_singleton (b : UInt8) : ofBytes [b] = b.toNat := by
  rw [ofBytes_cons]
  simp [ofBytes]

theorem toNat_ofBytes8 (h : bytes.length ≤ 1) :
    (UInt8.ofNat (ofBytes bytes)).toNat = ofBytes bytes :=
  UInt8.toNat_ofNat_of_lt' (ofBytes_lt_of_length_le h)

theorem toNat_ofBytes16 (h : bytes.length ≤ 2) :
    (UInt16.ofNat (ofBytes bytes)).toNat = ofBytes bytes :=
  UInt16.toNat_ofNat_of_lt' (ofBytes_lt_of_length_le h)

theorem toNat_ofBytes32 (h : bytes.length ≤ 4) :
    (UInt32.ofNat (ofBytes bytes)).toNat = ofBytes bytes :=
  UInt32.toNat_ofNat_of_lt' (ofBytes_lt_of_length_le h)

theorem toNat_ofBytes64 (h : bytes.length ≤ 8) :
    (UInt64.ofNat (ofBytes bytes)).toNat = ofBytes bytes :=
  UInt64.toNat_ofNat_of_lt' (ofBytes_lt_of_length_le h)

end Room

/-! ### Rows of words -/

/-- Each piece of the same width is cut off again. -/
theorem split_flatMap {α : Type} {write : α → List UInt8} {width : Nat} {items : List α}
    (h : ∀ a ∈ items, (write a).length = width) :
    split width items.length (items.flatMap write) = items.map write := by
  induction items with
  | nil => rfl
  | cons a items ih =>
    obtain ⟨hfirst, hrest⟩ := List.forall_mem_cons.mp h
    rw [List.length_cons, List.flatMap_cons, split, List.take_left' hfirst, List.drop_left' hfirst,
      ih hrest, List.map_cons]

end HeapDump.Word

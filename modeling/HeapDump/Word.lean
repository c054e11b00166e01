/-! Big-endian words.  A word of `n` bytes spells a number below `256 ^ n`, most significant byte
first.  `toBytes` writes the low `n` bytes of a number and `ofBytes` reads a byte string of any
length. -/

namespace HeapDump.Word

/-- The number that `bytes` spells, most significant byte first. -/
def ofBytes (bytes : List UInt8) : Nat :=
  bytes.foldl (fun n b => 256 * n + b.toNat) 0

/-- The low `n` bytes of `v`, most significant byte first. -/
def toBytes : Nat → Nat → List UInt8
  | 0, _ => []
  | n + 1, v => UInt8.ofNat (v >>> (8 * n)) :: toBytes n v

/-- The first `count` pieces of `width` bytes each. -/
def split (width : Nat) : Nat → List UInt8 → List (List UInt8)
  | 0, _ => []
  | count + 1, bytes => bytes.take width :: split width count (bytes.drop width)

@[simp] theorem length_toBytes (n v : Nat) : (toBytes n v).length = n := by
  induction n with
  | zero => rfl
  | succ n ih => simp [toBytes, ih]

@[simp] theorem length_split (width count : Nat) (bytes : List UInt8) :
    (split width count bytes).length = count := by
  induction count generalizing bytes with
  | zero => rfl
  | succ count ih => simp [split, ih]

end HeapDump.Word

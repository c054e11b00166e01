/-! UTF-16 text.  A pair of a high and a low surrogate stands for one character beyond the basic
plane.  A surrogate without its partner becomes the replacement character. -/

namespace HeapDump.Text.Utf16

def IsHigh (u : UInt16) : Prop := 0xD800 ≤ u ∧ u < 0xDC00

def IsLow (u : UInt16) : Prop := 0xDC00 ≤ u ∧ u < 0xE000

instance (u : UInt16) : Decidable (IsHigh u) := inferInstanceAs (Decidable (_ ∧ _))

instance (u : UInt16) : Decidable (IsLow u) := inferInstanceAs (Decidable (_ ∧ _))

/-- The character of a high surrogate and the low one after it. -/
def pair (high low : UInt16) : Char :=
  Char.ofNat (0x10000 + 0x400 * (high.toNat - 0xD800) + (low.toNat - 0xDC00))

/-- The character of a unit that is half of no pair. -/
def single (u : UInt16) : Char :=
  if IsHigh u ∨ IsLow u then '\uFFFD' else Char.ofNat u.toNat

def chars : List UInt16 → List Char
  | u :: v :: units =>
    if IsHigh u ∧ IsLow v then pair u v :: chars units else single u :: chars (v :: units)
  | [u] => [single u]
  | [] => []

def decodeLossy (units : List UInt16) : String :=
  String.ofList (chars units)

end HeapDump.Text.Utf16

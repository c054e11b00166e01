import HeapDump.Ident

/-! Decoders of byte lists.  A decoder takes what it needs from the front of its input and leaves the
rest.  When a read needs more bytes than are left, decoding fails and the failure keeps the bytes
that stood where that read began. -/

namespace HeapDump

/-- The input ended inside a read; `rest` is the input from where the read began. -/
structure Shortfall where
  rest : List UInt8
deriving DecidableEq, Repr

/-- A decoder from the front of a byte list. -/
abbrev Slice (α : Type) := StateT (List UInt8) (Except Shortfall) α

namespace Slice

/-- The next `n` bytes. -/
def take (n : Nat) : Slice (List UInt8) := fun input =>
  if n ≤ input.length then .ok (input.take n, input.drop n) else .error ⟨input⟩

/-- All bytes that are left. -/
def rest : Slice (List UInt8) := fun input => .ok (input, [])

/-- The number in the next `n` bytes. -/
def word (n : Nat) : Slice Nat :=
  return Word.ofBytes (← take n)

def u32 : Slice UInt32 :=
  return UInt32.ofNat (← word 4)

def ident (width : IdWidth) : Slice Ident :=
  return Ident.ofBytes (← take width.bytes)

end Slice

end HeapDump

import HeapDump.Value

/-! Values packed one after another, as in a stack trace or an array.  Decoding goes on until all the
values that are due have been read or the bytes run out, and it reports at most one failure. -/

namespace HeapDump

/-- What a reading yields: items, and the failure that ended it early, if one did. -/
structure Listing (ε α : Type) where
  items : List α
  failure : Option ε
deriving DecidableEq, Repr

namespace Listing

variable {ε α : Type}

def cons (item : α) (rest : Listing ε α) : Listing ε α :=
  ⟨item :: rest.items, rest.failure⟩

end Listing

/-- A run of values of one kind: the bytes left to decode and the number of values still due. -/
structure Packed (α : Type) where
  decode : Slice α
  input : List UInt8
  due : Nat

namespace Packed

variable {α : Type}

/-- The next value.  After a failure nothing more is due. -/
def next? (packed : Packed α) : Option (Except Shortfall α × Packed α) :=
  match packed.due with
  | 0 => none
  | due + 1 =>
    match packed.decode packed.input with
    | .ok (value, rest) => some (.ok value, { packed with input := rest, due := due })
    | .error e => some (.error e, { packed with due := 0 })

/-- Bounds on the number of values to come: any number may be missing, none can be added. -/
def sizeHint (packed : Packed α) : Nat × Option Nat :=
  (0, some packed.due)

def listFrom (decode : Slice α) : Nat → List UInt8 → Listing Shortfall α
  | 0, _ => ⟨[], none⟩
  | due + 1, input =>
    match decode input with
    | .ok (value, rest) => (listFrom decode due rest).cons value
    | .error e => ⟨[], some e⟩

/-- All the values to come. -/
def toListing (packed : Packed α) : Listing Shortfall α :=
  listFrom packed.decode packed.due packed.input

end Packed

/-- The contents of a primitive array. -/
structure PrimitiveContents where
  type : PrimitiveType
  count : UInt32
  bytes : List UInt8

/-- The elements, if `type` is the type of the array.  Identifiers play no part in them, so the width
does not matter. -/
def PrimitiveContents.elements? (contents : PrimitiveContents) (type : PrimitiveType) :
    Option (Listing Shortfall Value) :=
  if contents.type = type then
    some (Packed.toListing
      ⟨Slice.value .eight (.primitive type), contents.bytes, contents.count.toNat⟩)
  else none

end HeapDump

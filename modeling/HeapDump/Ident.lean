import HeapDump.Word

/-! Identifiers.  A dump names its objects, classes, strings and stack frames by numbers of one
width, four or eight bytes, that its header fixes.  Four byte identifiers are widened when they are
read, and an identifier keeps its low bytes when it is written.  Zero is the null reference. -/

namespace HeapDump

/-- A number given to a class, thread or stack trace when the dump was made. -/
abbrev Serial := UInt32

/-- The width of every identifier in a dump. -/
inductive IdWidth
  | four
  | eight
deriving DecidableEq, Repr

namespace IdWidth

def bytes : IdWidth → Nat
  | four => 4
  | eight => 8

/-- Only the widths four and eight exist. -/
def ofBytes? (n : UInt32) : Option IdWidth :=
  if n = 4 then some four else if n = 8 then some eight else none

end IdWidth

structure Ident where
  val : UInt64
deriving DecidableEq, Repr

namespace Ident

instance : Ord Ident := ⟨compareOn Ident.val⟩

instance : Std.TransOrd Ident := inferInstanceAs (Std.TransCmp (compareOn Ident.val))

instance : Std.LawfulEqOrd Ident where
  eq_of_compare {a b} h := by
    have hval : compare a.val b.val = .eq := h
    rw [Std.LawfulEqOrd.compare_eq_iff_eq] at hval
    cases a; cases b
    exact congrArg Ident.mk hval

/-- The identifier that refers to nothing. -/
def null : Ident := ⟨0⟩

/-- The object a reference names, if it names one. -/
def nonNull? (id : Ident) : Option Ident :=
  if id = null then none else some id

def ofBytes (bytes : List UInt8) : Ident :=
  ⟨UInt64.ofNat (Word.ofBytes bytes)⟩

def toBytes (width : IdWidth) (id : Ident) : List UInt8 :=
  Word.toBytes width.bytes id.val.toNat

@[simp] theorem length_toBytes (width : IdWidth) (id : Ident) :
    (id.toBytes width).length = width.bytes :=
  Word.length_toBytes _ _

end Ident

end HeapDump

import HeapDump.Slice

/-! Field types and field values.  A field holds a reference or a value of one of the eight primitive
types; the elements of an array are typed in the same way.  `Value.ofBytes` reads a value from the
bytes of its field and `Value.toBytes` writes them.  Floating point values are kept as their bits,
so nothing about them is lost. -/

namespace HeapDump

inductive PrimitiveType
  | boolean
  | char
  | float
  | double
  | byte
  | short
  | int
  | long
deriving DecidableEq, Repr

namespace PrimitiveType

def all : List PrimitiveType :=
  [boolean, char, float, double, byte, short, int, long]

/-- The code of a type in a dump. -/
def code : PrimitiveType → UInt8
  | boolean => 0x04
  | char => 0x05
  | float => 0x06
  | double => 0x07
  | byte => 0x08
  | short => 0x09
  | int => 0x0A
  | long => 0x0B

def ofCode? (code : UInt8) : Option PrimitiveType :=
  all.find? (·.code = code)

/-- The bytes a value takes. -/
def size : PrimitiveType → Nat
  | boolean | byte => 1
  | char | short => 2
  | float | int => 4
  | double | long => 8

/-- The name of the type in Java source. -/
def javaName : PrimitiveType → String
  | boolean => "boolean"
  | char => "char"
  | float => "float"
  | double => "double"
  | byte => "byte"
  | short => "short"
  | int => "int"
  | long => "long"

/-- The letter that stands for the type in the names of array classes. -/
def descriptor : PrimitiveType → Char
  | boolean => 'Z'
  | char => 'C'
  | float => 'F'
  | double => 'D'
  | byte => 'B'
  | short => 'S'
  | int => 'I'
  | long => 'J'

/-- The names dumps give to the class of arrays of this type, `int[]` before `[I`. -/
def arrayClassNames (type : PrimitiveType) : List String :=
  [type.javaName ++ "[]", "[" ++ type.descriptor.toString]

end PrimitiveType

/-- The type of a field or of the elements of an array. -/
inductive FieldType
  | object
  | primitive (type : PrimitiveType)
deriving DecidableEq, Repr

namespace FieldType

def code : FieldType → UInt8
  | object => 0x02
  | primitive type => type.code

/-- Code 1 is an older spelling of the reference type. -/
def ofCode? (code : UInt8) : Option FieldType :=
  if code = 0x01 ∨ code = 0x02 then some object
  else (PrimitiveType.ofCode? code).map primitive

def size (width : IdWidth) : FieldType → Nat
  | object => width.bytes
  | primitive type => type.size

def javaName : FieldType → String
  | object => "Object"
  | primitive type => type.javaName

end FieldType

/-- What a field holds. -/
inductive Value
  /-- A reference, which may be null. -/
  | object (target : Option Ident)
  | boolean (b : Bool)
  /-- One UTF-16 unit. -/
  | char (unit : UInt16)
  | float (bits : UInt32)
  | double (bits : UInt64)
  | byte (v : Int8)
  | short (v : Int16)
  | int (v : Int32)
  | long (v : Int64)
deriving DecidableEq, Repr

namespace Value

def type : Value → FieldType
  | object _ => .object
  | boolean _ => .primitive .boolean
  | char _ => .primitive .char
  | float _ => .primitive .float
  | double _ => .primitive .double
  | byte _ => .primitive .byte
  | short _ => .primitive .short
  | int _ => .primitive .int
  | long _ => .primitive .long

/-- The object a value refers to. -/
def target? : Value → Option Ident
  | object target => target
  | _ => none

/-- The number in a value of an integral type; a character counts as its unit. -/
def integer? : Value → Option Int
  | byte v => some v.toInt
  | short v => some v.toInt
  | char unit => some unit.toNat
  | int v => some v.toInt
  | long v => some v.toInt
  | _ => none

/-- The value that the bytes of a field spell.  Every byte but zero is true. -/
def ofBytes (type : FieldType) (bytes : List UInt8) : Value :=
  match type with
  | .object => object (Ident.ofBytes bytes).nonNull?
  | .primitive .boolean => boolean (Word.ofBytes bytes ≠ 0)
  | .primitive .char => char (.ofNat (Word.ofBytes bytes))
  | .primitive .float => float (.ofNat (Word.ofBytes bytes))
  | .primitive .double => double (.ofNat (Word.ofBytes bytes))
  | .primitive .byte => byte (UInt8.ofNat (Word.ofBytes bytes)).toInt8
  | .primitive .short => short (UInt16.ofNat (Word.ofBytes bytes)).toInt16
  | .primitive .int => int (UInt32.ofNat (Word.ofBytes bytes)).toInt32
  | .primitive .long => long (UInt64.ofNat (Word.ofBytes bytes)).toInt64

def toBytes (width : IdWidth) : Value → List UInt8
  | object target => (target.getD Ident.null).toBytes width
  | boolean b => [if b then 1 else 0]
  | char unit => Word.toBytes 2 unit.toNat
  | float bits => Word.toBytes 4 bits.toNat
  | double bits => Word.toBytes 8 bits.toNat
  | byte v => Word.toBytes 1 v.toUInt8.toNat
  | short v => Word.toBytes 2 v.toUInt16.toNat
  | int v => Word.toBytes 4 v.toUInt32.toNat
  | long v => Word.toBytes 8 v.toUInt64.toNat

@[simp] theorem length_toBytes (width : IdWidth) (v : Value) :
    (v.toBytes width).length = v.type.size width := by
  cases v <;> simp [toBytes, type, FieldType.size, PrimitiveType.size]

end Value

/-- A value of the given type from the front of a byte list. -/
def Slice.value (width : IdWidth) (type : FieldType) : Slice Value :=
  return Value.ofBytes type (← take (type.size width))

end HeapDump

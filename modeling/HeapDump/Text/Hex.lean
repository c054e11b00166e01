/-! Hexadecimal text.  Identifiers are shown as `0x` and lower case digits without padding, tag and
type codes as `0x` and at least two upper case digits. -/

namespace HeapDump.Text

/-- Lower case digits, without leading zeros. -/
def hexLower (n : Nat) : String :=
  String.ofList (Nat.toDigits 16 n)

/-- Upper case digits, without leading zeros. -/
def hexUpper (n : Nat) : String :=
  String.ofList ((Nat.toDigits 16 n).map Char.toUpper)

/-- Zeros in front of `digits` up to `width` characters. -/
def zeroFill (width : Nat) (digits : String) : String :=
  String.ofList (digits.toList.leftpad width '0')

/-- A tag or type code. -/
def hexCode (code : UInt8) : String :=
  "0x" ++ zeroFill 2 (hexUpper code.toNat)

/-- An identifier in a message. -/
def hexIdent (n : UInt64) : String :=
  "0x" ++ hexLower n.toNat

end HeapDump.Text

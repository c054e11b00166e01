import HeapDump.ObjectGraph.Contents
import HeapDump.Text.Utf16

/-! The texts of Java strings.  A string keeps its text in an array of characters, or in an array of bytes
that holds UTF-16 with the low byte first when its coder is 1 and Latin-1 otherwise.  Older strings
share an array and say by offset and count which part of it is theirs. -/

namespace HeapDump

namespace StringValue

def classNames : List String := ["java/lang/String", "java.lang.String"]

/-- UTF-16 units, high byte first. -/
def wideUnits (count : Nat) (bytes : List UInt8) : List UInt16 :=
  (Word.split 2 count bytes).map fun unit => .ofNat (Word.ofBytes unit)

/-- UTF-16 units, low byte first; an odd byte at the end counts for nothing. -/
def littleUnits (bytes : List UInt8) : List UInt16 :=
  (Word.split 2 (bytes.length / 2) bytes).map fun unit => .ofNat (Word.ofBytes unit.reverse)

/-- The units of Latin-1 text. -/
def latinUnits (bytes : List UInt8) : List UInt16 :=
  bytes.map (·.toUInt16)

/-- The units that the contents of an array of the given type stand for. -/
def units? (type : FieldType) (coder : Option Int) (count : Nat) (bytes : List UInt8) :
    Option (List UInt16) :=
  match type with
  | .primitive .char => some (wideUnits count bytes)
  | .primitive .byte =>
    some (if coder = some 1 then littleUnits bytes else latinUnits bytes)
  | _ => none

/-- The part of `units` that begins at `offset` and has `count` units, or goes to the end without a count,
as far as there are such units. -/
def part (offset count : Option Int) (units : List UInt16) : List UInt16 :=
  let rest := units.drop (offset.getD 0).toNat
  match count with
  | none => rest
  | some count => rest.take count.toNat

end StringValue

namespace ObjectGraph

open StringValue

/-- The text of a string, or nothing if the instance is no string or the dump lacks its contents. -/
def stringValue (graph : ObjectGraph) : Instance → Except DumpError (Option String)
  | .array _ => .ok none
  | .plain i =>
    if ((graph.class? i.classId).map (·.name)).all (· ∉ classNames) then .ok none
    else do
      let values ← graph.fieldValues i
      let number (name : String) : Option Int := (valueNamed? values name).bind (·.integer?)
      let array := do (← graph.instance? (← (← valueNamed? values "value").target?)).array?
      match array with
      | none => return none
      | some a =>
        match a.elementType, a.offset with
        | .object, _ | _, none => return none
        | type, some offset =>
          let bytes ← graph.source.slice offset (a.contentsLength graph.idWidth)
          return (units? type (number "coder") a.count.toNat bytes).map fun units =>
            Text.Utf16.decodeLossy (part (number "offset") (number "count") units)

end ObjectGraph

end HeapDump

import HeapDump.Record.Tag
import HeapDump.Ident
import HeapDump.Text.Hex
import HeapDump.Text.Quoted

/-! What reading a dump reports besides its result: how far it came, what it skipped, and what in the dump
does not fit together but does no harm. -/

namespace HeapDump

inductive Level
  | debug
  | info
  | warn
deriving DecidableEq, Repr

inductive Diagnostic
  | opened (label : String) (width : IdWidth)
  | unknownRecord (tagByte : UInt8) (offset : Nat) (bodyLength : UInt32)
  | unusedRecord (tag : RecordTag) (offset : Nat)
  | duplicateObject (id : Ident)
  | missingFrame (trace : Serial) (frame : Ident)
  | missingSuperclass (classId superclass : Ident)
  | withoutClass (instances : Nat)
  | superclassCycle (className : String)
  /-- The first instance of a class whose bytes are not as many as its class declares. -/
  | otherSize (object : Ident) (className : String) (has declares : UInt32)
  | finished (classes instances heaps roots : Nat)
deriving DecidableEq, Repr

namespace Diagnostic

open Text

def level : Diagnostic → Level
  | opened _ _ | finished _ _ _ _ => .info
  | unknownRecord _ _ _ | superclassCycle _ | otherSize _ _ _ _ => .warn
  | unusedRecord _ _ | duplicateObject _ | missingFrame _ _ | missingSuperclass _ _
  | withoutClass _ => .debug

def message : Diagnostic → String
  | opened label width => s!"Reading {Quoted.quote label} dump with {width.bytes}-byte ids"
  | unknownRecord tagByte offset bodyLength =>
    s!"Skipping record with unknown tag {hexCode tagByte} at offset {offset} ({bodyLength} bytes)"
  | unusedRecord tag offset => s!"Skipping {tag.name} record at offset {offset}"
  | duplicateObject id => s!"Duplicate object id {hexIdent id.val}"
  | missingFrame trace frame =>
    s!"Stack trace {trace} refers to missing frame {hexIdent frame.val}"
  | missingSuperclass classId superclass =>
    s!"Class {hexIdent classId.val} has missing superclass {hexIdent superclass.val}"
  | withoutClass instances => s!"{instances} instances have no class in the dump"
  | superclassCycle className => s!"Superclass cycle through class {className}"
  | otherSize object className has declares =>
    s!"Instance {hexIdent object.val} of {className} has {has} bytes of fields but the class " ++
      s!"declares {declares}"
  | finished classes instances heaps roots =>
    s!"Read {classes} classes and {instances} instances in {heaps} heaps, {roots} GC roots"

end Diagnostic

end HeapDump

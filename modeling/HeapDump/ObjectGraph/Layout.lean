import HeapDump.ObjectGraph.Table

/-! Layouts of instances.  The bytes of an instance hold the fields of its class, then those of its
superclass, and so on.  In a broken dump the superclasses of a class may lead back to a class met
before; there the layout ends. -/

namespace HeapDump

namespace ObjectTable

/-- A class and its superclasses, for at most `fuel` classes, and the class that was met twice, if the
chain leads back to one. -/
def chainFrom (table : ObjectTable) :
    (fuel : Nat) → (met : List Ident) → ClassObject → List ClassObject × Option ClassObject
  | 0, _, _ => ([], none)
  | fuel + 1, met, c =>
    if c.id ∈ met then ([], some c)
    else
      match table.superclass? c with
      | none => ([c], none)
      | some s =>
        let (rest, again) := chainFrom table fuel (c.id :: met) s
        (c :: rest, again)

/-- A class and its superclasses.  No chain is longer than there are classes before it ends or returns. -/
def chain (table : ObjectTable) (c : ClassObject) : List ClassObject × Option ClassObject :=
  table.chainFrom (table.classes.length + 1) [] c

end ObjectTable

namespace LayoutField

/-- The first byte behind a field. -/
def stop (width : IdWidth) (f : LayoutField) : Nat :=
  f.offset + f.field.type.size width

/-- Fields one after another from `offset` on. -/
def place (width : IdWidth) : (offset : Nat) → List (Ident × Field) → List LayoutField
  | _, [] => []
  | offset, (declaringClass, field) :: fields =>
    ⟨field, offset, declaringClass⟩ :: place width (offset + field.type.size width) fields

/-- The bytes that a layout needs. -/
def total (width : IdWidth) (layout : List LayoutField) : Nat :=
  layout.getLast?.elim 0 (stop width)

end LayoutField

namespace ObjectTable

/-- The fields of a class and its superclasses with their places. -/
def layout (width : IdWidth) (table : ObjectTable) (c : ClassObject) : List LayoutField :=
  LayoutField.place width 0 ((table.chain c).1.flatMap fun c => c.fields.map (c.id, ·))

/-- The layouts of all classes.  Where two classes share an identifier, the layout is that of the later
one. -/
def layouts (width : IdWidth) (table : ObjectTable) : Std.TreeMap Ident (List LayoutField) :=
  table.classes.foldl (fun layouts c => layouts.insert c.id (table.layout width c)) ∅

/-- A warning for each class whose superclasses lead back to a class met before. -/
def cycleNotes (table : ObjectTable) : List Diagnostic :=
  table.classes.filterMap fun c => (table.chain c).2.map fun again => .superclassCycle again.name

end ObjectTable

end HeapDump

import HeapDump.ObjectGraph.Basic
import HeapDump.Proofs.ObjectGraph.Census

/-! What a linked table keeps of its census.  Naming and linking change neither the place of an object nor
its identifier nor where its bytes lie. -/

namespace HeapDump.ObjectTable

/-- The counterpart of a consistent census. -/
structure Consistent (source : ByteSource) (width : IdWidth) (table : ObjectTable) : Prop where
  index : ∀ id location, table.index[id]? = some location →
    ∃ object, table.at? location = some object ∧ object.id = id
  entered : ∀ location object, table.at? location = some object → object.id ∈ table.index
  inside : ∀ location i, table.at? location = some (.instance i) → i.Inside source width

/-- Objects that come from objects at the same places, with the same identifiers, come to a consistent
table. -/
theorem Consistent.of_map {α : Type} {source : ByteSource} {width : IdWidth} {table : ObjectTable}
    {before : Location → Option α} {id : α → Ident} {f : Location → α → HeapObject}
    (hindex : ∀ i location, table.index[i]? = some location →
      ∃ object, before location = some object ∧ id object = i)
    (hentered : ∀ location object, before location = some object → id object ∈ table.index)
    (hat : ∀ location, table.at? location = (before location).map (f location))
    (hid : ∀ location object, (f location object).id = id object)
    (hinside : ∀ location object, before location = some object →
      ∀ i, f location object = .instance i → i.Inside source width) :
    table.Consistent source width := by
  constructor
  · intro i location hi
    obtain ⟨object, hobject, rfl⟩ := hindex i location hi
    exact ⟨f location object, by rw [hat, hobject]; rfl, hid location object⟩
  · intro location object' hobject'
    rw [hat] at hobject'
    obtain ⟨object, hobject, rfl⟩ := Option.map_eq_some_iff.mp hobject'
    rw [hid]
    exact hentered location object hobject
  · intro location i hi
    rw [hat] at hi
    obtain ⟨object, hobject, heq⟩ := Option.map_eq_some_iff.mp hi
    exact hinside location object hobject i heq

/-! ### Objects and their places -/

theorem mem_classes {table : ObjectTable} {c : ClassObject} :
    c ∈ table.classes ↔ ∃ location, table.at? location = some (.classObject c) := by
  simp only [classes, List.mem_flatMap, Array.mem_toList_iff]
  constructor
  · rintro ⟨heap, hheap, hc⟩
    obtain ⟨i, hi⟩ := Array.mem_iff_getElem?.mp hheap
    obtain ⟨j, hj⟩ := Array.mem_iff_getElem?.mp hc
    refine ⟨⟨i, .classSlot j⟩, ?_⟩
    simp [at?, hi, hj]
  · rintro ⟨⟨i, slot⟩, h⟩
    obtain ⟨heap, hheap, h⟩ := Option.bind_eq_some_iff.mp h
    refine ⟨heap, Array.mem_of_getElem? hheap, ?_⟩
    cases slot with
    | classSlot j =>
      obtain ⟨c', hc', h⟩ := Option.bind_eq_some_iff.mp h
      cases h
      exact Array.mem_of_getElem? hc'
    | instanceSlot j =>
      obtain ⟨i', -, h⟩ := Option.bind_eq_some_iff.mp h
      cases h

theorem mem_instances {table : ObjectTable} {i : Instance} :
    i ∈ table.instances ↔ ∃ location, table.at? location = some (.instance i) := by
  simp only [instances, List.mem_flatMap, Array.mem_toList_iff]
  constructor
  · rintro ⟨heap, hheap, hi⟩
    obtain ⟨h, hh⟩ := Array.mem_iff_getElem?.mp hheap
    obtain ⟨j, hj⟩ := Array.mem_iff_getElem?.mp hi
    refine ⟨⟨h, .instanceSlot j⟩, ?_⟩
    simp [at?, hh, hj]
  · rintro ⟨⟨h, slot⟩, hat⟩
    obtain ⟨heap, hheap, hat⟩ := Option.bind_eq_some_iff.mp hat
    refine ⟨heap, Array.mem_of_getElem? hheap, ?_⟩
    cases slot with
    | classSlot j =>
      obtain ⟨c, -, hat⟩ := Option.bind_eq_some_iff.mp hat
      cases hat
    | instanceSlot j =>
      obtain ⟨i', hi', hat⟩ := Option.bind_eq_some_iff.mp hat
      cases hat
      exact Array.mem_of_getElem? hi'

theorem resolve_eq_some {table : ObjectTable} {id : Ident} {object : HeapObject} :
    table.resolve id = some object ↔
      ∃ location, table.index[id]? = some location ∧ table.at? location = some object :=
  Option.bind_eq_some_iff

theorem class?_eq_some {table : ObjectTable} {id : Ident} {c : ClassObject} :
    table.class? id = some c ↔
      ∃ location, table.index[id]? = some location ∧ table.at? location = some (.classObject c) := by
  constructor
  · intro h
    obtain ⟨object, hresolve, hc⟩ := Option.bind_eq_some_iff.mp h
    cases object with
    | classObject c' =>
      cases hc
      exact resolve_eq_some.mp hresolve
    | «instance» i => cases hc
  · intro h
    exact Option.bind_eq_some_iff.mpr ⟨_, resolve_eq_some.mpr h, rfl⟩

/-- A class has the identifier that it is looked up by. -/
theorem id_of_class? {source : ByteSource} {width : IdWidth} {table : ObjectTable}
    (consistent : table.Consistent source width) {id : Ident} {c : ClassObject}
    (h : table.class? id = some c) : c.id = id := by
  obtain ⟨location, hlocation, hat⟩ := class?_eq_some.mp h
  obtain ⟨object, hat', hid⟩ := consistent.index id location hlocation
  rw [hat] at hat'
  cases hat'
  exact hid

theorem mem_classes_of_class? {table : ObjectTable} {id : Ident} {c : ClassObject}
    (h : table.class? id = some c) : c ∈ table.classes := by
  obtain ⟨location, -, hat⟩ := class?_eq_some.mp h
  exact mem_classes.mpr ⟨location, hat⟩

/-! ### Linking -/

theorem id_assignClass (table : ObjectTable) (i : Instance) : (table.assignClass i).id = i.id := by
  unfold assignClass
  split <;> rfl

theorem inside_assignClass {source : ByteSource} {width : IdWidth} (table : ObjectTable)
    {i : Instance} (h : i.Inside source width) : (table.assignClass i).Inside source width := by
  unfold assignClass
  split <;> exact h

/-- A class with its subclasses and instances, if it is the one that its identifier stands for. -/
def linkClass (table : ObjectTable) (location : Location) (c : ClassObject) : ClassObject :=
  if table.isIndexed location c.id then
    { c with
      subclasses := (Links.ofPairs table.subclassPairs).members c.id
      instances := (Links.ofPairs table.instancePairs).members c.id }
  else c

theorem id_linkClass (table : ObjectTable) (location : Location) (c : ClassObject) :
    (table.linkClass location c).id = c.id := by
  unfold linkClass
  split <;> rfl

/-- The object at a place of the linked table. -/
def linkObject (table : ObjectTable) (location : Location) : HeapObject → HeapObject
  | .classObject c => .classObject (table.linkClass location c)
  | .instance i => .instance (table.assignClass i)

/-- Links are added to the classes, and classes to the instances. -/
theorem at?_link (table : ObjectTable) (location : Location) :
    table.link.at? location = (table.at? location).map (table.linkObject location) := by
  obtain ⟨h, slot⟩ := location
  cases hheap : table.heaps[h]? with
  | none => simp [at?, link, hheap]
  | some heap =>
    cases slot with
    | classSlot j =>
      cases hclass : heap.classes[j]? with
      | none => simp [at?, link, hheap, hclass]
      | some c => simp [at?, link, hheap, hclass, linkObject, linkClass]
    | instanceSlot j =>
      cases hinstance : heap.instances[j]? with
      | none => simp [at?, link, hheap, hinstance]
      | some i => simp [at?, link, hheap, hinstance, linkObject]

theorem Consistent.link {source : ByteSource} {width : IdWidth} {table : ObjectTable}
    (h : table.Consistent source width) : table.link.Consistent source width := by
  refine of_map h.index h.entered (at?_link table) (fun location object => ?_)
    fun location object hobject i hi => ?_
  · cases object with
    | classObject c => exact id_linkClass table location c
    | «instance» i => exact id_assignClass table i
  · cases object with
    | classObject c => cases hi
    | «instance» j =>
      cases hi
      exact inside_assignClass table (h.inside location j hobject)

end HeapDump.ObjectTable

namespace HeapDump.Census

/-- The heap at a place. -/
def heapIdAt (census : Census) (location : Location) : UInt32 :=
  census.heaps[location.heap]?.elim Heap.defaultId (·.id)

/-- An object of a heap with the names that the census gives it. -/
def object (census : Census) (heapId : UInt32) : CensusObject → HeapObject
  | .classDump dump => .classObject (census.classObject heapId dump)
  | .instance i => .instance i

/-- Names are added to the classes. -/
theorem at?_table (census : Census) (location : Location) :
    census.table.at? location =
      (census.at? location).map (census.object (census.heapIdAt location)) := by
  obtain ⟨h, slot⟩ := location
  cases hheap : census.heaps[h]? with
  | none => simp [at?, ObjectTable.at?, table, hheap]
  | some heap =>
    cases slot with
    | classSlot j =>
      cases hclass : heap.classes[j]? with
      | none => simp [at?, HeapCensus.at?, ObjectTable.at?, table, Census.heap, hheap, hclass]
      | some dump =>
        simp [at?, HeapCensus.at?, ObjectTable.at?, table, Census.heap, hheap, hclass, object,
          heapIdAt]
    | instanceSlot j =>
      cases hinstance : heap.instances[j]? with
      | none => simp [at?, HeapCensus.at?, ObjectTable.at?, table, Census.heap, hheap, hinstance]
      | some i =>
        simp [at?, HeapCensus.at?, ObjectTable.at?, table, Census.heap, hheap, hinstance, object]

theorem Consistent.table {source : ByteSource} {width : IdWidth} {census : Census}
    (h : census.Consistent source width) : census.table.Consistent source width := by
  refine .of_map h.index h.entered (at?_table census)
    (fun location object => ?_) fun location object hobject i hi => ?_
  · cases object <;> rfl
  · cases object with
    | classDump dump => cases hi
    | «instance» j =>
      cases hi
      exact h.inside location i hobject

end HeapDump.Census

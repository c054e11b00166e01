import HeapDump.Proofs.ObjectGraph.Heaps

/-! What identifiers stand for.  At any time while a dump is read, the index knows just the identifiers of
the objects read so far, and each stands for the first of them that has it, in the heap and at the place
where that one was filed.  Later objects and later passes leave it there. -/

namespace HeapDump

/-! ### Places -/

/-- The place of an object behind other objects of its heap. -/
def CensusObject.slotBehind (objects : List CensusObject) : CensusObject → Slot
  | classDump _ => .classSlot (objects.filterMap (·.classDump?)).length
  | .instance _ => .instanceSlot (objects.filterMap (·.instance?)).length

namespace HeapCensus

def push (heap : HeapCensus) : CensusObject → HeapCensus
  | .classDump dump => { heap with classes := heap.classes.push dump }
  | .instance i => { heap with instances := heap.instances.push i }

/-- The place that an object comes to. -/
def nextSlot (heap : HeapCensus) : CensusObject → Slot
  | .classDump _ => .classSlot heap.classes.size
  | .instance _ => .instanceSlot heap.instances.size

variable {heap : HeapCensus}

theorem Holds.nextSlot {objects : List CensusObject} (h : heap.Holds objects)
    (object : CensusObject) : heap.nextSlot object = object.slotBehind objects := by
  cases object with
  | classDump dump => rw [CensusObject.slotBehind, ← h.classes, Array.length_toList]; rfl
  | «instance» i => rw [CensusObject.slotBehind, ← h.instances, Array.length_toList]; rfl

theorem at?_push (heap : HeapCensus) (object : CensusObject) (slot : Slot) :
    (heap.push object).at? slot =
      if slot = heap.nextSlot object then some object else heap.at? slot := by
  cases object <;> cases slot <;> simp [push, nextSlot, at?, Array.getElem?_push] <;> split <;> rfl

theorem at?_nextSlot (heap : HeapCensus) (object : CensusObject) :
    heap.at? (heap.nextSlot object) = none := by
  cases object <;> simp [nextSlot, at?]

theorem id_push (heap : HeapCensus) (object : CensusObject) : (heap.push object).id = heap.id := by
  cases object <;> rfl

end HeapCensus

namespace Census

variable {census after : Census}

theorem addObject_eq (census : Census) (object : CensusObject) : census.addObject object =
    (census.modifyHeap (·.push object)).enter object.id (census.currentHeap.nextSlot object) := by
  cases object <;> rfl

/-- Reading on does not move anything. -/
structure Grows (census after : Census) : Prop where
  heaps : ∀ (i : Nat) (heap : HeapCensus), census.heaps[i]? = some heap →
    ∃ grown : HeapCensus, after.heaps[i]? = some grown ∧ grown.id = heap.id ∧
      ∀ slot object, heap.at? slot = some object → grown.at? slot = some object
  index : ∀ (id : Ident) (location : Location), census.index[id]? = some location →
    after.index[id]? = some location

theorem Grows.of_eq (hheaps : after.heaps = census.heaps) (hindex : after.index = census.index) :
    Grows census after :=
  ⟨fun _ heap hheap => ⟨heap, hheaps ▸ hheap, rfl, fun _ _ h => h⟩, fun _ _ h => hindex ▸ h⟩

theorem Grows.trans {last : Census} (h : Grows census after) (h' : Grows after last) :
    Grows census last := by
  refine ⟨fun i heap hheap => ?_, fun id location hid => h'.index _ _ (h.index _ _ hid)⟩
  obtain ⟨grown, hgrown, hid, hat⟩ := h.heaps i heap hheap
  obtain ⟨last, hlast, hid', hat'⟩ := h'.heaps i grown hgrown
  exact ⟨last, hlast, hid'.trans hid, fun _ _ hobject => hat' _ _ (hat _ _ hobject)⟩

theorem grows_modifyHeap (census : Census) {f : HeapCensus → HeapCensus}
    (hid : ∀ heap, (f heap).id = heap.id)
    (hat : ∀ heap slot object, heap.at? slot = some object → (f heap).at? slot = some object) :
    Grows census (census.modifyHeap f) := by
  refine ⟨fun i heap hheap => ?_, fun _ _ h => h⟩
  rw [modifyHeap, Array.getElem?_modify, hheap]
  split
  · exact ⟨_, rfl, hid heap, hat heap⟩
  · exact ⟨_, rfl, rfl, fun _ _ h => h⟩

theorem grows_enter (census : Census) (id : Ident) (slot : Slot) :
    Grows census (census.enter id slot) := by
  refine ⟨fun i heap hheap => ⟨heap, heaps_enter census id slot ▸ hheap, rfl, fun _ _ h => h⟩, ?_⟩
  intro other location hlocation
  unfold enter
  split
  · exact hlocation
  · next hnew =>
    rw [Std.TreeMap.getElem?_insert, if_neg, hlocation]
    rw [Std.LawfulEqOrd.compare_eq_iff_eq]
    rintro rfl
    exact hnew (Std.TreeMap.mem_iff_isSome_getElem?.mpr (Option.isSome_of_eq_some hlocation))

theorem grows_addObject (census : Census) (object : CensusObject) :
    Grows census (census.addObject object) := by
  rw [addObject_eq]
  refine (grows_modifyHeap census (·.id_push object) fun heap slot held hheld => ?_).trans
    (grows_enter _ _ _)
  rw [HeapCensus.at?_push, if_neg, hheld]
  rintro rfl
  rw [HeapCensus.at?_nextSlot] at hheld
  cases hheld

theorem grows_addSubRecord (census : Census) (subRecord : SubRecord) :
    Grows census (census.addSubRecord subRecord) := by
  have hat : ∀ (heap : HeapCensus) nameId roots slot, HeapCensus.at? { heap with nameId, roots } slot =
      heap.at? slot := fun _ _ _ slot => by cases slot <;> rfl
  have hroot : ∀ (census : Census) root, Grows census (census.addRoot root) := fun census root =>
    (grows_modifyHeap census (f := fun heap => { heap with roots := heap.roots.push root })
      (fun _ => rfl) fun heap slot object h => (hat heap _ _ slot).trans h).trans (.of_eq rfl rfl)
  cases subRecord with
  | root root => exact hroot census root
  | thread thread =>
    show Grows census (census.addThread thread)
    have hthreads : Grows census
        { census with threads := census.threads.insert thread.thread thread } := .of_eq rfl rfl
    unfold addThread
    split
    · exact hthreads
    · exact hthreads.trans (hroot _ _)
  | heapSwitch info =>
    show Grows census (census.switchHeap info)
    unfold switchHeap
    refine Grows.trans ?_ (grows_modifyHeap _ (fun _ => rfl)
      fun heap slot object h => (hat heap _ _ slot).trans h)
    split
    · exact .of_eq rfl rfl
    · refine ⟨fun i heap hheap => ⟨heap, ?_, rfl, fun _ _ h => h⟩, fun _ _ h => h⟩
      obtain ⟨hlt, -⟩ := Array.getElem?_eq_some_iff.mp hheap
      rw [Array.getElem?_push, if_neg (Nat.ne_of_lt hlt), hheap]
  | classDump dump => exact grows_addObject census (.classDump dump)
  | «instance» dump => exact grows_addObject census (.instance _)
  | objectArray dump => exact grows_addObject census (.instance _)
  | primitiveArray dump => exact grows_addObject census (.instance _)

/-! ### The index -/

/-- An object is found under its identifier, in a heap and at a place there. -/
def Finds (census : Census) (heapId : UInt32) (slot : Slot) (object : CensusObject) : Prop :=
  ∃ (location : Location) (heap : HeapCensus), census.index[object.id]? = some location ∧
    location.slot = slot ∧ census.heaps[location.heap]? = some heap ∧ heap.id = heapId ∧
    heap.at? slot = some object

theorem Finds.grows {heapId : UInt32} {slot : Slot} {object : CensusObject}
    (h : census.Finds heapId slot object) (hgrows : Grows census after) :
    after.Finds heapId slot object := by
  obtain ⟨location, heap, hindex, hslot, hheap, rfl, hat⟩ := h
  obtain ⟨grown, hgrown, hid, hkeep⟩ := hgrows.heaps _ heap hheap
  exact ⟨location, grown, hgrows.index _ _ hindex, hslot, hgrown, hid, hkeep slot object hat⟩

/-- A new object is found where it has come to, if its identifier is new. -/
theorem finds_addObject {object : CensusObject} (hnew : object.id ∉ census.index) :
    (census.addObject object).Finds census.currentHeap.id (census.currentHeap.nextSlot object)
      object := by
  have hcurrent : (census.modifyHeap (·.push object)).heaps[census.current]? =
      some (census.currentHeap.push object) := by
    rw [modifyHeap, Array.getElem?_modify, if_pos rfl, getElem?_current, Option.map_some]
  refine ⟨⟨census.current, census.currentHeap.nextSlot object⟩, census.currentHeap.push object, ?_,
    rfl, ?_, HeapCensus.id_push _ _, ?_⟩
  · rw [addObject_eq, enter, if_neg]
    · exact Std.TreeMap.getElem?_insert_self
    · exact hnew
  · rw [addObject_eq, heaps_enter, hcurrent]
  · rw [HeapCensus.at?_push, if_pos rfl]

theorem mem_index_enter {id other : Ident} {slot : Slot} :
    other ∈ (census.enter id slot).index ↔ other ∈ census.index ∨ id = other := by
  unfold enter
  split
  · next hknown =>
    refine ⟨.inl, fun h => h.elim (fun h => h) ?_⟩
    rintro rfl
    exact hknown
  · rw [Std.TreeMap.mem_insert, Std.LawfulEqOrd.compare_eq_iff_eq, or_comm]

end Census

namespace SubRecord

/-- The identifier of the object that a sub-record holds. -/
def objectId? (subRecord : SubRecord) : Option Ident :=
  (subRecord.object? Heap.defaultId).map (·.id)

theorem map_id_object? (subRecord : SubRecord) (heapId : UInt32) :
    (subRecord.object? heapId).map (·.id) = subRecord.objectId? := by
  cases subRecord <;> rfl

end SubRecord

namespace Census

variable {census : Census} {subRecords : List SubRecord}

theorem addSubRecord_of_object? {subRecord : SubRecord} {object : CensusObject}
    (h : subRecord.object? census.currentHeap.id = some object) :
    census.addSubRecord subRecord = census.addObject object := by
  cases subRecord <;> cases h <;> rfl

theorem index_addSubRecord {subRecord : SubRecord}
    (h : subRecord.object? census.currentHeap.id = none) :
    (census.addSubRecord subRecord).index = census.index := by
  cases subRecord with
  | root root => rfl
  | thread thread =>
    show (census.addThread thread).index = _
    unfold addThread
    split <;> rfl
  | heapSwitch info =>
    show (census.switchHeap info).index = _
    unfold switchHeap
    dsimp only
    split <;> rfl
  | _ => cases h

/-- What the index knows after some sub-records: the identifiers of their objects, each with the first
object that has it. -/
structure Indexed (subRecords : List SubRecord) (census : Census) : Prop where
  mem_iff : ∀ id, id ∈ census.index ↔ id ∈ subRecords.filterMap (·.objectId?)
  first : ∀ front subRecord back object, subRecords = front ++ subRecord :: back →
    subRecord.object? (SubRecord.currentHeap front) = some object →
    object.id ∉ front.filterMap (·.objectId?) →
    census.Finds (SubRecord.currentHeap front)
      (object.slotBehind (SubRecord.objectsIn (SubRecord.currentHeap front) front)) object

theorem mem_index_addSubRecord (census : Census) (subRecord : SubRecord) (id : Ident) :
    id ∈ (census.addSubRecord subRecord).index ↔
      id ∈ census.index ∨ subRecord.objectId? = some id := by
  rw [← subRecord.map_id_object? census.currentHeap.id]
  cases hobject : subRecord.object? census.currentHeap.id with
  | none => simp [index_addSubRecord hobject]
  | some object =>
    rw [addSubRecord_of_object? hobject, addObject_eq, mem_index_enter, Option.map_some,
      Option.some.injEq]
    rfl

theorem Indexed.addSubRecord (h : Indexed subRecords census) (hsorted : Sorted subRecords census)
    (subRecord : SubRecord) :
    Indexed (subRecords ++ [subRecord]) (census.addSubRecord subRecord) := by
  refine ⟨fun id => ?_, fun front last back object hsplit hobject hnew => ?_⟩
  · rw [mem_index_addSubRecord, h.mem_iff, List.filterMap_append, List.mem_append]
    cases hid : subRecord.objectId? <;> simp [hid, eq_comm]
  · rcases List.eq_nil_or_concat back with rfl | ⟨back, s, rfl⟩
    · obtain ⟨rfl, hlast⟩ := List.append_inj' hsplit rfl
      cases hlast
      rw [← hsorted.current] at hobject ⊢
      rw [addSubRecord_of_object? hobject]
      have hholds := hsorted.filed.holds _ (currentHeap_mem census)
      rw [SubRecord.objectsOf_objects] at hholds
      rw [← hholds.nextSlot]
      exact finds_addObject fun hmem => hnew ((h.mem_iff _).mp hmem)
    · rw [List.concat_eq_append, ← List.cons_append, ← List.append_assoc] at hsplit
      have hfront : subRecords = front ++ last :: back := (List.append_inj' hsplit rfl).1
      exact (h.first front last back object hfront hobject hnew).grows
        (grows_addSubRecord census subRecord)

theorem Indexed.same (h : Indexed subRecords census) {after : Census}
    (hsame : SameObjects census after) : Indexed subRecords after := by
  refine ⟨fun id => ?_, fun front subRecord back object hsplit hobject hnew => ?_⟩
  · rw [hsame.index]
    exact h.mem_iff id
  · exact (h.first front subRecord back object hsplit hobject hnew).grows
      (.of_eq hsame.heaps hsame.index)

theorem indexed_empty : Indexed [] empty := by
  refine ⟨fun id => ?_, fun front subRecord back object hsplit => ?_⟩
  · simp [empty]
  · simp at hsplit

theorem invariant_indexed : Invariant fun subRecords census =>
    Sorted subRecords census ∧ Indexed subRecords census where
  empty := ⟨sorted_empty, indexed_empty⟩
  same h hsame := ⟨h.1.same hsame, h.2.same hsame⟩
  step subRecord h := ⟨h.1.addSubRecord subRecord, h.2.addSubRecord h.1 subRecord⟩

/-- The censuses on the way through some entries, each with the sub-records read so far: those between two
entries, and those between two sub-records of one body. -/
inductive Reached (entries : List Entry) : List SubRecord → Census → Prop
  | between {before after : List Entry} (h : entries = before ++ after) :
    Reached entries (before.flatMap (·.contents.subRecords)) (ofEntries before)
  | within {before after : List Entry} {record : Record} {front back : List SubRecord}
    (h : entries = before ++ ⟨record, .heapDump (front ++ back)⟩ :: after) :
    Reached entries (before.flatMap (·.contents.subRecords) ++ front)
      (front.foldl addSubRecord ((ofEntries before).countRecord record))

theorem Reached.indexed {entries : List Entry} (h : Reached entries subRecords census) :
    Indexed subRecords census := by
  cases h with
  | between _ => exact (invariant_indexed.ofEntries _).2
  | within _ =>
    exact (invariant_indexed.foldl (invariant_indexed.countRecord (invariant_indexed.ofEntries _) _) _).2

end Census

/-! ### Graphs -/

/-- What a dump says of an object. -/
def CensusObject.outline (heapId : UInt32) : CensusObject → ClassOutline ⊕ Instance
  | classDump dump => .inl (dump.outline heapId)
  | .instance i => .inr i

def HeapObject.outline : HeapObject → ClassOutline ⊕ Instance
  | classObject c => .inl c.outline
  | .instance i => .inr i.asRead

def Heap.Has (heap : Heap) : HeapObject → Prop
  | .classObject c => c ∈ heap.classes
  | .instance i => i ∈ heap.instances

namespace ObjectTable

/-- An object that has been read is found under its identifier, in a heap and at a place there. -/
def Finds (table : ObjectTable) (heapId : UInt32) (slot : Slot) (object : CensusObject) : Prop :=
  ∃ (location : Location) (heap : Heap) (found : HeapObject),
    table.index[object.id]? = some location ∧ location.slot = slot ∧
    table.heaps[location.heap]? = some heap ∧ heap.id = heapId ∧
    table.at? location = some found ∧ found.outline = object.outline heapId

/-- The counterpart of an indexed census. -/
structure Indexed (subRecords : List SubRecord) (table : ObjectTable) : Prop where
  mem_iff : ∀ id, id ∈ table.index ↔ id ∈ subRecords.filterMap (·.objectId?)
  first : ∀ front subRecord back object, subRecords = front ++ subRecord :: back →
    subRecord.object? (SubRecord.currentHeap front) = some object →
    object.id ∉ front.filterMap (·.objectId?) →
    table.Finds (SubRecord.currentHeap front)
      (object.slotBehind (SubRecord.objectsIn (SubRecord.currentHeap front) front)) object

end ObjectTable

namespace Census

variable {census : Census} {subRecords : List SubRecord}

theorem Finds.link {heapId : UInt32} {slot : Slot} {object : CensusObject}
    (h : census.Finds heapId slot object) (hread : ∀ i, object = .instance i → i.asRead = i) :
    census.table.link.Finds heapId slot object := by
  obtain ⟨location, counted, hindex, hslot, hcounted, rfl, hat⟩ := h
  have hobject : census.at? location = some object := by
    rw [at?, hcounted, hslot]
    exact hat
  have hid : census.heapIdAt location = counted.id := by
    rw [heapIdAt, hcounted]
    rfl
  obtain ⟨heap, hheap, hof⟩ := census.exists_heap_link hcounted
  have hlinked := at?_linked census location
  rw [hobject, Option.map_some, hid] at hlinked
  refine ⟨location, heap, _, hindex, hslot, hheap, hof.id, hlinked, ?_⟩
  cases object with
  | classDump dump =>
    refine congrArg Sum.inl ?_
    exact (ObjectTable.outline_linkClass census.table location _).trans
      (outline_classObject census counted.id dump)
  | «instance» i =>
    refine congrArg Sum.inr ?_
    exact (ObjectTable.asRead_assignClass census.table i).trans (hread i rfl)

theorem Indexed.link (h : Indexed subRecords census) : census.table.link.Indexed subRecords := by
  refine ⟨h.mem_iff, fun front subRecord back object hsplit hobject hnew => ?_⟩
  refine (h.first front subRecord back object hsplit hobject hnew).link ?_
  rintro i rfl
  exact (SubRecord.asRead_of_object? hobject).1

end Census

/-- An identifier is that of a first object. -/
theorem SubRecord.exists_first {subRecords : List SubRecord} {id : Ident}
    (h : id ∈ subRecords.filterMap (·.objectId?)) :
    ∃ front subRecord back, subRecords = front ++ subRecord :: back ∧
      subRecord.objectId? = some id ∧ id ∉ front.filterMap (·.objectId?) := by
  obtain ⟨s, hs, hid⟩ := List.mem_filterMap.mp h
  have hsome : (subRecords.find? fun s => s.objectId? = some id).isSome :=
    List.find?_isSome.mpr ⟨s, hs, decide_eq_true hid⟩
  obtain ⟨first, hfirst⟩ := Option.isSome_iff_exists.mp hsome
  obtain ⟨hfound, front, back, hsplit, hfront⟩ := List.find?_eq_some_iff_append.mp hfirst
  refine ⟨front, first, back, hsplit, of_decide_eq_true hfound, fun hmem => ?_⟩
  obtain ⟨earlier, hearlier, heq⟩ := List.mem_filterMap.mp hmem
  simpa [heq] using hfront earlier hearlier

theorem HeapObject.id_of_outline {found : HeapObject} {object : CensusObject} {heapId : UInt32}
    (h : found.outline = object.outline heapId) : found.id = object.id := by
  cases found with
  | classObject c =>
    cases object with
    | classDump dump => exact congrArg ClassOutline.id (Sum.inl.inj h)
    | «instance» i => cases h
  | «instance» i =>
    cases object with
    | classDump dump => cases h
    | «instance» j =>
      have hid := congrArg Instance.id (Sum.inr.inj h)
      cases i <;> exact hid

namespace ObjectTable

variable {table : ObjectTable} {subRecords : List SubRecord}

theorem has_of_at? {location : Location} {heap : Heap} {object : HeapObject}
    (hheap : table.heaps[location.heap]? = some heap) (hat : table.at? location = some object) :
    heap.Has object := by
  obtain ⟨found, hfound, hslot⟩ := Option.bind_eq_some_iff.mp hat
  rw [hheap] at hfound
  cases hfound
  split at hslot
  · obtain ⟨c, hc, hobject⟩ := Option.bind_eq_some_iff.mp hslot
    cases hobject
    exact Array.mem_of_getElem? hc
  · obtain ⟨i, hi, hobject⟩ := Option.bind_eq_some_iff.mp hslot
    cases hobject
    exact Array.mem_of_getElem? hi

/-- What is in the index stands for an object that has it and lies in the heap that the index says. -/
theorem Indexed.exists_resolve (h : table.Indexed subRecords) {id : Ident} (hid : id ∈ table.index) :
    ∃ object i heap, table.resolve id = some object ∧ object.id = id ∧
      table.heapIndex? id = some i ∧ table.heaps[i]? = some heap ∧ heap.Has object := by
  obtain ⟨front, subRecord, back, hsplit, hobjectId, hnew⟩ :=
    SubRecord.exists_first ((h.mem_iff id).mp hid)
  rw [← subRecord.map_id_object? (SubRecord.currentHeap front)] at hobjectId
  obtain ⟨object, hobject, rfl⟩ := Option.map_eq_some_iff.mp hobjectId
  obtain ⟨location, heap, found, hindex, -, hheap, -, hat, houtline⟩ :=
    h.first front subRecord back object hsplit hobject hnew
  refine ⟨found, location.heap, heap, resolve_eq_some.mpr ⟨location, hindex, hat⟩,
    HeapObject.id_of_outline houtline, ?_, hheap, has_of_at? hheap hat⟩
  rw [heapIndex?, hindex, Option.map_some]

theorem not_class?_and_instance? (table : ObjectTable) (id : Ident) :
    ¬((table.class? id).isSome ∧ (table.instance? id).isSome) := by
  show ¬(((table.resolve id).bind HeapObject.class?).isSome ∧
    ((table.resolve id).bind HeapObject.instance?).isSome)
  cases table.resolve id with
  | none => simp
  | some object => cases object <;> simp [HeapObject.class?, HeapObject.instance?]

end ObjectTable

namespace ObjectGraph

/-- The index while a dump is read, accepted or not, and that of an accepted one. -/
theorem index_of_reading (file : ByteArray) :
    (∀ header subRecords census,
      Census.Reached (Entry.list (.ofBytes file) header).items subRecords census →
        census.Indexed subRecords) ∧
    ∀ graph, read (.ofBytes file) = .ok graph →
      graph.Indexed ((Record.list (.ofBytes file) graph.header).items.flatMap
        (·.subRecords (.ofBytes file) graph.idWidth)) ∧
      ∀ id, (id ∈ graph.index → ∃ object i heap, graph.resolve id = some object ∧ object.id = id ∧
          graph.heapIndex? id = some i ∧ graph.heaps[i]? = some heap ∧ heap.Has object) ∧
        (id ∉ graph.index → graph.resolve id = none ∧ graph.heapIndex? id = none) ∧
        ¬((graph.class? id).isSome ∧ (graph.instance? id).isSome) := by
  refine ⟨fun _ _ _ hreached => hreached.indexed, fun graph h => ?_⟩
  obtain ⟨header, -, hentries, -, rfl⟩ := exists_of_read (ByteSource.lawful_ofBytes file) h
  have hindexed := (Census.invariant_indexed.ofEntries (Entry.list (.ofBytes file) header).items).2.link
  rw [(Entry.list_of_accepted hentries).2] at hindexed
  refine ⟨hindexed, fun id => ⟨hindexed.exists_resolve, fun hid => ?_,
    ObjectTable.not_class?_and_instance? _ id⟩⟩
  have hnone := Std.TreeMap.getElem?_eq_none hid
  exact ⟨congrArg (Option.bind · _) hnone, congrArg (Option.map _) hnone⟩

/-- An instance in heap 65 and, behind it, a class in the default heap have identifier 5, and two classes
have identifier 1. -/
def scattered : ByteArray :=
  (Draft.toBytes ⟨"JAVA PROFILE 1.0.3", .four, 0,
    [.heapDump [.heapSwitch 65 ⟨100⟩, .instance ⟨5⟩ ⟨1⟩ [], .heapSwitch 0 ⟨100⟩,
        .classDump ⟨5⟩ none 0 [] [] [], .classDump ⟨1⟩ none 0 [] [] []],
      .segment [.classDump ⟨6⟩ none 0 [] [] [], .heapSwitch 65 ⟨100⟩,
        .classDump ⟨1⟩ none 0 [] [] []]]⟩).toByteArray

theorem index_of_reading_scattered :
    ∃ graph object heap, read (.ofBytes scattered) = .ok graph ∧
      (∃ front back, (Entry.list (.ofBytes scattered) graph.header).items = front ++ back ∧
        front.length = 1 ∧
        Census.Indexed (front.flatMap (·.contents.subRecords)) (Census.ofEntries front)) ∧
      graph.Indexed ((Record.list (.ofBytes scattered) graph.header).items.flatMap
        (·.subRecords (.ofBytes scattered) graph.idWidth)) ∧
      (⟨5⟩ ∈ graph.index ∧ graph.resolve ⟨5⟩ = some object ∧ object.id = ⟨5⟩ ∧
        graph.heapIndex? ⟨5⟩ = some 1 ∧ graph.heaps[1]? = some heap ∧ heap.Has object) ∧
      graph.index[(⟨1⟩ : Ident)]? = some ⟨0, .classSlot 1⟩ ∧
      ⟨7⟩ ∉ graph.index ∧ graph.resolve ⟨7⟩ = none := by
  have hread : ((read (.ofBytes scattered)).toOption.any fun graph =>
      decide (⟨5⟩ ∈ graph.index) && decide (graph.heapIndex? ⟨5⟩ = some 1) &&
      decide (graph.index[(⟨1⟩ : Ident)]? = some ⟨0, .classSlot 1⟩) &&
      decide (⟨7⟩ ∉ graph.index) &&
      decide (((Entry.list (.ofBytes scattered) graph.header).items.take 1).length = 1)) = true := by
    decide +kernel
  obtain ⟨graph, hgraph, hfacts⟩ := exists_of_any hread
  simp only [Bool.and_eq_true, decide_eq_true_eq] at hfacts
  obtain ⟨⟨⟨⟨hknown, hheapIndex⟩, hfirst⟩, hunknown⟩, hlength⟩ := hfacts
  obtain ⟨hstates, haccepted⟩ := index_of_reading scattered
  obtain ⟨hindexed, hids⟩ := haccepted graph hgraph
  obtain ⟨object, i, heap, hresolve, hid, hindex, hheap, hhas⟩ := (hids ⟨5⟩).1 hknown
  obtain rfl : i = 1 := Option.some.inj (hindex.symm.trans hheapIndex)
  have hsplit := (List.take_append_drop 1 (Entry.list (.ofBytes scattered) graph.header).items).symm
  exact ⟨graph, object, heap, hgraph,
    ⟨_, _, hsplit, hlength, hstates graph.header _ _ (.between hsplit)⟩, hindexed,
    ⟨hknown, hresolve, hid, hindex, hheap, hhas⟩, hfirst, hunknown, ((hids ⟨7⟩).2.1 hunknown).1⟩

end ObjectGraph

end HeapDump

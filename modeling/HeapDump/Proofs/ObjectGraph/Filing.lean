import HeapDump.Proofs.ObjectGraph.Table
import Mathlib.Data.List.Nodup

/-! How objects are filed away.  Sub-records are read in order, and one that switches to another heap makes
it the current one.  Each heap holds the objects that are read while it is current, in that order, and
nothing else; so an object is in a census, or in a linked table, just if it is in a sub-record. -/

namespace HeapDump

namespace CensusObject

def classDump? : CensusObject → Option ClassDump
  | classDump dump => some dump
  | .instance _ => none

def instance? : CensusObject → Option Instance
  | classDump _ => none
  | .instance i => some i

end CensusObject

namespace SubRecord

/-- The object that a sub-record holds, where it is read while a heap is current. -/
def object? (heapId : UInt32) : SubRecord → Option CensusObject
  | .root _ | .thread _ | .heapSwitch _ => none
  | .classDump dump => some (.classDump dump)
  | .instance dump =>
    some <| .instance <| .plain
      { id := dump.id, classId := dump.classId, heapId
        trace := dump.trace, offset := dump.offset, length := dump.length }
  | .objectArray dump =>
    some <| .instance <| .array
      { id := dump.id, elementType := .object, classId := some dump.classId, heapId
        trace := dump.trace, count := dump.count, offset := some dump.offset }
  | .primitiveArray dump =>
    some <| .instance <| .array
      { id := dump.id, elementType := .primitive dump.type, classId := none, heapId
        trace := dump.trace, count := dump.count, offset := dump.offset }

/-- The heap that is current behind a sub-record. -/
def heapAfter (heapId : UInt32) : SubRecord → UInt32
  | .heapSwitch info => info.heap
  | _ => heapId

/-- The heap that is current behind some sub-records. -/
def lastHeap (heapId : UInt32) (subRecords : List SubRecord) : UInt32 :=
  subRecords.foldl heapAfter heapId

/-- The objects in sub-records in the order in which they are read, each with the heap that is current
there. -/
def objects : (heapId : UInt32) → List SubRecord → List (UInt32 × CensusObject)
  | _, [] => []
  | heapId, subRecord :: subRecords =>
    ((subRecord.object? heapId).map (heapId, ·)).toList ++
      objects (subRecord.heapAfter heapId) subRecords

theorem objects_append (heapId : UInt32) (front back : List SubRecord) :
    objects heapId (front ++ back) = objects heapId front ++ objects (lastHeap heapId front) back := by
  induction front generalizing heapId with
  | nil => rfl
  | cons subRecord front ih =>
    rw [List.cons_append, objects, objects, ih, List.append_assoc]
    rfl

theorem lastHeap_append (heapId : UInt32) (front back : List SubRecord) :
    lastHeap heapId (front ++ back) = lastHeap (lastHeap heapId front) back :=
  List.foldl_append

theorem mem_objects {heapId : UInt32} {subRecords : List SubRecord} {entry : UInt32 × CensusObject}
    (h : entry ∈ objects heapId subRecords) :
    ∃ subRecord ∈ subRecords, subRecord.object? entry.1 = some entry.2 := by
  induction subRecords generalizing heapId with
  | nil => cases h
  | cons subRecord subRecords ih =>
    rcases List.mem_append.mp h with hfirst | hrest
    · obtain ⟨object, hobject, rfl⟩ := Option.map_eq_some_iff.mp (Option.mem_toList.mp hfirst)
      exact ⟨subRecord, List.mem_cons_self, hobject⟩
    · obtain ⟨s, hs, hobject⟩ := ih hrest
      exact ⟨s, List.mem_cons_of_mem _ hs, hobject⟩

/-- An object stands in its sub-record whatever heap is current. -/
theorem exists_mem_objects {heapId : UInt32} {subRecords : List SubRecord} {subRecord : SubRecord}
    (h : subRecord ∈ subRecords) : ∃ current, ∀ object, subRecord.object? current = some object →
      (current, object) ∈ objects heapId subRecords := by
  induction subRecords generalizing heapId with
  | nil => cases h
  | cons first subRecords ih =>
    rcases List.mem_cons.mp h with rfl | hrest
    · refine ⟨heapId, fun object hobject => List.mem_append_left _ ?_⟩
      rw [hobject]
      exact List.mem_singleton.mpr rfl
    · obtain ⟨current, hcurrent⟩ := ih hrest
      exact ⟨current, fun object hobject => List.mem_append_right _ (hcurrent object hobject)⟩

end SubRecord

/-- The objects that belong to one heap. -/
def objectsOf (heapId : UInt32) (objects : List (UInt32 × CensusObject)) : List CensusObject :=
  (objects.filter (·.1 = heapId)).map (·.2)

theorem objectsOf_append (heapId : UInt32) (front back : List (UInt32 × CensusObject)) :
    objectsOf heapId (front ++ back) = objectsOf heapId front ++ objectsOf heapId back := by
  rw [objectsOf, List.filter_append, List.map_append]
  rfl

theorem mem_objectsOf {heapId : UInt32} {objects : List (UInt32 × CensusObject)}
    {object : CensusObject} : object ∈ objectsOf heapId objects ↔ (heapId, object) ∈ objects := by
  simp [objectsOf]

/-- A heap holds the given objects in the given order. -/
structure HeapCensus.Holds (heap : HeapCensus) (objects : List CensusObject) : Prop where
  classes : heap.classes.toList = objects.filterMap (·.classDump?)
  instances : heap.instances.toList = objects.filterMap (·.instance?)

theorem HeapCensus.Holds.at?_iff {heap : HeapCensus} {objects : List CensusObject}
    (h : heap.Holds objects) {object : CensusObject} :
    (∃ slot, heap.at? slot = some object) ↔ object ∈ objects := by
  constructor
  · rintro ⟨slot, hat⟩
    cases slot with
    | classSlot i =>
      obtain ⟨dump, hdump, rfl⟩ := Option.map_eq_some_iff.mp hat
      have hmem := Array.mem_toList_iff.mpr (Array.mem_of_getElem? hdump)
      rw [h.classes] at hmem
      obtain ⟨o, ho, heq⟩ := List.mem_filterMap.mp hmem
      cases o with
      | classDump d =>
        cases heq
        exact ho
      | «instance» i => cases heq
    | instanceSlot i =>
      obtain ⟨j, hj, rfl⟩ := Option.map_eq_some_iff.mp hat
      have hmem := Array.mem_toList_iff.mpr (Array.mem_of_getElem? hj)
      rw [h.instances] at hmem
      obtain ⟨o, ho, heq⟩ := List.mem_filterMap.mp hmem
      cases o with
      | classDump d => cases heq
      | «instance» i =>
        cases heq
        exact ho
  · intro hmem
    cases object with
    | classDump dump =>
      have hdump : dump ∈ heap.classes.toList := by
        rw [h.classes]
        exact List.mem_filterMap.mpr ⟨_, hmem, rfl⟩
      obtain ⟨i, hi⟩ := Array.mem_iff_getElem?.mp (Array.mem_toList_iff.mp hdump)
      exact ⟨.classSlot i, by rw [HeapCensus.at?, hi]; rfl⟩
    | «instance» j =>
      have hj : j ∈ heap.instances.toList := by
        rw [h.instances]
        exact List.mem_filterMap.mpr ⟨_, hmem, rfl⟩
      obtain ⟨i, hi⟩ := Array.mem_iff_getElem?.mp (Array.mem_toList_iff.mp hj)
      exact ⟨.instanceSlot i, by rw [HeapCensus.at?, hi]; rfl⟩

namespace Census

/-- Each heap of a census holds those of the objects that belong to it, and each object has a heap. -/
structure Filed (objects : List (UInt32 × CensusObject)) (census : Census) : Prop where
  distinct : (census.heaps.toList.map (·.id)).Nodup
  known : ∀ entry ∈ objects, ∃ heap ∈ census.heaps, heap.id = entry.1
  holds : ∀ heap ∈ census.heaps, heap.Holds (objectsOf heap.id objects)

variable {census : Census} {objects : List (UInt32 × CensusObject)}

theorem currentHeap_mem (census : Census) : census.currentHeap ∈ census.heaps :=
  Array.getElem_mem census.current_lt

theorem getElem?_current (census : Census) :
    census.heaps[census.current]? = some census.currentHeap :=
  Array.getElem?_eq_getElem census.current_lt

theorem currentHeap_modifyHeap (census : Census) (f : HeapCensus → HeapCensus) :
    (census.modifyHeap f).currentHeap = f census.currentHeap :=
  Array.getElem_modify_self f (census.modifyHeap f).current_lt

theorem currentId_modifyHeap (census : Census) {f : HeapCensus → HeapCensus}
    (hid : (f census.currentHeap).id = census.currentHeap.id) :
    (census.modifyHeap f).currentHeap.id = census.currentHeap.id := by
  rw [currentHeap_modifyHeap, hid]

theorem currentHeap_congr {census census' : Census} (hheaps : census.heaps = census'.heaps)
    (hcurrent : census.current = census'.current) : census.currentHeap = census'.currentHeap := by
  have hsome := getElem?_current census
  rw [hheaps, hcurrent, getElem?_current] at hsome
  exact (Option.some.inj hsome).symm

theorem ids_modifyHeap (census : Census) {f : HeapCensus → HeapCensus}
    (hid : (f census.currentHeap).id = census.currentHeap.id) :
    (census.modifyHeap f).heaps.toList.map (·.id) = census.heaps.toList.map (·.id) := by
  refine List.ext_getElem? fun i => ?_
  simp only [modifyHeap, List.getElem?_map, Array.getElem?_toList, Array.getElem?_modify]
  split
  · next hi =>
    rw [← hi, getElem?_current]
    exact congrArg some hid
  · rfl

/-- A heap of a changed census is the changed one, or another one as it was. -/
theorem mem_modifyHeap (distinct : (census.heaps.toList.map (·.id)).Nodup)
    {f : HeapCensus → HeapCensus} {heap : HeapCensus} (h : heap ∈ (census.modifyHeap f).heaps) :
    heap = f census.currentHeap ∨ heap ∈ census.heaps ∧ heap.id ≠ census.currentHeap.id := by
  obtain ⟨i, hi⟩ := Array.mem_iff_getElem?.mp h
  rw [modifyHeap, Array.getElem?_modify] at hi
  split at hi
  · next hcurrent =>
    rw [← hcurrent, getElem?_current] at hi
    cases hi
    exact .inl rfl
  · next hother =>
    refine .inr ⟨Array.mem_of_getElem? hi, fun hid => hother ?_⟩
    have hlt : census.current < (census.heaps.toList.map (·.id)).length := by
      simpa using census.current_lt
    refine (List.getElem?_inj hlt distinct).mp ?_
    simp only [List.getElem?_map, Array.getElem?_toList, getElem?_current, hi, Option.map_some, hid]

theorem Filed.of_heaps (h : Filed objects census) {after : Census}
    (hheaps : after.heaps = census.heaps) : Filed objects after := by
  constructor <;> rw [hheaps]
  · exact h.distinct
  · exact h.known
  · exact h.holds

/-- Objects that are added to the current heap. -/
theorem Filed.modifyHeap (h : Filed objects census) {f : HeapCensus → HeapCensus}
    (added : List CensusObject) (hid : (f census.currentHeap).id = census.currentHeap.id)
    (hf : ∀ held, census.currentHeap.Holds held → (f census.currentHeap).Holds (held ++ added)) :
    Filed (objects ++ added.map (census.currentHeap.id, ·)) (census.modifyHeap f) := by
  have hadded : ∀ heapId, objectsOf heapId (added.map (census.currentHeap.id, ·)) =
      if census.currentHeap.id = heapId then added else [] := by
    intro heapId
    rw [objectsOf, List.filter_map, List.map_map]
    by_cases heq : census.currentHeap.id = heapId
    · simp [heq, Function.comp_def]
    · simp [heq, Function.comp_def]
  refine ⟨?_, fun entry hentry => ?_, fun heap hheap => ?_⟩
  · rw [ids_modifyHeap census hid]
    exact h.distinct
  · have hknown : ∃ heap ∈ census.heaps, heap.id = entry.1 := by
      rcases List.mem_append.mp hentry with hbefore | hnew
      · exact h.known entry hbefore
      · obtain ⟨object, -, rfl⟩ := List.mem_map.mp hnew
        exact ⟨_, currentHeap_mem census, rfl⟩
    have hids : entry.1 ∈ census.heaps.toList.map (·.id) := by
      obtain ⟨heap, hheap, hentry⟩ := hknown
      exact List.mem_map.mpr ⟨heap, Array.mem_toList_iff.mpr hheap, hentry⟩
    rw [← ids_modifyHeap census hid] at hids
    obtain ⟨heap, hheap, hentry⟩ := List.mem_map.mp hids
    exact ⟨heap, Array.mem_toList_iff.mp hheap, hentry⟩
  · rw [objectsOf_append, hadded]
    rcases mem_modifyHeap h.distinct hheap with rfl | ⟨hother, hne⟩
    · rw [hid, if_pos rfl]
      exact hf _ (h.holds _ (currentHeap_mem census))
    · rw [if_neg (Ne.symm hne), List.append_nil]
      exact h.holds heap hother

/-- A change of the current heap that does not touch its objects. -/
theorem Filed.modifyHeap_same (h : Filed objects census) {f : HeapCensus → HeapCensus}
    (hid : (f census.currentHeap).id = census.currentHeap.id)
    (hclasses : (f census.currentHeap).classes = census.currentHeap.classes)
    (hinstances : (f census.currentHeap).instances = census.currentHeap.instances) :
    Filed objects (census.modifyHeap f) := by
  have hfiled := h.modifyHeap [] hid fun held hheld => by
    rw [List.append_nil]
    exact ⟨by rw [hclasses, hheld.classes], by rw [hinstances, hheld.instances]⟩
  rwa [List.map_nil, List.append_nil] at hfiled

/-! ### One sub-record more -/

theorem heaps_enter (census : Census) (id : Ident) (slot : Slot) :
    (census.enter id slot).heaps = census.heaps := by
  unfold enter
  split <;> rfl

theorem current_enter (census : Census) (id : Ident) (slot : Slot) :
    (census.enter id slot).current = census.current := by
  unfold enter
  split <;> rfl

theorem currentHeap_enter (census : Census) (id : Ident) (slot : Slot) :
    (census.enter id slot).currentHeap = census.currentHeap :=
  currentHeap_congr (heaps_enter census id slot) (current_enter census id slot)

def addObject (census : Census) : CensusObject → Census
  | .classDump dump => census.addClass dump
  | .instance i => census.addInstance i

theorem Filed.addObject (h : Filed objects census) (object : CensusObject) :
    Filed (objects ++ [(census.currentHeap.id, object)]) (census.addObject object) := by
  cases object with
  | classDump dump =>
    refine Filed.of_heaps ?_ (heaps_enter _ _ _)
    refine h.modifyHeap [.classDump dump] rfl fun held hheld => ⟨?_, ?_⟩
    · simp [hheld.classes, CensusObject.classDump?]
    · simp [hheld.instances, CensusObject.instance?]
  | «instance» i =>
    refine Filed.of_heaps ?_ (heaps_enter _ _ _)
    refine h.modifyHeap [.instance i] rfl fun held hheld => ⟨?_, ?_⟩
    · simp [hheld.classes, CensusObject.classDump?]
    · simp [hheld.instances, CensusObject.instance?]

theorem currentId_addObject (census : Census) (object : CensusObject) :
    (census.addObject object).currentHeap.id = census.currentHeap.id := by
  cases object with
  | classDump dump =>
    rw [addObject, addClass, currentHeap_enter, currentId_modifyHeap]
    rfl
  | «instance» i =>
    rw [addObject, addInstance, currentHeap_enter, currentId_modifyHeap]
    rfl

theorem Filed.addRoot (h : Filed objects census) (root : Root) :
    Filed objects (census.addRoot root) ∧
      (census.addRoot root).currentHeap.id = census.currentHeap.id := by
  have hsame : Filed objects
      (census.modifyHeap fun heap => { heap with roots := heap.roots.push root }) :=
    h.modifyHeap_same rfl rfl rfl
  exact ⟨hsame.of_heaps rfl,
    currentId_modifyHeap census (f := fun heap => { heap with roots := heap.roots.push root }) rfl⟩

theorem Filed.addThread (h : Filed objects census) (thread : ThreadObject) :
    Filed objects (census.addThread thread) ∧
      (census.addThread thread).currentHeap.id = census.currentHeap.id := by
  have hthreads : Filed objects
      { census with threads := census.threads.insert thread.thread thread } := h.of_heaps rfl
  unfold Census.addThread
  split
  · exact ⟨hthreads, rfl⟩
  · exact hthreads.addRoot _

theorem Filed.switchHeap (h : Filed objects census) (info : HeapSwitch) :
    Filed objects (census.switchHeap info) ∧
      (census.switchHeap info).currentHeap.id = info.heap := by
  have hkeep : ∀ switched : Census, Filed objects switched → switched.currentHeap.id = info.heap →
      let named := switched.modifyHeap fun heap => { heap with nameId := some info.nameId }
      Filed objects named ∧ named.currentHeap.id = info.heap := by
    intro switched hfiled hcurrent
    refine ⟨hfiled.modifyHeap_same rfl rfl rfl, ?_⟩
    rw [currentHeap_modifyHeap]
    exact hcurrent
  unfold Census.switchHeap
  split
  · next i hi =>
    refine hkeep _ (h.of_heaps rfl) ?_
    have hid := (Array.findFinIdx?_eq_some_iff.mp hi).1
    exact of_decide_eq_true hid
  · next hnone =>
    have hnew : ∀ heap ∈ census.heaps, heap.id ≠ info.heap := by
      intro heap hheap hid
      exact Array.findFinIdx?_eq_none_iff.mp hnone heap hheap (decide_eq_true hid)
    refine hkeep _ ⟨?_, fun entry hentry => ?_, fun heap hheap => ?_⟩ ?_
    · rw [Array.toList_push, List.map_append, List.map_singleton]
      refine List.Nodup.append h.distinct (List.nodup_singleton _) ?_
      rw [List.disjoint_singleton]
      intro hmem
      obtain ⟨heap, hheap, hid⟩ := List.mem_map.mp hmem
      exact hnew heap (Array.mem_toList_iff.mp hheap) hid
    · obtain ⟨heap, hheap, hid⟩ := h.known entry hentry
      exact ⟨heap, Array.mem_push_of_mem _ hheap, hid⟩
    · rcases Array.mem_push.mp hheap with hold | rfl
      · exact h.holds heap hold
      · -- No object read so far belongs to a heap that has not been met.
        have hnil : objectsOf info.heap objects = [] := by
          refine List.eq_nil_iff_forall_not_mem.mpr fun object hobject => ?_
          obtain ⟨heap, hheap, hid⟩ := h.known _ (mem_objectsOf.mp hobject)
          exact hnew heap hheap hid
        rw [show (HeapCensus.empty info.heap).id = info.heap from rfl, hnil]
        exact ⟨rfl, rfl⟩
    · exact congrArg HeapCensus.id Array.getElem_push_eq

theorem Filed.addSubRecord (h : Filed objects census) (subRecord : SubRecord) :
    Filed (objects ++ ((subRecord.object? census.currentHeap.id).map
      (census.currentHeap.id, ·)).toList) (census.addSubRecord subRecord) ∧
      (census.addSubRecord subRecord).currentHeap.id =
        subRecord.heapAfter census.currentHeap.id := by
  cases subRecord with
  | root root =>
    simp only [SubRecord.object?, Option.map_none, Option.toList_none, List.append_nil]
    exact h.addRoot root
  | thread thread =>
    simp only [SubRecord.object?, Option.map_none, Option.toList_none, List.append_nil]
    exact h.addThread thread
  | heapSwitch info =>
    simp only [SubRecord.object?, Option.map_none, Option.toList_none, List.append_nil]
    exact h.switchHeap info
  | classDump dump => exact ⟨h.addObject _, currentId_addObject _ (.classDump dump)⟩
  | «instance» dump => exact ⟨h.addObject _, currentId_addObject _ (.instance _)⟩
  | objectArray dump => exact ⟨h.addObject _, currentId_addObject _ (.instance _)⟩
  | primitiveArray dump => exact ⟨h.addObject _, currentId_addObject _ (.instance _)⟩

theorem filed_empty : Filed [] empty := by
  refine ⟨List.nodup_singleton _, List.forall_mem_nil _, fun heap hheap => ?_⟩
  rw [Array.mem_singleton.mp hheap]
  exact ⟨rfl, rfl⟩

/-- The objects of the sub-records read so far are filed, and the heap last switched to is current. -/
theorem invariant_filed : Invariant fun subRecords census =>
    Filed (SubRecord.objects Heap.defaultId subRecords) census ∧
      census.currentHeap.id = SubRecord.lastHeap Heap.defaultId subRecords where
  empty := ⟨filed_empty, rfl⟩
  same h hsame := by
    rw [currentHeap_congr hsame.heaps hsame.current]
    exact ⟨h.1.of_heaps hsame.heaps, h.2⟩
  step {subRecords census} subRecord h := by
    have hadd := h.1.addSubRecord subRecord
    rw [SubRecord.objects_append, SubRecord.lastHeap_append, ← h.2]
    rwa [SubRecord.objects, SubRecord.objects, List.append_nil]

/-- The objects of the sub-records in some entries. -/
def objectsOfEntries (entries : List Entry) : List (UInt32 × CensusObject) :=
  SubRecord.objects Heap.defaultId (entries.flatMap (·.contents.subRecords))

/-- Each heap of a dump holds the objects read while it is current. -/
theorem filed_ofEntries (entries : List Entry) :
    Filed (objectsOfEntries entries) (ofEntries entries) ∧
      (ofEntries entries).currentHeap.id =
        SubRecord.lastHeap Heap.defaultId (entries.flatMap (·.contents.subRecords)) :=
  invariant_filed.ofEntries entries

/-- An object is in a census just if it is among the objects read. -/
theorem Filed.at?_iff (h : Filed objects census) {object : CensusObject} :
    (∃ location, census.at? location = some object) ↔ ∃ heapId, (heapId, object) ∈ objects := by
  constructor
  · rintro ⟨location, hat⟩
    obtain ⟨heap, hheap, hslot⟩ := Option.bind_eq_some_iff.mp hat
    have hholds := h.holds heap (Array.mem_of_getElem? hheap)
    exact ⟨heap.id, mem_objectsOf.mp (hholds.at?_iff.mp ⟨_, hslot⟩)⟩
  · rintro ⟨heapId, hmem⟩
    obtain ⟨heap, hheap, rfl⟩ := h.known _ hmem
    obtain ⟨slot, hslot⟩ := (h.holds heap hheap).at?_iff.mpr (mem_objectsOf.mpr hmem)
    obtain ⟨i, hi⟩ := Array.mem_iff_getElem?.mp hheap
    exact ⟨⟨i, slot⟩, Option.bind_eq_some_iff.mpr ⟨heap, hi, hslot⟩⟩

/-! ### Linked tables -/

theorem at?_linked (census : Census) (location : Location) :
    census.table.link.at? location = (census.at? location).map fun object =>
      census.table.linkObject location (census.object (census.heapIdAt location) object) := by
  rw [ObjectTable.at?_link, at?_table, Option.map_map]
  rfl

/-- A class of the graph is the one that a sub-record says, up to its links. -/
structure Describes (census : Census) (dump : ClassDump) (c : ClassObject) : Prop where
  id : c.id = dump.id
  superclass : c.superclass = dump.superclass
  fields : c.fields = dump.fields.map fun f => ⟨census.fieldName f.nameId, f.type⟩

theorem describes_linkClass (census : Census) (location : Location) (heapId : UInt32)
    (dump : ClassDump) :
    census.Describes dump (census.table.linkClass location (census.classObject heapId dump)) := by
  unfold ObjectTable.linkClass
  split <;> exact ⟨rfl, rfl, rfl⟩

theorem Filed.exists_dump (h : Filed objects census) {c : ClassObject}
    (hc : c ∈ census.table.link.classes) :
    ∃ heapId dump, (heapId, .classDump dump) ∈ objects ∧ census.Describes dump c := by
  obtain ⟨location, hat⟩ := ObjectTable.mem_classes.mp hc
  rw [at?_linked] at hat
  obtain ⟨object, hobject, heq⟩ := Option.map_eq_some_iff.mp hat
  cases object with
  | «instance» i => cases heq
  | classDump dump =>
    obtain ⟨heapId, hmem⟩ := h.at?_iff.mp ⟨location, hobject⟩
    cases heq
    exact ⟨heapId, dump, hmem, describes_linkClass census _ _ dump⟩

theorem Filed.exists_class (h : Filed objects census) {heapId : UInt32} {dump : ClassDump}
    (hmem : (heapId, .classDump dump) ∈ objects) :
    ∃ c ∈ census.table.link.classes, census.Describes dump c := by
  obtain ⟨location, hat⟩ := h.at?_iff.mpr ⟨heapId, hmem⟩
  refine ⟨_, ObjectTable.mem_classes.mpr ⟨location, ?_⟩,
    describes_linkClass census location (census.heapIdAt location) dump⟩
  rw [at?_linked, hat]
  rfl

/-- A plain instance of the graph is as it was read. -/
theorem Filed.mem_plain_iff (h : Filed objects census) {i : PlainInstance} :
    Instance.plain i ∈ census.table.link.instances ↔
      ∃ heapId, (heapId, .instance (.plain i)) ∈ objects := by
  rw [ObjectTable.mem_instances, ← h.at?_iff]
  refine exists_congr fun location => ?_
  rw [at?_linked, Option.map_eq_some_iff]
  constructor
  · rintro ⟨object, hobject, heq⟩
    cases object with
    | classDump dump => cases heq
    | «instance» j =>
      cases j with
      | plain j =>
        cases heq
        exact hobject
      | array a =>
        have hassigned : census.table.assignClass (.array a) = .plain i :=
          HeapObject.instance.inj heq
        unfold ObjectTable.assignClass at hassigned
        split at hassigned <;> cases hassigned
  · exact fun hobject => ⟨_, hobject, rfl⟩

/-! ### Identifiers that one object has -/

/-- If no two objects that were read share an identifier, each is the one that its identifier stands for. -/
theorem Filed.resolve_of_mem {source : ByteSource} {width : IdWidth} (h : Filed objects census)
    (consistent : census.Consistent source width) (hdistinct : (objects.map (·.2.id)).Nodup)
    {heapId : UInt32} {object : CensusObject} (hmem : (heapId, object) ∈ objects) :
    ∃ location, census.table.link.resolve object.id =
      some (census.table.linkObject location (census.object (census.heapIdAt location) object)) := by
  obtain ⟨location, hat⟩ := h.at?_iff.mpr ⟨heapId, hmem⟩
  have hentered := consistent.entered location object hat
  obtain ⟨location', hlocation⟩ :=
    Option.isSome_iff_exists.mp (Std.TreeMap.mem_iff_isSome_getElem?.mp hentered)
  obtain ⟨found, hfound, hid⟩ := consistent.index object.id location' hlocation
  obtain ⟨heapId', hmem'⟩ := h.at?_iff.mp ⟨location', hfound⟩
  obtain ⟨-, rfl⟩ := Prod.mk.inj (List.inj_on_of_nodup_map hdistinct hmem' hmem hid)
  refine ⟨location', ObjectTable.resolve_eq_some.mpr ⟨location', hlocation, ?_⟩⟩
  rw [at?_linked, hfound]
  rfl

theorem Filed.class?_of_mem {source : ByteSource} {width : IdWidth} (h : Filed objects census)
    (consistent : census.Consistent source width) (hdistinct : (objects.map (·.2.id)).Nodup)
    {heapId : UInt32} {dump : ClassDump} (hmem : (heapId, .classDump dump) ∈ objects) :
    ∃ c, census.table.link.class? dump.id = some c ∧ census.Describes dump c := by
  obtain ⟨location, hresolve⟩ := h.resolve_of_mem consistent hdistinct hmem
  exact ⟨_, Option.bind_eq_some_iff.mpr ⟨_, hresolve, rfl⟩, describes_linkClass census location _ dump⟩

/-- An instance is found as it was read, but for the class of a primitive array. -/
theorem Filed.instance?_of_mem {source : ByteSource} {width : IdWidth} (h : Filed objects census)
    (consistent : census.Consistent source width) (hdistinct : (objects.map (·.2.id)).Nodup)
    {heapId : UInt32} {i : Instance} (hmem : (heapId, .instance i) ∈ objects) :
    census.table.link.instance? i.id = some (census.table.assignClass i) := by
  obtain ⟨location, hresolve⟩ := h.resolve_of_mem consistent hdistinct hmem
  exact Option.bind_eq_some_iff.mpr ⟨_, hresolve, rfl⟩

end Census

end HeapDump

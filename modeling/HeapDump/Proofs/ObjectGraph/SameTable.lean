import HeapDump.Proofs.ObjectGraph.Alike
import HeapDump.Proofs.ObjectGraph.Table

/-! Tables of dumps that hold the same in other places.  Looking up and linking ask an instance for
everything but the place of its bytes, so tables that are the same when detached have the same classes
with the same links and layouts, and stay the same when they are linked. -/

namespace HeapDump

/-- An object without the place of its bytes, and these bytes. -/
def HeapObject.detach (source : ByteSource) (width : IdWidth) :
    HeapObject → HeapObject × Option (List UInt8)
  | classObject c => (classObject c, none)
  | .instance i => (.instance (i.detach source width).1, (i.detach source width).2)

/-- A heap with its instances detached. -/
def Heap.detach (source : ByteSource) (width : IdWidth) (heap : Heap) :
    Heap × Array (Instance × Option (List UInt8)) :=
  ({ heap with instances := #[] }, heap.instances.map (Instance.detach source width))

theorem HeapObject.id_detach (source : ByteSource) (width : IdWidth) (object : HeapObject) :
    (object.detach source width).1.id = object.id := by
  cases object with
  | classObject c => rfl
  | «instance» i => exact i.id_detach source width

theorem HeapObject.class?_detach (source : ByteSource) (width : IdWidth) (object : HeapObject) :
    (object.detach source width).1.class? = object.class? := by
  cases object <;> rfl

theorem HeapObject.instance?_detach (source : ByteSource) (width : IdWidth) (object : HeapObject) :
    object.instance?.map (Instance.detach source width) =
      (object.detach source width).1.instance?.map (·, (object.detach source width).2) := by
  cases object <;> rfl

namespace ObjectTable

section Detached

variable (source : ByteSource) (width : IdWidth) (table : ObjectTable)

theorem classes_detach : table.classes =
    (table.heaps.map (Heap.detach source width)).toList.flatMap (·.1.classes.toList) := by
  simp only [classes, Array.toList_map, List.flatMap_map, Heap.detach]

theorem roots_detach : table.roots =
    (table.heaps.map (Heap.detach source width)).toList.flatMap (·.1.roots.toList) := by
  simp only [roots, Array.toList_map, List.flatMap_map, Heap.detach]

theorem instances_detach : table.instances.map (Instance.detach source width) =
    (table.heaps.map (Heap.detach source width)).toList.flatMap (·.2.toList) := by
  simp only [instances, Array.toList_map, List.flatMap_map, List.map_flatMap, Heap.detach]

theorem at?_detach (location : Location) :
    (table.at? location).map (HeapObject.detach source width) =
      (table.heaps.map (Heap.detach source width))[location.heap]?.bind fun heap =>
        match location.slot with
        | .classSlot i => heap.1.classes[i]?.map fun c => (.classObject c, none)
        | .instanceSlot i => heap.2[i]?.map fun (i, bytes) => (.instance i, bytes) := by
  obtain ⟨index, slot⟩ := location
  rw [Array.getElem?_map, at?]
  cases table.heaps[index]? with
  | none => rfl
  | some heap =>
    cases slot with
    | classSlot i =>
      show (heap.classes[i]?.bind _).map _ = heap.classes[i]?.map _
      cases heap.classes[i]? <;> rfl
    | instanceSlot i =>
      show (heap.instances[i]?.bind _).map _ = (heap.instances.map _)[i]?.map _
      rw [Array.getElem?_map]
      cases heap.instances[i]? <;> rfl

end Detached

/-- Two tables are the same up to the places of instances. -/
structure Alike (source source' : ByteSource) (width : IdWidth) (table table' : ObjectTable) :
    Prop where
  heaps : table.heaps.map (Heap.detach source width) = table'.heaps.map (Heap.detach source' width)
  index : table.index = table'.index

/-! ### Looking up -/

section Alike

variable {source source' : ByteSource} {width : IdWidth} {table table' : ObjectTable}
  (h : Alike source source' width table table')
include h

theorem Alike.size_heaps : table.heaps.size = table'.heaps.size := by
  simpa using congrArg Array.size h.heaps

theorem Alike.classes : table.classes = table'.classes := by
  rw [classes_detach source width, h.heaps, ← classes_detach]

theorem Alike.roots : table.roots = table'.roots := by
  rw [roots_detach source width, h.heaps, ← roots_detach]

theorem Alike.instances : table.instances.map (Instance.detach source width) =
    table'.instances.map (Instance.detach source' width) := by
  rw [instances_detach, h.heaps, ← instances_detach]

theorem Alike.contains : table.contains = table'.contains := by
  funext id
  rw [ObjectTable.contains, h.index, ← ObjectTable.contains]

theorem Alike.heapIndex? : table.heapIndex? = table'.heapIndex? := by
  funext id
  rw [ObjectTable.heapIndex?, h.index, ← ObjectTable.heapIndex?]

theorem Alike.resolve (id : Ident) : (table.resolve id).map (HeapObject.detach source width) =
    (table'.resolve id).map (HeapObject.detach source' width) := by
  rw [ObjectTable.resolve, ObjectTable.resolve, h.index]
  cases table'.index[id]? with
  | none => rfl
  | some location =>
    show (table.at? location).map _ = (table'.at? location).map _
    rw [at?_detach, h.heaps, ← at?_detach]

theorem Alike.class? : table.class? = table'.class? := by
  funext id
  have hdetach : ∀ (source : ByteSource) (table : ObjectTable), table.class? id =
      ((table.resolve id).map (HeapObject.detach source width)).bind (·.1.class?) := by
    intro source table
    rw [Option.bind_map]
    exact Option.bind_congr fun object _ => (HeapObject.class?_detach source width object).symm
  rw [hdetach source, h.resolve, ← hdetach]

theorem Alike.instance? (id : Ident) : (table.instance? id).map (Instance.detach source width) =
    (table'.instance? id).map (Instance.detach source' width) := by
  have hdetach : ∀ (source : ByteSource) (table : ObjectTable),
      (table.instance? id).map (Instance.detach source width) =
        ((table.resolve id).map (HeapObject.detach source width)).bind
          fun object => object.1.instance?.map (·, object.2) := by
    intro source table
    rw [Option.bind_map, ObjectTable.instance?]
    show ((table.resolve id).bind _).map _ = _
    rw [Option.map_bind]
    exact Option.bind_congr fun object _ => HeapObject.instance?_detach source width object
  rw [hdetach, h.resolve, ← hdetach]

theorem Alike.superclass? : table.superclass? = table'.superclass? := by
  funext c
  rw [ObjectTable.superclass?, h.class?, ← ObjectTable.superclass?]

/-! ### Links -/

theorem Alike.presentClass? : table.presentClass? = table'.presentClass? := by
  funext i
  have hnamed : table.namedClass? i = table'.namedClass? i := by
    unfold namedClass?
    rw [h.classes]
  rw [ObjectTable.presentClass?, hnamed, h.class?, ← ObjectTable.presentClass?]

theorem Alike.assignClass : table.assignClass = table'.assignClass := by
  funext i
  unfold ObjectTable.assignClass
  rw [h.presentClass?]

theorem Alike.isIndexed : table.isIndexed = table'.isIndexed := by
  funext location id
  rw [ObjectTable.isIndexed, h.index, ← ObjectTable.isIndexed]

theorem Alike.subclassPairs : table.subclassPairs = table'.subclassPairs := by
  rw [ObjectTable.subclassPairs, h.classes, h.superclass?, ← ObjectTable.subclassPairs]

omit h in
theorem presentClass?_detach (source : ByteSource) (width : IdWidth) (table : ObjectTable)
    (i : Instance) : table.presentClass? (i.detach source width).1 = table.presentClass? i := by
  cases i <;> rfl

theorem Alike.instancePairs : table.instancePairs = table'.instancePairs := by
  have hdetach : ∀ (source : ByteSource) (table : ObjectTable), table.instancePairs =
      (table.instances.map (Instance.detach source width)).filterMap
        fun i => (table.presentClass? i.1).map fun c => (c, i.1.id) := by
    intro source table
    rw [List.filterMap_map]
    refine List.filterMap_congr fun i _ => ?_
    show _ = (table.presentClass? (i.detach source width).1).map _
    rw [presentClass?_detach, Instance.id_detach]
  rw [hdetach source, h.instances, h.presentClass?, ← hdetach]

omit h in
theorem detach_assignClass (source : ByteSource) (width : IdWidth) (table : ObjectTable)
    (i : Instance) : (table.assignClass i).detach source width =
      (table.assignClass (i.detach source width).1, (i.detach source width).2) := by
  unfold ObjectTable.assignClass
  rw [presentClass?_detach]
  cases i with
  | plain i => rfl
  | array a => cases table.presentClass? (.array a) <;> rfl

omit h in
/-- Linking commutes with detaching. -/
theorem heaps_link (source : ByteSource) (width : IdWidth) (table : ObjectTable) :
    table.link.heaps.map (Heap.detach source width) =
      (table.heaps.map (Heap.detach source width)).mapIdx fun index heap =>
        ({ heap.1 with
            classes := heap.1.classes.mapIdx fun slot c =>
              if table.isIndexed ⟨index, .classSlot slot⟩ c.id then
                { c with
                  subclasses := (Links.ofPairs table.subclassPairs).members c.id
                  instances := (Links.ofPairs table.instancePairs).members c.id }
              else c },
          heap.2.map fun i => (table.assignClass i.1, i.2)) := by
  -- Classes are kept as they are by detaching, so only the instances of a heap need an argument.
  refine Array.ext_getElem? fun index => ?_
  simp only [link, Array.getElem?_map, Array.getElem?_mapIdx, Option.map_map]
  refine congrArg (Option.map · table.heaps[index]?) (funext fun heap => ?_)
  have hinstances : (heap.instances.map table.assignClass).map (Instance.detach source width) =
      (heap.instances.map (Instance.detach source width)).map
        fun i => (table.assignClass i.1, i.2) := by
    simp only [Array.map_map]
    exact congrArg (Array.map · heap.instances) (funext (detach_assignClass source width table))
  exact congrArg (Prod.mk _) hinstances

theorem Alike.link : Alike source source' width table.link table'.link := by
  refine ⟨?_, h.index⟩
  rw [heaps_link, heaps_link, h.heaps, h.isIndexed, h.subclassPairs, h.instancePairs,
    h.assignClass]

/-! ### Layouts -/

theorem Alike.chainFrom (fuel : Nat) (met : List Ident) (c : ClassObject) :
    table.chainFrom fuel met c = table'.chainFrom fuel met c := by
  induction fuel generalizing met c with
  | zero => rfl
  | succ fuel ih => simp only [ObjectTable.chainFrom, h.superclass?, ih]

theorem Alike.layouts : table.layouts width = table'.layouts width := by
  simp only [ObjectTable.layouts, ObjectTable.layout, ObjectTable.chain, h.classes, h.chainFrom]

end Alike

end ObjectTable

/-! ### Naming -/

namespace Census

variable {source source' : ByteSource} {width : IdWidth} {census census' : Census}

theorem Alike.className (h : Alike source source' width census census') :
    census.className = census'.className := by
  funext id
  rw [Census.className, h.classNames, h.strings, ← Census.className]

theorem Alike.classObject (h : Alike source source' width census census') :
    census.classObject = census'.classObject := by
  funext heapId dump
  simp only [Census.classObject, fieldName, h.className, h.strings]

theorem Alike.table (h : Alike source source' width census census') :
    census.table.Alike source source' width census'.table := by
  have hheap : census.heap = census'.heap := by
    funext heap
    simp only [Census.heap, h.strings, h.classObject]
  have hdetach : ∀ (source : ByteSource) (census : Census),
      census.table.heaps.map (Heap.detach source width) =
        (census.heaps.map (HeapCensus.detach source width)).map
          fun heap => (census.heap heap.1, heap.2) := by
    intro source census
    simp only [Census.table, Array.map_map]
    rfl
  refine ⟨?_, h.index⟩
  rw [hdetach, hdetach, h.heaps, hheap]

theorem Alike.stackTraces (h : Alike source source' width census census') :
    census.stackTraces = census'.stackTraces := by
  have hframe : census.stackFrame = census'.stackFrame := by
    funext frame
    simp only [stackFrame, frameText, h.strings]
  have htrace : census.stackTrace = census'.stackTrace := by
    funext trace
    simp only [stackTrace, h.frames, hframe]
  rw [Census.stackTraces, h.traces, htrace, ← Census.stackTraces]

end Census

end HeapDump

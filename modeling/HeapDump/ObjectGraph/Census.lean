import HeapDump.Diagnostic
import HeapDump.ObjectGraph.Entry
import HeapDump.ObjectGraph.Object
import Std.Data.TreeMap

/-! The census of a dump: one pass over its entries that files each one away.  Of texts, loaded classes,
frames and threads with the same key the last one counts; of objects with the same identifier the
first one counts.  Nothing is looked up during the pass, so it does not matter where texts and
frames stand. -/

namespace HeapDump

/-- A heap while it is being filled. -/
structure HeapCensus where
  id : UInt32
  nameId : Option Ident
  classes : Array ClassDump
  instances : Array Instance
  roots : Array Root
deriving DecidableEq, Repr

def HeapCensus.empty (id : UInt32) : HeapCensus := ⟨id, none, #[], #[], #[]⟩

structure Census where
  strings : Std.TreeMap Ident String
  /-- The name of each loaded class, by the identifier of a text. -/
  classNames : Std.TreeMap Ident Ident
  /-- The loaded classes by serial number. -/
  classSerials : Std.TreeMap Serial Ident
  frames : Std.TreeMap Ident FrameRecord
  traces : Array TraceRecord
  threads : Std.TreeMap Serial ThreadObject
  heaps : Array HeapCensus
  /-- The heap that objects and roots go to. -/
  current : Nat
  index : Std.TreeMap Ident Location
  recordCounts : Std.TreeMap RecordTag Nat
  rootCounts : Std.TreeMap RootKind Nat
  unknownRecords : Nat
  notes : Array Diagnostic
  current_lt : current < heaps.size

namespace Census

/-- One more of `key`. -/
def bump {α : Type} [Ord α] (counts : Std.TreeMap α Nat) (key : α) : Std.TreeMap α Nat :=
  counts.insert key (counts.getD key 0 + 1)

/-- The default heap is there from the start. -/
def empty : Census where
  strings := ∅
  classNames := ∅
  classSerials := ∅
  frames := ∅
  traces := #[]
  threads := ∅
  heaps := #[.empty Heap.defaultId]
  current := 0
  index := ∅
  recordCounts := ∅
  rootCounts := ∅
  unknownRecords := 0
  notes := #[]
  current_lt := by decide

def currentHeap (census : Census) : HeapCensus :=
  have := census.current_lt
  census.heaps[census.current]

def modifyHeap (census : Census) (f : HeapCensus → HeapCensus) : Census :=
  { census with
    heaps := census.heaps.modify census.current f
    current_lt := by rw [Array.size_modify]; exact census.current_lt }

def note (census : Census) (diagnostic : Diagnostic) : Census :=
  { census with notes := census.notes.push diagnostic }

/-- The first object with an identifier is the one it stands for. -/
def enter (census : Census) (id : Ident) (slot : Slot) : Census :=
  if id ∈ census.index then census.note (.duplicateObject id)
  else { census with index := census.index.insert id ⟨census.current, slot⟩ }

def addClass (census : Census) (dump : ClassDump) : Census :=
  let slot := Slot.classSlot census.currentHeap.classes.size
  (census.modifyHeap fun h => { h with classes := h.classes.push dump }).enter dump.id slot

def addInstance (census : Census) (i : Instance) : Census :=
  let slot := Slot.instanceSlot census.currentHeap.instances.size
  (census.modifyHeap fun h => { h with instances := h.instances.push i }).enter i.id slot

def addRoot (census : Census) (root : Root) : Census :=
  { census.modifyHeap fun h => { h with roots := h.roots.push root } with
    rootCounts := bump census.rootCounts root.origin.kind }

/-- A thread is a root of its object, if it has one. -/
def addThread (census : Census) (thread : ThreadObject) : Census :=
  let census := { census with threads := census.threads.insert thread.thread thread }
  match thread.object with
  | none => census
  | some object => census.addRoot ⟨object, .threadObject thread.thread⟩

/-- Goes back to a heap that has been met before, or to a new one after all others. -/
def switchHeap (census : Census) (info : HeapSwitch) : Census :=
  let switched : Census :=
    match census.heaps.findFinIdx? (·.id = info.heap) with
    | some i => { census with current := i, current_lt := i.isLt }
    | none =>
      { census with
        heaps := census.heaps.push (.empty info.heap)
        current := census.heaps.size
        current_lt := by simp }
  switched.modifyHeap fun h => { h with nameId := some info.nameId }

def addSubRecord (census : Census) : SubRecord → Census
  | .root root => census.addRoot root
  | .thread thread => census.addThread thread
  | .heapSwitch info => census.switchHeap info
  | .classDump dump => census.addClass dump
  | .instance dump =>
    census.addInstance <| .plain
      { id := dump.id, classId := dump.classId, heapId := census.currentHeap.id
        trace := dump.trace, offset := dump.offset, length := dump.length }
  | .objectArray dump =>
    census.addInstance <| .array
      { id := dump.id, elementType := .object, classId := some dump.classId
        heapId := census.currentHeap.id, trace := dump.trace, count := dump.count
        offset := some dump.offset }
  | .primitiveArray dump =>
    census.addInstance <| .array
      { id := dump.id, elementType := .primitive dump.type, classId := none
        heapId := census.currentHeap.id, trace := dump.trace, count := dump.count
        offset := dump.offset }

def countRecord (census : Census) (record : Record) : Census :=
  match record.tag? with
  | some tag => { census with recordCounts := bump census.recordCounts tag }
  | none => { census with unknownRecords := census.unknownRecords + 1 }

def addContents (census : Census) (record : Record) : EntryContents → Census
  | .text named => { census with strings := census.strings.insert named.id named.text }
  | .classLoad load =>
    { census with
      classSerials := census.classSerials.insert load.serial load.classId
      classNames := census.classNames.insert load.classId load.nameId }
  | .classUnload unload =>
    { census with classSerials := census.classSerials.erase unload.serial }
  | .frame frame => { census with frames := census.frames.insert frame.id frame }
  | .trace trace => { census with traces := census.traces.push trace }
  | .heapDump subRecords => subRecords.foldl addSubRecord census
  | .unused tag => census.note (.unusedRecord tag record.offset)
  | .unknown => census.note (.unknownRecord record.tagByte record.offset record.bodyLength)

def add (census : Census) (entry : Entry) : Census :=
  (census.countRecord entry.record).addContents entry.record entry.contents

def ofEntries (entries : List Entry) : Census :=
  entries.foldl add empty

end Census

end HeapDump

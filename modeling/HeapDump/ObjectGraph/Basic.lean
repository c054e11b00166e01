import HeapDump.ObjectGraph.Layout

/-! The object graph of a dump.  It is built from the census once the whole dump has been read, so that
names may stand anywhere in the dump.  Field values and array contents are not copied: they are read
from the source when they are asked for. -/

namespace HeapDump

structure ObjectGraph extends ObjectTable where
  source : ByteSource
  header : Header
  strings : Std.TreeMap Ident String
  classSerials : Std.TreeMap Serial Ident
  stackTraces : Std.TreeMap Serial StackTrace
  threads : Std.TreeMap Serial ThreadObject
  layouts : Std.TreeMap Ident (List LayoutField)
  recordCounts : Std.TreeMap RecordTag Nat
  rootCounts : Std.TreeMap RootKind Nat
  unknownRecords : Nat

namespace Census

/-! ### Names -/

/-- The name of a class: the text that its last load names, or a name made of its identifier. -/
def className (census : Census) (id : Ident) : String :=
  (census.classNames[id]?.bind (census.strings[·]?)).getD
    ("unknown-class-" ++ Text.hexIdent id.val)

def fieldName (census : Census) (nameId : Ident) : String :=
  census.strings.getD nameId ("unknown-field-" ++ Text.hexIdent nameId.val)

def frameText (census : Census) (nameId : Ident) : String :=
  census.strings.getD nameId "(unknown)"

/-! ### Objects -/

def classObject (census : Census) (heapId : UInt32) (dump : ClassDump) : ClassObject where
  id := dump.id
  name := census.className dump.id
  heapId := heapId
  superclass := dump.superclass
  loader := dump.loader
  trace := dump.trace
  instanceSize := dump.instanceSize
  fields := dump.fields.map fun f => ⟨census.fieldName f.nameId, f.type⟩
  statics := dump.statics.map fun s => ⟨⟨census.fieldName s.nameId, s.type⟩, s.value⟩
  instances := []
  subclasses := []

def heap (census : Census) (h : HeapCensus) : Heap where
  id := h.id
  name := (h.nameId.bind (census.strings[·]?)).getD (Heap.defaultName h.id)
  classes := h.classes.map (census.classObject h.id)
  instances := h.instances
  roots := h.roots

/-- The objects before they are linked. -/
def table (census : Census) : ObjectTable where
  heaps := census.heaps.map census.heap
  index := census.index

/-! ### Stack traces -/

def stackFrame (census : Census) (frame : FrameRecord) : StackFrame where
  id := frame.id
  methodName := census.frameText frame.methodName
  signature := census.frameText frame.signature
  sourceFile := census.frameText frame.sourceFile
  classSerial := frame.classSerial
  line := frame.line

def stackTrace (census : Census) (trace : TraceRecord) : StackTrace where
  serial := trace.serial
  thread := trace.thread
  frames := trace.frames.filterMap fun id => census.frames[id]?.map census.stackFrame

def stackTraces (census : Census) : Std.TreeMap Serial StackTrace :=
  census.traces.foldl (fun traces t => traces.insert t.serial (census.stackTrace t)) ∅

/-- The frames that traces name and the dump does not hold. -/
def frameNotes (census : Census) : List Diagnostic :=
  census.traces.toList.flatMap fun trace =>
    (trace.frames.filter fun id => !census.frames.contains id).map
      (.missingFrame trace.serial ·)

end Census

namespace ObjectGraph

def idWidth (graph : ObjectGraph) : IdWidth := graph.header.idWidth

/-- The objects of a census, linked and laid out. -/
def ofCensus (source : ByteSource) (header : Header) (census : Census) : ObjectGraph :=
  let table := census.table.link
  { toObjectTable := table
    source
    header
    strings := census.strings
    classSerials := census.classSerials
    stackTraces := census.stackTraces
    threads := census.threads
    layouts := table.layouts header.idWidth
    recordCounts := census.recordCounts
    rootCounts := census.rootCounts
    unknownRecords := census.unknownRecords }

/-- The fields of the instances of a class, inherited ones included. -/
def layout? (graph : ObjectGraph) (classId : Ident) : Option (List LayoutField) :=
  graph.layouts[classId]?

/-! ### Instance sizes -/

/-- Goes through instances whose class is in the dump.  One with fewer bytes than the layout needs is an
error, since its fields could not be read; the first of a class with other than the declared number
is worth a warning.  `reported` holds the classes that have had theirs. -/
def checkSizes (graph : ObjectGraph) :
    List PlainInstance → (reported : List Ident) → Listing DumpError Diagnostic
  | [], _ => ⟨[], none⟩
  | i :: instances, reported =>
    match graph.class? i.classId with
    | none => checkSizes graph instances reported
    | some c =>
      let needs := LayoutField.total graph.idWidth ((graph.layout? c.id).getD [])
      if i.length.toNat < needs then
        ⟨[], some (.malformed i.offset (.blobShort i.id c.name i.length.toNat needs))⟩
      else if i.length ≠ c.instanceSize ∧ c.id ∉ reported then
        (checkSizes graph instances (c.id :: reported)).cons
          (.otherSize i.id c.name i.length c.instanceSize)
      else checkSizes graph instances reported

def sizeNotes (graph : ObjectGraph) : Listing DumpError Diagnostic :=
  graph.checkSizes (graph.instances.filterMap (·.plain?)) []

def totals (graph : ObjectGraph) : Diagnostic :=
  .finished graph.classes.length graph.instances.length graph.heaps.size graph.roots.length

end ObjectGraph

/-! ### Reading -/

/-- What reading a dump reports and what it comes to. -/
structure Reading where
  notes : List Diagnostic
  outcome : Except DumpError ObjectGraph

namespace Reading

/-- The reading of a dump all of whose entries could be decoded. -/
def ofCensus (source : ByteSource) (header : Header) (census : Census) : Reading :=
  let graph := ObjectGraph.ofCensus source header census
  let sizes := graph.sizeNotes
  let notes := census.notes.toList ++ census.frameNotes ++ census.table.linkNotes ++
    census.table.link.cycleNotes ++ sizes.items
  match sizes.failure with
  | some e => ⟨notes, .error e⟩
  | none => ⟨notes ++ [graph.totals], .ok graph⟩

def ofSource (source : ByteSource) : Reading :=
  match Header.read source with
  | .error e => ⟨[], .error e⟩
  | .ok header =>
    let opened := Diagnostic.opened header.label header.idWidth
    let entries := Entry.list source header
    let census := Census.ofEntries entries.items
    match entries.failure with
    | some e => ⟨opened :: census.notes.toList, .error e⟩
    | none =>
      let reading := ofCensus source header census
      { reading with notes := opened :: reading.notes }

end Reading

namespace ObjectGraph

/-- The object graph of a dump. -/
def read (source : ByteSource) : Except DumpError ObjectGraph :=
  (Reading.ofSource source).outcome

/-! ### Looking up -/

def heap? (graph : ObjectGraph) (heapId : UInt32) : Option Heap :=
  graph.heaps.find? (·.id = heapId)

def heapByName? (graph : ObjectGraph) (name : String) : Option Heap :=
  graph.heaps.find? (·.name = name)

def string? (graph : ObjectGraph) (id : Ident) : Option String :=
  graph.strings[id]?

/-- The class last loaded with a serial number, unless it has been unloaded. -/
def classBySerial? (graph : ObjectGraph) (serial : Serial) : Option ClassObject := do
  graph.class? (← graph.classSerials[serial]?)

def thread? (graph : ObjectGraph) (serial : Serial) : Option ThreadObject :=
  graph.threads[serial]?

def stackTrace? (graph : ObjectGraph) (serial : Serial) : Option StackTrace :=
  graph.stackTraces[serial]?

/-- Where an instance was made. -/
def allocationTrace? (graph : ObjectGraph) (i : Instance) : Option StackTrace :=
  graph.stackTrace? i.trace

def recordCount (graph : ObjectGraph) (tag : RecordTag) : Nat :=
  graph.recordCounts.getD tag 0

def rootCount (graph : ObjectGraph) (kind : RootKind) : Nat :=
  graph.rootCounts.getD kind 0

/-- The classes in the order of their names. -/
def classesByName (graph : ObjectGraph) : List ClassObject :=
  graph.classes.mergeSort fun a b => (a.compareByName b).isLE

/-- The bytes that an object takes itself: the declared size of an instance, or the number of its bytes if
its class is not in the dump; the elements of an array; the static values of a class. -/
def shallowSize (graph : ObjectGraph) : HeapObject → UInt64
  | .classObject c => c.staticSize graph.idWidth
  | .instance (.plain i) =>
    ((graph.class? i.classId).elim i.length (·.instanceSize)).toUInt64
  | .instance (.array a) => UInt64.ofNat (a.contentsLength graph.idWidth)

end ObjectGraph

end HeapDump

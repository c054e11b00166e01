import HeapDump.Record.Body
import HeapDump.SubRecord

/-! The decoded contents of a dump: its records in order, each with what its body says.  Records that the
object graph has no use for keep only their frame. -/

namespace HeapDump

inductive EntryContents
  | text (named : NamedText)
  | classLoad (load : ClassLoad)
  | classUnload (unload : ClassUnload)
  | frame (frame : FrameRecord)
  | trace (trace : TraceRecord)
  | heapDump (subRecords : List SubRecord)
  /-- A record of a known tag. -/
  | unused (tag : RecordTag)
  /-- A record of an unknown tag. -/
  | unknown
deriving DecidableEq, Repr

structure Entry where
  record : Record
  contents : EntryContents
deriving DecidableEq, Repr

namespace Listing

variable {ε α β : Type}

/-- What each item yields, in order, up to the first failure. -/
def collect (f : α → Listing ε β) : List α → Option ε → Listing ε β
  | [], failure => ⟨[], failure⟩
  | a :: items, failure =>
    let first := f a
    if first.failure.isSome then first
    else
      let rest := collect f items failure
      ⟨first.items ++ rest.items, rest.failure⟩

def flatMap (listing : Listing ε α) (f : α → Listing ε β) : Listing ε β :=
  collect f listing.items listing.failure

/-- The one item of a computation that may fail. -/
def ofExcept : Except ε α → Listing ε α
  | .ok a => ⟨[a], none⟩
  | .error e => ⟨[], some e⟩

end Listing

namespace Entry

/-- What the fields in the body of a record say. -/
def decodeBody {α : Type} (source : ByteSource) (record : Record) (tag : RecordTag)
    (decode : Slice α) : Except DumpError α := do
  match decode (← record.body source) with
  | .ok (a, _) => .ok a
  | .error _ => .error (.malformed record.bodyOffset (.recordCut tag))

/-- The entry of a record.  If the body of a heap dump fails inside, its entry holds the sub-records before
the failure. -/
def read (source : ByteSource) (width : IdWidth) (record : Record) : Listing DumpError Entry :=
  let fields {α : Type} (tag : RecordTag) (decode : Slice α) (contents : α → EntryContents) :=
    Listing.ofExcept do
      return ⟨record, contents (← decodeBody source record tag decode)⟩
  match record.tag? with
  | none => ⟨[⟨record, .unknown⟩], none⟩
  | some .utf8 => fields .utf8 (NamedText.decode width) .text
  | some .loadClass => fields .loadClass (ClassLoad.decode width) .classLoad
  | some .unloadClass => fields .unloadClass ClassUnload.decode .classUnload
  | some .stackFrame => fields .stackFrame (FrameRecord.decode width) .frame
  | some .stackTrace => fields .stackTrace (TraceRecord.decode width) .trace
  | some .heapDump | some .heapDumpSegment =>
    let subRecords := SubRecord.list source width record
    ⟨[⟨record, .heapDump subRecords.items⟩], subRecords.failure⟩
  | some tag => ⟨[⟨record, .unused tag⟩], none⟩

/-- The entries of a dump up to the first failure. -/
def list (source : ByteSource) (header : Header) : Listing DumpError Entry :=
  (Record.list source header).flatMap (read source header.idWidth)

end Entry

end HeapDump

/-! Tags of top level records.  A record of any other tag is skipped by its length. -/

namespace HeapDump

inductive RecordTag
  | utf8
  | loadClass
  | unloadClass
  | stackFrame
  | stackTrace
  | allocSites
  | startThread
  | endThread
  | heapSummary
  | heapDump
  | cpuSamples
  | controlSettings
  | heapDumpSegment
  | heapDumpEnd
deriving DecidableEq, Repr

namespace RecordTag

/-- Every tag, in the order in which they are listed. -/
def all : List RecordTag :=
  [utf8, loadClass, unloadClass, stackFrame, stackTrace, allocSites, startThread, endThread,
    heapSummary, heapDump, cpuSamples, controlSettings, heapDumpSegment, heapDumpEnd]

def byte : RecordTag → UInt8
  | utf8 => 0x01
  | loadClass => 0x02
  | unloadClass => 0x03
  | stackFrame => 0x04
  | stackTrace => 0x05
  | allocSites => 0x06
  | heapSummary => 0x07
  | startThread => 0x0A
  | endThread => 0x0B
  | heapDump => 0x0C
  | cpuSamples => 0x0D
  | controlSettings => 0x0E
  | heapDumpSegment => 0x1C
  | heapDumpEnd => 0x2C

def ofByte? (byte : UInt8) : Option RecordTag :=
  all.find? (·.byte = byte)

/-- The name of a tag in messages. -/
def name : RecordTag → String
  | utf8 => "Utf8"
  | loadClass => "LoadClass"
  | unloadClass => "UnloadClass"
  | stackFrame => "StackFrame"
  | stackTrace => "StackTrace"
  | allocSites => "AllocSites"
  | startThread => "StartThread"
  | endThread => "EndThread"
  | heapSummary => "HeapSummary"
  | heapDump => "HeapDump"
  | cpuSamples => "CpuSamples"
  | controlSettings => "ControlSettings"
  | heapDumpSegment => "HeapDumpSegment"
  | heapDumpEnd => "HeapDumpEnd"

/-- Tags are ordered by their bytes. -/
instance : Ord RecordTag := ⟨compareOn byte⟩

instance : Std.TransOrd RecordTag := inferInstanceAs (Std.TransCmp (compareOn byte))

/-- The order in which the tags are listed, which is not that of their bytes: the threads come before
the heap summary. -/
def compareListed : RecordTag → RecordTag → Ordering :=
  compareOn (all.idxOf ·)

end RecordTag

end HeapDump

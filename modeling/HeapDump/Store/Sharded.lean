import HeapDump.Store.Source

/-! A long file held as overlapping shards.  Shard `i` holds the bytes from `i * shardSize` up to
`padding` bytes past the start of the next shard.  A range inside one padded shard is handed out in
place.  Any other range is copied together from spans, each inside the unpadded part of a shard. -/

namespace HeapDump

/-- How a file is cut. -/
structure ShardOptions where
  shardSize : Nat := 1 <<< 30
  padding : Nat := 1024
  shardSize_pos : 0 < shardSize := by decide

namespace ShardOptions

instance : Inhabited ShardOptions := ⟨{}⟩

/-- A shard size of zero is raised to one. -/
def withShardSize (options : ShardOptions) (shardSize : Nat) : ShardOptions :=
  { options with shardSize := max shardSize 1, shardSize_pos := by omega }

def withPadding (options : ShardOptions) (padding : Nat) : ShardOptions :=
  { options with padding := padding }

end ShardOptions

/-- The bytes of a range, and whether they were handed out in place. -/
structure Stretch where
  bytes : List UInt8
  inPlace : Bool
deriving DecidableEq, Repr

/-- The bytes of an array from `start` up to `stop`. -/
def bytesBetween (bytes : ByteArray) (start stop : Nat) : List UInt8 :=
  (bytes.extract start stop).data.toList

structure Shards where
  size : Nat
  shardSize : Nat
  shardSize_pos : 0 < shardSize
  pieces : Array ByteArray

/-- A part of one shard. -/
structure Span where
  shard : Nat
  start : Nat
  length : Nat
deriving DecidableEq, Repr

namespace Shards

/-- The bytes that shard `index` of a file holds. -/
def piece (options : ShardOptions) (file : ByteArray) (index : Nat) : ByteArray :=
  file.extract (index * options.shardSize)
    (min file.size ((index + 1) * options.shardSize + options.padding))

def ofFile (options : ShardOptions) (file : ByteArray) : Shards where
  size := file.size
  shardSize := options.shardSize
  shardSize_pos := options.shardSize_pos
  pieces := Array.ofFn fun index : Fin ((file.size + options.shardSize - 1) / options.shardSize) =>
    piece options file index

/-- The spans that make up a range, each as long as the unpadded part of its shard allows. -/
def spans (shards : Shards) (position length : Nat) : List Span :=
  if _h : length = 0 then []
  else
    let start := position % shards.shardSize
    let taken := min length (shards.shardSize - start)
    ⟨position / shards.shardSize, start, taken⟩ :: shards.spans (position + taken) (length - taken)
termination_by length
decreasing_by
  have := Nat.mod_lt position shards.shardSize_pos
  omega

def shard (shards : Shards) (index : Nat) : ByteArray :=
  shards.pieces.getD index ByteArray.empty

def readSpan (shards : Shards) (span : Span) : List UInt8 :=
  bytesBetween (shards.shard span.shard) span.start (span.start + span.length)

/-- The bytes of a range inside the file. -/
def stretch (shards : Shards) (position length : Nat) : Stretch :=
  let start := position % shards.shardSize
  let first := shards.shard (position / shards.shardSize)
  if length = 0 then ⟨[], true⟩
  else if start + length ≤ first.size then ⟨bytesBetween first start (start + length), true⟩
  else ⟨(shards.spans position length).flatMap shards.readSpan, false⟩

end Shards

end HeapDump

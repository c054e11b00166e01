import HeapDump.Store.Sharded

/-! Stores for the bytes of a dump: in one piece, in memory or mapped from a file, or in shards.  A
store refuses a range that does not end inside the data and otherwise gives its bytes. -/

namespace HeapDump

inductive ByteStore
  | whole (bytes : ByteArray)
  | sharded (shards : Shards)

namespace ByteStore

def size : ByteStore → Nat
  | whole bytes => bytes.size
  | sharded shards => shards.size

def stretch (store : ByteStore) (position length : Nat) : Except DumpError Stretch := do
  checkRange position length store.size
  match store with
  | whole bytes => return ⟨bytesBetween bytes position (position + length), true⟩
  | sharded shards => return shards.stretch position length

def source (store : ByteStore) : ByteSource where
  size := store.size
  slice position length := return (← store.stretch position length).bytes

/-- A file mapped in one piece, which an empty file cannot be. -/
def map (file : ByteArray) : Except DumpError ByteStore :=
  if file.size = 0 then .error (.unopened 0 .emptyMapping) else .ok (whole file)

/-- A file in shards, whatever its size. -/
def shard (options : ShardOptions) (file : ByteArray) : ByteStore :=
  sharded (Shards.ofFile options file)

/-- The store for a file, if there is one: in one piece when it is no longer than one shard, else in
shards. -/
def openFile (options : ShardOptions) : Option ByteArray → Except DumpError ByteStore
  | none => .error (.unopened 0 .missingFile)
  | some file =>
    if file.size = 0 then .ok (whole ByteArray.empty)
    else if file.size ≤ options.shardSize then map file
    else .ok (shard options file)

end ByteStore

/-- The source of bytes in memory. -/
def ByteSource.ofBytes (bytes : ByteArray) : ByteSource :=
  (ByteStore.whole bytes).source

end HeapDump

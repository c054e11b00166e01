import HeapDump.ObjectGraph.Basic

/-! Shards and the file they were cut from.  Every range inside the file is made of spans that lie in
the unpadded part of their shards, and the bytes of the spans in a row are those of the file.  So a
sharded store answers every read as one that holds the file in one piece, down to the refusals, and
whatever is read from it is the same. -/

namespace HeapDump

/-! ### Ranges of bytes -/

theorem bytesBetween_self (bytes : ByteArray) (start : Nat) : bytesBetween bytes start start = [] := by
  rw [bytesBetween, ByteArray.extract_same]
  rfl

theorem bytesBetween_append (bytes : ByteArray) {start middle stop : Nat} (h1 : start ≤ middle)
    (h2 : middle ≤ stop) :
    bytesBetween bytes start middle ++ bytesBetween bytes middle stop =
      bytesBetween bytes start stop := by
  rw [bytesBetween, bytesBetween, bytesBetween,
    ByteArray.extract_eq_extract_append_extract middle h1 h2, ByteArray.data_append,
    Array.toList_append]

theorem bytesBetween_extract (bytes : ByteArray) {first last start stop : Nat}
    (h : first + stop ≤ last) :
    bytesBetween (bytes.extract first last) start stop =
      bytesBetween bytes (first + start) (first + stop) := by
  rw [bytesBetween, bytesBetween, ByteArray.extract_extract, Nat.min_eq_left h]

namespace Shards

variable (options : ShardOptions) (file : ByteArray)

/-! ### Shards of a file -/

/-- Where a padded shard ends in the file. -/
def pieceStop (index : Nat) : Nat :=
  min file.size ((index + 1) * options.shardSize + options.padding)

theorem size_piece (index : Nat) :
    (piece options file index).size = pieceStop options file index - index * options.shardSize := by
  rw [piece, ByteArray.size_extract, pieceStop]
  omega

theorem bytesBetween_piece {index start stop : Nat} (hle : start ≤ stop)
    (h : stop ≤ (piece options file index).size) :
    bytesBetween (piece options file index) start stop =
      bytesBetween file (index * options.shardSize + start)
        (index * options.shardSize + stop) := by
  rcases Nat.eq_or_lt_of_le hle with rfl | hlt
  · rw [bytesBetween_self, bytesBetween_self]
  · rw [size_piece] at h
    rw [piece, bytesBetween_extract file (by rw [pieceStop] at h; omega)]

theorem index_lt {position : Nat} (h : position < file.size) :
    position / options.shardSize < (ofFile options file).pieces.size := by
  have hpos := options.shardSize_pos
  rw [ofFile, Array.size_ofFn, Nat.div_lt_iff_lt_mul hpos]
  have hceil := Nat.lt_div_mul_add (a := file.size + options.shardSize - 1) hpos
  omega

theorem shard_ofFile {index : Nat} (h : index < (ofFile options file).pieces.size) :
    (ofFile options file).shard index = piece options file index := by
  rw [shard, Array.getD_eq_getD_getElem?, Array.getElem?_eq_getElem h, Option.getD_some]
  simp only [ofFile, Array.getElem_ofFn]

/-- The unpadded part of a shard reaches to the next shard or to the end of the file. -/
theorem le_size_piece {index stop : Nat} (hshard : stop ≤ options.shardSize)
    (hfile : index * options.shardSize + stop ≤ file.size) :
    stop ≤ (piece options file index).size := by
  rw [size_piece, pieceStop, Nat.add_mul]
  omega

/-! ### Spans -/

/-- A span that is not empty and lies in a shard that there is. -/
structure Holds (shards : Shards) (span : Span) : Prop where
  shard_lt : span.shard < shards.pieces.size
  stop_le : span.start + span.length ≤ (shards.shard span.shard).size
  length_pos : 0 < span.length

theorem spans_zero (shards : Shards) (position : Nat) : shards.spans position 0 = [] := by
  rw [spans]
  rfl

theorem spans_pos (shards : Shards) (position : Nat) {length : Nat} (h : length ≠ 0) :
    shards.spans position length =
      let start := position % shards.shardSize
      let taken := min length (shards.shardSize - start)
      ⟨position / shards.shardSize, start, taken⟩ ::
        shards.spans (position + taken) (length - taken) := by
  rw [spans, dif_neg h]

theorem first_span {position length : Nat} (hlength : length ≠ 0)
    (h : position + length ≤ file.size) :
    let start := position % options.shardSize
    let taken := min length (options.shardSize - start)
    let span : Span := ⟨position / options.shardSize, start, taken⟩
    (ofFile options file).Holds span ∧
      (ofFile options file).readSpan span = bytesBetween file position (position + taken) := by
  intro start taken span
  have hstart : start < options.shardSize := Nat.mod_lt _ options.shardSize_pos
  have hsplit : position / options.shardSize * options.shardSize + start = position :=
    Nat.div_add_mod' position options.shardSize
  have hindex := index_lt options file (show position < file.size by omega)
  have hshard := shard_ofFile options file hindex
  have hstop : start + taken ≤ (piece options file (position / options.shardSize)).size :=
    le_size_piece options file (by omega) (by omega)
  refine ⟨⟨hindex, ?_, show 0 < taken by omega⟩, ?_⟩
  · show start + taken ≤ ((ofFile options file).shard (position / options.shardSize)).size
    rw [hshard]
    exact hstop
  · show bytesBetween ((ofFile options file).shard (position / options.shardSize)) start
      (start + taken) = _
    rw [hshard, bytesBetween_piece options file (Nat.le_add_right _ _) hstop, ← Nat.add_assoc,
      hsplit]

/-- Every span of a range inside the file lies in its shard, and inside the range. -/
theorem spans_hold {position length : Nat} (h : position + length ≤ file.size) :
    ∀ span ∈ (ofFile options file).spans position length, (ofFile options file).Holds span ∧
      position ≤ span.shard * options.shardSize + span.start ∧
      span.shard * options.shardSize + span.start + span.length ≤ position + length := by
  induction position, length using spans.induct (ofFile options file) with
  | case1 position => simp [spans_zero]
  | case2 position length hlength start taken ih =>
    intro span hspan
    rw [spans_pos _ _ hlength] at hspan
    rcases List.mem_cons.mp hspan with rfl | hrest
    · refine ⟨(first_span options file hlength h).1, ?_⟩
      have hsplit : position / options.shardSize * options.shardSize + start = position :=
        Nat.div_add_mod' position options.shardSize
      show position ≤ position / options.shardSize * options.shardSize + start ∧
        position / options.shardSize * options.shardSize + start + taken ≤ position + length
      omega
    · obtain ⟨hholds, hfirst, hlast⟩ := ih (by omega) span hrest
      exact ⟨hholds, by omega, by omega⟩

theorem length_spans_le {position length : Nat} :
    ((ofFile options file).spans position length).length ≤ length := by
  induction position, length using spans.induct (ofFile options file) with
  | case1 position => simp [spans_zero]
  | case2 position length hlength start taken ih =>
    have hstart : start < options.shardSize := Nat.mod_lt _ options.shardSize_pos
    have htaken : taken = min length (options.shardSize - start) := rfl
    rw [spans_pos _ _ hlength, List.length_cons]
    show (spans _ (position + taken) (length - taken)).length + 1 ≤ length
    omega

/-- The spans of a range, read one after another, give the bytes of the range. -/
theorem flatMap_spans {position length : Nat} (h : position + length ≤ file.size) :
    ((ofFile options file).spans position length).flatMap (ofFile options file).readSpan =
      bytesBetween file position (position + length) := by
  induction position, length using spans.induct (ofFile options file) with
  | case1 position => rw [spans_zero, Nat.add_zero, bytesBetween_self]; rfl
  | case2 position length hlength start taken ih =>
    rw [spans_pos _ _ hlength, List.flatMap_cons, ih (by omega)]
    have hfirst := (first_span options file hlength h).2
    have hrest : position + taken + (length - taken) = position + length := by omega
    rw [hrest]
    exact (congrArg (· ++ _) hfirst).trans
      (bytesBetween_append file (Nat.le_add_right _ _) (by omega))

/-! ### Stretches -/

theorem stretch_eq (shards : Shards) (position length : Nat) :
    shards.stretch position length =
      if length = 0 then ⟨[], true⟩
      else if position % shards.shardSize + length ≤
          (shards.shard (position / shards.shardSize)).size then
        ⟨bytesBetween (shards.shard (position / shards.shardSize)) (position % shards.shardSize)
          (position % shards.shardSize + length), true⟩
      else ⟨(shards.spans position length).flatMap shards.readSpan, false⟩ := rfl

/-- A range inside the file is read as from the file in one piece. -/
theorem bytes_stretch {position length : Nat} (h : position + length ≤ file.size) :
    ((ofFile options file).stretch position length).bytes =
      bytesBetween file position (position + length) := by
  have hsplit := Nat.div_add_mod' position options.shardSize
  have hshardSize : (ofFile options file).shardSize = options.shardSize := rfl
  rw [stretch_eq, hshardSize]
  split
  · next hzero => rw [hzero, Nat.add_zero, bytesBetween_self]
  · next hlength =>
    have hindex := index_lt options file (show position < file.size by omega)
    rw [shard_ofFile options file hindex]
    split
    · next hfits =>
      rw [bytesBetween_piece options file (Nat.le_add_right _ _) hfits, ← Nat.add_assoc, hsplit]
    · exact flatMap_spans options file h

/-- A range is handed out in place if it is empty or lies in the padded shard of its first byte. -/
theorem inPlace_stretch_iff {position length : Nat} (h : position + length ≤ file.size) :
    ((ofFile options file).stretch position length).inPlace = true ↔
      length = 0 ∨ position + length ≤ pieceStop options file (position / options.shardSize) := by
  have hsplit := Nat.div_add_mod' position options.shardSize
  have hshardSize : (ofFile options file).shardSize = options.shardSize := rfl
  rw [stretch_eq, hshardSize]
  split
  · next hzero => simp [hzero]
  · next hlength =>
    have hindex := index_lt options file (show position < file.size by omega)
    rw [shard_ofFile options file hindex, size_piece]
    split
    · next hfits => exact ⟨fun _ => by omega, fun _ => rfl⟩
    · next hlong => exact ⟨fun hfalse => by simp at hfalse, fun hfits => by omega⟩

end Shards

/-! ### Stores -/

namespace ByteStore

variable (options : ShardOptions) (file : ByteArray)

theorem stretch_whole {position length : Nat} (h : position + length ≤ file.size) :
    (whole file).stretch position length =
      .ok ⟨bytesBetween file position (position + length), true⟩ := by
  unfold stretch
  rw [checkRange, if_pos (show _ ≤ (whole file).size from h)]
  rfl

theorem stretch_shard {position length : Nat} (h : position + length ≤ file.size) :
    (shard options file).stretch position length =
      .ok ((Shards.ofFile options file).stretch position length) := by
  unfold stretch
  rw [checkRange, if_pos (show _ ≤ (shard options file).size from h)]
  rfl

theorem stretch_outside (store : ByteStore) {position length : Nat}
    (h : store.size < position + length) :
    store.stretch position length = .error (.outOfBounds position length store.size) := by
  unfold stretch
  rw [checkRange, if_neg (by omega)]
  rfl

theorem map_bytes_stretch_shard (position length : Nat) :
    ((shard options file).stretch position length).map Stretch.bytes =
      ((whole file).stretch position length).map Stretch.bytes := by
  by_cases h : position + length ≤ file.size
  · rw [stretch_shard options file h, stretch_whole file h]
    exact congrArg Except.ok (Shards.bytes_stretch options file h)
  · have hlt := Nat.not_le.mp h
    rw [stretch_outside (shard options file) hlt, stretch_outside (whole file) hlt]
    rfl

theorem source_shard : (shard options file).source = ByteSource.ofBytes file := by
  have hslice : (shard options file).source.slice = (whole file).source.slice :=
    funext fun position => funext fun length => map_bytes_stretch_shard options file position length
  exact congrArg (ByteSource.mk file.size) hslice

theorem map_eq_whole (h : file.size ≠ 0) : map file = .ok (whole file) := if_neg h

theorem source_openFile {store : ByteStore} (h : openFile options (some file) = .ok store) :
    store.source = ByteSource.ofBytes file := by
  simp only [openFile] at h
  split at h
  · next hempty =>
    cases h
    rw [ByteArray.size_eq_zero_iff.mp hempty]
    rfl
  · next hsize =>
    split at h
    · rw [map_eq_whole file hsize] at h
      cases h
      rfl
    · cases h
      exact source_shard options file

end ByteStore

/-- A file in shards is read as the file in memory or in one mapping, with any options; a shard size of 0
is raised to 1.  A range has the same bytes or the same refusal, which includes ranges whose end is past
every 64 bit number.  The spans of a range are no more than its bytes, lie in shards that there are and
stay inside the range, and the range is handed out in place if it is empty or lies in the padded shard
of its first byte.  So reading a dump reports the same and comes to the same object graph, which is all
that a query sees. -/
theorem shard_read_as_whole (file : ByteArray) (options : ShardOptions) :
    (∀ shardSize padding, ((options.withShardSize shardSize).withPadding padding).shardSize =
        max shardSize 1 ∧
      ((options.withShardSize shardSize).withPadding padding).padding = padding) ∧
    (∀ position length,
      ((ByteStore.shard options file).stretch position length).map Stretch.bytes =
        ((ByteStore.whole file).stretch position length).map Stretch.bytes ∧
      (ByteStore.shard options file).source.slice position length =
        (ByteSource.ofBytes file).slice position length ∧
      (file.size < position + length →
        (ByteStore.shard options file).stretch position length =
          .error (.outOfBounds position length file.size)) ∧
      (position + length ≤ file.size →
        (ByteStore.shard options file).stretch position length =
          .ok ⟨bytesBetween file position (position + length),
            decide (length = 0 ∨ position + length ≤ min file.size
              ((position / options.shardSize + 1) * options.shardSize + options.padding))⟩ ∧
        (length ≠ 0 → position / options.shardSize < (Shards.ofFile options file).pieces.size) ∧
        ((Shards.ofFile options file).spans position length).length ≤ length ∧
        ∀ span ∈ (Shards.ofFile options file).spans position length,
          (Shards.ofFile options file).Holds span ∧
          position ≤ span.shard * options.shardSize + span.start ∧
          span.shard * options.shardSize + span.start + span.length ≤ position + length)) ∧
    (file.size ≠ 0 → ByteStore.map file = .ok (.whole file)) ∧
    Reading.ofSource (ByteStore.shard options file).source =
      Reading.ofSource (ByteSource.ofBytes file) ∧
    ∀ opened, ByteStore.openFile options (some file) = .ok opened →
      Reading.ofSource opened.source = Reading.ofSource (ByteSource.ofBytes file) := by
  have hsource := ByteStore.source_shard options file
  refine ⟨fun shardSize padding => ⟨rfl, rfl⟩, fun position length =>
    ⟨ByteStore.map_bytes_stretch_shard options file position length, by rw [hsource],
      fun h => ByteStore.stretch_outside _ h, fun h => ⟨?_, ?_, ?_, ?_⟩⟩,
    ByteStore.map_eq_whole file, by rw [hsource], fun opened hopened => ?_⟩
  · rw [ByteStore.stretch_shard options file h, ← Shards.bytes_stretch options file h]
    have hplace := Shards.inPlace_stretch_iff options file h
    exact congrArg (fun inPlace => Except.ok (Stretch.mk _ inPlace))
      (Bool.eq_iff_iff.mpr (hplace.trans decide_eq_true_iff.symm))
  · exact fun hlength => Shards.index_lt options file (by omega)
  · exact Shards.length_spans_le options file
  · exact Shards.spans_hold options file h
  · rw [ByteStore.source_openFile options file hopened]

end HeapDump

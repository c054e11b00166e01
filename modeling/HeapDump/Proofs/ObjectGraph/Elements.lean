import HeapDump.Proofs.Packed
import HeapDump.Proofs.ObjectGraph.Acceptance
import HeapDump.Proofs.ObjectGraph.Decode

/-! Packed values in a dump.  The frames of a stack trace and the elements of an array stand in a block
that has room for all of them, so none is missing.  The elements of a primitive array are the same
whether they are read one after another or cut out of the block all at once. -/

namespace HeapDump

namespace Slice

theorem fixed_value (width : IdWidth) (type : FieldType) :
    (value width type).Fixed (type.size width) (Value.ofBytes type) :=
  fixed_take (type.size_pos width) _

end Slice

namespace Packed

variable {α : Type} {packed : Packed α}

theorem item?_of_toListing {items : List α} (h : packed.toListing = ⟨items, none⟩) (i : Nat) :
    packed.item? i = items[i]?.map .ok := by
  rw [item?_eq, toCome, h, Listing.answers, Option.toList_none, List.map_nil, List.append_nil,
    List.getElem?_map]

end Packed

/-! ### Stack traces -/

/-- The number of frames that the body of a stack trace declares. -/
def TraceRecord.declared (body : List UInt8) : UInt32 :=
  .ofNat (Word.ofBytes ((body.drop 8).take 4))

/-- The frames in the body of a stack trace. -/
def TraceRecord.packed (width : IdWidth) (body : List UInt8) : Packed Ident :=
  ⟨Slice.ident width, (body.drop 12).take ((declared body).toNat * width.bytes),
    (declared body).toNat⟩

/-- A stack trace has as many frames as it declares. -/
theorem TraceRecord.toListing_packed {width : IdWidth} {body rest : List UInt8} {record : TraceRecord}
    (h : decode width body = .ok (record, rest)) :
    (packed width body).toListing = ⟨record.frames, none⟩ ∧
      record.frames.length = (declared body).toNat := by
  have hlength : 12 + (declared body).toNat * width.bytes ≤ body.length := by
    rw [declared, Word.toNat_ofNat_take_four]
    exact decode_ok_iff.mp ⟨_, h⟩
  have hblock : (declared body).toNat * width.bytes ≤ (body.drop 12).length := by
    rw [List.length_drop]
    omega
  have hdecode : decode width body = .ok
      (⟨.ofNat (Word.ofBytes (body.take 4)), .ofNat (Word.ofBytes ((body.drop 4).take 4)),
        (packed width body).toListing.items⟩,
        (body.drop 12).drop ((declared body).toNat * width.bytes)) := by
    unfold decode
    rw [Slice.bind_eq (Slice.u32_eq (by omega)),
      Slice.bind_eq (Slice.u32_eq (by rw [List.length_drop]; omega)), List.drop_drop,
      Slice.bind_eq (Slice.u32_eq (by rw [List.length_drop]; omega)), List.drop_drop]
    exact Slice.bind_eq (Slice.take_eq hblock)
  rw [hdecode] at h
  cases h
  have hroom : (packed width body).due * width.bytes ≤ (packed width body).input.length := by
    rw [packed, List.length_take_of_le hblock]
  have hall : (packed width body).toListing =
      ⟨(Word.split width.bytes (declared body).toNat (packed width body).input).map Ident.ofBytes,
        none⟩ := Packed.toListing_of_room (Slice.fixed_ident width) hroom
  refine ⟨?_, ?_⟩
  · rw [hall]
  · rw [hall, List.length_map, Word.length_split]

/-! ### Arrays -/

namespace ObjectGraph

variable {graph : ObjectGraph}

theorem Sound.arrayValues_eq_elements (sound : graph.Sound) {a : ArrayInstance} {type : PrimitiveType}
    {offset : Nat} (ha : Instance.array a ∈ graph.instances) (htype : a.elementType = .primitive type)
    (hoffset : a.offset = some offset) :
    ∃ contents values, graph.source.slice offset (a.contentsLength graph.idWidth) = .ok contents ∧
      graph.arrayValues a = .ok values ∧ values.length = a.count.toNat ∧
      Packed.toListing ⟨Slice.value .eight (.primitive type), contents, a.count.toNat⟩ =
        ⟨values, none⟩ := by
  obtain ⟨contents, hcontents, hlength⟩ := sound.lawful.slice_ok (sound.inside ha offset hoffset)
  have hsize : a.elementType.size graph.idWidth = type.size := by rw [htype]; rfl
  have hbytes : graph.elementBytes a = .ok (Word.split type.size a.count.toNat contents) := by
    rw [elementBytes, hoffset, ← hsize]
    dsimp only
    rw [hcontents]
    rfl
  refine ⟨contents, (Word.split type.size a.count.toNat contents).map
    (Value.ofBytes (.primitive type)), hcontents, ?_, ?_, ?_⟩
  · rw [arrayValues, hbytes, htype]
    rfl
  · rw [List.length_map, Word.length_split]
  · refine Packed.toListing_of_room (Slice.fixed_value .eight (.primitive type)) ?_
    show a.count.toNat * type.size ≤ contents.length
    rw [hlength, ArrayInstance.contentsLength, hsize]

end ObjectGraph

/-- Values decoded one by one: from any bytes, from a stack trace, and from an array of an accepted
dump. -/
theorem elements_one_by_one :
    (∀ input (count : UInt32),
      (∀ width, Packed.Yields ⟨Slice.ident width, input, count.toNat⟩ width.bytes Ident.ofBytes) ∧
      ∀ type : PrimitiveType, Packed.Yields ⟨Slice.value .eight (.primitive type), input, count.toNat⟩
        type.size (Value.ofBytes (.primitive type))) ∧
    (∀ width body record rest, TraceRecord.decode width body = .ok (record, rest) →
      record.frames.length = (TraceRecord.declared body).toNat ∧
      ∀ i, (TraceRecord.packed width body).item? i = record.frames[i]?.map .ok) ∧
    ∀ file graph, ObjectGraph.read (.ofBytes file) = .ok graph → ∀ a type offset,
      Instance.array a ∈ graph.instances → a.elementType = .primitive type → a.offset = some offset →
      ∃ contents values,
        graph.source.slice offset (a.contentsLength graph.idWidth) = .ok contents ∧
        graph.arrayValues a = .ok values ∧ values.length = a.count.toNat ∧
        (∀ other, PrimitiveContents.elements? ⟨type, a.count, contents⟩ other =
          if other = type then some ⟨values, none⟩ else none) ∧
        ∀ i, Packed.item? ⟨Slice.value .eight (.primitive type), contents, a.count.toNat⟩ i =
          values[i]?.map .ok := by
  refine ⟨fun input count => ⟨fun width => Packed.yields_of_fixed (Slice.fixed_ident width),
      fun type => Packed.yields_of_fixed (Slice.fixed_value .eight (.primitive type))⟩,
    fun width body record rest h => ?_, fun file graph h a type offset ha htype hoffset => ?_⟩
  · obtain ⟨hframes, hlength⟩ := TraceRecord.toListing_packed h
    exact ⟨hlength, Packed.item?_of_toListing hframes⟩
  · have sound := ObjectGraph.read_sound (ByteSource.lawful_ofBytes file) h
    obtain ⟨contents, values, hcontents, hvalues, hlength, hlisted⟩ :=
      sound.arrayValues_eq_elements ha htype hoffset
    refine ⟨contents, values, hcontents, hvalues, hlength, fun other => ?_,
      Packed.item?_of_toListing hlisted⟩
    rw [PrimitiveContents.elements?]
    split
    · next heq =>
      obtain rfl : type = other := heq
      rw [if_pos rfl, hlisted]
    · next hne => rw [if_neg (Ne.symm hne)]

/-- A dump of one array of two characters. -/
def twoLetters : ByteArray :=
  (Draft.toBytes ⟨"JAVA PROFILE 1.0.2", .four, 0,
    [.heapDump [.primitiveArray ⟨16⟩ .char [.char 104, .char 233]]]⟩).toByteArray

/-- The body of a stack trace of two frames. -/
def twoFrames : List UInt8 := [0, 0, 0, 1, 0, 0, 0, 2, 0, 0, 0, 2, 0, 0, 0, 7, 0, 0, 0, 9]

theorem elements_one_by_one_two :
    Packed.item? ⟨Slice.value .eight (.primitive .char), [0, 104, 0], 5⟩ 1 = some (.error ⟨[0]⟩) ∧
    (∃ record, TraceRecord.decode .four twoFrames = .ok (record, []) ∧ record.frames.length = 2 ∧
      (TraceRecord.packed .four twoFrames).item? 1 = some (.ok ⟨9⟩)) ∧
    ∃ graph a contents, ObjectGraph.read (.ofBytes twoLetters) = .ok graph ∧
      Instance.array a ∈ graph.instances ∧ a.elementType = .primitive .char ∧ a.offset = some 54 ∧
      graph.source.slice 54 (a.contentsLength graph.idWidth) = .ok contents ∧
      graph.arrayValues a = .ok [.char 104, .char 233] ∧
      PrimitiveContents.elements? ⟨.char, a.count, contents⟩ .char =
        some ⟨[.char 104, .char 233], none⟩ ∧
      PrimitiveContents.elements? ⟨.char, a.count, contents⟩ .short = none := by
  obtain ⟨hyields, htrace, harray⟩ := elements_one_by_one
  have hframes : TraceRecord.decode .four twoFrames = .ok (⟨1, 2, [⟨7⟩, ⟨9⟩]⟩, []) := by
    decide +kernel
  obtain ⟨-, hitem⟩ := htrace _ _ _ _ hframes
  refine ⟨((hyields [0, 104, 0] 5).2 .char).item 1, ⟨_, hframes, rfl, hitem 1⟩, ?_⟩
  have hread : ((ObjectGraph.read (.ofBytes twoLetters)).toOption.any fun graph =>
      decide (graph.instances = [.array ⟨⟨16⟩, .primitive .char, none, 0, 0, 2, some 54⟩]) &&
      decide ((graph.arrayValues ⟨⟨16⟩, .primitive .char, none, 0, 0, 2, some 54⟩).toOption =
        some [.char 104, .char 233])) = true := by
    decide +kernel
  obtain ⟨graph, hgraph, hfacts⟩ := ObjectGraph.exists_of_any hread
  simp only [Bool.and_eq_true, decide_eq_true_eq] at hfacts
  obtain ⟨hinstances, hletters⟩ := hfacts
  have ha : Instance.array ⟨⟨16⟩, .primitive .char, none, 0, 0, 2, some 54⟩ ∈ graph.instances := by
    rw [hinstances]
    exact List.mem_singleton_self _
  obtain ⟨contents, values, hcontents, hvalues, -, helements, -⟩ :=
    harray twoLetters graph hgraph _ .char 54 ha rfl rfl
  rw [hvalues] at hletters
  cases hletters
  exact ⟨graph, _, contents, hgraph, ha, rfl, rfl, hcontents, hvalues, helements .char,
    helements .short⟩

end HeapDump

import HeapDump.Draft
import HeapDump.Proofs.ObjectGraph.SameGraph

/-! Which dumps are accepted.  The bytes behind the header must be frames one after another, the body of
each frame must be what its tag asks for, and each instance whose class is in the dump must have room
for the layout of the class.  Frames that no census keeps anything of ask for nothing, and they do not
change what else the dump comes to. -/

namespace HeapDump

open Grammar
open scoped Computability

/-! ### Sizes -/

namespace ObjectGraph

theorem checkSizes_of_room {graph : ObjectGraph} {instances : List PlainInstance}
    (h : ∀ i ∈ instances, ∀ c, graph.class? i.classId = some c →
      LayoutField.total graph.idWidth ((graph.layout? c.id).getD []) ≤ i.length.toNat)
    (reported : List Ident) : (graph.checkSizes instances reported).failure = none := by
  induction instances generalizing reported with
  | nil => rfl
  | cons i instances ih =>
    obtain ⟨hfirst, hrest⟩ := List.forall_mem_cons.mp h
    rw [checkSizes]
    split
    · exact ih hrest reported
    · next c hclass =>
      have hroom := hfirst c hclass
      dsimp only
      split
      · omega
      · split
        · exact ih hrest _
        · exact ih hrest reported

theorem sizeNotes_failure_iff {graph : ObjectGraph}
    (consistent : graph.toObjectTable.Consistent graph.source graph.idWidth) :
    graph.sizeNotes.failure = none ↔ graph.SizesFit := by
  constructor
  · intro h i hi hclass layout hlayout
    obtain ⟨c, hc⟩ := Option.isSome_iff_exists.mp hclass
    have hroom := checkSizes_none h i (List.mem_filterMap.mpr ⟨_, hi, rfl⟩) c hc
    rwa [ObjectTable.id_of_class? consistent hc, hlayout] at hroom
  · intro h
    refine checkSizes_of_room (fun i hi c hc => ?_) []
    obtain ⟨j, hj, hplain⟩ := List.mem_filterMap.mp hi
    cases j with
    | array a => cases hplain
    | plain j =>
      cases hplain
      rw [ObjectTable.id_of_class? consistent hc]
      cases hlayout : graph.layout? i.classId with
      | none => exact Nat.zero_le _
      | some layout => exact h i hj (Option.isSome_iff_exists.mpr ⟨c, hc⟩) layout hlayout

/-- What a dump comes to, before the sizes of its instances are checked. -/
def ofDump (source : ByteSource) (header : Header) : ObjectGraph :=
  ofCensus source header (.ofEntries (Entry.list source header).items)

theorem read_eq {source : ByteSource} {header : Header} (h : Header.read source = .ok header) :
    read source = (Entry.list source header).failure.elim
      ((ofDump source header).sizeNotes.failure.elim (.ok (ofDump source header)) .error) .error := by
  unfold read Reading.ofSource
  rw [h]
  dsimp only
  cases (Entry.list source header).failure with
  | some e => rfl
  | none =>
    show (Reading.ofCensus source header _).outcome = _
    unfold Reading.ofCensus ofDump
    dsimp only
    cases (ofCensus source header (.ofEntries (Entry.list source header).items)).sizeNotes.failure
    · rfl
    · rfl

theorem read_eq_ok_iff {source : ByteSource} (lawful : source.Lawful) {header : Header}
    (h : Header.read source = .ok header) {graph : ObjectGraph} :
    read source = .ok graph ↔ (Entry.list source header).failure = none ∧
      (ofDump source header).SizesFit ∧ graph = ofDump source header := by
  have hcensus : (Census.ofEntries (Entry.list source header).items).Consistent source
      header.idWidth :=
    Census.ofEntries_consistent (Entry.list_inside lawful header)
  have hsizes : (ofDump source header).sizeNotes.failure = none ↔ (ofDump source header).SizesFit :=
    sizeNotes_failure_iff hcensus.table.link
  rw [read_eq h, ← hsizes]
  cases (Entry.list source header).failure with
  | some e => simp
  | none =>
    cases (ofDump source header).sizeNotes.failure with
    | some e => simp
    | none => simp [eq_comm]

/-- An accepted dump has a header, all its entries can be listed, and its instances have room. -/
theorem exists_of_read {source : ByteSource} (lawful : source.Lawful) {graph : ObjectGraph}
    (h : read source = .ok graph) : ∃ header, Header.read source = .ok header ∧
      (Entry.list source header).failure = none ∧ graph.SizesFit ∧
      graph = ofDump source header := by
  cases hheader : Header.read source with
  | error e =>
    rw [read, Reading.ofSource, hheader] at h
    cases h
  | ok header =>
    obtain ⟨hentries, hfit, rfl⟩ := (read_eq_ok_iff lawful hheader).mp h
    exact ⟨header, rfl, hentries, hfit, rfl⟩

end ObjectGraph

/-! ### Frames -/

namespace Frame

/-- The tags of the records that a census keeps, apart for texts, classes, frames, traces and objects. -/
def keptTags : List (List RecordTag) :=
  Framed.namingTags ++ [[.heapDump, .heapDumpSegment]]

/-- No census keeps anything of the frame: its tag is unknown or has no use. -/
def Unused (frame : Frame) : Prop :=
  ∀ tags ∈ keptTags, ¬frame.tag?.any (· ∈ tags)

variable {width : IdWidth} {frame : Frame} {frames frames' : List Frame}

theorem Unused.decodable (h : frame.Unused) : frame.Decodable width := by
  have hkept : ∀ tag, frame.tag? = some tag → ¬∃ tags ∈ keptTags, tag ∈ tags := by
    rintro tag htag ⟨tags, htags, hmem⟩
    refine h tags htags ?_
    rw [htag]
    exact decide_eq_true hmem
  unfold Decodable
  split
  all_goals first
    | trivial
    | next htag => exact absurd (by decide) (hkept _ htag)

theorem mem_select {tags : List RecordTag} (hmem : frame ∈ frames)
    (htag : frame.tag?.any (· ∈ tags)) : (frame.tagByte, frame.body) ∈ select tags frames :=
  List.mem_map_of_mem (List.mem_filter.mpr ⟨hmem, htag⟩)

/-- What can be decoded depends on the kept frames only. -/
theorem decodable_of_select (h : ∀ tags ∈ keptTags, select tags frames = select tags frames')
    (hall : ∀ frame ∈ frames, frame.Decodable width) : ∀ frame ∈ frames', frame.Decodable width := by
  intro frame hframe
  by_cases hunused : frame.Unused
  · exact hunused.decodable
  · simp only [Unused, not_forall, not_not] at hunused
    obtain ⟨tags, htags, htag⟩ := hunused
    -- The frame has a twin with the same tag and body among the others, and these decide.
    have hmem := mem_select hframe htag
    rw [← h tags htags] at hmem
    obtain ⟨twin, htwin, hsame⟩ := List.mem_map.mp hmem
    exact (decodable_congr hsame).mp (hall twin (List.mem_of_mem_filter htwin))

theorem isHeap_iff : frame.IsHeap ↔ frame.tag?.any (· ∈ [RecordTag.heapDump, .heapDumpSegment]) := by
  unfold IsHeap
  cases frame.tag? with
  | none => simp
  | some tag => simp

theorem select_append (tags : List RecordTag) (frames frames' : List Frame) :
    select tags (frames ++ frames') = select tags frames ++ select tags frames' := by
  rw [select, List.filter_append, List.map_append]
  rfl

theorem select_cons (tags : List RecordTag) (frame : Frame) (frames : List Frame) :
    select tags (frame :: frames) =
      if frame.tag?.any (· ∈ tags) then (frame.tagByte, frame.body) :: select tags frames
      else select tags frames := by
  rw [select, List.filter_cons]
  split <;> rfl

theorem heapBytes_eq (frames : List Frame) :
    heapBytes frames = (select [.heapDump, .heapDumpSegment] frames).flatMap (·.2) := by
  induction frames with
  | nil => rfl
  | cons frame frames ih =>
    show heapBody frame ++ heapBytes frames = _
    rw [ih, heapBody, select_cons]
    by_cases hheap : frame.IsHeap
    · rw [if_pos hheap, if_pos (isHeap_iff.mp hheap), List.flatMap_cons]
    · rw [if_neg hheap, if_neg (mt isHeap_iff.mpr hheap), List.nil_append]

theorem heapBytes_congr (h : ∀ tags ∈ keptTags, select tags frames = select tags frames') :
    heapBytes frames = heapBytes frames' := by
  rw [heapBytes_eq, heapBytes_eq, h _ (by decide)]

theorem heapBytes_append (frames frames' : List Frame) :
    heapBytes (frames ++ frames') = heapBytes frames ++ heapBytes frames' :=
  List.flatMap_append

/-- A frame that nothing is kept of does not show among the kept ones. -/
theorem Unused.select (h : frame.Unused) {tags : List RecordTag} (htags : tags ∈ keptTags)
    (before after : List Frame) :
    Frame.select tags (before ++ frame :: after) = Frame.select tags (before ++ after) := by
  rw [select_append, select_cons, if_neg (h tags htags), ← select_append]

end Frame

/-! ### Dumps -/

theorem Listing.failure_of_collect {ε α β : Type} {f : α → Listing ε β} {items : List α}
    {failure : Option ε} (h : (collect f items failure).failure = none) : failure = none := by
  induction items with
  | nil => exact h
  | cons a items ih =>
    rw [collect] at h
    dsimp only at h
    split at h
    · next hsome =>
      rw [h] at hsome
      cases hsome
    · exact ih h

namespace Framed

variable {file file' : ByteArray} {header : Header} {frames frames' : List Frame}

/-- A framed dump is accepted just if its frames can be decoded and its instances have room. -/
theorem read_ok_iff (h : Framed file header frames) :
    (∃ graph, ObjectGraph.read (.ofBytes file) = .ok graph) ↔
      (∀ frame ∈ frames, frame.Decodable header.idWidth) ∧
        (ObjectGraph.ofDump (.ofBytes file) header).SizesFit := by
  simp only [ObjectGraph.read_eq_ok_iff (ByteSource.lawful_ofBytes file) h.read_header,
    exists_and_left, exists_eq, and_true, Entry.list_failure_iff h]

/-- Dumps with the same names and the same bytes of sub-records come to alike graphs. -/
theorem alike_ofDump (h : Framed file header frames) (h' : Framed file' header frames')
    (hall : ∀ frame ∈ frames, frame.Decodable header.idWidth)
    (hall' : ∀ frame ∈ frames', frame.Decodable header.idWidth)
    (hselect : ∀ tags ∈ namingTags, Frame.select tags frames = Frame.select tags frames')
    (hbytes : Frame.heapBytes frames = Frame.heapBytes frames') :
    (ObjectGraph.ofDump (.ofBytes file) header).Alike (.ofDump (.ofBytes file') header) :=
  ObjectGraph.alike_ofCensus (h.alike h' hall hall' hselect hbytes)

/-- Of two dumps with the same kept frames, both or neither are accepted. -/
theorem read_ok_congr (h : Framed file header frames) (h' : Framed file' header frames')
    (hselect : ∀ tags ∈ Frame.keptTags, Frame.select tags frames = Frame.select tags frames') :
    (∃ graph, ObjectGraph.read (.ofBytes file) = .ok graph) ↔
      ∃ graph, ObjectGraph.read (.ofBytes file') = .ok graph := by
  have hpass : ∀ {file file' : ByteArray} {frames frames' : List Frame},
      Framed file header frames → Framed file' header frames' →
      (∀ tags ∈ Frame.keptTags, Frame.select tags frames = Frame.select tags frames') →
      (∃ graph, ObjectGraph.read (.ofBytes file) = .ok graph) →
        ∃ graph, ObjectGraph.read (.ofBytes file') = .ok graph := by
    intro file file' frames frames' h h' hselect hread
    obtain ⟨hall, hfit⟩ := h.read_ok_iff.mp hread
    have hall' := Frame.decodable_of_select hselect hall
    have halike := h.alike_ofDump h' hall hall'
      (fun tags htags => hselect tags (List.mem_append_left _ htags)) (Frame.heapBytes_congr hselect)
    exact h'.read_ok_iff.mpr ⟨hall', hfit.of_alike halike⟩
  exact ⟨hpass h h' hselect, hpass h' h fun tags htags => (hselect tags htags).symm⟩

end Framed

namespace ObjectGraph

/-- The language of dumps.  A dump with a readable header is accepted just if what follows the header is
frames one after another, each with a body that can be decoded, and the instances have room for the
layouts of their classes; and a frame that nothing is kept of may stand anywhere with any body. -/
theorem read_ok_iff_framed (file : ByteArray) (header : Header)
    (h : Header.read (.ofBytes file) = .ok header) :
    ((∃ graph, read (.ofBytes file) = .ok graph) ↔
      ∃ frames : List Frame,
        file.data.toList.drop header.recordsOffset = frames.flatMap Frame.toBytes ∧
        (∀ frame ∈ frames, frame.Decodable header.idWidth) ∧
        (ofDump (.ofBytes file) header).SizesFit) ∧
    ∀ (before : List Frame) (extra : Frame) (after : List Frame), extra.Unused →
      ((∃ graph, read (.ofBytes (withFrames file header (before ++ extra :: after))) = .ok graph) ↔
        ∃ graph, read (.ofBytes (withFrames file header (before ++ after))) = .ok graph) := by
  refine ⟨⟨?_, ?_⟩, ?_⟩
  · rintro ⟨graph, hgraph⟩
    obtain ⟨hentries, -⟩ := (read_eq_ok_iff (ByteSource.lawful_ofBytes file) h).mp hgraph
    obtain ⟨frames, hframed⟩ := (Record.list_failure_iff h).mp (Listing.failure_of_collect hentries)
    exact ⟨frames, hframed.drop_header, hframed.read_ok_iff.mp ⟨graph, hgraph⟩⟩
  · rintro ⟨frames, hframes, haccepted⟩
    exact (Framed.read_ok_iff ⟨h, hframes⟩).mpr haccepted
  · intro before extra after hextra
    exact (framed_withFrames h _).read_ok_congr (framed_withFrames h _)
      fun tags htags => hextra.select htags before after

/-- A header without records behind it. -/
def bare : ByteArray := (Header.toBytes "JAVA PROFILE 1.0.2" .four 0).toByteArray

def bareHeader : Header := ⟨"JAVA PROFILE 1.0.2", .four, 0, 31⟩

theorem read_bare : Header.read (.ofBytes bare) = .ok bareHeader := by decide +kernel

/-- The frame of a drafted record with narrow identifiers. -/
def drafted (record : DraftRecord) (h : (record.body .four).length < 2 ^ 32) : Frame :=
  ⟨record.tagByte, 0, record.body .four, h⟩

theorem exists_of_isOk {ε α : Type} {answer : Except ε α} (h : answer.isOk = true) :
    ∃ a, answer = .ok a := by
  cases answer with
  | error e => cases h
  | ok a => exact ⟨a, rfl⟩

theorem exists_of_any {ε α : Type} {answer : Except ε α} {p : α → Bool}
    (h : answer.toOption.any p = true) : ∃ a, answer = .ok a ∧ p a = true := by
  cases answer with
  | error e => cases h
  | ok a => exact ⟨a, rfl, h⟩

/-- A class with one field. -/
def classFrame : Frame :=
  drafted (.heapDump [.classDump ⟨1⟩ none 4 [] [] [(⟨2⟩, .object)]]) (by decide +kernel)

/-- The name of the field. -/
def nameFrame : Frame := drafted (.text ⟨2⟩ "next") (by decide +kernel)

/-- An instance of the class. -/
def instanceFrame : Frame :=
  drafted (.segment [.instance ⟨16⟩ ⟨1⟩ [0, 0, 0, 16]]) (by decide +kernel)

def unknownFrame : Frame := drafted (.raw 0xEE [1]) (by decide)

/-- The three with a record of an unknown tag among them. -/
def withUnknown : List Frame := [classFrame] ++ unknownFrame :: [nameFrame, instanceFrame]

/-- The dump is accepted, so it is in the language; and it is still accepted without the unknown record. -/
theorem read_ok_iff_framed_withUnknown :
    let file := withFrames bare bareHeader withUnknown
    Header.read (.ofBytes file) = .ok bareHeader ∧
      (∃ frames : List Frame,
        file.data.toList.drop bareHeader.recordsOffset = frames.flatMap Frame.toBytes ∧
        (∀ frame ∈ frames, frame.Decodable bareHeader.idWidth) ∧
        (ofDump (.ofBytes file) bareHeader).SizesFit) ∧
      unknownFrame.Unused ∧
      ∃ graph, read (.ofBytes (withFrames bare bareHeader
        ([classFrame] ++ [nameFrame, instanceFrame]))) = .ok graph := by
  intro file
  have hheader : Header.read (.ofBytes file) = .ok bareHeader :=
    (framed_withFrames read_bare withUnknown).read_header
  have hok : (read (.ofBytes file)).isOk = true := by decide +kernel
  have hunused : unknownFrame.Unused := by
    unfold Frame.Unused
    decide
  have haccepted := exists_of_isOk hok
  exact ⟨hheader, (read_ok_iff_framed file bareHeader hheader).1.mp haccepted, hunused,
    ((read_ok_iff_framed bare bareHeader read_bare).2 _ _ _ hunused).mp haccepted⟩

end ObjectGraph

end HeapDump

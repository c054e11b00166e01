import HeapDump.Proofs.Draft

/-! Drafts read back record by record.  A draft is framed by the records it lists, so reading the dump lists
one record for each of them, in order, with its tag and its body.  What the records around the heap were
composed of is decoded from their bodies again.  Arbitrary records may stand in between. -/

namespace HeapDump

/-! ### Bodies -/

/-- Lines stop below the codes that mean something else. -/
def LineNumber.Fits : LineNumber → Prop
  | line number => number < 0x80000000
  | unknown | compiledMethod | nativeMethod => True

instance (line : LineNumber) : Decidable line.Fits :=
  match line with
  | .line number => inferInstanceAs (Decidable (number < 0x80000000))
  | .unknown | .compiledMethod | .nativeMethod => .isTrue trivial

theorem LineNumber.ofCode_code {line : LineNumber} (h : line.Fits) : ofCode line.code = line := by
  cases line with
  | line number => exact if_pos h
  | unknown | compiledMethod | nativeMethod => rfl

variable {width : IdWidth}

/-- A text is what stands behind its identifier. -/
theorem NamedText.decode_append {id : Ident} (h : id.Fits width) (bytes : List UInt8) :
    decode width (id.toBytes width ++ bytes) = .ok (⟨id, bytes⟩, []) :=
  Slice.bind_eq (Slice.reads_ident h bytes)

/-- Text that has been encoded is the text again, whatever characters are in it. -/
theorem NamedText.text_encode (id : Ident) (content : String) :
    text ⟨id, Text.Utf8.encode content⟩ = content := by
  rw [text, Text.Utf8.restoreNul_encode, Text.Utf8.decodeLossy_encode]

section Fields

open DraftItem Slice

theorem ClassLoad.reads_decode {load : ClassLoad}
    (hids : ∀ id ∈ [load.classId, load.nameId], id.Fits width) :
    (decode width).Reads (DraftRecord.body width (.loadClass load)) load := by
  simp only [List.forall_mem_cons] at hids
  obtain ⟨hclass, hname, -⟩ := hids
  rw [DraftRecord.body, List.append_assoc, List.append_assoc]
  apply (reads_number load.serial).bind
  apply (reads_ident hclass).bind
  apply (reads_number load.trace).bind
  exact (reads_ident hname).map rfl

theorem FrameRecord.reads_decode {entry : FrameRecord}
    (hids : ∀ id ∈ [entry.id, entry.methodName, entry.signature, entry.sourceFile], id.Fits width)
    (hline : entry.line.Fits) :
    (decode width).Reads (DraftRecord.body width (.frame entry)) entry := by
  simp only [List.forall_mem_cons] at hids
  obtain ⟨hid, hmethod, hsignature, hfile, -⟩ := hids
  simp only [DraftRecord.body, List.append_assoc]
  apply (reads_ident hid).bind
  apply (reads_ident hmethod).bind
  apply (reads_ident hsignature).bind
  apply (reads_ident hfile).bind
  apply (reads_number entry.classSerial).bind
  refine (reads_number entry.line.code).map ?_
  rw [LineNumber.ofCode_code hline]

theorem TraceRecord.length_frames (width : IdWidth) (frames : List Ident) :
    (frames.flatMap (·.toBytes width)).length = frames.length * width.bytes :=
  length_flatMap_eq fun id _ => id.length_toBytes width

/-- The frames of a trace are listed from the block of them. -/
theorem TraceRecord.listFrom_frames {frames : List Ident} (h : ∀ id ∈ frames, id.Fits width) :
    Packed.listFrom (Slice.ident width) frames.length (frames.flatMap (·.toBytes width)) =
      ⟨frames, none⟩ := by
  have hlisted := Packed.listFrom_flatMap (fun id hid => reads_ident (h id hid)) []
  rwa [List.append_nil] at hlisted

/-- A count that has room is that of the frames, so the block of them is taken as a whole. -/
theorem TraceRecord.reads_decode {entry : TraceRecord} (hframes : ∀ id ∈ entry.frames, id.Fits width)
    (hcount : entry.frames.length < 2 ^ 32) :
    (decode width).Reads (DraftRecord.body width (.trace entry)) entry := by
  rw [DraftRecord.body, List.append_assoc, List.append_assoc]
  apply (reads_number entry.serial).bind
  apply (reads_number entry.thread).bind
  apply (reads_u32 entry.frames.length).bind
  rw [UInt32.toNat_ofNat_of_lt' hcount]
  refine (reads_take (length_frames width entry.frames)).map ?_
  rw [Packed.toListing, listFrom_frames hframes]

end Fields

namespace DraftRecord

open DraftItem Slice

/-- The identifiers in a record, but for those of a heap dump body. -/
def ids : DraftRecord → List Ident
  | text id _ => [id]
  | loadClass load => [load.classId, load.nameId]
  | frame entry => [entry.id, entry.methodName, entry.signature, entry.sourceFile]
  | trace entry => entry.frames
  | unloadClass _ | heapDump _ | segment _ | heapDumpEnd | raw _ _ => []

/-- The place in its source that a record says. -/
def line? : DraftRecord → Option LineNumber
  | frame entry => some entry.line
  | _ => none

/-- What a record must be like to be told from others when it is read. -/
structure HasRoom (width : IdWidth) (record : DraftRecord) : Prop where
  length_lt : (record.body width).length < 2 ^ 32
  ids : ∀ id ∈ record.ids, id.Fits width
  line : ∀ line ∈ record.line?, line.Fits

instance (width : IdWidth) (record : DraftRecord) : Decidable (record.HasRoom width) :=
  decidable_of_iff ((record.body width).length < 2 ^ 32 ∧ (∀ id ∈ record.ids, id.Fits width) ∧
      ∀ line ∈ record.line?, line.Fits)
    ⟨fun ⟨hlength, hids, hline⟩ => ⟨hlength, hids, hline⟩, fun h => ⟨h.length_lt, h.ids, h.line⟩⟩

/-- The decoder of its body gives back what a record was composed of, and the frames of a trace, which stand
behind three words, are listed without failure.  Not every body has a decoder. -/
def DecodedFrom (width : IdWidth) (body : List UInt8) : DraftRecord → Prop
  | text id content =>
    ∃ named, NamedText.decode width body = .ok (named, []) ∧ named.id = id ∧
      named.bytes = Text.Utf8.encode content ∧ named.text = content
  | loadClass load => ClassLoad.decode width body = .ok (load, [])
  | unloadClass serial => ClassUnload.decode body = .ok (⟨serial⟩, [])
  | frame entry => FrameRecord.decode width body = .ok (entry, [])
  | trace entry =>
    TraceRecord.decode width body = .ok (entry, []) ∧
      Packed.toListing ⟨Slice.ident width, body.drop 12, entry.frames.length⟩ = ⟨entry.frames, none⟩
  | heapDump _ | segment _ | heapDumpEnd | raw _ _ => True

variable {draft : DraftRecord}

/-- A trace has no more frames than its body has bytes. -/
theorem HasRoom.length_frames_lt {entry : TraceRecord} (h : (trace entry).HasRoom width) :
    entry.frames.length < 2 ^ 32 := by
  have hle : entry.frames.length * 1 ≤ entry.frames.length * width.bytes :=
    Nat.mul_le_mul_left _ (by cases width <;> decide)
  have hbody := h.length_lt
  rw [body, List.length_append, TraceRecord.length_frames] at hbody
  omega

theorem HasRoom.decodedFrom (h : draft.HasRoom width) :
    draft.DecodedFrom width (draft.body width) := by
  cases draft with
  | text id content =>
    have hid : id.Fits width := h.ids id List.mem_cons_self
    exact ⟨⟨id, Text.Utf8.encode content⟩, NamedText.decode_append hid _, rfl, rfl,
      NamedText.text_encode id content⟩
  | loadClass load => exact (ClassLoad.reads_decode h.ids).all
  | unloadClass serial => exact ((reads_number serial).map rfl).all
  | frame entry => exact (FrameRecord.reads_decode h.ids (h.line entry.line rfl)).all
  | trace entry =>
    refine ⟨(TraceRecord.reads_decode h.ids h.length_frames_lt).all, ?_⟩
    have hblock : (body width (trace entry)).drop 12 = entry.frames.flatMap (·.toBytes width) :=
      List.drop_left' rfl
    rw [hblock]
    exact TraceRecord.listFrom_frames h.ids
  | heapDump _ | segment _ | heapDumpEnd | raw _ _ => trivial

/-- A record of a dump is what a drafted record was written as. -/
structure WrittenAs (source : ByteSource) (width : IdWidth) (draft : DraftRecord) (record : Record) :
    Prop where
  tagByte : record.tagByte = draft.tagByte
  micros : record.micros = 0
  body : record.body source = .ok (draft.body width)
  decoded : draft.DecodedFrom width (draft.body width)

theorem HasRoom.writtenAs {source : ByteSource} (h : draft.HasRoom width) {frame : Frame}
    (hframe : IsFrame width draft frame) {record : Record} (hat : frame.IsAt source record) :
    draft.WrittenAs source width record where
  tagByte := by rw [hat.2, Frame.record, hframe.tagByte]
  micros := by rw [hat.2, Frame.record, hframe.micros]
  body := by rw [hat.body, hframe.body]
  decoded := h.decodedFrom

/-- Records that stand where drafted records are framed are what these were written as. -/
theorem forall₂_writtenAs {source : ByteSource} {drafts : List DraftRecord}
    (h : ∀ draft ∈ drafts, draft.HasRoom width) {frames : List Frame}
    (hframes : List.Forall₂ (IsFrame width) drafts frames) {records : List Record}
    (hat : List.Forall₂ (Frame.IsAt source) records frames) :
    List.Forall₂ (WrittenAs source width) drafts records := by
  induction hframes generalizing records with
  | nil =>
    cases hat
    exact .nil
  | cons hframe _ ih =>
    obtain ⟨hfirst, hrest⟩ := List.forall_mem_cons.mp h
    cases hat with
    | cons hrecord hrecords => exact .cons (hfirst.writtenAs hframe hrecord) (ih hrest hrecords)

end DraftRecord

/-! ### Drafts -/

namespace Draft

/-- The source of the dump that a draft describes. -/
def source (draft : Draft) : ByteSource :=
  .ofBytes draft.toBytes.toByteArray

/-- The header with which a draft begins. -/
def header (draft : Draft) : Header :=
  ⟨draft.label, draft.idWidth, draft.timestamp, 31⟩

theorem read_header {draft : Draft} (hlabel : draft.label ∈ Header.labels) :
    Header.read draft.source = .ok draft.header :=
  Header.read_toBytes_of_mem hlabel draft.idWidth draft.timestamp _

theorem exists_framed {draft : Draft} (hlabel : draft.label ∈ Header.labels)
    (hlength : ∀ record ∈ draft.records, (record.body draft.idWidth).length < 2 ^ 32) :
    ∃ frames, List.Forall₂ (DraftRecord.IsFrame draft.idWidth) draft.records frames ∧
      Framed draft.toBytes.toByteArray draft.header frames := by
  obtain ⟨frames, hframes, hbytes⟩ := DraftRecord.exists_frames hlength
  refine ⟨frames, hframes, read_header hlabel, ?_⟩
  rw [List.data_toByteArray, toBytes, hbytes]
  exact List.drop_left' (Header.length_toBytes_of_mem hlabel draft.idWidth draft.timestamp)

/-- Reading the dump of a draft gives back its header and, for each of its records, in order, a record with
its tag, its body and what the body was composed of. -/
theorem records_of_written (draft : Draft) (hlabel : draft.label ∈ Header.labels)
    (hroom : ∀ record ∈ draft.records, record.HasRoom draft.idWidth) :
    Header.read draft.source = .ok draft.header ∧
      (Record.list draft.source draft.header).failure = none ∧
      List.Forall₂ (DraftRecord.WrittenAs draft.source draft.idWidth) draft.records
        (Record.list draft.source draft.header).items := by
  obtain ⟨frames, hframes, hframed⟩ := exists_framed hlabel fun record h => (hroom record h).length_lt
  obtain ⟨hfailure, hitems⟩ := hframed.list
  exact ⟨read_header hlabel, hfailure, DraftRecord.forall₂_writtenAs hroom hframes hitems⟩

/-- Records of every kind and one with an unknown tag, with the greatest identifier and line. -/
def assorted : Draft :=
  ⟨"JAVA PROFILE 1.0.2", .four, 0x18F12345678,
    [.text ⟨100⟩ "\x00ß€😀", .raw 0xFF [0xC0, 0x80], .loadClass ⟨1, ⟨16⟩, 2, ⟨100⟩⟩, .unloadClass 1,
      .frame ⟨⟨0xFFFFFFFF⟩, ⟨100⟩, ⟨100⟩, ⟨0⟩, 1, .line 0x7FFFFFFF⟩,
      .frame ⟨⟨7⟩, ⟨100⟩, ⟨100⟩, ⟨0⟩, 1, .nativeMethod⟩, .trace ⟨2, 3, [⟨7⟩, ⟨0xFFFFFFFF⟩, ⟨7⟩]⟩,
      .heapDump [], .segment [.root (.root .unknown) ⟨16⟩], .heapDumpEnd]⟩

theorem records_of_written_assorted :
    assorted.label ∈ Header.labels ∧ (∀ record ∈ assorted.records, record.HasRoom .four) ∧
      Header.read assorted.source = .ok ⟨"JAVA PROFILE 1.0.2", .four, 0x18F12345678, 31⟩ ∧
      ∃ first others body named, Record.list assorted.source assorted.header = ⟨first :: others, none⟩ ∧
        others.length = 9 ∧ first.tagByte = 0x01 ∧ first.body assorted.source = .ok body ∧
        NamedText.decode .four body = .ok (named, []) ∧ named.id = ⟨100⟩ ∧
        named.text = "\x00ß€😀" := by
  have hroom : ∀ record ∈ assorted.records, record.HasRoom .four := by decide +kernel
  obtain ⟨hheader, hfailure, hrecords⟩ := records_of_written assorted (by decide) hroom
  obtain ⟨first, others, hfirst, hothers, hitems⟩ := List.forall₂_cons_left_iff.mp hrecords
  obtain ⟨named, hnamed, hid, -, htext⟩ := hfirst.decoded
  have hlist : Record.list assorted.source assorted.header = ⟨first :: others, none⟩ := by
    rw [← hitems, ← hfailure]
  exact ⟨by decide, hroom, hheader, first, others, _, named, hlist, hothers.length_eq.symm,
    hfirst.tagByte, hfirst.body, hnamed, hid, htext⟩

end Draft

end HeapDump

import HeapDump.Proofs.Record.Frame

/-! Entries of frames.  What a frame must hold to be decoded depends on its tag; if every frame of a dump
holds that, the dump has an entry for each, which says what the body of the frame says. -/

namespace HeapDump

open Grammar
open scoped Computability

/-! ### Bodies -/

theorem Word.toNat_ofNat_take_four (bytes : List UInt8) :
    (UInt32.ofNat (ofBytes (bytes.take 4))).toNat = ofBytes (bytes.take 4) :=
  toNat_ofBytes32 (List.length_take_le 4 bytes)

namespace Slice

variable {α β : Type}

theorem Needs.bind_ok_iff {decode : Slice α} {n : Nat} (h : decode.Needs n) {next : α → Slice β}
    {input : List UInt8} :
    (∃ r, (decode >>= next) input = .ok r) ↔ n ≤ input.length ∧
      ∃ a, decode input = .ok (a, input.drop n) ∧ ∃ r, next a (input.drop n) = .ok r := by
  constructor
  · rintro ⟨r, hr⟩
    by_cases hle : n ≤ input.length
    · obtain ⟨a, ha⟩ := h.ok (input.take n) (List.length_take_of_le hle)
      have hinput := ha (input.drop n)
      rw [List.take_append_drop] at hinput
      rw [bind_eq hinput] at hr
      exact ⟨hle, a, hinput, r, hr⟩
    · obtain ⟨e, he⟩ := h.error input (Nat.not_le.mp hle)
      rw [bind_eq_error he] at hr
      cases hr
  · rintro ⟨-, a, ha, r, hr⟩
    exact ⟨r, by rw [bind_eq ha, hr]⟩

/-- The number that comes next. -/
theorem u32_bind_ok_iff {next : UInt32 → Slice β} {input : List UInt8} :
    (∃ r, (u32 >>= next) input = .ok r) ↔ 4 ≤ input.length ∧
      ∃ r, next (.ofNat (Word.ofBytes (input.take 4))) (input.drop 4) = .ok r := by
  rw [needs_u32.bind_ok_iff]
  refine and_congr_right fun hle => ?_
  constructor
  · rintro ⟨a, ha, hr⟩
    rw [u32_eq hle] at ha
    cases ha
    exact hr
  · exact fun hr => ⟨_, u32_eq hle, hr⟩

end Slice

open Slice

section Bodies

variable {width : IdWidth} {body : List UInt8}

theorem NamedText.decode_ok_iff :
    (∃ r, NamedText.decode width body = .ok r) ↔ width.bytes ≤ body.length := by
  refine (needs_ident width).bind_ok_iff.trans ⟨fun h => h.1, fun h => ⟨h, ?_⟩⟩
  obtain ⟨id, hid⟩ := (needs_ident width).ok (body.take width.bytes) (List.length_take_of_le h)
  have hbody := hid (body.drop width.bytes)
  rw [List.take_append_drop] at hbody
  exact ⟨id, hbody, _, rfl⟩

theorem ok_iff_of_needs {α : Type} {decode : Slice α} {n m : Nat} (h : decode.Needs n) (hm : n = m) :
    (∃ r, decode body = .ok r) ↔ m ≤ body.length := by
  rw [← hm, ← h.ok_iff]
  exact Prod.exists

theorem ClassLoad.decode_ok_iff :
    (∃ r, ClassLoad.decode width body = .ok r) ↔ 8 + 2 * width.bytes ≤ body.length := by
  have hid := needs_ident width
  exact ok_iff_of_needs (needs_u32.bind fun _ => hid.bind fun _ => needs_u32.bind fun _ => hid.map _)
    (by omega)

theorem ClassUnload.decode_ok_iff : (∃ r, ClassUnload.decode body = .ok r) ↔ 4 ≤ body.length :=
  ok_iff_of_needs (needs_u32.map _) rfl

theorem FrameRecord.decode_ok_iff :
    (∃ r, FrameRecord.decode width body = .ok r) ↔ 4 * width.bytes + 8 ≤ body.length := by
  have hid := needs_ident width
  exact ok_iff_of_needs (hid.bind fun _ => hid.bind fun _ => hid.bind fun _ => hid.bind fun _ =>
    needs_u32.bind fun _ => needs_u32.map _) (by omega)

theorem TraceRecord.decode_ok_iff :
    (∃ r, TraceRecord.decode width body = .ok r) ↔
      12 + Word.ofBytes ((body.drop 8).take 4) * width.bytes ≤ body.length := by
  have hcount := Word.toNat_ofNat_take_four (body.drop 8)
  unfold TraceRecord.decode
  rw [u32_bind_ok_iff, u32_bind_ok_iff, u32_bind_ok_iff, List.drop_drop, List.drop_drop, hcount,
    (needs_take _).bind_ok_iff]
  simp only [List.length_drop]
  constructor
  · rintro ⟨h4, h8, h12, hblock, -⟩
    omega
  · intro h
    have hblock : Word.ofBytes ((body.drop 8).take 4) * width.bytes ≤
        (body.drop (4 + 4 + 4)).length := by
      rw [List.length_drop]
      omega
    exact ⟨by omega, by omega, by omega, by omega, _, take_eq hblock, _, rfl⟩

end Bodies

/-! ### Frames -/

namespace Frame

/-- What the body of a frame must be. -/
def Decodable (width : IdWidth) (frame : Frame) : Prop :=
  match frame.tag? with
  | some .utf8 => width.bytes ≤ frame.body.length
  | some .loadClass => 8 + 2 * width.bytes ≤ frame.body.length
  | some .unloadClass => 4 ≤ frame.body.length
  | some .stackFrame => 4 * width.bytes + 8 ≤ frame.body.length
  | some .stackTrace =>
    12 + Word.ofBytes ((frame.body.drop 8).take 4) * width.bytes ≤ frame.body.length
  | some .heapDump | some .heapDumpSegment => frame.body ∈ (subRecord width)∗
  | _ => True

/-- A frame whose body is a row of sub-records. -/
def IsHeap (frame : Frame) : Prop :=
  frame.tag? = some .heapDump ∨ frame.tag? = some .heapDumpSegment

/-- What the body of a frame says, where the sub-records in it are known. -/
def contents? (width : IdWidth) (frame : Frame) (subRecords : List SubRecord) :
    Option EntryContents :=
  let fields {α : Type} (decode : Slice α) (contents : α → EntryContents) :=
    (decode frame.body).toOption.map fun (a, _) => contents a
  match frame.tag? with
  | none => some .unknown
  | some .utf8 => fields (NamedText.decode width) .text
  | some .loadClass => fields (ClassLoad.decode width) .classLoad
  | some .unloadClass => fields ClassUnload.decode .classUnload
  | some .stackFrame => fields (FrameRecord.decode width) .frame
  | some .stackTrace => fields (TraceRecord.decode width) .trace
  | some .heapDump | some .heapDumpSegment => some (.heapDump subRecords)
  | some tag => some (.unused tag)

end Frame

namespace Entry

/-- An entry says what a frame that stands in the source says. -/
structure Of (source : ByteSource) (width : IdWidth) (entry : Entry) (frame : Frame) : Prop where
  isAt : Frame.IsAt source entry.record frame
  contents : frame.contents? width entry.contents.subRecords = some entry.contents
  subRecords : frame.IsHeap →
    entry.contents.subRecords = (SubRecord.list source width entry.record).items

variable {source : ByteSource} {width : IdWidth} {record : Record} {frame : Frame}

/-- The entry of a frame with fields, or its failure. -/
theorem fields_cases {α : Type} (hat : Frame.IsAt source record frame) (tag : RecordTag)
    (decode : Slice α) (contents : α → EntryContents) :
    (∃ a rest, decode frame.body = .ok (a, rest) ∧
      Listing.ofExcept (do return ⟨record, contents (← decodeBody source record tag decode)⟩) =
        ⟨[(⟨record, contents a⟩ : Entry)], none⟩) ∨
    ((¬∃ r, decode frame.body = .ok r) ∧
      (Listing.ofExcept (do return (⟨record, contents (← decodeBody source record tag decode)⟩ :
        Entry))).failure ≠ none) := by
  rw [decodeBody, hat.body]
  dsimp only [bind, Except.bind]
  cases hbody : decode frame.body with
  | ok answer =>
    obtain ⟨a, rest⟩ := answer
    exact .inl ⟨a, rest, rfl, rfl⟩
  | error e =>
    refine .inr ⟨?_, ?_⟩
    · rintro ⟨r, ⟨⟩⟩
    · rintro ⟨⟩

theorem read_fields {α : Type} (hat : Frame.IsAt source record frame) {tag : RecordTag}
    {decode : Slice α} {contents : α → EntryContents}
    (hread : read source width record =
      Listing.ofExcept (do return ⟨record, contents (← decodeBody source record tag decode)⟩))
    (hdecodable : frame.Decodable width ↔ ∃ r, decode frame.body = .ok r)
    (hcontents : ∀ subRecords, frame.contents? width subRecords =
      (decode frame.body).toOption.map fun (a, _) => contents a)
    (hheap : ¬frame.IsHeap) :
    (frame.Decodable width ∧ ∃ entry, read source width record = ⟨[entry], none⟩ ∧
      entry.Of source width frame) ∨
    (¬frame.Decodable width ∧ (read source width record).failure ≠ none) := by
  rw [hread, hdecodable]
  rcases fields_cases hat tag decode contents with ⟨a, rest, ha, hok⟩ | ⟨hnone, hfailure⟩
  · refine .inl ⟨⟨_, ha⟩, _, hok, hat, ?_, fun h => absurd h hheap⟩
    rw [hcontents, ha]
    rfl
  · exact .inr ⟨hnone, hfailure⟩

theorem read_plain (hat : Frame.IsAt source record frame) {contents : EntryContents}
    (hread : read source width record = ⟨[⟨record, contents⟩], none⟩)
    (hdecodable : frame.Decodable width)
    (hcontents : ∀ subRecords, frame.contents? width subRecords = some contents)
    (hheap : ¬frame.IsHeap) :
    (frame.Decodable width ∧ ∃ entry, read source width record = ⟨[entry], none⟩ ∧
      entry.Of source width frame) ∨
    (¬frame.Decodable width ∧ (read source width record).failure ≠ none) :=
  .inl ⟨hdecodable, _, hread, hat, hcontents _, fun h => absurd h hheap⟩

theorem read_heap (hat : Frame.IsAt source record frame) (hheap : frame.IsHeap) :
    (frame.Decodable width ∧ ∃ entry, read source width record = ⟨[entry], none⟩ ∧
      entry.Of source width frame) ∨
    (¬frame.Decodable width ∧ (read source width record).failure ≠ none) := by
  have htag := hat.tag?
  have hread : read source width record =
      ⟨[⟨record, .heapDump (SubRecord.list source width record).items⟩],
        (SubRecord.list source width record).failure⟩ := by
    rcases hheap with h | h <;> simp only [read, htag, h]
  have hdecodable : frame.Decodable width ↔ (SubRecord.list source width record).failure = none := by
    refine Iff.trans ?_ ((SubRecord.within_scanWithin source width record.stop).failure_eq_none_iff
      hat.hasAt_body hat.stop).symm
    rcases hheap with h | h <;> simp only [Frame.Decodable, h]
  rw [hread, hdecodable]
  by_cases hfailure : (SubRecord.list source width record).failure = none
  · refine .inl ⟨hfailure, _, by rw [hfailure], hat, ?_, fun _ => rfl⟩
    rcases hheap with h | h <;> simp only [Frame.contents?, h] <;> rfl
  · exact .inr ⟨hfailure, hfailure⟩

/-- A record is decoded just if its frame can be. -/
theorem read_cases (width : IdWidth) (hat : Frame.IsAt source record frame) :
    (frame.Decodable width ∧ ∃ entry, read source width record = ⟨[entry], none⟩ ∧
      entry.Of source width frame) ∨
    (¬frame.Decodable width ∧ (read source width record).failure ≠ none) := by
  have htag := hat.tag?
  by_cases hheap : frame.IsHeap
  · exact read_heap hat hheap
  · unfold Frame.IsHeap at hheap
    cases hframe : frame.tag? with
    | none =>
      exact read_plain hat (by simp only [read, htag, hframe]; rfl)
        (by simp only [Frame.Decodable, hframe]) (fun _ => by simp only [Frame.contents?, hframe])
        hheap
    | some tag =>
      rw [hframe] at htag hheap
      have hnot : ¬frame.IsHeap := by rwa [Frame.IsHeap, hframe]
      cases tag with
      | heapDump => exact absurd (.inl rfl) hheap
      | heapDumpSegment => exact absurd (.inr rfl) hheap
      | utf8 =>
        exact read_fields hat (by rw [read, htag])
          (by simp only [Frame.Decodable, hframe, NamedText.decode_ok_iff])
          (fun _ => by simp only [Frame.contents?, hframe]) hnot
      | loadClass =>
        exact read_fields hat (by rw [read, htag])
          (by simp only [Frame.Decodable, hframe, ClassLoad.decode_ok_iff])
          (fun _ => by simp only [Frame.contents?, hframe]) hnot
      | unloadClass =>
        exact read_fields hat (by rw [read, htag])
          (by simp only [Frame.Decodable, hframe, ClassUnload.decode_ok_iff])
          (fun _ => by simp only [Frame.contents?, hframe]) hnot
      | stackFrame =>
        exact read_fields hat (by rw [read, htag])
          (by simp only [Frame.Decodable, hframe, FrameRecord.decode_ok_iff])
          (fun _ => by simp only [Frame.contents?, hframe]) hnot
      | stackTrace =>
        exact read_fields hat (by rw [read, htag])
          (by simp only [Frame.Decodable, hframe, TraceRecord.decode_ok_iff])
          (fun _ => by simp only [Frame.contents?, hframe]) hnot
      | _ =>
        exact read_plain hat (by rw [read, htag]) (by simp only [Frame.Decodable, hframe])
          (fun _ => by simp only [Frame.contents?, hframe]) hnot

/-! ### Lists -/

theorem exists_entries (width : IdWidth) {records : List Record} {frames : List Frame}
    (hat : List.Forall₂ (Frame.IsAt source) records frames) :
    (Listing.collect (read source width) records none).failure = none ∧
      List.Forall₂ (Of source width) (Listing.collect (read source width) records none).items frames ∧
      (∀ frame ∈ frames, frame.Decodable width) ∨
    (Listing.collect (read source width) records none).failure ≠ none ∧
      ¬∀ frame ∈ frames, frame.Decodable width := by
  induction hat with
  | nil => exact .inl ⟨rfl, .nil, by simp⟩
  | @cons record frame records frames hfirst _ ih =>
    rw [List.forall_mem_cons, Listing.collect]
    rcases read_cases width hfirst with ⟨hdecodable, entry, hread, hentry⟩ | ⟨hnot, hfailure⟩
    · rw [hread]
      rcases ih with ⟨hnone, hitems, hall⟩ | ⟨hsome, hnotall⟩
      · exact .inl ⟨hnone, .cons hentry hitems, hdecodable, hall⟩
      · exact .inr ⟨hsome, fun h => hnotall h.2⟩
    · dsimp only
      rw [if_pos (Option.isSome_iff_ne_none.mpr hfailure)]
      exact .inr ⟨hfailure, fun h => hnot h.1⟩

section Framed

variable {file : ByteArray} {header : Header} {frames : List Frame}

/-- The entries of a framed dump can be listed just if all its frames can be decoded. -/
theorem list_failure_iff (h : Framed file header frames) :
    (list (.ofBytes file) header).failure = none ↔
      ∀ frame ∈ frames, frame.Decodable header.idWidth := by
  obtain ⟨hfailure, hitems⟩ := h.list
  rw [list, Listing.flatMap, hfailure]
  rcases exists_entries header.idWidth hitems with ⟨hnone, -, hall⟩ | ⟨hsome, hnotall⟩
  · exact iff_of_true hnone hall
  · exact iff_of_false hsome hnotall

/-- Each frame has its entry. -/
theorem list_of (h : Framed file header frames)
    (hall : ∀ frame ∈ frames, frame.Decodable header.idWidth) :
    List.Forall₂ (Of (.ofBytes file) header.idWidth) (list (.ofBytes file) header).items frames := by
  obtain ⟨hfailure, hitems⟩ := h.list
  rw [list, Listing.flatMap, hfailure]
  rcases exists_entries header.idWidth hitems with ⟨-, hentries, -⟩ | ⟨-, hnotall⟩
  · exact hentries
  · exact absurd hall hnotall

end Framed

end Entry

end HeapDump

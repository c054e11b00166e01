import HeapDump.Proofs.Row
import HeapDump.Proofs.Slice
import HeapDump.Proofs.SubRecord.Bounds
import Mathlib.Data.Set.List

/-! Frames: records by what they hold, without their places.  The records of a dump are listed without
failure just if the bytes behind its header are frames one after another. -/

namespace HeapDump

open Grammar Scan

structure Frame where
  tagByte : UInt8
  micros : UInt32
  body : List UInt8
  length_lt : body.length < 2 ^ 32

namespace Frame

def tag? (frame : Frame) : Option RecordTag :=
  RecordTag.ofByte? frame.tagByte

/-- A tag byte, a time, the length of the body, and the body. -/
def toBytes (frame : Frame) : List UInt8 :=
  frame.tagByte :: (Word.toBytes 4 frame.micros.toNat ++
    (Word.toBytes 4 frame.body.length ++ frame.body))

/-- The record that a frame is at a place. -/
def record (frame : Frame) (offset : Nat) : Record :=
  ⟨offset, frame.tagByte, frame.micros, .ofNat frame.body.length⟩

/-- A record is a frame that stands in the source. -/
def IsAt (source : ByteSource) (record : Record) (frame : Frame) : Prop :=
  source.HasAt record.offset frame.toBytes ∧ record = frame.record record.offset

theorem reads_toBytes (frame : Frame) (source : ByteSource) (position : Nat) :
    Record.scan.Reads source position frame.toBytes (frame.record position) := by
  apply Reads.place
  apply (reads_u8 frame.tagByte).bind_cons
  apply (reads_number frame.micros).bind
  apply (reads_u32 frame.body.length).bind
  exact (reads_skip (UInt32.toNat_ofNat_of_lt' frame.length_lt).symm).map rfl

section IsAt

variable {source : ByteSource} {record : Record} {frame : Frame} (h : IsAt source record frame)
include h

theorem IsAt.tag? : record.tag? = frame.tag? := by
  rw [h.2]
  rfl

theorem IsAt.hasAt_body : source.HasAt record.bodyOffset frame.body := by
  have hat := h.1
  have hbytes : frame.toBytes = (frame.tagByte :: (Word.toBytes 4 frame.micros.toNat ++
      Word.toBytes 4 frame.body.length)) ++ frame.body := by
    rw [toBytes, List.cons_append, List.append_assoc]
  rw [hbytes] at hat
  have hright := hat.right
  simpa [Record.bodyOffset, Record.frameSize] using hright

theorem IsAt.bodyLength : record.bodyLength.toNat = frame.body.length := by
  rw [h.2]
  exact UInt32.toNat_ofNat_of_lt' frame.length_lt

theorem IsAt.stop : record.bodyOffset + frame.body.length = record.stop := by
  rw [Record.stop, h.bodyLength]

theorem IsAt.body : record.body source = .ok frame.body := by
  rw [Record.body, h.bodyLength]
  exact h.hasAt_body.slice

end IsAt

end Frame

/-- The words of the grammar of records. -/
def Grammar.record : Language UInt8 := {x | ∃ frame : Frame, frame.toBytes = x}

namespace Record

theorem accepts_scan : Record.scan.Accepts Grammar.record := by
  have hwords : Record.scan.Accepts (bytes 1 * (bytes 4 * after 4 bytes)) :=
    Accepts.place fun _ => (accepts_number 1 _).mul fun _ => accepts_u32.mul fun _ =>
      accepts_after_u32 fun length => (accepts_skip length.toNat).map _
  intro source position x hat
  constructor
  · intro h
    obtain ⟨tag, htag, _, hrest, rfl⟩ := Language.mem_mul.mp ((hwords hat).mp h)
    obtain ⟨micros, hmicros, _, ⟨length, hlength, body, hbody, rfl⟩, rfl⟩ := Language.mem_mul.mp hrest
    obtain ⟨tagByte, rfl⟩ := List.length_eq_one_iff.mp htag
    have hbody : body.length = Word.ofBytes length := hbody
    have hlengthlt : Word.ofBytes length < 256 ^ 4 :=
      Word.ofBytes_lt_of_length_le (Nat.le_of_eq hlength)
    have hmicros : Word.toBytes 4 (UInt32.ofNat (Word.ofBytes micros)).toNat = micros := by
      rw [Word.toNat_ofBytes32 (Nat.le_of_eq hmicros), Word.toBytes_ofBytes hmicros]
    have hlength : Word.toBytes 4 body.length = length := by
      rw [hbody, Word.toBytes_ofBytes hlength]
    refine ⟨⟨tagByte, .ofNat (Word.ofBytes micros), body, by omega⟩, ?_⟩
    rw [Frame.toBytes, hmicros, hlength]
    rfl
  · rintro ⟨frame, rfl⟩
    exact ⟨_, frame.reads_toBytes source position hat⟩

theorem within_scan {source : ByteSource} (lawful : source.Lawful) :
    Record.scan.Within source source.size Grammar.record where
  code := by
    refine accepts_scan.isPrefixCode ?_
    rintro ⟨frame, h⟩
    cases h
  le_stop hlt h := (stays_scan lawful _ (Nat.le_of_lt hlt) _ _ h).1
  accepts hat _ := accepts_scan hat

end Record

/-! ### Dumps -/

namespace Header

variable {file : ByteArray} {header : Header}

theorem read_eq (file : ByteArray) :
    read (.ofBytes file) = ofBytes (file.data.toList.take (min file.size maxSize)) := by
  have hslice : (ByteSource.ofBytes file).slice 0 (min file.size maxSize) =
      .ok (file.data.toList.take (min file.size maxSize)) := by
    rw [ByteSource.slice_ofBytes, if_pos (by omega), List.drop_zero]
  show (ByteSource.ofBytes file).slice 0 (min file.size maxSize) >>= ofBytes = _
  rw [hslice]
  rfl

/-- The header ends inside the dump and inside the bytes in which it is looked for. -/
theorem recordsOffset_le (h : read (.ofBytes file) = .ok header) :
    header.recordsOffset ≤ min file.size maxSize := by
  obtain ⟨label, front, rest, hstart, -, hfront, hoffset⟩ := exists_parts ((read_eq file).symm.trans h)
  have hlength := congrArg List.length hstart
  simp only [List.length_take, Array.length_toList, List.length_append, List.length_cons, hfront]
    at hlength
  have hsize : file.data.size = file.size := rfl
  omega

theorem recordsOffset_le_length (h : read (.ofBytes file) = .ok header) :
    header.recordsOffset ≤ file.data.toList.length := by
  rw [Array.length_toList]
  exact Nat.le_trans (recordsOffset_le h) (Nat.min_le_left _ _)

/-- What follows a header goes up to the end of the dump. -/
theorem length_drop (h : read (.ofBytes file) = .ok header) :
    header.recordsOffset + (file.data.toList.drop header.recordsOffset).length =
      (ByteSource.ofBytes file).size := by
  rw [List.length_drop, Nat.add_sub_of_le (recordsOffset_le_length h), Array.length_toList]
  rfl

theorem hasAt_drop (h : read (.ofBytes file) = .ok header) :
    (ByteSource.ofBytes file).HasAt header.recordsOffset
      (file.data.toList.drop header.recordsOffset) := by
  have hle := recordsOffset_le_length h
  have hfile : (file.data.toList.take header.recordsOffset ++
      file.data.toList.drop header.recordsOffset ++ []).toByteArray = file := by
    rw [List.take_append_drop, List.append_nil]
    exact ByteArray.ext (by rw [List.data_toByteArray])
  have hat := ByteSource.hasAt_ofBytes (file.data.toList.take header.recordsOffset)
    (file.data.toList.drop header.recordsOffset) []
  rwa [hfile, List.length_take_of_le hle] at hat

/-- Bytes that begin with those of a header have that header. -/
theorem read_of_take {file' : ByteArray} (h : read (.ofBytes file) = .ok header)
    (htake : file'.data.toList.take header.recordsOffset =
      file.data.toList.take header.recordsOffset) : read (.ofBytes file') = .ok header := by
  have hle := recordsOffset_le h
  rw [read_eq] at h
  obtain ⟨label, front, rest, hstart, hlabel, hfront, hoffset⟩ := exists_parts h
  have hparts : file.data.toList.take header.recordsOffset = label ++ 0 :: front := by
    have hlength : (label ++ 0 :: front).length = header.recordsOffset := by
      rw [hoffset, List.length_append, List.length_cons, hfront]
    rw [← Nat.min_eq_left hle, ← List.take_take, hstart, ← hlength, ← List.cons_append,
      ← List.append_assoc, List.take_left]
  have hle' : header.recordsOffset ≤ min file'.size maxSize := by
    have hlength := congrArg List.length htake
    simp only [List.length_take, Array.length_toList] at hlength
    have hsize : file.data.size = file.size := rfl
    have hsize' : file'.data.size = file'.size := rfl
    omega
  have hstart' : file'.data.toList.take (min file'.size maxSize) = label ++ 0 :: (front ++
      (file'.data.toList.take (min file'.size maxSize)).drop header.recordsOffset) := by
    have hprefix : (file'.data.toList.take (min file'.size maxSize)).take header.recordsOffset =
        label ++ 0 :: front := by
      rw [List.take_take, Nat.min_eq_left hle', htake, hparts]
    rw [← List.cons_append, ← List.append_assoc, ← hprefix, List.take_append_drop]
  rw [read_eq, hstart', ofBytes_append hlabel hfront, ← ofBytes_append hlabel hfront rest, ← hstart, h]

end Header

/-- The bytes of a dump behind its header are the given frames. -/
structure Framed (file : ByteArray) (header : Header) (frames : List Frame) : Prop where
  read_header : Header.read (.ofBytes file) = .ok header
  drop_header : file.data.toList.drop header.recordsOffset = frames.flatMap Frame.toBytes

section Framed

variable {file : ByteArray} {header : Header}

theorem Framed.hasAt {frames : List Frame} (h : Framed file header frames) :
    (ByteSource.ofBytes file).HasAt header.recordsOffset (frames.map Frame.toBytes).flatten := by
  rw [← List.flatMap_def, ← h.drop_header]
  exact Header.hasAt_drop h.read_header

/-- The records of a framed dump are its frames, each where it stands. -/
theorem Framed.list {frames : List Frame} (h : Framed file header frames) :
    (Record.list (.ofBytes file) header).failure = none ∧
      List.Forall₂ (Frame.IsAt (.ofBytes file)) (Record.list (.ofBytes file) header).items frames := by
  have hwithin := Record.within_scan (ByteSource.lawful_ofBytes file)
  have hwords : ∀ x ∈ frames.map Frame.toBytes, x ∈ Grammar.record := by
    intro x hx
    obtain ⟨frame, -, rfl⟩ := List.mem_map.mp hx
    exact ⟨frame, rfl⟩
  have hstop : header.recordsOffset + (frames.map Frame.toBytes).flatten.length =
      (ByteSource.ofBytes file).size := by
    rw [← List.flatMap_def, ← h.drop_header, Header.length_drop h.read_header]
  obtain ⟨hfailure, hitems⟩ := hwithin.listFrom_flatten hwords h.hasAt hstop
    (Nat.le_sub_of_add_le' (Nat.le_of_eq hstop))
  refine ⟨hfailure, ?_⟩
  rw [List.forall₂_map_right_iff] at hitems
  refine hitems.imp fun record frame ⟨position, hat, hscan⟩ => ?_
  rw [frame.reads_toBytes _ _ hat] at hscan
  cases hscan
  exact ⟨hat, rfl⟩

/-- The records of a dump can be listed just if it is framed. -/
theorem Record.list_failure_iff (h : Header.read (.ofBytes file) = .ok header) :
    (Record.list (.ofBytes file) header).failure = none ↔ ∃ frames, Framed file header frames := by
  constructor
  · intro hfailure
    have hrow := ((within_scan (ByteSource.lawful_ofBytes file)).failure_eq_none_iff
      (Header.hasAt_drop h) (Header.length_drop h)).mp hfailure
    obtain ⟨words, hwords, hmem⟩ := Language.mem_kstar.mp hrow
    obtain ⟨frames, rfl⟩ : words ∈ Set.range (List.map Frame.toBytes) := by
      rw [Set.range_list_map]
      exact hmem
    exact ⟨frames, h, by rw [hwords, List.flatMap_def]⟩
  · rintro ⟨frames, hframed⟩
    exact hframed.list.1

/-- The dump with the given frames behind its header. -/
def withFrames (file : ByteArray) (header : Header) (frames : List Frame) : ByteArray :=
  (file.data.toList.take header.recordsOffset ++ frames.flatMap Frame.toBytes).toByteArray

theorem framed_withFrames (h : Header.read (.ofBytes file) = .ok header) (frames : List Frame) :
    Framed (withFrames file header frames) header frames := by
  have hlength : (file.data.toList.take header.recordsOffset).length = header.recordsOffset := by
    exact List.length_take_of_le (Header.recordsOffset_le_length h)
  constructor
  · refine Header.read_of_take h ?_
    rw [withFrames, List.data_toByteArray]
    exact List.take_left' hlength
  · rw [withFrames, List.data_toByteArray]
    exact List.drop_left' hlength

end Framed

end HeapDump

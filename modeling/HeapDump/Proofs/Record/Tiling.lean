import HeapDump.Proofs.Record.Frame
import HeapDump.Proofs.SubRecord.Bounded
import HeapDump.Proofs.SubRecord.Confined

/-! Rows that tile their range.  Every length a dump declares may be wrong, but an item that is read moves
forward and stays before the end of its range, so a row always ends: at the end of its range without a
gap or an overlap before it, or at the first item that cannot be read.  The records tile a dump behind
its header, and the sub-records tile the body of each record. -/

namespace HeapDump

namespace Scan

variable {α : Type}

/-- The items of the listing stand one after another from `start` on, each in a range of its own, which is
not empty and which it covers.  The last one ends at `stop`, or a failure stands behind it, and that is
the end of the listing. -/
inductive Tiles (item : Scan α) (source : ByteSource) (covers : α → Nat → Nat → Prop) (stop : Nat) :
    (start : Nat) → Listing DumpError α → Prop
  | ended : Tiles item source covers stop stop ⟨[], none⟩
  | failed {start used : Nat} {e : DumpError} :
      start < stop → item source start = ⟨.error e, used⟩ → start + used ≤ source.size →
        (∀ offset ∈ e.offset?, offset ≤ source.size) →
        Tiles item source covers stop start ⟨[], some e⟩
  | item {start next : Nat} {a : α} {rest : Listing DumpError α} :
      start < next → next ≤ stop → item source start = ⟨.ok a, next - start⟩ → covers a start next →
        Tiles item source covers stop next rest → Tiles item source covers stop start (rest.cons a)

section Tiles

variable {item : Scan α} {source : ByteSource} {covers : α → Nat → Nat → Prop} {stop : Nat}

/-- Each item moves forward, so there is fuel for as many of them as the range has bytes. -/
theorem tiles_listFrom (hbounded : item.Bounded source) (hstop : stop ≤ source.size)
    (hitem : ∀ {start a used}, start < stop → item source start = ⟨.ok a, used⟩ →
      0 < used ∧ start + used ≤ stop ∧ covers a start (start + used))
    {fuel start : Nat} (hstart : start ≤ stop) (hfuel : stop - start ≤ fuel) :
    Tiles item source covers stop start (listFrom item source stop fuel start) := by
  induction fuel generalizing start with
  | zero =>
    obtain rfl : start = stop := by omega
    exact .ended
  | succ fuel ih =>
    rw [listFrom]
    split
    · next hlt =>
      rcases hread : item source start with ⟨e | a, used⟩
      · obtain ⟨hused, hfailure, -⟩ := hbounded start (by omega)
        rw [hread] at hused hfailure
        exact .failed hlt hread hused (hfailure e rfl)
      · obtain ⟨hpos, hle, hcovers⟩ := hitem hlt hread
        refine .item (Nat.lt_add_of_pos_right hpos) hle ?_ hcovers (ih hle (by omega))
        rw [hread, Nat.add_sub_cancel_left]
    · obtain rfl : start = stop := by omega
      exact .ended

theorem tiles_list (hbounded : item.Bounded source) (hstop : stop ≤ source.size)
    (hitem : ∀ {start a used}, start < stop → item source start = ⟨.ok a, used⟩ →
      0 < used ∧ start + used ≤ stop ∧ covers a start (start + used))
    {start : Nat} (hstart : start ≤ stop) :
    Tiles item source covers stop start (list item source start stop) :=
  tiles_listFrom hbounded hstop hitem hstart (Nat.le_refl _)

/-- A listing asks for no range that starts past the end of the source. -/
theorem listFrom_eq_of_sameInside (hbounded : item.Bounded source) (hstop : stop ≤ source.size)
    {source' : ByteSource} (hsame : source.SameInside source') (fuel start : Nat) :
    listFrom item source' stop fuel start = listFrom item source stop fuel start := by
  induction fuel generalizing start with
  | zero => rfl
  | succ fuel ih =>
    rw [listFrom, listFrom]
    split
    · rw [(hbounded start (by omega)).asks source' hsame]
      split
      · rw [ih]
      · rfl
    · rfl

/-- Each item is read from a range of its own inside the whole range. -/
theorem Tiles.exists_range {start : Nat} {listing : Listing DumpError α}
    (h : Tiles item source covers stop start listing) {a : α} (ha : a ∈ listing.items) :
    ∃ position next, start ≤ position ∧ next ≤ stop ∧ covers a position next := by
  induction h with
  | ended => cases ha
  | failed => cases ha
  | @item start next b rest hlt hle _ hcovers _ ih =>
    rcases List.mem_cons.mp ha with rfl | ha
    · exact ⟨start, next, Nat.le_refl _, hle, hcovers⟩
    · obtain ⟨position, stop, hstart, hrange⟩ := ih ha
      exact ⟨position, stop, by omega, hrange⟩

end Tiles

end Scan

open Scan

/-- The range has room for the frame of the record and for its body, and for nothing else. -/
def Record.Covers (record : Record) (start next : Nat) : Prop :=
  record.offset = start ∧ record.bodyOffset = start + 9 ∧
    record.bodyOffset + record.bodyLength.toNat = next

/-- What the sub-record points to is the end of the range. -/
def SubRecord.Covers (width : IdWidth) (subRecord : SubRecord) (start next : Nat) : Prop :=
  ∀ range ∈ subRecord.contents? width, start ≤ range.1 ∧ range.1 + range.2 = next

section File

variable {file : ByteArray} {header : Header}

theorem Record.tiles_list (h : Header.read (.ofBytes file) = .ok header) :
    Tiles Record.scan (.ofBytes file) Record.Covers file.size header.recordsOffset
      (Record.list (.ofBytes file) header) := by
  refine Scan.tiles_list (bounded_scan file) (Nat.le_refl _) ?_
    (Nat.le_trans (Header.recordsOffset_le h) (Nat.min_le_left _ _))
  intro start record used _ hread
  obtain ⟨rfl, hstop, hin⟩ := scan_ok (ByteSource.lawful_ofBytes file) hread
  have hframe : record.stop = record.offset + 9 + record.bodyLength.toNat := rfl
  exact ⟨by omega, hstop ▸ hin, rfl, rfl, hstop⟩

/-- At least the tag is read. -/
theorem SubRecord.scan_pos {source : ByteSource} (lawful : source.Lawful) {width : IdWidth}
    {position used : Nat} {a : SubRecord} (h : scan width source position = ⟨.ok a, used⟩) :
    0 < used := by
  obtain ⟨tag, _, _, htag, -, rfl⟩ := bind_inv h
  rw [scanTag, position_bind] at htag
  obtain ⟨byte, _, _, hbyte, -, rfl⟩ := bind_inv htag
  obtain ⟨rfl, -⟩ := u8_ok lawful hbyte
  omega

theorem SubRecord.tiles_list (width : IdWidth) {record : Record} (h : record.stop ≤ file.size) :
    Tiles (SubRecord.scanWithin width record.stop) (.ofBytes file) (SubRecord.Covers width) record.stop
      record.bodyOffset (SubRecord.list (.ofBytes file) width record) := by
  refine Scan.tiles_list (bounded_scanWithin file width record.stop) h ?_ (Nat.le_add_right _ _)
  intro start subRecord used _ hread
  obtain ⟨hscan, hle⟩ := scanWithin_eq_ok_iff.mp hread
  exact ⟨scan_pos (ByteSource.lawful_ofBytes file) hscan, hle, endsIn_scan width hscan⟩

theorem Record.list_eq_of_sameInside {source' : ByteSource}
    (hsame : (ByteSource.ofBytes file).SameInside source') :
    Record.list source' header = Record.list (.ofBytes file) header := by
  rw [Record.list, Record.list, hsame.size]
  exact listFrom_eq_of_sameInside (bounded_scan file) (Nat.le_refl _) hsame _ _

theorem SubRecord.list_eq_of_sameInside {source' : ByteSource}
    (hsame : (ByteSource.ofBytes file).SameInside source') (width : IdWidth) {record : Record}
    (h : record.stop ≤ file.size) :
    SubRecord.list source' width record = SubRecord.list (.ofBytes file) width record :=
  listFrom_eq_of_sameInside (bounded_scanWithin file width record.stop) h hsame _ _

/-- The records of a dump tile it from the end of its header on, and the sub-records of any record that
is read tile its body, whatever lengths the dump declares.  No range that starts past the end of the dump
is asked for. -/
theorem tiles_of_header (file : ByteArray) (header : Header)
    (h : Header.read (.ofBytes file) = .ok header) :
    Tiles Record.scan (.ofBytes file) Record.Covers file.size header.recordsOffset
        (Record.list (.ofBytes file) header) ∧
      (∀ record ∈ (Record.list (.ofBytes file) header).items,
        header.recordsOffset ≤ record.offset ∧ record.stop ≤ file.size ∧
        ∀ width, Tiles (SubRecord.scanWithin width record.stop) (.ofBytes file)
          (SubRecord.Covers width) record.stop record.bodyOffset
          (SubRecord.list (.ofBytes file) width record)) ∧
      ∀ source', (ByteSource.ofBytes file).SameInside source' →
        Record.list source' header = Record.list (.ofBytes file) header ∧
        ∀ record ∈ (Record.list (.ofBytes file) header).items, ∀ width,
          SubRecord.list source' width record = SubRecord.list (.ofBytes file) width record := by
  have htiles := Record.tiles_list h
  have hinside : ∀ record ∈ (Record.list (.ofBytes file) header).items,
      header.recordsOffset ≤ record.offset ∧ record.stop ≤ file.size := by
    intro record hrecord
    obtain ⟨start, next, hstart, hnext, rfl, -, hstop⟩ := htiles.exists_range hrecord
    exact ⟨hstart, Nat.le_trans (Nat.le_of_eq hstop) hnext⟩
  refine ⟨htiles, fun record hrecord => ?_, fun source' hsame => ⟨?_, fun record hrecord width => ?_⟩⟩
  · obtain ⟨hstart, hstop⟩ := hinside record hrecord
    exact ⟨hstart, hstop, fun width => SubRecord.tiles_list width hstop⟩
  · exact Record.list_eq_of_sameInside hsame
  · exact SubRecord.list_eq_of_sameInside hsame width (hinside record hrecord).2

end File

/-- A dump with an instance and an array that leaves its body, and then a record that leaves the dump. -/
def ragged : ByteArray :=
  (Header.toBytes "JAVA PROFILE 1.0.2" .four 0 ++ Record.toBytes 0x0C SubRecord.overrun ++
    [0x01, 0, 0, 0, 0, 0, 0, 0, 100, 1, 2, 3]).toByteArray

theorem tiles_of_header_ragged :
    let header : Header := ⟨"JAVA PROFILE 1.0.2", .four, 0, 31⟩
    let record : Record := ⟨31, 0x0C, 0, 35⟩
    let subRecords := SubRecord.list (.ofBytes ragged) .four record
    Header.read (.ofBytes ragged) = .ok header ∧
      Record.list (.ofBytes ragged) header = ⟨[record], some (.outOfBounds 84 100 87)⟩ ∧
      subRecords.items.map (·.contents? .four) = [some (57, 2)] ∧
      subRecords.failure = some (.malformed 59 (.pastSegment 2)) ∧
      Tiles Record.scan (.ofBytes ragged) Record.Covers ragged.size 31
        ⟨[record], some (.outOfBounds 84 100 87)⟩ ∧
      Tiles (SubRecord.scanWithin .four 75) (.ofBytes ragged) (SubRecord.Covers .four) 75 40 subRecords := by
  intro header record subRecords
  have hread : Header.read (.ofBytes ragged) = .ok header := by decide +kernel
  have hlist : Record.list (.ofBytes ragged) header = ⟨[record], some (.outOfBounds 84 100 87)⟩ := by
    decide +kernel
  obtain ⟨hrecords, hbodies, -⟩ := tiles_of_header ragged header hread
  rw [hlist] at hrecords hbodies
  obtain ⟨-, -, hbody⟩ := hbodies record List.mem_cons_self
  exact ⟨hread, hlist, by decide +kernel, by decide +kernel, hrecords, hbody .four⟩

end HeapDump

import HeapDump.ObjectGraph.Entry
import HeapDump.Proofs.Scan

/-! Contents lie inside the dump.  A scan that starts inside a source and succeeds stops inside it, also
where it has only moved past bytes.  So the bytes that an instance or an array of a dump points to can
be read later. -/

namespace HeapDump

/-- A source that gives the bytes of the ranges inside it and of no others. -/
structure ByteSource.Lawful (source : ByteSource) : Prop where
  slice_ok : ∀ {position length}, position + length ≤ source.size →
    ∃ bytes, source.slice position length = .ok bytes ∧ bytes.length = length
  le_size : ∀ {position length bytes}, source.slice position length = .ok bytes →
    position + length ≤ source.size

theorem ByteSource.lawful_ofBytes (file : ByteArray) : (ByteSource.ofBytes file).Lawful where
  slice_ok {position length} h := by
    have hlength : file.data.toList.length = file.size := Array.length_toList
    rw [slice_ofBytes, if_pos (show _ ≤ file.size from h)]
    refine ⟨_, rfl, ?_⟩
    rw [List.length_take, List.length_drop, hlength]
    have : position + length ≤ file.size := h
    omega
  le_size {position length bytes} h := by
    rw [slice_ofBytes] at h
    split at h
    · next hin => exact hin
    · cases h

/-- A scan that succeeds from a place inside the source stops inside it, with an answer of the given
kind. -/
def Scan.Stays {α : Type} (scan : Scan α) (source : ByteSource) (post : α → Prop) : Prop :=
  ∀ position, position ≤ source.size → ∀ a used, scan source position = ⟨.ok a, used⟩ →
    position + used ≤ source.size ∧ post a

/-- The bytes of an instance or the elements of an array, if the dump has them, lie inside the source. -/
def SubRecord.Inside (source : ByteSource) (width : IdWidth) : SubRecord → Prop
  | .instance dump => dump.offset + dump.length.toNat ≤ source.size
  | objectArray dump => dump.offset + dump.count.toNat * width.bytes ≤ source.size
  | primitiveArray dump =>
    ∀ offset, dump.offset = some offset → offset + dump.contentsLength ≤ source.size
  | _ => True

namespace Scan

variable {α β : Type} {source : ByteSource} {width : IdWidth}

/-! ### Scans put together -/

theorem stays_pure {post : α → Prop} {a : α} (h : post a) :
    Stays (pure a) source post := by
  intro position hposition b used hb
  cases hb
  exact ⟨hposition, h⟩

theorem stays_fail {post : α → Prop} (error : DumpError) : Stays (fail error) source post := by
  intro position _ a used h
  cases h

theorem Stays.bind {scan : Scan α} {next : α → Scan β} {P : α → Prop} {Q : β → Prop}
    (h : scan.Stays source P) (hnext : ∀ a, P a → (next a).Stays source Q) :
    (scan >>= next).Stays source Q := by
  intro position hposition b used hb
  obtain ⟨a, first, rest, hfirst, hrest, rfl⟩ := bind_inv hb
  obtain ⟨hin, ha⟩ := h position hposition a first hfirst
  rw [← Nat.add_assoc]
  exact hnext a ha (position + first) hin b rest hrest

theorem Stays.then {scan : Scan α} {next : α → Scan β} {P : α → Prop} {Q : β → Prop}
    (h : scan.Stays source P) (hnext : ∀ a, (next a).Stays source Q) :
    (scan >>= next).Stays source Q :=
  h.bind fun a _ => hnext a

theorem stays_position : position.Stays source (· ≤ source.size) := by
  intro position hposition a used h
  cases h
  exact ⟨hposition, hposition⟩

theorem stays_times {item : Scan α} {P : α → Prop} (h : item.Stays source P) (n : Nat) :
    (item.times n).Stays source fun _ => True := by
  induction n with
  | zero => exact stays_pure trivial
  | succ n ih => exact h.then fun _ => ih.then fun _ => stays_pure trivial

theorem skip_ok {n position used : Nat} {a : Unit}
    (h : skip n source position = ⟨.ok a, used⟩) : used = n ∧ n ≤ source.size - position := by
  rw [skip] at h
  split at h
  · next hn =>
    cases h
    exact ⟨rfl, hn⟩
  · cases h

theorem stays_skip (n : Nat) : (skip n).Stays source fun _ => True := by
  intro position hposition a used h
  obtain ⟨rfl, hn⟩ := skip_ok h
  exact ⟨by omega, trivial⟩

theorem stays_place_skip {n : Nat} {f : Nat → α} {post : α → Prop}
    (hpost : ∀ offset, offset + n ≤ source.size → post (f offset)) :
    (do
      let offset ← position
      skip n
      return f offset).Stays source post := by
  intro place hplace a used h
  obtain ⟨offset, _, _, hoffset, hrest, rfl⟩ := bind_inv h
  cases hoffset
  obtain ⟨_, first, _, hskip, hpure, rfl⟩ := bind_inv hrest
  cases hpure
  obtain ⟨rfl, hn⟩ := skip_ok hskip
  exact ⟨by omega, hpost place (by omega)⟩

/-! ### Scans of fields -/

section Fields

variable (lawful : source.Lawful)
include lawful

theorem take_ok {n position used : Nat} {bytes : List UInt8}
    (h : take n source position = ⟨.ok bytes, used⟩) :
    used = n ∧ position + n ≤ source.size := by
  rw [take] at h
  split at h
  · next hslice =>
    cases h
    exact ⟨rfl, lawful.le_size hslice⟩
  · cases h

theorem stays_take (n : Nat) : (take n).Stays source fun _ => True := by
  intro position hposition a used h
  obtain ⟨rfl, hin⟩ := take_ok lawful h
  exact ⟨hin, trivial⟩

theorem stays_word (n : Nat) : (word n).Stays source fun _ => True :=
  (stays_take lawful n).then fun _ => stays_pure trivial

theorem stays_u8 : u8.Stays source fun _ => True :=
  (stays_word lawful 1).then fun _ => stays_pure trivial

theorem stays_u16 : u16.Stays source fun _ => True :=
  (stays_word lawful 2).then fun _ => stays_pure trivial

theorem stays_u32 : u32.Stays source fun _ => True :=
  (stays_word lawful 4).then fun _ => stays_pure trivial

theorem stays_ident : (ident width).Stays source fun _ => True :=
  (stays_take lawful width.bytes).then fun _ => stays_pure trivial

theorem stays_reference : (reference width).Stays source fun _ => True :=
  (stays_ident lawful).then fun _ => stays_pure trivial

theorem stays_value (type : FieldType) : (value width type).Stays source fun _ => True :=
  (stays_take lawful (type.size width)).then fun _ => stays_pure trivial

theorem stays_frameNumber : frameNumber.Stays source fun _ => True :=
  (stays_u32 lawful).then fun _ => stays_pure trivial

theorem stays_fieldType : fieldType.Stays source fun _ => True := by
  refine stays_position.then fun offset => (stays_u8 lawful).then fun code => ?_
  cases FieldType.ofCode? code with
  | none => exact stays_fail _
  | some type => exact stays_pure trivial

theorem stays_primitiveType : primitiveType.Stays source fun _ => True := by
  refine stays_position.then fun offset => (stays_u8 lawful).then fun code => ?_
  cases PrimitiveType.ofCode? code with
  | none => exact stays_fail _
  | some type => exact stays_pure trivial

end Fields

end Scan

open Scan

/-! ### Sub-records -/

section SubRecord

variable {source : ByteSource} {width : IdWidth} (lawful : source.Lawful)
include lawful

theorem RootOrigin.stays_scan (kind : RootKind) :
    (RootOrigin.scan width kind).Stays source fun _ => True := by
  have hu32 := stays_u32 lawful
  have hframe := stays_frameNumber lawful
  cases kind with
  | nativeStatic => exact (stays_ident lawful).then fun _ => stays_pure trivial
  | nativeLocal | javaLocal | nativeMonitor =>
    exact hu32.then fun _ => hframe.then fun _ => stays_pure trivial
  | nativeStack | threadBlock | threadObject => exact hu32.then fun _ => stays_pure trivial
  | _ => exact stays_pure trivial

theorem ClassDump.stays_scan : (ClassDump.scan width).Stays source fun _ => True := by
  have hid : (Scan.ident width).Stays source fun _ => True := stays_ident lawful
  have href : (Scan.reference width).Stays source fun _ => True := stays_reference lawful
  have hu16 := stays_u16 lawful
  have hu32 := stays_u32 lawful
  have htype := stays_fieldType lawful
  have hconstant : (scanConstant width).Stays source fun _ => True :=
    hu16.then fun _ => htype.then fun _ => stays_skip _
  have hstatic : (StaticEntry.scan width).Stays source fun _ => True :=
    hid.then fun _ => htype.then fun _ => (stays_value lawful _).then fun _ => stays_pure trivial
  have hfield : (FieldEntry.scan width).Stays source fun _ => True :=
    hid.then fun _ => htype.then fun _ => stays_pure trivial
  refine hid.then fun _ => hu32.then fun _ => href.then fun _ => href.then fun _ =>
    href.then fun _ => href.then fun _ => hid.then fun _ => hid.then fun _ => hu32.then fun _ => ?_
  refine hu16.then fun _ => (stays_times hconstant _).then fun _ => ?_
  refine hu16.then fun _ => (stays_times hstatic _).then fun _ => ?_
  exact hu16.then fun _ => (stays_times hfield _).then fun _ => stays_pure trivial

theorem InstanceDump.stays_scan :
    (InstanceDump.scan width).Stays source fun dump => (SubRecord.instance dump).Inside source width := by
  have hid : (Scan.ident width).Stays source fun _ => True := stays_ident lawful
  have hu32 := stays_u32 lawful
  refine hid.then fun id => hu32.then fun trace => hid.then fun classId => hu32.then fun length => ?_
  exact stays_place_skip fun offset hin => hin

theorem ObjectArrayDump.stays_scan :
    (ObjectArrayDump.scan width).Stays source fun dump =>
      (SubRecord.objectArray dump).Inside source width := by
  have hid : (Scan.ident width).Stays source fun _ => True := stays_ident lawful
  have hu32 := stays_u32 lawful
  refine hid.then fun id => hu32.then fun trace => hu32.then fun count => hid.then fun classId => ?_
  exact stays_place_skip fun offset hin => hin

theorem PrimitiveArrayDump.stays_scan (withContents : Bool) :
    (PrimitiveArrayDump.scan width withContents).Stays source fun dump =>
      (SubRecord.primitiveArray dump).Inside source width := by
  have hid : (Scan.ident width).Stays source fun _ => True := stays_ident lawful
  have hu32 := stays_u32 lawful
  refine hid.then fun id => hu32.then fun trace => hu32.then fun count =>
    (stays_primitiveType lawful).then fun type => ?_
  cases withContents with
  | false =>
    apply stays_pure
    rintro offset ⟨⟩
  | true =>
    apply stays_place_skip
    rintro offset hin _ ⟨⟩
    exact hin

theorem SubRecord.stays_scan :
    (SubRecord.scan width).Stays source (SubRecord.Inside source width) := by
  have hid : (Scan.ident width).Stays source fun _ => True := stays_ident lawful
  have href : (Scan.reference width).Stays source fun _ => True := stays_reference lawful
  have hu32 := stays_u32 lawful
  have htag : scanTag.Stays source fun _ => True := by
    refine stays_position.then fun offset => (stays_u8 lawful).then fun byte => ?_
    cases SubRecordTag.ofByte? byte with
    | none => exact stays_fail _
    | some tag => exact stays_pure trivial
  have hroot : ∀ kind, (Root.scan width kind).Stays source fun _ => True := fun kind =>
    hid.then fun _ => (RootOrigin.stays_scan lawful kind).then fun _ => stays_pure trivial
  have hthread : (ThreadObject.scan width).Stays source fun _ => True :=
    href.then fun _ => hu32.then fun _ => hu32.then fun _ => stays_pure trivial
  have hheap : (HeapSwitch.scan width).Stays source fun _ => True :=
    hu32.then fun _ => hid.then fun _ => stays_pure trivial
  refine htag.then fun tag => ?_
  cases tag with
  | root kind =>
    cases kind with
    | threadObject => exact hthread.then fun _ => stays_pure trivial
    | _ => exact (hroot _).then fun _ => stays_pure trivial
  | heapInfo => exact hheap.then fun _ => stays_pure trivial
  | classDump => exact (ClassDump.stays_scan lawful).then fun _ => stays_pure trivial
  | instanceDump => exact (InstanceDump.stays_scan lawful).bind fun _ h => stays_pure h
  | objectArrayDump => exact (ObjectArrayDump.stays_scan lawful).bind fun _ h => stays_pure h
  | primitiveArrayDump =>
    exact (PrimitiveArrayDump.stays_scan lawful true).bind fun _ h => stays_pure h
  | primitiveArrayNoData =>
    exact (PrimitiveArrayDump.stays_scan lawful false).bind fun _ h => stays_pure h

theorem SubRecord.stays_scanWithin (stop : Nat) :
    (SubRecord.scanWithin width stop).Stays source (SubRecord.Inside source width) := by
  refine stays_position.then fun offset => (SubRecord.stays_scan lawful).bind fun dump hdump =>
    stays_position.then fun after => ?_
  split
  · exact stays_fail _
  · exact stays_pure hdump

end SubRecord

/-! ### Records -/

section Record

variable {source : ByteSource} {width : IdWidth} (lawful : source.Lawful)
include lawful

theorem Scan.word_ok {n position used v : Nat} (h : word n source position = ⟨.ok v, used⟩) :
    used = n ∧ position + n ≤ source.size := by
  obtain ⟨bytes, _, _, htake, hpure, rfl⟩ := bind_inv h
  cases hpure
  exact take_ok lawful htake

theorem Scan.u8_ok {position used : Nat} {b : UInt8} (h : u8 source position = ⟨.ok b, used⟩) :
    used = 1 ∧ position + 1 ≤ source.size := by
  obtain ⟨n, _, _, hword, hpure, rfl⟩ := bind_inv h
  cases hpure
  exact word_ok lawful hword

theorem Scan.u32_ok {position used : Nat} {n : UInt32}
    (h : u32 source position = ⟨.ok n, used⟩) : used = 4 ∧ position + 4 ≤ source.size := by
  obtain ⟨v, _, _, hword, hpure, rfl⟩ := bind_inv h
  cases hpure
  exact word_ok lawful hword

/-- A record that is read stands where the scan started and ends where it stopped. -/
theorem Record.scan_ok {position used : Nat} {record : Record}
    (h : Record.scan source position = ⟨.ok record, used⟩) :
    record.offset = position ∧ record.stop = position + used ∧ record.stop ≤ source.size := by
  obtain ⟨offset, _, _, hoffset, hfields, rfl⟩ := bind_inv h
  cases hoffset
  obtain ⟨tagByte, first, _, htag, hnumbers, rfl⟩ := bind_inv hfields
  obtain ⟨rfl, -⟩ := u8_ok lawful htag
  obtain ⟨micros, second, _, hmicros, hlast, rfl⟩ := bind_inv hnumbers
  obtain ⟨rfl, -⟩ := u32_ok lawful hmicros
  obtain ⟨length, third, _, hlength, hbody, rfl⟩ := bind_inv hlast
  obtain ⟨rfl, hin⟩ := u32_ok lawful hlength
  obtain ⟨_, fourth, _, hskip, hpure, rfl⟩ := bind_inv hbody
  cases hpure
  obtain ⟨rfl, hn⟩ := skip_ok hskip
  have hstop : Record.stop ⟨position, tagByte, micros, length⟩ = position + 9 + length.toNat := rfl
  exact ⟨rfl, by omega, by omega⟩

theorem Record.stays_scan : Record.scan.Stays source fun record => record.stop ≤ source.size := by
  intro position hposition record used h
  obtain ⟨-, hstop, hin⟩ := scan_ok lawful h
  exact ⟨by omega, hin⟩

end Record

/-! ### Lists -/

theorem Scan.listFrom_all {α : Type} {item : Scan α} {source : ByteSource} {post : α → Prop}
    (h : item.Stays source post) {stop : Nat} (hstop : stop ≤ source.size) (fuel position : Nat) :
    ∀ a ∈ (listFrom item source stop fuel position).items, post a := by
  induction fuel generalizing position with
  | zero => simp [listFrom]
  | succ fuel ih =>
    rw [listFrom]
    split
    · next hposition =>
      split
      · next a used hitem =>
        intro b hb
        rcases List.mem_cons.mp hb with rfl | hb
        · exact (h position (by omega) b used hitem).2
        · exact ih (position + used) b hb
      · simp
    · simp

theorem Listing.mem_collect {ε α β : Type} {f : α → Listing ε β} {items : List α}
    {failure : Option ε} {b : β} (h : b ∈ (collect f items failure).items) :
    ∃ a ∈ items, b ∈ (f a).items := by
  induction items with
  | nil => cases h
  | cons a items ih =>
    rw [collect] at h
    split at h
    · exact ⟨a, List.mem_cons_self, h⟩
    · rcases List.mem_append.mp h with h | h
      · exact ⟨a, List.mem_cons_self, h⟩
      · obtain ⟨a', ha', hb⟩ := ih h
        exact ⟨a', List.mem_cons_of_mem a ha', hb⟩

theorem Listing.items_ofExcept {ε α : Type} {answer : Except ε α} {a : α}
    (h : a ∈ (ofExcept answer).items) : answer = .ok a := by
  cases answer with
  | error e => cases h
  | ok b => rw [List.mem_singleton.mp h]

/-- The sub-records among the contents of a record. -/
def EntryContents.subRecords : EntryContents → List SubRecord
  | heapDump subRecords => subRecords
  | _ => []

theorem Entry.subRecords_fields {source : ByteSource} {record : Record} {α : Type}
    (tag : RecordTag) (decode : Slice α) {contents : α → EntryContents}
    (hnone : ∀ a, (contents a).subRecords = []) {entry : Entry}
    (h : entry ∈ (Listing.ofExcept (do
      return (⟨record, contents (← decodeBody source record tag decode)⟩ : Entry))).items) :
    entry.contents.subRecords = [] := by
  have hok := Listing.items_ofExcept h
  cases hbody : decodeBody source record tag decode with
  | error e =>
    rw [hbody] at hok
    cases hok
  | ok a =>
    rw [hbody] at hok
    cases hok
    exact hnone a

theorem Entry.subRecords_read {source : ByteSource} {width : IdWidth} {record : Record}
    {entry : Entry} (h : entry ∈ (Entry.read source width record).items) :
    entry.contents.subRecords = [] ∨
      entry.contents.subRecords = (SubRecord.list source width record).items := by
  unfold Entry.read at h
  split at h
  · left
    rw [List.mem_singleton.mp h]
    rfl
  · exact .inl (subRecords_fields _ _ (fun _ => rfl) h)
  · exact .inl (subRecords_fields _ _ (fun _ => rfl) h)
  · exact .inl (subRecords_fields _ _ (fun _ => rfl) h)
  · exact .inl (subRecords_fields _ _ (fun _ => rfl) h)
  · exact .inl (subRecords_fields _ _ (fun _ => rfl) h)
  · right
    rw [List.mem_singleton.mp h]
    rfl
  · right
    rw [List.mem_singleton.mp h]
    rfl
  · left
    rw [List.mem_singleton.mp h]
    rfl

/-- Every instance and array of a dump has its bytes in the dump. -/
theorem Entry.list_inside {source : ByteSource} (lawful : source.Lawful) (header : Header) :
    ∀ entry ∈ (Entry.list source header).items, ∀ subRecord ∈ entry.contents.subRecords,
      subRecord.Inside source header.idWidth := by
  intro entry hentry subRecord hsub
  obtain ⟨record, hrecord, hread⟩ := Listing.mem_collect hentry
  have hstop : record.stop ≤ source.size :=
    listFrom_all (Record.stays_scan lawful) (Nat.le_refl _) _ _ record hrecord
  rcases Entry.subRecords_read hread with hnil | hlist
  · rw [hnil] at hsub
    cases hsub
  · rw [hlist] at hsub
    exact listFrom_all (SubRecord.stays_scanWithin lawful record.stop) hstop _ _ subRecord hsub

end HeapDump

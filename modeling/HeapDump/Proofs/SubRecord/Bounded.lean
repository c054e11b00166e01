import HeapDump.Proofs.SubRecord.Bounds

/-! Scans that fail stay inside as well.  From a place inside a dump each scan stops inside the dump, with
an answer or with a failure, and the place that a failure names lies inside the dump too.  A scan only
moves forward, so the place where it stops bounds every place on its way, and no range is asked for that
starts past the end.  Lengths that the dump declares are never added to a position before they are known
to fit. -/

namespace HeapDump

/-- The sources have one size, and the same answer for every range that starts no later. -/
structure ByteSource.SameInside (source source' : ByteSource) : Prop where
  size : source'.size = source.size
  slice : ∀ position length, position ≤ source.size →
    source'.slice position length = source.slice position length

/-- From the given place the scan stops inside the source, the place of its failure is inside, and so is the
start of every range that it asks for. -/
structure Scan.BoundedAt {α : Type} (scan : Scan α) (source : ByteSource) (position : Nat) : Prop where
  used_le : position + (scan source position).used ≤ source.size
  offset_le : ∀ e, (scan source position).answer = .error e → ∀ offset ∈ e.offset?, offset ≤ source.size
  asks : ∀ source', source.SameInside source' → scan source' position = scan source position

/-- The scan does so from every place inside the source. -/
def Scan.Bounded {α : Type} (scan : Scan α) (source : ByteSource) : Prop :=
  ∀ position, position ≤ source.size → scan.BoundedAt source position

namespace Scan

variable {α β : Type} {source : ByteSource} {file : ByteArray} {width : IdWidth}

/-! ### Scans put together -/

theorem bounded_pure (a : α) : Bounded (pure a) source := fun position hposition =>
  ⟨hposition, by rintro e ⟨⟩, fun _ _ => rfl⟩

theorem bounded_malformed {offset : Nat} (h : offset ≤ source.size) (fault : Fault) :
    (malformed offset fault : Scan α).Bounded source := fun position hposition =>
  ⟨hposition, by rintro e ⟨⟩ _ ⟨⟩; exact h, fun _ _ => rfl⟩

theorem Bounded.bind {scan : Scan α} {next : α → Scan β} (h : scan.Bounded source)
    (hnext : ∀ a, (next a).Bounded source) : (scan >>= next).Bounded source := by
  intro position hposition
  obtain ⟨hused, hfailure, hasks⟩ := h position hposition
  rcases hfirst : scan source position with ⟨e | a, first⟩
  · rw [hfirst] at hused hfailure hasks
    have herror : (scan >>= next) source position = ⟨.error e, first⟩ := bind_error hfirst
    refine ⟨?_, ?_, fun source' hsame => ?_⟩
    · rwa [herror]
    · rw [herror]
      rintro _ ⟨⟩
      exact hfailure e rfl
    · rw [herror, bind_error (hasks source' hsame)]
  · rw [hfirst] at hused hasks
    obtain ⟨hlast, hlastFailure, hlastAsks⟩ := hnext a _ hused
    refine ⟨?_, ?_, fun source' hsame => ?_⟩
    · rw [bind_ok hfirst, ← Nat.add_assoc]
      exact hlast
    · rw [bind_ok hfirst]
      exact hlastFailure
    · rw [bind_ok hfirst, bind_ok (hasks source' hsame), hlastAsks source' hsame]

theorem Bounded.map {scan : Scan α} (h : scan.Bounded source) (f : α → β) :
    (scan >>= fun a => pure (f a)).Bounded source :=
  h.bind fun a => bounded_pure (f a)

/-- The place where a scan stands is inside the source. -/
theorem bounded_place {next : Nat → Scan β}
    (h : ∀ offset, offset ≤ source.size → (next offset).Bounded source) :
    (position >>= next).Bounded source := by
  intro place hplace
  obtain ⟨hused, hfailure, hasks⟩ := h place hplace place hplace
  refine ⟨?_, ?_, fun source' hsame => ?_⟩
  · rwa [position_bind]
  · rwa [position_bind]
  · rw [position_bind, position_bind, hasks source' hsame]

theorem bounded_times {item : Scan α} (h : item.Bounded source) (n : Nat) :
    (item.times n).Bounded source := by
  induction n with
  | zero => exact bounded_pure []
  | succ n ih => exact h.bind fun first => ih.map (first :: ·)

theorem bounded_skip (n : Nat) : (skip n).Bounded source := by
  intro position hposition
  have hasks : ∀ source', source.SameInside source' → skip n source' position = skip n source position :=
    fun source' hsame => by rw [skip, skip, hsame.size]
  by_cases hn : n ≤ source.size - position
  · have hskip : skip n source position = ⟨.ok (), n⟩ := if_pos hn
    refine ⟨?_, ?_, hasks⟩
    · rw [hskip]
      show position + n ≤ source.size
      omega
    · rw [hskip]
      rintro e ⟨⟩
  · have hskip : skip n source position = ⟨.error (.outOfBounds position n source.size), 0⟩ := if_neg hn
    refine ⟨?_, ?_, hasks⟩
    · rwa [hskip]
    · rw [hskip]
      rintro e ⟨⟩ _ ⟨⟩
      exact hposition

theorem bounded_place_skip (n : Nat) (f : Nat → α) :
    (do
      let offset ← position
      skip n
      return f offset).Bounded source :=
  bounded_place fun offset _ => (bounded_skip n).map fun _ => f offset

/-! ### Scans of fields -/

theorem bounded_take (n : Nat) : (take n).Bounded (.ofBytes file) := by
  intro position hposition
  have hasks : ∀ source', (ByteSource.ofBytes file).SameInside source' →
      take n source' position = take n (.ofBytes file) position :=
    fun source' hsame => by rw [take, take, hsame.slice position n hposition]
  by_cases hin : position + n ≤ file.size
  · obtain ⟨bytes, hslice, -⟩ := (ByteSource.lawful_ofBytes file).slice_ok hin
    have htake : take n (.ofBytes file) position = ⟨.ok bytes, n⟩ := by rw [take, hslice]
    refine ⟨?_, ?_, hasks⟩
    · rw [htake]
      exact hin
    · rw [htake]
      rintro e ⟨⟩
  · have htake : take n (.ofBytes file) position = ⟨.error (.outOfBounds position n file.size), 0⟩ := by
      rw [take, ByteSource.slice_ofBytes, if_neg hin]
    refine ⟨?_, ?_, hasks⟩
    · rw [htake]
      exact hposition
    · rw [htake]
      rintro e ⟨⟩ _ ⟨⟩
      exact hposition

theorem bounded_word (n : Nat) : (word n).Bounded (.ofBytes file) := (bounded_take n).map _

theorem bounded_u8 : u8.Bounded (.ofBytes file) := (bounded_word 1).map _

theorem bounded_u16 : u16.Bounded (.ofBytes file) := (bounded_word 2).map _

theorem bounded_u32 : u32.Bounded (.ofBytes file) := (bounded_word 4).map _

theorem bounded_ident : (ident width).Bounded (.ofBytes file) := (bounded_take _).map _

theorem bounded_reference : (reference width).Bounded (.ofBytes file) := bounded_ident.map _

theorem bounded_value (type : FieldType) : (value width type).Bounded (.ofBytes file) :=
  (bounded_take _).map _

theorem bounded_frameNumber : frameNumber.Bounded (.ofBytes file) := bounded_u32.map _

/-- A byte that is looked up may be reported where it stands. -/
theorem bounded_code {next : Nat → UInt8 → Scan α}
    (h : ∀ offset, offset ≤ file.size → ∀ code, (next offset code).Bounded (.ofBytes file)) :
    (do
      let offset ← position
      let code ← u8
      next offset code).Bounded (.ofBytes file) :=
  bounded_place fun offset hoffset => bounded_u8.bind (h offset hoffset)

theorem bounded_fieldType : fieldType.Bounded (.ofBytes file) := by
  refine bounded_code fun offset hoffset code => ?_
  cases FieldType.ofCode? code with
  | none => exact bounded_malformed hoffset _
  | some type => exact bounded_pure type

theorem bounded_primitiveType : primitiveType.Bounded (.ofBytes file) := by
  refine bounded_code fun offset hoffset code => ?_
  cases PrimitiveType.ofCode? code with
  | none => exact bounded_malformed hoffset _
  | some type => exact bounded_pure type

end Scan

open Scan

/-! ### Sub-records -/

section SubRecord

variable (file : ByteArray) (width : IdWidth)

theorem RootOrigin.bounded_scan (kind : RootKind) : (RootOrigin.scan width kind).Bounded (.ofBytes file) := by
  cases kind with
  | nativeStatic => exact bounded_ident.map _
  | nativeLocal | javaLocal | nativeMonitor => exact bounded_u32.bind fun _ => bounded_frameNumber.map _
  | nativeStack | threadBlock | threadObject => exact bounded_u32.map _
  | _ => exact bounded_pure _

theorem ClassDump.bounded_scan : (ClassDump.scan width).Bounded (.ofBytes file) := by
  have hconstant : (scanConstant width).Bounded (.ofBytes file) :=
    bounded_u16.bind fun _ => bounded_fieldType.bind fun _ => bounded_skip _
  have hstatic : (StaticEntry.scan width).Bounded (.ofBytes file) :=
    bounded_ident.bind fun _ => bounded_fieldType.bind fun _ => (bounded_value _).map _
  have hfield : (FieldEntry.scan width).Bounded (.ofBytes file) :=
    bounded_ident.bind fun _ => bounded_fieldType.map _
  refine bounded_ident.bind fun _ => bounded_u32.bind fun _ => bounded_reference.bind fun _ =>
    bounded_reference.bind fun _ => bounded_reference.bind fun _ => bounded_reference.bind fun _ =>
    bounded_ident.bind fun _ => bounded_ident.bind fun _ => bounded_u32.bind fun _ => ?_
  refine bounded_u16.bind fun _ => (bounded_times hconstant _).bind fun _ => ?_
  refine bounded_u16.bind fun _ => (bounded_times hstatic _).bind fun _ => ?_
  exact bounded_u16.bind fun _ => (bounded_times hfield _).map _

theorem InstanceDump.bounded_scan : (InstanceDump.scan width).Bounded (.ofBytes file) :=
  bounded_ident.bind fun _ => bounded_u32.bind fun _ => bounded_ident.bind fun _ =>
    bounded_u32.bind fun _ => bounded_place_skip _ _

theorem ObjectArrayDump.bounded_scan : (ObjectArrayDump.scan width).Bounded (.ofBytes file) :=
  bounded_ident.bind fun _ => bounded_u32.bind fun _ => bounded_u32.bind fun _ =>
    bounded_ident.bind fun _ => bounded_place_skip _ _

theorem PrimitiveArrayDump.bounded_scan (withContents : Bool) :
    (PrimitiveArrayDump.scan width withContents).Bounded (.ofBytes file) := by
  refine bounded_ident.bind fun _ => bounded_u32.bind fun _ => bounded_u32.bind fun _ =>
    bounded_primitiveType.bind fun _ => ?_
  cases withContents with
  | false => exact bounded_pure _
  | true => exact bounded_place_skip _ _

theorem SubRecord.bounded_scan : (SubRecord.scan width).Bounded (.ofBytes file) := by
  have htag : scanTag.Bounded (.ofBytes file) := by
    refine bounded_code fun offset hoffset byte => ?_
    cases SubRecordTag.ofByte? byte with
    | none => exact bounded_malformed hoffset _
    | some tag => exact bounded_pure tag
  have hroot : ∀ kind, (Root.scan width kind).Bounded (.ofBytes file) := fun kind =>
    bounded_ident.bind fun _ => (RootOrigin.bounded_scan file width kind).map _
  have hthread : (ThreadObject.scan width).Bounded (.ofBytes file) :=
    bounded_reference.bind fun _ => bounded_u32.bind fun _ => bounded_u32.map _
  have hheap : (HeapSwitch.scan width).Bounded (.ofBytes file) :=
    bounded_u32.bind fun _ => bounded_ident.map _
  refine htag.bind fun tag => ?_
  cases tag with
  | root kind =>
    cases kind with
    | threadObject => exact hthread.map _
    | _ => exact (hroot _).map _
  | heapInfo => exact hheap.map _
  | classDump => exact (ClassDump.bounded_scan file width).map _
  | instanceDump => exact (InstanceDump.bounded_scan file width).map _
  | objectArrayDump => exact (ObjectArrayDump.bounded_scan file width).map _
  | primitiveArrayDump => exact (PrimitiveArrayDump.bounded_scan file width true).map _
  | primitiveArrayNoData => exact (PrimitiveArrayDump.bounded_scan file width false).map _

theorem SubRecord.bounded_scanWithin (stop : Nat) :
    (SubRecord.scanWithin width stop).Bounded (.ofBytes file) := by
  refine bounded_place fun offset hoffset => (SubRecord.bounded_scan file width).bind fun dump =>
    bounded_place fun after _ => ?_
  split
  · exact bounded_malformed hoffset _
  · exact bounded_pure dump

end SubRecord

theorem Record.bounded_scan (file : ByteArray) : Record.scan.Bounded (.ofBytes file) :=
  bounded_place fun _ _ => bounded_u8.bind fun _ => bounded_u32.bind fun _ => bounded_u32.bind fun _ =>
    (bounded_skip _).map _

end HeapDump

import HeapDump.Proofs.Header
import HeapDump.Proofs.ObjectGraph.Acceptance
import HeapDump.Proofs.ObjectGraph.Filing
import HeapDump.Proofs.SubRecord.RoundTrip
import Mathlib.Data.List.Forall2

/-! Drafts read back.  If a draft puts no arbitrary bytes anywhere and what it writes has room, the
sub-records of the dump are the items of the draft, in order, each with its content where the item put it.
So the objects read are the objects drafted. -/

namespace HeapDump

/-! ### Items -/

namespace DraftItem

/-- The identifier of the object that an item is. -/
def objectId? : DraftItem → Option Ident
  | classDump id _ _ _ _ _ => some id
  | .instance id _ _ | instanceValues id _ _ | objectArray id _ _ => some id
  | primitiveArray id _ _ | primitiveArrayNoData id _ _ => some id
  | _ => none

/-- The references in the content of an item have room. -/
def ContentFits (width : IdWidth) : DraftItem → Prop
  | instanceValues _ _ values => ∀ v ∈ values, v.Fits width
  | objectArray _ _ elements => ∀ target ∈ elements, ∀ id ∈ target, id.Fits width
  | _ => True

instance (width : IdWidth) (item : DraftItem) : Decidable (item.ContentFits width) :=
  match item with
  | instanceValues _ _ values => inferInstanceAs (Decidable (∀ v ∈ values, v.Fits width))
  | objectArray _ _ elements =>
    inferInstanceAs (Decidable (∀ target ∈ elements, ∀ id ∈ target, id.Fits width))
  | heapSwitch _ _ | root _ _ | nativeStatic _ _ | nativeLocal _ _ _ | javaLocal _ _ _
  | nativeMonitor _ _ _ | nativeStack _ _ | threadBlock _ _ | threadObject _ _ _
  | classDump _ _ _ _ _ _ | .instance _ _ _ | primitiveArray _ _ _ | primitiveArrayNoData _ _ _
  | raw _ => .isTrue trivial

/-- An item stands somewhere in the source, and a sub-record is what it stands for there. -/
def ReadAs (source : ByteSource) (width : IdWidth) (item : DraftItem) (subRecord : SubRecord) : Prop :=
  ∃ position, source.HasAt position (item.toBytes width) ∧ (item.toBytes width).length < 2 ^ 32 ∧
    item.subRecord? width position = some subRecord

variable {source : ByteSource} {width : IdWidth} {item : DraftItem} {subRecord : SubRecord}

theorem ReadAs.map_id_object? (h : item.ReadAs source width subRecord) (heapId : UInt32) :
    (subRecord.object? heapId).map (·.id) = item.objectId? := by
  obtain ⟨position, -, -, hread⟩ := h
  cases item with
  | root tag object =>
    obtain ⟨origin, -, rfl⟩ := Option.map_eq_some_iff.mp hread
    rfl
  | raw bytes => cases hread
  | _ =>
    cases hread
    rfl

theorem map_id_objects {items : List DraftItem} {subRecords : List SubRecord}
    (h : List.Forall₂ (ReadAs source width) items subRecords) (heapId : UInt32) :
    (SubRecord.objects heapId subRecords).map (·.2.id) = items.filterMap (·.objectId?) := by
  induction h generalizing heapId with
  | nil => rfl
  | @cons item subRecord items subRecords hread _ ih =>
    rw [SubRecord.objects, List.map_append, ih, List.filterMap_cons, ← hread.map_id_object? heapId]
    cases subRecord.object? heapId <;> rfl

/-- The items of a body that is there are read as the sub-records listed. -/
theorem forall₂_readAs {items : List DraftItem} {position : Nat} {answers : List SubRecord}
    (hat : source.HasAt position (DraftRecord.itemBytes width items))
    (hlength : (DraftRecord.itemBytes width items).length < 2 ^ 32)
    (h : answers.map some =
      (placed width position items).map fun call => call.2.subRecord? width call.1) :
    List.Forall₂ (ReadAs source width) items answers := by
  induction items generalizing position answers with
  | nil =>
    rw [List.map_eq_nil_iff.mp h]
    exact .nil
  | cons item items ih =>
    obtain ⟨answer, rest, rfl, hanswer, hrest⟩ := List.map_eq_cons_iff.mp h
    rw [itemBytes_cons] at hat hlength
    rw [List.length_append] at hlength
    exact .cons ⟨position, hat.left, by omega, hanswer.symm⟩ (ih hat.right (by omega) hrest)

end DraftItem

/-! ### Records -/

namespace DraftRecord

/-- The items in the body of a record. -/
def items : DraftRecord → List DraftItem
  | heapDump items | segment items => items
  | _ => []

/-- The body of a record is put together by the draft. -/
def isComposed : DraftRecord → Bool
  | raw _ _ => false
  | _ => true

/-- What a record must be like to come back: nothing in it is arbitrary, and it has room. -/
def Fits (width : IdWidth) (record : DraftRecord) : Prop :=
  record.isComposed ∧ (record.body width).length < 2 ^ 32 ∧
    ∀ item ∈ record.items, item.Fits width ∧ item.ContentFits width

instance (width : IdWidth) (record : DraftRecord) : Decidable (record.Fits width) :=
  inferInstanceAs (Decidable (_ ∧ _ ∧ _))

variable {source : ByteSource} {width : IdWidth} {record : DraftRecord} {records : List DraftRecord}

/-- A frame with the tag and the body of a record, at time zero. -/
structure IsFrame (width : IdWidth) (record : DraftRecord) (frame : Frame) : Prop where
  tagByte : frame.tagByte = record.tagByte
  micros : frame.micros = 0
  body : frame.body = record.body width

/-- Records whose lengths have room are written as frames. -/
theorem exists_frames (h : ∀ record ∈ records, (record.body width).length < 2 ^ 32) :
    ∃ frames, List.Forall₂ (IsFrame width) records frames ∧
      records.flatMap (·.toBytes width) = frames.flatMap Frame.toBytes := by
  induction records with
  | nil => exact ⟨[], .nil, rfl⟩
  | cons record records ih =>
    obtain ⟨hlength, hrest⟩ := List.forall_mem_cons.mp h
    obtain ⟨frames, hframes, hbytes⟩ := ih hrest
    let frame : Frame := ⟨record.tagByte, 0, record.body width, hlength⟩
    have hframe : record.toBytes width = frame.toBytes := by
      rw [toBytes, Record.toBytes, List.append_assoc]
      rfl
    refine ⟨frame :: frames, .cons ⟨rfl, rfl, rfl⟩ hframes, ?_⟩
    rw [List.flatMap_cons, List.flatMap_cons, hbytes, hframe]

/-- The entry of a drafted record has its items as sub-records. -/
theorem readAs_of_entry (hfits : record.Fits width) {frame : Frame} (hframe : IsFrame width record frame)
    {entry : Entry} (hentry : entry.Of source width frame) :
    List.Forall₂ (DraftItem.ReadAs source width) record.items entry.contents.subRecords := by
  obtain ⟨hcomposed, hlength, hitems⟩ := hfits
  obtain ⟨htagByte, -, hbody⟩ := hframe
  have hheap : ∀ items, record.items = items → record.body width = itemBytes width items →
      frame.IsHeap → List.Forall₂ (DraftItem.ReadAs source width) items entry.contents.subRecords := by
    intro items hrecord hwritten hheap
    rw [hwritten] at hlength hbody
    rw [hrecord] at hitems
    have hat := hentry.isAt.hasAt_body
    have hstop := hentry.isAt.stop
    rw [hbody] at hat hstop
    obtain ⟨-, hlisted⟩ := listFrom_itemBytes (fun item hitem => (hitems item hitem).1) hlength hat
      hstop (Nat.le_sub_of_add_le' (Nat.le_of_eq hstop))
    rw [hentry.subRecords hheap]
    exact DraftItem.forall₂_readAs hat hlength hlisted
  have hother : ∀ tag, record.tagByte = RecordTag.byte tag → record.items = [] →
      tag ∉ [RecordTag.heapDump, .heapDumpSegment] →
      List.Forall₂ (DraftItem.ReadAs source width) record.items entry.contents.subRecords := by
    intro tag hbyte hnone htag
    have hframe : frame.tag? = some tag := by
      rw [Frame.tag?, htagByte, hbyte, RecordTag.ofByte?_byte]
    have hnot : ¬frame.IsHeap := by
      rintro (hheap | hheap) <;> rw [hframe] at hheap <;> cases hheap <;> exact htag (by decide)
    rw [hnone, Frame.subRecords_eq_nil hnot hentry.contents]
    exact .nil
  cases record with
  | heapDump items => exact hheap items rfl rfl (.inl (by rw [Frame.tag?, htagByte]; rfl))
  | segment items => exact hheap items rfl rfl (.inr (by rw [Frame.tag?, htagByte]; rfl))
  | text id content => exact hother .utf8 rfl rfl (by decide)
  | loadClass load => exact hother .loadClass rfl rfl (by decide)
  | unloadClass serial => exact hother .unloadClass rfl rfl (by decide)
  | frame entry => exact hother .stackFrame rfl rfl (by decide)
  | trace entry => exact hother .stackTrace rfl rfl (by decide)
  | heapDumpEnd => exact hother .heapDumpEnd rfl rfl (by decide)
  | raw tagByte body => cases hcomposed

/-- The entries of drafted records have their items as sub-records. -/
theorem readAs_of_entries (hfits : ∀ record ∈ records, record.Fits width) {frames : List Frame}
    (hframes : List.Forall₂ (IsFrame width) records frames) {entries : List Entry}
    (hentries : List.Forall₂ (Entry.Of source width) entries frames) :
    List.Forall₂ (DraftItem.ReadAs source width) (records.flatMap (·.items))
      (entries.flatMap (·.contents.subRecords)) := by
  induction hframes generalizing entries with
  | nil =>
    cases hentries
    exact .nil
  | cons hframe _ ih =>
    obtain ⟨hfirst, hrest⟩ := List.forall_mem_cons.mp hfits
    cases hentries with
    | cons hentry hentries =>
      rw [List.flatMap_cons, List.flatMap_cons]
      exact List.rel_append (readAs_of_entry hfirst hframe hentry) (ih hrest hentries)

end DraftRecord

/-! ### Drafts -/

namespace Draft

/-- Everything in the heap dump bodies of a draft. -/
def items (draft : Draft) : List DraftItem :=
  draft.records.flatMap (·.items)

/-- The identifiers of all objects of a draft. -/
def objectIds (draft : Draft) : List Ident :=
  draft.items.filterMap (·.objectId?)

/-- What a draft must be like to come back: its label holds no NUL, its records have room, and no two of
its objects share an identifier. -/
structure Fits (draft : Draft) : Prop where
  label : '\x00' ∉ draft.label.toList
  records : ∀ record ∈ draft.records, record.Fits draft.idWidth
  distinct : draft.objectIds.Nodup
  nonNull : Ident.null ∉ draft.objectIds

/-- A graph is that of some entries, which have just the items of a draft as sub-records. -/
structure Listed (draft : Draft) (graph : ObjectGraph) (entries : List Entry) : Prop where
  fits : draft.Fits
  idWidth : graph.idWidth = draft.idWidth
  inside : ∀ entry ∈ entries, ∀ subRecord ∈ entry.contents.subRecords,
    subRecord.Inside graph.source graph.idWidth
  readAs : List.Forall₂ (DraftItem.ReadAs graph.source graph.idWidth) draft.items
    (entries.flatMap (·.contents.subRecords))
  strings : graph.strings = (Census.ofEntries entries).strings
  table : graph.toObjectTable = (Census.ofEntries entries).table.link
  layouts : graph.layouts = graph.toObjectTable.layouts graph.idWidth

/-- The dump that a draft describes has the items of the draft, if it is accepted. -/
theorem Fits.exists_listed {draft : Draft} (hfits : draft.Fits) {graph : ObjectGraph}
    (h : ObjectGraph.read (.ofBytes draft.toBytes.toByteArray) = .ok graph) :
    ∃ entries, draft.Listed graph entries := by
  have lawful := ByteSource.lawful_ofBytes draft.toBytes.toByteArray
  obtain ⟨header, hheader, hentries, -, rfl⟩ := ObjectGraph.exists_of_read lawful h
  obtain ⟨hwidth, hoffset⟩ := Header.read_toBytes hfits.label hheader
  obtain ⟨frames, hframes, hbytes⟩ :=
    DraftRecord.exists_frames fun record hrecord => (hfits.records record hrecord).2.1
  have hframed : Framed draft.toBytes.toByteArray header frames := by
    refine ⟨hheader, ?_⟩
    rw [List.data_toByteArray, toBytes, hoffset, List.drop_left, hbytes]
  have hof := Entry.list_of hframed ((Entry.list_failure_iff hframed).mp hentries)
  rw [hwidth] at hof
  have hreadAs := DraftRecord.readAs_of_entries hfits.records hframes hof
  rw [← hwidth] at hreadAs
  exact ⟨_, hfits, hwidth, Entry.list_inside lawful header, hreadAs, rfl, rfl, rfl⟩

end Draft

end HeapDump

import HeapDump.Proofs.ObjectGraph.Index
import HeapDump.Proofs.ObjectGraph.Latest
import HeapDump.Proofs.ObjectGraph.Lineage

/-! What the scan of a dump reports.  A census has a note for each object with the identifier of an earlier
one and for each record that is skipped, and no others. -/

namespace HeapDump

namespace Diagnostic

/-- What a diagnostic is about. -/
inductive Topic
  | opened
  | unknownRecord
  | unusedRecord
  | duplicateObject
  | missingFrame
  | missingSuperclass
  | withoutClass
  | superclassCycle
  | otherSize
  | finished
deriving DecidableEq, Repr

def topic : Diagnostic → Topic
  | opened _ _ => .opened
  | unknownRecord _ _ _ => .unknownRecord
  | unusedRecord _ _ => .unusedRecord
  | duplicateObject _ => .duplicateObject
  | missingFrame _ _ => .missingFrame
  | missingSuperclass _ _ => .missingSuperclass
  | withoutClass _ => .withoutClass
  | superclassCycle _ => .superclassCycle
  | otherSize _ _ _ _ => .otherSize
  | finished _ _ _ _ => .finished

/-- The diagnostics about a topic, in order. -/
def about (topic : Topic) (notes : List Diagnostic) : List Diagnostic :=
  notes.filter (·.topic = topic)

variable {topic : Topic} {notes : List Diagnostic}

theorem about_append (topic : Topic) (notes notes' : List Diagnostic) :
    about topic (notes ++ notes') = about topic notes ++ about topic notes' :=
  List.filter_append ..

theorem about_of_topic (h : ∀ d ∈ notes, d.topic = topic) (other : Topic) :
    about other notes = if topic = other then notes else [] := by
  split
  · next heq =>
    refine List.filter_eq_self.mpr fun d hd => ?_
    rw [h d hd, heq, decide_eq_true rfl]
  · next hne =>
    refine List.filter_eq_nil_iff.mpr fun d hd => ?_
    rw [h d hd, decide_eq_true_eq]
    exact hne

theorem about_filterMap {α : Type} (topic : Topic) (note? : α → Option Diagnostic) (items : List α) :
    about topic (items.filterMap note?) =
      items.filterMap fun a => (note? a).filter (·.topic = topic) :=
  List.filter_filterMap ..

end Diagnostic

open Diagnostic

/-! ### Objects with the identifier of an earlier one -/

namespace SubRecord

/-- The identifiers of objects that an object before them has, object by object. -/
def repeatedIds (subRecords : List SubRecord) : List Ident :=
  subRecords.zipIdx.filterMap fun (s, n) =>
    s.objectId?.filter (· ∈ (subRecords.take n).filterMap (·.objectId?))

theorem repeatedIds_append_singleton (subRecords : List SubRecord) (subRecord : SubRecord) :
    repeatedIds (subRecords ++ [subRecord]) = repeatedIds subRecords ++
      (subRecord.objectId?.filter (· ∈ subRecords.filterMap (·.objectId?))).toList := by
  rw [repeatedIds, List.zipIdx_append, List.filterMap_append]
  congr 1
  · refine List.filterMap_congr fun (s, n) hentry => ?_
    have hlt : n < subRecords.length := by simpa using List.snd_lt_of_mem_zipIdx hentry
    dsimp only
    rw [List.take_append_of_le_length (Nat.le_of_lt hlt)]
  · rw [List.zipIdx_singleton, Nat.zero_add, List.filterMap_cons, List.filterMap_nil]
    dsimp only
    rw [List.take_left]
    cases subRecord.objectId?.filter (· ∈ subRecords.filterMap (·.objectId?)) <;> rfl

end SubRecord

namespace Census

variable {census : Census} {subRecords : List SubRecord}

theorem notes_enter (census : Census) (id : Ident) (slot : Slot) :
    (census.enter id slot).notes.toList = census.notes.toList ++
      if id ∈ census.index then [.duplicateObject id] else [] := by
  unfold enter
  split
  · exact Array.toList_push
  · exact (List.append_nil _).symm

theorem notes_addSubRecord (census : Census) (subRecord : SubRecord) :
    (census.addSubRecord subRecord).notes.toList = census.notes.toList ++
      (subRecord.objectId?.filter (· ∈ census.index)).toList.map .duplicateObject := by
  rw [← subRecord.map_id_object? census.currentHeap.id]
  cases hobject : subRecord.object? census.currentHeap.id with
  | some object =>
    rw [addSubRecord_of_object? hobject, addObject_eq, notes_enter, Option.map_some,
      Option.filter_some]
    show census.notes.toList ++ (if object.id ∈ census.index then _ else _) = _
    congr 1
    by_cases hid : object.id ∈ census.index
    · simp [hid]
    · simp [hid]
  | none =>
    rw [Option.map_none, Option.filter_none, Option.toList_none, List.map_nil, List.append_nil]
    cases subRecord with
    | root root => rfl
    | thread thread =>
      show (census.addThread thread).notes.toList = _
      unfold addThread
      split <;> rfl
    | heapSwitch info =>
      show (census.switchHeap info).notes.toList = _
      unfold switchHeap
      dsimp only
      split <;> rfl
    | _ => cases hobject

theorem topic_of_mem_duplicates (ids : List Ident) :
    ∀ d ∈ ids.map Diagnostic.duplicateObject, d.topic = .duplicateObject := by
  intro d hd
  obtain ⟨id, -, rfl⟩ := List.mem_map.mp hd
  rfl

/-- A census of some sub-records has a note for each object with the identifier of an earlier one. -/
structure Noted (subRecords : List SubRecord) (census : Census) : Prop where
  sorted : Sorted subRecords census
  indexed : Indexed subRecords census
  duplicates : about .duplicateObject census.notes.toList =
    (SubRecord.repeatedIds subRecords).map .duplicateObject

theorem Noted.addSubRecord (h : Noted subRecords census) (subRecord : SubRecord) :
    Noted (subRecords ++ [subRecord]) (census.addSubRecord subRecord) := by
  refine ⟨h.sorted.addSubRecord subRecord, h.indexed.addSubRecord h.sorted subRecord, ?_⟩
  rw [notes_addSubRecord, about_append, h.duplicates, SubRecord.repeatedIds_append_singleton,
    List.map_append]
  rw [about_of_topic (topic_of_mem_duplicates _), if_pos rfl]
  simp only [h.indexed.mem_iff]

theorem Noted.same (h : Noted subRecords census) {after : Census} (hsame : SameObjects census after)
    (hnotes : about .duplicateObject after.notes.toList =
      about .duplicateObject census.notes.toList) : Noted subRecords after :=
  ⟨h.sorted.same hsame, h.indexed.same hsame, hnotes.trans h.duplicates⟩

theorem noted_empty : Noted [] empty := ⟨sorted_empty, indexed_empty, rfl⟩

theorem Noted.foldl (h : Noted subRecords census) (back : List SubRecord) :
    Noted (subRecords ++ back) (back.foldl Census.addSubRecord census) := by
  induction back generalizing subRecords census with
  | nil => rwa [List.append_nil]
  | cons subRecord back ih =>
    rw [List.append_cons]
    exact ih (h.addSubRecord subRecord)

theorem notes_countRecord (census : Census) (record : Record) :
    (census.countRecord record).notes = census.notes := by
  unfold countRecord
  split <;> rfl

theorem about_push (topic : Topic) (notes : Array Diagnostic) (d : Diagnostic) :
    about topic (notes.push d).toList =
      about topic notes.toList ++ if d.topic = topic then [d] else [] := by
  have hd : about topic [d] = if d.topic = topic then [d] else [] :=
    about_of_topic (by simp) topic
  rw [Array.toList_push, about_append, hd]

theorem Noted.add (h : Noted subRecords census) (entry : Entry) :
    Noted (subRecords ++ entry.contents.subRecords) (census.add entry) := by
  have hcounted : Noted subRecords (census.countRecord entry.record) :=
    h.same (sameObjects_countRecord census entry.record) (by rw [notes_countRecord])
  unfold Census.add
  cases entry.contents with
  | heapDump back => exact hcounted.foldl back
  | unused | unknown =>
    show Noted (subRecords ++ []) _
    rw [List.append_nil]
    refine hcounted.same ⟨rfl, rfl, rfl, rfl⟩ ?_
    exact (about_push _ _ _).trans (List.append_nil _)
  | _ =>
    show Noted (subRecords ++ []) _
    rw [List.append_nil]
    exact hcounted.same ⟨rfl, rfl, rfl, rfl⟩ rfl

theorem noted_ofEntries (entries : List Entry) :
    Noted (entries.flatMap (·.contents.subRecords)) (ofEntries entries) := by
  induction entries using List.reverseRecOn with
  | nil => exact noted_empty
  | append_singleton entries entry ih =>
    rw [List.flatMap_append, List.flatMap_singleton, ofEntries, List.foldl_append]
    exact ih.add entry

end Census

/-! ### Records that are skipped -/

/-- The note about an entry that is skipped. -/
def Entry.note? (entry : Entry) : Option Diagnostic :=
  match entry.contents with
  | .unused tag => some (.unusedRecord tag entry.record.offset)
  | .unknown =>
    some (.unknownRecord entry.record.tagByte entry.record.offset entry.record.bodyLength)
  | _ => none

/-- The note about a record of an unknown tag. -/
def Record.unknownNote? (record : Record) : Option Diagnostic :=
  if record.tag? = none then some (.unknownRecord record.tagByte record.offset record.bodyLength)
  else none

namespace Census

theorem about_notes_foldl {topic : Topic} (htopic : topic ≠ .duplicateObject) (census : Census)
    (subRecords : List SubRecord) :
    about topic (subRecords.foldl addSubRecord census).notes.toList =
      about topic census.notes.toList := by
  induction subRecords generalizing census with
  | nil => rfl
  | cons subRecord subRecords ih =>
    rw [List.foldl_cons, ih, notes_addSubRecord, about_append,
      about_of_topic (topic_of_mem_duplicates _), if_neg (Ne.symm htopic), List.append_nil]

theorem about_notes_add {topic : Topic} (htopic : topic ≠ .duplicateObject) (census : Census)
    (entry : Entry) : about topic (census.add entry).notes.toList =
      about topic census.notes.toList ++ about topic entry.note?.toList := by
  rw [← notes_countRecord census entry.record, Census.add, Entry.note?]
  cases entry.contents with
  | heapDump back => exact (about_notes_foldl htopic _ back).trans (List.append_nil _).symm
  | unused | unknown =>
    refine (about_push _ _ _).trans ?_
    simp [about, List.filter_singleton]
  | _ => exact (List.append_nil _).symm

/-- Besides repeated identifiers a census has notes about entries that are skipped. -/
theorem about_notes_ofEntries {topic : Topic} (htopic : topic ≠ .duplicateObject)
    (entries : List Entry) : about topic (ofEntries entries).notes.toList =
      about topic (entries.filterMap (·.note?)) := by
  induction entries using List.reverseRecOn with
  | nil => rfl
  | append_singleton entries entry ih =>
    rw [List.filterMap_append, about_append, ← ih, ofEntries, List.foldl_append]
    refine (about_notes_add htopic (ofEntries entries) entry).trans ?_
    rw [List.filterMap_cons, List.filterMap_nil]
    cases entry.note? <;> rfl

/-- A census has no notes about anything but records that are skipped and repeated identifiers. -/
theorem about_notes_eq_nil {topic : Topic}
    (htopic : topic ∉ [Topic.duplicateObject, .unknownRecord, .unusedRecord])
    (entries : List Entry) : about topic (ofEntries entries).notes.toList = [] := by
  simp only [List.mem_cons, List.not_mem_nil, or_false, not_or] at htopic
  obtain ⟨hduplicate, hunknown, hunused⟩ := htopic
  rw [about_notes_ofEntries hduplicate]
  refine List.filter_eq_nil_iff.mpr fun d hd hsame => ?_
  obtain ⟨entry, -, hnote⟩ := List.mem_filterMap.mp hd
  have htopic : d.topic = topic := of_decide_eq_true hsame
  unfold Entry.note? at hnote
  split at hnote
  · cases hnote
    exact hunused htopic.symm
  · cases hnote
    exact hunknown htopic.symm
  · cases hnote

end Census

namespace Entry

variable {source : ByteSource} {width : IdWidth}

theorem exists_unknownNote {record : Record} (h : (read source width record).failure = none) :
    ∃ entry, (read source width record).items = [entry] ∧
      entry.note?.filter (·.topic = .unknownRecord) = record.unknownNote? := by
  unfold read at h ⊢
  unfold Record.unknownNote?
  dsimp only at h ⊢
  cases htag : record.tag? with
  | none => exact ⟨_, rfl, rfl⟩
  | some tag =>
    rw [htag] at h
    cases tag with
    | utf8 | loadClass | unloadClass | stackFrame | stackTrace =>
      obtain ⟨a, -, hitems⟩ := exists_ok_of_ofExcept h
      exact ⟨_, hitems, rfl⟩
    | _ => exact ⟨_, rfl, rfl⟩

/-- The unknown entries of a dump all of whose records can be read. -/
theorem about_unknown_of_accepted {header : Header} (h : (list source header).failure = none) :
    about .unknownRecord ((list source header).items.filterMap (·.note?)) =
      (Record.list source header).items.filterMap (·.unknownNote?) := by
  rw [about_filterMap]
  exact filterMap_eq_of_forall₂ (fun _ _ hnote => hnote)
    (Listing.forall₂_collect (fun _ => exists_unknownNote) h)

end Entry

end HeapDump

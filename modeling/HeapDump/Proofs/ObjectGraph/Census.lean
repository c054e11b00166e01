import HeapDump.ObjectGraph.Census
import HeapDump.Proofs.SubRecord.Bounds
import Mathlib.Data.List.Induction

/-! What a census keeps.  The index gives each identifier a place, and an object with that identifier is
there; every object has an identifier that the index knows; and every instance points into the dump.
An object comes to a new place and leaves the other places as they were, so each sub-record keeps all
this.  What each sub-record keeps and nothing else touches is true of every census. -/

namespace HeapDump

def Instance.Inside (source : ByteSource) (width : IdWidth) : Instance → Prop
  | plain i => i.offset + i.length.toNat ≤ source.size
  | array a => ∀ offset, a.offset = some offset → offset + a.contentsLength width ≤ source.size

/-- An object while the heaps are being filled. -/
inductive CensusObject
  | classDump (dump : ClassDump)
  | instance (i : Instance)

def CensusObject.id : CensusObject → Ident
  | classDump dump => dump.id
  | .instance i => i.id

def HeapCensus.at? (heap : HeapCensus) : Slot → Option CensusObject
  | .classSlot i => heap.classes[i]?.map .classDump
  | .instanceSlot i => heap.instances[i]?.map .instance

namespace Census

def at? (census : Census) (location : Location) : Option CensusObject :=
  census.heaps[location.heap]?.bind (·.at? location.slot)

/-! ### Reading on -/

/-- Counts of records, texts and the like aside, nothing has changed. -/
structure SameObjects (census after : Census) : Prop where
  heaps : after.heaps = census.heaps
  current : after.current = census.current
  index : after.index = census.index
  rootCounts : after.rootCounts = census.rootCounts

theorem sameObjects_countRecord (census : Census) (record : Record) :
    SameObjects census (census.countRecord record) := by
  unfold countRecord
  split <;> exact ⟨rfl, rfl, rfl, rfl⟩

/-- What is true of the sub-records read so far and their census: it is at first, each sub-record keeps it,
and it is about the objects only. -/
structure Invariant (P : List SubRecord → Census → Prop) : Prop where
  empty : P [] empty
  same : ∀ {subRecords census after}, P subRecords census → SameObjects census after →
    P subRecords after
  step : ∀ {subRecords census} (subRecord : SubRecord), P subRecords census →
    P (subRecords ++ [subRecord]) (census.addSubRecord subRecord)

section Invariant

variable {P : List SubRecord → Census → Prop} (invariant : Invariant P) {subRecords : List SubRecord}
  {census : Census}
include invariant

theorem Invariant.foldl (h : P subRecords census) (back : List SubRecord) :
    P (subRecords ++ back) (back.foldl addSubRecord census) := by
  induction back generalizing subRecords census with
  | nil => rwa [List.append_nil]
  | cons subRecord back ih =>
    rw [List.append_cons]
    exact ih (invariant.step subRecord h)

theorem Invariant.countRecord (h : P subRecords census) (record : Record) :
    P subRecords (census.countRecord record) :=
  invariant.same h (sameObjects_countRecord census record)

theorem Invariant.add (h : P subRecords census) (entry : Entry) :
    P (subRecords ++ entry.contents.subRecords) (census.add entry) := by
  have hcounted := invariant.countRecord h entry.record
  unfold Census.add
  cases entry.contents with
  | heapDump back => exact invariant.foldl hcounted back
  | _ =>
    simp only [EntryContents.subRecords, List.append_nil]
    exact invariant.same hcounted ⟨rfl, rfl, rfl, rfl⟩

theorem Invariant.ofEntries (entries : List Entry) :
    P (entries.flatMap (·.contents.subRecords)) (ofEntries entries) := by
  induction entries using List.reverseRecOn with
  | nil => exact invariant.empty
  | append_singleton entries entry ih =>
    rw [List.flatMap_append, List.flatMap_singleton, Census.ofEntries, List.foldl_append]
    exact invariant.add ih entry

end Invariant

/-! ### Objects and their places -/

structure Consistent (source : ByteSource) (width : IdWidth) (census : Census) : Prop where
  index : ∀ id location, census.index[id]? = some location →
    ∃ object, census.at? location = some object ∧ object.id = id
  entered : ∀ location object, census.at? location = some object → object.id ∈ census.index
  inside : ∀ location i, census.at? location = some (.instance i) → i.Inside source width

variable {source : ByteSource} {width : IdWidth} {census : Census}

theorem Consistent.of_eq (h : census.Consistent source width) {after : Census}
    (hat : ∀ location, after.at? location = census.at? location)
    (hindex : after.index = census.index) : after.Consistent source width := by
  constructor
  · intro id location hid
    rw [hindex] at hid
    rw [hat]
    exact h.index id location hid
  · intro location object hobject
    rw [hat] at hobject
    rw [hindex]
    exact h.entered location object hobject
  · intro location i hi
    rw [hat] at hi
    exact h.inside location i hi

/-- An object at a new place is entered under its identifier, unless there is one before it. -/
theorem Consistent.enter (h : census.Consistent source width) {after : Census} {slot : Slot}
    {object : CensusObject} (hnew : census.at? ⟨after.current, slot⟩ = none)
    (hat : ∀ location, after.at? location =
      if location = ⟨after.current, slot⟩ then some object else census.at? location)
    (hindex : after.index = census.index)
    (hinside : ∀ i, object = .instance i → i.Inside source width) :
    (after.enter object.id slot).Consistent source width := by
  have hkeep : ∀ location o, census.at? location = some o → after.at? location = some o := by
    intro location o ho
    rw [hat, if_neg, ho]
    rintro rfl
    rw [hnew] at ho
    cases ho
  have hlast : after.at? ⟨after.current, slot⟩ = some object := by rw [hat, if_pos rfl]
  have hallInside : ∀ location i, after.at? location = some (.instance i) →
      i.Inside source width := by
    intro location i hi
    rw [hat] at hi
    split at hi
    · exact hinside i (Option.some.inj hi)
    · exact h.inside location i hi
  rw [Census.enter]
  split
  · next hknown =>
    refine ⟨fun id location hid => ?_, fun location o ho => ?_, hallInside⟩
    · change after.index[id]? = some location at hid
      rw [hindex] at hid
      obtain ⟨o, ho, hoid⟩ := h.index id location hid
      exact ⟨o, hkeep location o ho, hoid⟩
    · change after.at? location = some o at ho
      change o.id ∈ after.index
      rw [hat] at ho
      split at ho
      · cases ho
        exact hknown
      · rw [hindex]
        exact h.entered location o ho
  · next hfresh =>
    refine ⟨fun id location hid => ?_, fun location o ho => ?_, hallInside⟩
    · change (after.index.insert object.id ⟨after.current, slot⟩)[id]? = some location at hid
      rw [Std.TreeMap.getElem?_insert] at hid
      split at hid
      · next heq =>
        rw [Std.LawfulEqOrd.compare_eq_iff_eq] at heq
        cases hid
        exact ⟨object, hlast, heq⟩
      · rw [hindex] at hid
        obtain ⟨o, ho, hoid⟩ := h.index id location hid
        exact ⟨o, hkeep location o ho, hoid⟩
    · change after.at? location = some o at ho
      change o.id ∈ after.index.insert object.id ⟨after.current, slot⟩
      rw [Std.TreeMap.mem_insert, Std.LawfulEqOrd.compare_eq_iff_eq]
      rw [hat] at ho
      split at ho
      · cases ho
        exact .inl rfl
      · rw [hindex]
        exact .inr (h.entered location o ho)

/-! ### One object more -/

theorem at?_current (census : Census) (slot : Slot) :
    census.at? ⟨census.current, slot⟩ = census.currentHeap.at? slot := by
  rw [at?, Array.getElem?_eq_getElem census.current_lt]
  rfl

theorem at?_modifyHeap (census : Census) (f : HeapCensus → HeapCensus) (location : Location) :
    (census.modifyHeap f).at? location =
      if location.heap = census.current then (f census.currentHeap).at? location.slot
      else census.at? location := by
  rw [at?, modifyHeap, Array.getElem?_modify]
  by_cases hheap : census.current = location.heap
  · rw [if_pos hheap, if_pos hheap.symm, ← hheap, Array.getElem?_eq_getElem census.current_lt]
    rfl
  · rw [if_neg hheap, if_neg (Ne.symm hheap)]
    rfl

theorem at?_modifyHeap_push {f : HeapCensus → HeapCensus} {slot : Slot} {object : CensusObject}
    (hpush : ∀ s, (f census.currentHeap).at? s =
      if s = slot then some object else census.currentHeap.at? s) (location : Location) :
    (census.modifyHeap f).at? location =
      if location = ⟨census.current, slot⟩ then some object else census.at? location := by
  rw [at?_modifyHeap]
  obtain ⟨heap, s⟩ := location
  by_cases hheap : heap = census.current
  · subst hheap
    rw [if_pos rfl, hpush, at?_current]
    simp only [Location.mk.injEq, true_and]
  · rw [if_neg hheap, if_neg]
    rintro ⟨⟩
    exact hheap rfl

theorem Consistent.addObject (h : census.Consistent source width) {f : HeapCensus → HeapCensus}
    {slot : Slot} {object : CensusObject} (hnew : census.currentHeap.at? slot = none)
    (hpush : ∀ s, (f census.currentHeap).at? s =
      if s = slot then some object else census.currentHeap.at? s)
    (hinside : ∀ i, object = .instance i → i.Inside source width) :
    ((census.modifyHeap f).enter object.id slot).Consistent source width := by
  apply h.enter
  · exact (at?_current census slot).trans hnew
  · exact at?_modifyHeap_push hpush
  · rfl
  · exact hinside

theorem Consistent.addClass (h : census.Consistent source width) (dump : ClassDump) :
    (census.addClass dump).Consistent source width := by
  show ((census.modifyHeap _).enter (CensusObject.classDump dump).id _).Consistent source width
  apply h.addObject
  · simp [HeapCensus.at?]
  · rintro (i | i)
    · simp only [HeapCensus.at?, Array.getElem?_push, Slot.classSlot.injEq]
      split <;> rfl
    · simp [HeapCensus.at?]
  · rintro i ⟨⟩

theorem Consistent.addInstance (h : census.Consistent source width) {i : Instance}
    (hinside : i.Inside source width) : (census.addInstance i).Consistent source width := by
  show ((census.modifyHeap _).enter (CensusObject.instance i).id _).Consistent source width
  apply h.addObject
  · simp [HeapCensus.at?]
  · rintro (j | j)
    · simp [HeapCensus.at?]
    · simp only [HeapCensus.at?, Array.getElem?_push, Slot.instanceSlot.injEq]
      split <;> rfl
  · rintro j ⟨⟩
    exact hinside

/-! ### Everything else -/

theorem Consistent.modifyHeap (h : census.Consistent source width)
    {f : HeapCensus → HeapCensus}
    (hf : ∀ slot, (f census.currentHeap).at? slot = census.currentHeap.at? slot) :
    (census.modifyHeap f).Consistent source width := by
  apply h.of_eq
  · intro location
    rw [at?_modifyHeap]
    split
    · next hheap => rw [hf, ← at?_current, ← hheap]
    · rfl
  · rfl

theorem Consistent.addRoot (h : census.Consistent source width) (root : Root) :
    (census.addRoot root).Consistent source width :=
  (h.modifyHeap fun slot => by cases slot <;> rfl).of_eq (fun _ => rfl) rfl

theorem Consistent.addThread (h : census.Consistent source width) (thread : ThreadObject) :
    (census.addThread thread).Consistent source width := by
  unfold Census.addThread
  split
  · exact h.of_eq (fun _ => rfl) rfl
  · next object _ =>
    have hthread : Consistent source width
        { census with threads := census.threads.insert thread.thread thread } :=
      h.of_eq (fun _ => rfl) rfl
    exact hthread.addRoot ⟨object, .threadObject thread.thread⟩

theorem Consistent.switchHeap (h : census.Consistent source width) (info : HeapSwitch) :
    (census.switchHeap info).Consistent source width := by
  unfold Census.switchHeap
  apply Consistent.modifyHeap
  · split
    · exact h.of_eq (fun _ => rfl) rfl
    · refine h.of_eq (fun location => ?_) rfl
      show (census.heaps.push (.empty info.heap))[location.heap]?.bind _ = _
      rw [Array.getElem?_push]
      split
      · next hheap =>
        rw [at?, hheap, Array.getElem?_size]
        obtain ⟨heap, slot⟩ := location
        cases slot <;> rfl
      · rfl
  · intro slot
    cases slot <;> rfl

theorem Consistent.addSubRecord (h : census.Consistent source width) {subRecord : SubRecord}
    (hinside : subRecord.Inside source width) :
    (census.addSubRecord subRecord).Consistent source width := by
  cases subRecord with
  | root root => exact h.addRoot root
  | thread thread => exact h.addThread thread
  | heapSwitch info => exact h.switchHeap info
  | classDump dump => exact h.addClass dump
  | «instance» dump => exact h.addInstance hinside
  | objectArray dump =>
    apply h.addInstance
    rintro offset ⟨⟩
    exact hinside
  | primitiveArray dump => exact h.addInstance hinside

theorem empty_consistent : empty.Consistent source width := by
  have hnone : ∀ location, empty.at? location = none := by
    rintro ⟨heap, slot⟩
    rcases heap with _ | heap
    · cases slot <;> rfl
    · rfl
  constructor
  · intro id location h
    rw [show empty.index = ∅ from rfl, Std.TreeMap.getElem?_emptyc] at h
    cases h
  · intro location object h
    rw [hnone] at h
    cases h
  · intro location i h
    rw [hnone] at h
    cases h

theorem invariant_consistent : Invariant fun subRecords census =>
    (∀ subRecord ∈ subRecords, subRecord.Inside source width) → census.Consistent source width where
  empty _ := empty_consistent
  same h hsame hinside := (h hinside).of_eq (fun _ => by rw [at?, at?, hsame.heaps]) hsame.index
  step subRecord h hinside := by
    obtain ⟨hfront, hlast⟩ := List.forall_mem_append.mp hinside
    exact (h hfront).addSubRecord (hlast subRecord (List.mem_singleton.mpr rfl))

theorem ofEntries_consistent {entries : List Entry}
    (hinside : ∀ entry ∈ entries, ∀ subRecord ∈ entry.contents.subRecords,
      subRecord.Inside source width) : (ofEntries entries).Consistent source width := by
  refine invariant_consistent.ofEntries entries fun subRecord hmem => ?_
  obtain ⟨entry, hentry, hsubRecord⟩ := List.mem_flatMap.mp hmem
  exact hinside entry hentry subRecord hsubRecord

end Census

end HeapDump

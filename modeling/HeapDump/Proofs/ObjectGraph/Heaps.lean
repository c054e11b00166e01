import HeapDump.Proofs.ObjectGraph.Links

/-! Heaps as they are read.  A dump has its default heap and those that it switches to, in the order in
which it first does so.  Each heap holds what stands behind a switch to it and before the next switch,
in whatever bodies that is, and the counts of a graph are those of its records and roots. -/

namespace HeapDump

theorem eraseDups_append_singleton {α : Type} [DecidableEq α] (as : List α) (a : α) :
    (as ++ [a]).eraseDups = as.eraseDups ++ if a ∈ as then [] else [a] := by
  rw [List.eraseDups_append, List.removeAll, List.filter_singleton]
  by_cases h : a ∈ as
  · simp [h]
  · simp [h, List.eraseDups_cons]

/-! ### Current heaps -/

namespace SubRecord

def switchedTo? : SubRecord → Option UInt32
  | .heapSwitch info => some info.heap
  | _ => none

/-- The root that a sub-record declares.  A thread is a root of its object, if it has one. -/
def root? : SubRecord → Option Root
  | .root declared => some declared
  | .thread info => info.object.map fun object => ⟨object, .threadObject info.thread⟩
  | _ => none

/-- The heap that is current behind some sub-records, which is the one last switched to. -/
def currentHeap (subRecords : List SubRecord) : UInt32 :=
  (subRecords.filterMap (·.switchedTo?)).getLast?.getD Heap.defaultId

/-- The default heap and the heaps switched to, each once, where it comes first. -/
def heapIds (subRecords : List SubRecord) : List UInt32 :=
  (Heap.defaultId :: subRecords.filterMap (·.switchedTo?)).eraseDups

/-- The sub-records that are read while a heap is current. -/
def heldBy (heapId : UInt32) (subRecords : List SubRecord) : List SubRecord :=
  (subRecords.zipIdx.filter fun (_, n) => currentHeap (subRecords.take n) = heapId).map (·.1)

/-- The objects that are read while a heap is current. -/
def objectsIn (heapId : UInt32) (subRecords : List SubRecord) : List CensusObject :=
  (heldBy heapId subRecords).filterMap (·.object? heapId)

variable {subRecords : List SubRecord} {subRecord : SubRecord}

theorem currentHeap_append_singleton (subRecords : List SubRecord) (subRecord : SubRecord) :
    currentHeap (subRecords ++ [subRecord]) = subRecord.heapAfter (currentHeap subRecords) := by
  cases subRecord <;> simp [currentHeap, switchedTo?, heapAfter]

theorem lastHeap_eq (subRecords : List SubRecord) :
    lastHeap Heap.defaultId subRecords = currentHeap subRecords := by
  induction subRecords using List.reverseRecOn with
  | nil => rfl
  | append_singleton subRecords subRecord ih =>
    rw [currentHeap_append_singleton, lastHeap_append, ih]
    rfl

theorem heldBy_append_singleton (heapId : UInt32) (subRecords : List SubRecord)
    (subRecord : SubRecord) : heldBy heapId (subRecords ++ [subRecord]) =
      heldBy heapId subRecords ++ if currentHeap subRecords = heapId then [subRecord] else [] := by
  have hfront : ∀ entry ∈ subRecords.zipIdx,
      decide (currentHeap ((subRecords ++ [subRecord]).take entry.2) = heapId) =
        decide (currentHeap (subRecords.take entry.2) = heapId) := by
    rintro ⟨s, n⟩ hentry
    have hlt : n < subRecords.length := by simpa using List.snd_lt_of_mem_zipIdx hentry
    rw [List.take_append_of_le_length (Nat.le_of_lt hlt)]
  rw [heldBy, List.zipIdx_append, List.filter_append, List.map_append, List.filter_congr hfront]
  refine congrArg (heldBy heapId subRecords ++ ·) ?_
  split <;> simp_all

theorem mem_heapIds {heapId : UInt32} : heapId ∈ heapIds subRecords ↔
    heapId = Heap.defaultId ∨ heapId ∈ subRecords.filterMap (·.switchedTo?) :=
  List.mem_eraseDups.trans List.mem_cons

theorem heapIds_append_singleton (subRecords : List SubRecord) (subRecord : SubRecord) :
    heapIds (subRecords ++ [subRecord]) = heapIds subRecords ++
      (subRecord.switchedTo?.filter (· ∉ heapIds subRecords)).toList := by
  cases hswitch : subRecord.switchedTo? with
  | none => simp [heapIds, hswitch]
  | some heapId =>
    have hconcat : heapIds (subRecords ++ [subRecord]) =
        (Heap.defaultId :: subRecords.filterMap (·.switchedTo?) ++ [heapId]).eraseDups := by
      simp [heapIds, hswitch]
    rw [hconcat, eraseDups_append_singleton]
    refine congrArg (heapIds subRecords ++ ·) ?_
    simp only [Option.filter_some, mem_heapIds, ← List.mem_cons]
    split <;> simp_all

theorem mem_heapIds_append {heapId : UInt32} (h : heapId ∈ heapIds subRecords)
    (back : List SubRecord) : heapId ∈ heapIds (subRecords ++ back) := by
  rw [mem_heapIds, List.filterMap_append, List.mem_append]
  exact (mem_heapIds.mp h).imp_right .inl

theorem currentHeap_mem (subRecords : List SubRecord) :
    currentHeap subRecords ∈ heapIds subRecords := by
  rw [mem_heapIds, currentHeap]
  cases hlast : (subRecords.filterMap (·.switchedTo?)).getLast? with
  | none => exact .inl rfl
  | some heapId => exact .inr (List.mem_of_getLast? hlast)

/-- Nothing is read while a heap is current that is never switched to. -/
theorem heldBy_eq_nil {heapId : UInt32} (h : heapId ∉ heapIds subRecords) :
    heldBy heapId subRecords = [] := by
  induction subRecords using List.reverseRecOn with
  | nil => rfl
  | append_singleton subRecords subRecord ih =>
    have hfront : heapId ∉ heapIds subRecords := fun hmem => h (mem_heapIds_append hmem _)
    rw [heldBy_append_singleton, ih hfront, if_neg]
    · rfl
    · rintro rfl
      exact hfront (currentHeap_mem subRecords)

/-- The objects read while a heap is current are those that belong to it. -/
theorem objectsOf_objects (heapId : UInt32) (subRecords : List SubRecord) :
    objectsOf heapId (objects Heap.defaultId subRecords) = objectsIn heapId subRecords := by
  induction subRecords using List.reverseRecOn with
  | nil => rfl
  | append_singleton subRecords subRecord ih =>
    rw [objects_append, objectsOf_append, ih, lastHeap_eq, objectsIn, objectsIn,
      heldBy_append_singleton, List.filterMap_append]
    congr 1
    by_cases hcurrent : currentHeap subRecords = heapId
    · rw [if_pos hcurrent, hcurrent]
      cases hobject : subRecord.object? heapId <;> simp [objects, objectsOf, hobject]
    · rw [if_neg hcurrent]
      cases hobject : subRecord.object? (currentHeap subRecords) <;>
        simp [objects, objectsOf, hobject, hcurrent]

end SubRecord

instance : Std.LawfulEqOrd RootKind where
  eq_of_compare {a b} h := by
    have hbyte : compare a.byte b.byte = .eq := h
    rw [Std.LawfulEqOrd.compare_eq_iff_eq] at hbyte
    have hfind : ∀ kind : RootKind, RootKind.all.find? (·.byte = kind.byte) = some kind := by
      intro kind
      cases kind <;> rfl
    rw [← Option.some.injEq, ← hfind, hbyte, hfind]

/-! ### Roots -/

namespace Census

/-- The roots of all heaps. -/
def roots (census : Census) : List Root :=
  census.heaps.toList.flatMap (·.roots.toList)

/-- A census of some sub-records: its heaps are theirs, and so are the objects and roots of each heap. -/
structure Sorted (subRecords : List SubRecord) (census : Census) : Prop where
  filed : Filed (SubRecord.objects Heap.defaultId subRecords) census
  current : census.currentHeap.id = SubRecord.currentHeap subRecords
  ids : census.heaps.toList.map (·.id) = SubRecord.heapIds subRecords
  roots : ∀ heap ∈ census.heaps,
    heap.roots.toList = (SubRecord.heldBy heap.id subRecords).filterMap (·.root?)
  rootCounts : ∀ kind, census.rootCounts.getD kind 0 =
    census.roots.countP (·.origin.kind = kind)

variable {census : Census} {subRecords : List SubRecord}

theorem roots_congr {census census' : Census} (hheaps : census.heaps = census'.heaps) :
    census.roots = census'.roots := by
  rw [roots, roots, hheaps]

theorem countP_roots_modifyHeap (census : Census) {f : HeapCensus → HeapCensus} {added : List Root}
    (hroots : (f census.currentHeap).roots.toList = census.currentHeap.roots.toList ++ added)
    (p : Root → Bool) :
    (census.modifyHeap f).roots.countP p = census.roots.countP p + added.countP p := by
  have hlt : census.current < census.heaps.toList.length := census.current_lt
  obtain ⟨before, heap, after, hheaps, hlength, hmodify⟩ := List.exists_of_modify f hlt
  have hheap : heap = census.currentHeap := by
    have hget := getElem?_current census
    rw [← Array.getElem?_toList, hheaps, ← hlength, List.getElem?_append_right (Nat.le_refl _),
      Nat.sub_self] at hget
    exact Option.some.inj hget
  rw [roots, roots, modifyHeap, Array.toList_modify, hmodify, hheaps]
  simp only [List.flatMap_append, List.flatMap_cons, List.countP_append]
  rw [hheap, hroots, List.countP_append]
  omega

theorem rootCounts_enter (census : Census) (id : Ident) (slot : Slot) :
    (census.enter id slot).rootCounts = census.rootCounts := by
  unfold enter
  split <;> rfl

/-- A sub-record that does not switch adds at most a root, and that to the current heap. -/
theorem exists_modifyHeap (census : Census) {subRecord : SubRecord}
    (h : subRecord.switchedTo? = none) :
    ∃ f : HeapCensus → HeapCensus,
      (census.addSubRecord subRecord).heaps = (census.modifyHeap f).heaps ∧
      (∀ heap, (f heap).id = heap.id ∧
        (f heap).roots.toList = heap.roots.toList ++ subRecord.root?.toList) ∧
      (census.addSubRecord subRecord).rootCounts =
        subRecord.root?.elim census.rootCounts (bump census.rootCounts ·.origin.kind) := by
  have hsame : ∀ heap : HeapCensus, heap.roots.toList = heap.roots.toList ++ [] :=
    fun heap => (List.append_nil _).symm
  have hobject : ∀ object, ∃ f : HeapCensus → HeapCensus,
      (census.addObject object).heaps = (census.modifyHeap f).heaps ∧
      (∀ heap, (f heap).id = heap.id ∧ (f heap).roots.toList = heap.roots.toList ++ []) ∧
      (census.addObject object).rootCounts = census.rootCounts := by
    rintro (dump | i)
    · exact ⟨_, heaps_enter _ _ _, fun heap => ⟨rfl, hsame heap⟩, rootCounts_enter _ _ _⟩
    · exact ⟨_, heaps_enter _ _ _, fun heap => ⟨rfl, hsame heap⟩, rootCounts_enter _ _ _⟩
  cases subRecord with
  | root root =>
    exact ⟨fun heap => { heap with roots := heap.roots.push root }, rfl,
      fun heap => ⟨rfl, Array.toList_push⟩, rfl⟩
  | thread thread =>
    obtain ⟨object, serial, trace⟩ := thread
    cases object with
    | none =>
      refine ⟨id, ?_, fun heap => ⟨rfl, hsame heap⟩, rfl⟩
      refine Array.toList_inj.mp (List.ext_getElem? fun i => ?_)
      simp [addSubRecord, addThread, modifyHeap]
    | some object =>
      exact ⟨fun heap => { heap with roots := heap.roots.push ⟨object, .threadObject serial⟩ }, rfl,
        fun heap => ⟨rfl, Array.toList_push⟩, rfl⟩
  | heapSwitch info => cases h
  | classDump dump => exact hobject (.classDump dump)
  | «instance» dump => exact hobject (.instance _)
  | objectArray dump => exact hobject (.instance _)
  | primitiveArray dump => exact hobject (.instance _)

/-- A switch goes to a heap that is there, or to a new and empty one behind the others. -/
theorem exists_switched (census : Census) (info : HeapSwitch) :
    ∃ (switched : Census) (f : HeapCensus → HeapCensus),
      (census.switchHeap info).heaps = (switched.modifyHeap f).heaps ∧
      (∀ heap, (f heap).id = heap.id ∧ (f heap).roots.toList = heap.roots.toList) ∧
      (census.switchHeap info).rootCounts = census.rootCounts ∧
      ((switched.heaps = census.heaps ∧ info.heap ∈ census.heaps.toList.map (·.id)) ∨
        (switched.heaps = census.heaps.push (.empty info.heap) ∧
          info.heap ∉ census.heaps.toList.map (·.id))) := by
  unfold switchHeap
  split
  · next i hi =>
    refine ⟨_, _, rfl, fun heap => ⟨rfl, rfl⟩, rfl, .inl ⟨rfl, ?_⟩⟩
    have hid := of_decide_eq_true (Array.findFinIdx?_eq_some_iff.mp hi).1
    exact List.mem_map.mpr ⟨_, Array.getElem_mem_toList i.isLt, hid⟩
  · next hnone =>
    refine ⟨_, _, rfl, fun heap => ⟨rfl, rfl⟩, rfl, .inr ⟨rfl, fun hmem => ?_⟩⟩
    obtain ⟨heap, hheap, hid⟩ := List.mem_map.mp hmem
    exact Array.findFinIdx?_eq_none_iff.mp hnone heap (Array.mem_toList_iff.mp hheap)
      (decide_eq_true hid)

theorem getD_rootCounts_elim (counts : Std.TreeMap RootKind Nat) (root? : Option Root)
    (kind : RootKind) :
    (root?.elim counts (bump counts ·.origin.kind)).getD kind 0 =
      counts.getD kind 0 + root?.toList.countP (·.origin.kind = kind) := by
  cases root? with
  | none => rfl
  | some root =>
    rw [Option.elim_some, getD_bump, Option.toList_some, List.countP_singleton]
    simp only [decide_eq_true_eq]

theorem heapIds_switch (subRecords : List SubRecord) (info : HeapSwitch) :
    SubRecord.heapIds (subRecords ++ [.heapSwitch info]) = SubRecord.heapIds subRecords ++
      if info.heap ∈ SubRecord.heapIds subRecords then [] else [info.heap] := by
  rw [SubRecord.heapIds_append_singleton, SubRecord.switchedTo?, Option.filter_some]
  split <;> simp_all

/-- The roots of a census after a sub-record, if only the current heap has changed. -/
theorem Sorted.roots_modifyHeap (h : Sorted subRecords census) {subRecord : SubRecord}
    {f : HeapCensus → HeapCensus} (hf : ∀ heap, (f heap).id = heap.id ∧
      (f heap).roots.toList = heap.roots.toList ++ subRecord.root?.toList) :
    ∀ heap ∈ (census.modifyHeap f).heaps, heap.roots.toList =
      (SubRecord.heldBy heap.id (subRecords ++ [subRecord])).filterMap (·.root?) := by
  intro heap hheap
  rw [SubRecord.heldBy_append_singleton, List.filterMap_append, ← h.current]
  rcases mem_modifyHeap h.filed.distinct hheap with rfl | ⟨hother, hne⟩
  · rw [(hf _).1, (hf _).2, if_pos rfl, h.roots _ (currentHeap_mem census)]
    cases hroot : subRecord.root? <;> simp [hroot]
  · rw [if_neg (Ne.symm hne), List.filterMap_nil, List.append_nil, h.roots heap hother]

/-- The roots of a census after a switch. -/
theorem Sorted.roots_switched (h : Sorted subRecords census) {info : HeapSwitch} {switched : Census}
    (hheaps : switched.heaps = census.heaps ∨
      switched.heaps = census.heaps.push (.empty info.heap) ∧
        info.heap ∉ SubRecord.heapIds subRecords) {f : HeapCensus → HeapCensus}
    (hf : ∀ heap, (f heap).id = heap.id ∧ (f heap).roots.toList = heap.roots.toList) :
    ∀ heap ∈ (switched.modifyHeap f).heaps, heap.roots.toList =
      (SubRecord.heldBy heap.id (subRecords ++ [.heapSwitch info])).filterMap (·.root?) := by
  have hbefore : ∀ heap ∈ switched.heaps,
      heap.roots.toList = (SubRecord.heldBy heap.id subRecords).filterMap (·.root?) := by
    intro heap hheap
    rcases hheaps with hsame | ⟨hpush, hnew⟩
    · exact h.roots heap (hsame ▸ hheap)
    · rcases Array.mem_push.mp (hpush ▸ hheap) with hold | rfl
      · exact h.roots heap hold
      · rw [show (HeapCensus.empty info.heap).id = info.heap from rfl,
          SubRecord.heldBy_eq_nil hnew]
        rfl
  intro heap hheap
  have hswitch : ∀ heapId,
      (SubRecord.heldBy heapId (subRecords ++ [.heapSwitch info])).filterMap (·.root?) =
        (SubRecord.heldBy heapId subRecords).filterMap (·.root?) := by
    intro heapId
    rw [SubRecord.heldBy_append_singleton, List.filterMap_append]
    split <;> simp [SubRecord.root?]
  rw [hswitch]
  obtain ⟨i, hi⟩ := Array.mem_iff_getElem?.mp hheap
  rw [modifyHeap, Array.getElem?_modify] at hi
  split at hi
  · obtain ⟨old, hold, rfl⟩ := Option.map_eq_some_iff.mp hi
    rw [(hf old).1, (hf old).2, hbefore old (Array.mem_of_getElem? hold)]
  · exact hbefore heap (Array.mem_of_getElem? hi)

/-- The objects of the heaps and the current heap after a sub-record. -/
theorem Sorted.filed_addSubRecord (h : Sorted subRecords census) (subRecord : SubRecord) :
    Filed (SubRecord.objects Heap.defaultId (subRecords ++ [subRecord]))
        (census.addSubRecord subRecord) ∧
      (census.addSubRecord subRecord).currentHeap.id =
        SubRecord.currentHeap (subRecords ++ [subRecord]) := by
  rw [← SubRecord.lastHeap_eq]
  exact invariant_filed.step subRecord ⟨h.filed, by rw [h.current, SubRecord.lastHeap_eq]⟩

theorem Sorted.switchHeap (h : Sorted subRecords census) (info : HeapSwitch) :
    Sorted (subRecords ++ [.heapSwitch info]) (census.switchHeap info) := by
  obtain ⟨hfiled, hcurrent⟩ := h.filed_addSubRecord (.heapSwitch info)
  obtain ⟨switched, f, hheaps, hf, hcounts, hcases⟩ := exists_switched census info
  rw [h.ids] at hcases
  refine ⟨hfiled, hcurrent, ?_, ?_, fun kind => ?_⟩
  · rw [hheaps, ids_modifyHeap switched (hf _).1, heapIds_switch, ← h.ids]
    rcases hcases with ⟨hsame, hmem⟩ | ⟨hpush, hnew⟩
    · rw [hsame, if_pos (h.ids ▸ hmem), List.append_nil]
    · rw [hpush, if_neg (h.ids ▸ hnew), Array.toList_push, List.map_append]
      rfl
  · rw [hheaps]
    exact h.roots_switched (hcases.imp (·.1) id) hf
  · have hroots : switched.roots = census.roots := by
      rcases hcases with ⟨hsame, -⟩ | ⟨hpush, -⟩
      · exact roots_congr hsame
      · rw [Census.roots, Census.roots, hpush, Array.toList_push, List.flatMap_append]
        simp [HeapCensus.empty]
    have hcount : (switched.modifyHeap f).roots.countP (·.origin.kind = kind) =
        switched.roots.countP (·.origin.kind = kind) + 0 :=
      countP_roots_modifyHeap switched ((hf _).2.trans (List.append_nil _).symm) _
    rw [hcounts, h.rootCounts kind, ← hroots, roots_congr hheaps]
    exact hcount.symm

theorem Sorted.addSubRecord (h : Sorted subRecords census) (subRecord : SubRecord) :
    Sorted (subRecords ++ [subRecord]) (census.addSubRecord subRecord) := by
  cases hswitch : subRecord.switchedTo? with
  | none =>
    obtain ⟨hfiled, hcurrent⟩ := h.filed_addSubRecord subRecord
    obtain ⟨f, hheaps, hf, hcounts⟩ := exists_modifyHeap census hswitch
    refine ⟨hfiled, hcurrent, ?_, ?_, fun kind => ?_⟩
    · rw [hheaps, ids_modifyHeap census (hf _).1, h.ids, SubRecord.heapIds_append_singleton, hswitch]
      simp
    · rw [hheaps]
      exact h.roots_modifyHeap hf
    · rw [hcounts, getD_rootCounts_elim, h.rootCounts kind, roots_congr hheaps]
      exact (countP_roots_modifyHeap census (hf _).2 _).symm
  | some heapId =>
    cases subRecord with
    | heapSwitch info => exact h.switchHeap info
    | _ => cases hswitch

theorem Sorted.same (h : Sorted subRecords census) {after : Census}
    (hsame : SameObjects census after) : Sorted subRecords after := by
  refine ⟨h.filed.of_heaps hsame.heaps, ?_, ?_, ?_, fun kind => ?_⟩
  · rw [currentHeap_congr hsame.heaps hsame.current]
    exact h.current
  · rw [hsame.heaps]
    exact h.ids
  · rw [hsame.heaps]
    exact h.roots
  · rw [hsame.rootCounts, roots_congr hsame.heaps]
    exact h.rootCounts kind

/-- Before anything is read there is just the default heap, and nothing is in it. -/
theorem sorted_empty : Sorted [] empty := by
  refine ⟨filed_empty, rfl, rfl, fun heap hheap => ?_, fun kind => ?_⟩
  · rw [Array.mem_singleton.mp hheap]
    rfl
  · exact Std.TreeMap.getD_emptyc

theorem invariant_sorted : Invariant Sorted :=
  ⟨sorted_empty, fun h hsame => h.same hsame, fun subRecord h => h.addSubRecord subRecord⟩

end Census

/-! ### Records -/

/-- The sub-records in the body of a record, none if it is no heap dump. -/
def Record.subRecords (source : ByteSource) (width : IdWidth) (record : Record) : List SubRecord :=
  match record.tag? with
  | some .heapDump | some .heapDumpSegment => (SubRecord.list source width record).items
  | _ => []

theorem Listing.forall₂_collect {ε α β : Type} {f : α → Listing ε β} {R : α → β → Prop}
    (hf : ∀ a, (f a).failure = none → ∃ b, (f a).items = [b] ∧ R a b) {items : List α}
    {failure : Option ε} (h : (collect f items failure).failure = none) :
    List.Forall₂ R items (collect f items failure).items := by
  induction items with
  | nil => exact .nil
  | cons a items ih =>
    cases hfailure : (f a).failure with
    | some e => simp [collect, hfailure] at h
    | none =>
      obtain ⟨b, hb, hab⟩ := hf a hfailure
      simp only [collect, hfailure, Option.isSome_none, Bool.false_eq_true, if_false, hb] at h ⊢
      exact .cons hab (ih h)

theorem Listing.failure_of_mem_collect {ε α β : Type} {f : α → Listing ε β} {items : List α}
    {failure : Option ε} (h : (collect f items failure).failure = none) {a : α} (ha : a ∈ items) :
    (f a).failure = none := by
  induction items with
  | nil => cases ha
  | cons first items ih =>
    cases hfirst : (f first).failure with
    | some e => simp [collect, hfirst] at h
    | none =>
      simp only [collect, hfirst, Option.isSome_none, Bool.false_eq_true, if_false] at h
      rcases List.mem_cons.mp ha with rfl | hrest
      · exact hfirst
      · exact ih h hrest

namespace Entry

variable {source : ByteSource} {width : IdWidth}

/-- Where the fields of a record can be decoded, its entry holds them. -/
theorem exists_ok_of_ofExcept {α : Type} {record : Record} {answer : Except DumpError α}
    {contents : α → EntryContents}
    (h : (Listing.ofExcept (do return (⟨record, contents (← answer)⟩ : Entry))).failure = none) :
    ∃ a, answer = .ok a ∧ (Listing.ofExcept (do return (⟨record, contents (← answer)⟩ : Entry))).items =
      [⟨record, contents a⟩] := by
  cases answer with
  | error e => cases h
  | ok a => exact ⟨a, rfl, rfl⟩

/-- A record that can be read has one entry. -/
theorem exists_items_read {record : Record} (h : (read source width record).failure = none) :
    ∃ entry, (read source width record).items = [entry] ∧ entry.record = record ∧
      entry.contents.subRecords = record.subRecords source width := by
  unfold read at h ⊢
  unfold Record.subRecords
  dsimp only at h ⊢
  generalize record.tag? = tag? at h ⊢
  cases tag? with
  | none => exact ⟨_, rfl, rfl, rfl⟩
  | some tag =>
    cases tag with
    | utf8 | loadClass | unloadClass | stackFrame | stackTrace =>
      obtain ⟨a, -, hitems⟩ := exists_ok_of_ofExcept h
      exact ⟨_, hitems, rfl, rfl⟩
    | _ => exact ⟨_, rfl, rfl, rfl⟩

theorem failure_subRecords {record : Record} (h : (read source width record).failure = none)
    (hheap : record.tag? = some .heapDump ∨ record.tag? = some .heapDumpSegment) :
    (SubRecord.list source width record).failure = none := by
  unfold read at h
  rcases hheap with htag | htag
  · rw [htag] at h
    exact h
  · rw [htag] at h
    exact h

/-- The entries of a dump all of whose records can be read. -/
theorem list_of_accepted {header : Header} (h : (list source header).failure = none) :
    (list source header).items.map (·.record) = (Record.list source header).items ∧
      (list source header).items.flatMap (·.contents.subRecords) =
        (Record.list source header).items.flatMap (·.subRecords source header.idWidth) := by
  have hentries := Listing.forall₂_collect (fun _ => exists_items_read) h
  change List.Forall₂ _ (Record.list source header).items (list source header).items at hentries
  generalize (Record.list source header).items = records at hentries ⊢
  generalize (list source header).items = entries at hentries ⊢
  induction hentries with
  | nil => exact ⟨rfl, rfl⟩
  | @cons record entry records entries hread _ ih =>
    rw [List.map_cons, List.flatMap_cons, List.flatMap_cons, hread.1, hread.2, ih.1, ih.2]
    exact ⟨rfl, rfl⟩

end Entry

/-! ### Objects as they are read -/

/-- What a dump says of a class itself, names left out. -/
structure ClassOutline where
  id : Ident
  heapId : UInt32
  superclass : Option Ident
  loader : Option Ident
  trace : Serial
  instanceSize : UInt32
  fields : List FieldType
  statics : List (FieldType × Value)
deriving DecidableEq, Repr

def ClassObject.outline (c : ClassObject) : ClassOutline where
  id := c.id
  heapId := c.heapId
  superclass := c.superclass
  loader := c.loader
  trace := c.trace
  instanceSize := c.instanceSize
  fields := c.fields.map (·.type)
  statics := c.statics.map fun s => (s.field.type, s.value)

def ClassDump.outline (heapId : UInt32) (dump : ClassDump) : ClassOutline where
  id := dump.id
  heapId
  superclass := dump.superclass
  loader := dump.loader
  trace := dump.trace
  instanceSize := dump.instanceSize
  fields := dump.fields.map (·.type)
  statics := dump.statics.map fun s => (s.type, s.value)

/-- An instance as a dump gives it, where no primitive array names its class. -/
def Instance.asRead : Instance → Instance
  | plain i => plain i
  | array a => array { a with classId := if a.elementType = .object then a.classId else none }

theorem ObjectTable.asRead_assignClass (table : ObjectTable) (i : Instance) :
    (table.assignClass i).asRead = i.asRead := by
  cases i with
  | plain i => rfl
  | array a =>
    unfold assignClass
    cases hpresent : table.presentClass? (.array a) with
    | none => rfl
    | some id =>
      have hnamed := (presentClass?_eq_some.mp hpresent).1
      unfold namedClass? at hnamed
      cases htype : a.elementType with
      | object =>
        simp only [htype] at hnamed
        simp only [Instance.asRead, if_pos htype, hnamed]
      | primitive type => simp [Instance.asRead, htype]

theorem ObjectTable.outline_linkClass (table : ObjectTable) (location : Location)
    (c : ClassObject) : (table.linkClass location c).outline = c.outline := by
  unfold linkClass
  split <;> rfl

theorem Census.outline_classObject (census : Census) (heapId : UInt32) (dump : ClassDump) :
    (census.classObject heapId dump).outline = dump.outline heapId := by
  simp [ClassObject.outline, ClassDump.outline, Census.classObject, Function.comp_def]

theorem Instance.heapId_asRead (i : Instance) : i.asRead.heapId = i.heapId := by
  cases i with
  | plain i => rfl
  | array a => rfl

theorem SubRecord.asRead_of_object? {heapId : UInt32} {subRecord : SubRecord} {i : Instance}
    (h : subRecord.object? heapId = some (.instance i)) : i.asRead = i ∧ i.heapId = heapId := by
  cases subRecord <;> cases h <;> exact ⟨rfl, rfl⟩

theorem SubRecord.asRead_of_mem_objectsIn {heapId : UInt32} {subRecords : List SubRecord}
    {i : Instance} (h : i ∈ (objectsIn heapId subRecords).filterMap (·.instance?)) :
    i.asRead = i ∧ i.heapId = heapId := by
  obtain ⟨object, hobject, hi⟩ := List.mem_filterMap.mp h
  obtain ⟨subRecord, -, hread⟩ := List.mem_filterMap.mp hobject
  cases object with
  | classDump dump => cases hi
  | «instance» j =>
    cases hi
    exact asRead_of_object? hread

/-! ### Linked heaps -/

/-- A heap of the graph holds what the heap of the census does. -/
structure Heap.Of (counted : HeapCensus) (heap : Heap) : Prop where
  id : heap.id = counted.id
  classes : heap.classes.toList.map (·.outline) =
    counted.classes.toList.map (·.outline counted.id)
  instances : heap.instances.toList.map (·.asRead) = counted.instances.toList.map (·.asRead)
  roots : heap.roots = counted.roots

namespace Census

theorem forall₂_heaps (census : Census) :
    List.Forall₂ Heap.Of census.heaps.toList census.table.link.heaps.toList := by
  refine List.forall₂_iff_get.mpr ⟨?_, fun i hi hi' => ?_⟩
  · simp [ObjectTable.link, table]
  · simp only [ObjectTable.link, table, List.get_eq_getElem, Array.getElem_toList,
      Array.getElem_mapIdx, Array.getElem_map]
    refine ⟨rfl, ?_, ?_, rfl⟩
    · refine List.ext_getElem? fun j => ?_
      simp only [heap, List.getElem?_map, Array.getElem?_toList, Array.getElem?_mapIdx,
        Array.getElem?_map, Option.map_map]
      refine congrArg (Option.map · _) (funext fun dump => ?_)
      exact (ObjectTable.outline_linkClass census.table ⟨i, .classSlot j⟩ _).trans
        (outline_classObject census _ dump)
    · simp only [heap, Array.toList_map, List.map_map]
      exact List.map_congr_left fun j _ => ObjectTable.asRead_assignClass census.table j

theorem exists_heap_link (census : Census) {i : Nat} {counted : HeapCensus}
    (h : census.heaps[i]? = some counted) :
    ∃ heap, census.table.link.heaps[i]? = some heap ∧ Heap.Of counted heap := by
  obtain ⟨hlt, rfl⟩ := Array.getElem?_eq_some_iff.mp h
  obtain ⟨hlength, hget⟩ := List.forall₂_iff_get.mp census.forall₂_heaps
  have hlt' : i < census.table.link.heaps.size := lt_of_lt_of_eq hlt hlength
  exact ⟨_, Array.getElem?_eq_getElem hlt', hget i hlt hlt'⟩

theorem ids_link (census : Census) :
    census.table.link.heaps.toList.map (·.id) = census.heaps.toList.map (·.id) := by
  have hheaps := census.forall₂_heaps
  generalize census.table.link.heaps.toList = heaps at hheaps ⊢
  generalize census.heaps.toList = counted at hheaps ⊢
  induction hheaps with
  | nil => rfl
  | cons hof _ ih => rw [List.map_cons, List.map_cons, hof.id, ih]

theorem roots_link (census : Census) : census.table.link.roots = census.roots := by
  have hheaps := census.forall₂_heaps
  unfold ObjectTable.roots roots
  generalize census.table.link.heaps.toList = heaps at hheaps ⊢
  generalize census.heaps.toList = counted at hheaps ⊢
  induction hheaps with
  | nil => rfl
  | cons hof _ ih => rw [List.flatMap_cons, List.flatMap_cons, hof.roots, ih]

/-- A heap of the graph holds what was read while it was current. -/
theorem Sorted.of_mem_link {census : Census} {subRecords : List SubRecord}
    (h : Sorted subRecords census) {heap : Heap} (hheap : heap ∈ census.table.link.heaps) :
    heap.classes.toList.map (·.outline) =
        ((SubRecord.objectsIn heap.id subRecords).filterMap (·.classDump?)).map
          (·.outline heap.id) ∧
      heap.instances.toList.map (·.asRead) =
        (SubRecord.objectsIn heap.id subRecords).filterMap (·.instance?) ∧
      heap.roots.toList = (SubRecord.heldBy heap.id subRecords).filterMap (·.root?) := by
  obtain ⟨counted, hcounted, hof⟩ : ∃ counted ∈ census.heaps, Heap.Of counted heap := by
    obtain ⟨i, hi, rfl⟩ := Array.mem_iff_getElem.mp hheap
    obtain ⟨hlength, hget⟩ := List.forall₂_iff_get.mp census.forall₂_heaps
    have hlt : i < census.heaps.size := lt_of_lt_of_eq hi hlength.symm
    exact ⟨census.heaps[i], Array.getElem_mem hlt, hget i hlt hi⟩
  obtain ⟨hclasses, hinstances⟩ := h.filed.holds counted hcounted
  rw [SubRecord.objectsOf_objects] at hclasses hinstances
  rw [hof.classes, hof.instances, hof.roots, hof.id, hclasses, hinstances,
    h.roots counted hcounted]
  refine ⟨rfl, ?_, rfl⟩
  rw [List.map_congr_left fun i hi => (SubRecord.asRead_of_mem_objectsIn hi).1, List.map_id']

/-- The objects in a heap of the graph say that they are in it. -/
theorem Sorted.heapId_of_mem_link {census : Census} {subRecords : List SubRecord}
    (h : Sorted subRecords census) {heap : Heap} (hheap : heap ∈ census.table.link.heaps) :
    (∀ c ∈ heap.classes, c.heapId = heap.id) ∧ ∀ i ∈ heap.instances, i.heapId = heap.id := by
  obtain ⟨hclasses, hinstances, -⟩ := h.of_mem_link hheap
  constructor
  · intro c hc
    have hmem := List.mem_map_of_mem (f := ClassObject.outline) (Array.mem_toList_iff.mpr hc)
    rw [hclasses] at hmem
    obtain ⟨dump, -, hdump⟩ := List.mem_map.mp hmem
    exact congrArg ClassOutline.heapId hdump.symm
  · intro i hi
    have hmem := List.mem_map_of_mem (f := Instance.asRead) (Array.mem_toList_iff.mpr hi)
    rw [hinstances] at hmem
    rw [← Instance.heapId_asRead]
    exact (SubRecord.asRead_of_mem_objectsIn hmem).2

end Census

namespace ObjectGraph

/-- The heaps of an accepted dump and its counts.  All its records and sub-records can be read. -/
theorem heaps_of_accepted (file : ByteArray) (graph : ObjectGraph)
    (h : read (.ofBytes file) = .ok graph) :
    let records := (Record.list (.ofBytes file) graph.header).items
    let subRecords := records.flatMap (·.subRecords (.ofBytes file) graph.idWidth)
    ((Record.list (.ofBytes file) graph.header).failure = none ∧ ∀ record ∈ records,
      record.tag? = some .heapDump ∨ record.tag? = some .heapDumpSegment →
        (SubRecord.list (.ofBytes file) graph.idWidth record).failure = none) ∧
    (graph.heaps.toList.map (·.id) = SubRecord.heapIds subRecords ∧
      (graph.heaps.toList.map (·.id)).head? = some Heap.defaultId ∧
      (graph.heaps.toList.map (·.id)).Nodup) ∧
    (∀ heap ∈ graph.heaps,
      heap.classes.toList.map (·.outline) =
        ((SubRecord.objectsIn heap.id subRecords).filterMap (·.classDump?)).map
          (·.outline heap.id) ∧
      heap.instances.toList.map (·.asRead) =
        (SubRecord.objectsIn heap.id subRecords).filterMap (·.instance?) ∧
      heap.roots.toList = (SubRecord.heldBy heap.id subRecords).filterMap (·.root?) ∧
      (∀ c ∈ heap.classes, c.heapId = heap.id) ∧ ∀ i ∈ heap.instances, i.heapId = heap.id) ∧
    (∀ kind, graph.rootCount kind = graph.roots.countP (·.origin.kind = kind)) ∧
    (∀ tag, graph.recordCount tag = records.countP (·.tag? = some tag)) ∧
    graph.unknownRecords = records.countP (·.tag? = none) := by
  obtain ⟨header, -, hentries, -, rfl⟩ := exists_of_read (ByteSource.lawful_ofBytes file) h
  obtain ⟨hrecords, hsubRecords⟩ := Entry.list_of_accepted hentries
  have hsorted := Census.invariant_sorted.ofEntries (Entry.list (.ofBytes file) header).items
  rw [hsubRecords] at hsorted
  intro records subRecords
  change Census.Sorted subRecords _ at hsorted
  have hids : (ofDump (.ofBytes file) header).heaps.toList.map (·.id) =
      SubRecord.heapIds subRecords := (Census.ids_link _).trans hsorted.ids
  refine ⟨⟨Listing.failure_of_collect hentries, fun record hrecord => ?_⟩, ⟨hids, ?_, ?_⟩,
    fun heap hheap => ?_, fun kind => ?_, fun tag => ?_, ?_⟩
  · exact Entry.failure_subRecords (Listing.failure_of_mem_collect hentries hrecord)
  · rw [hids, SubRecord.heapIds, List.eraseDups_cons, List.head?_cons]
  · rw [hids, ← hsorted.ids]
    exact hsorted.filed.distinct
  · obtain ⟨hclasses, hinstances, hroots⟩ := hsorted.of_mem_link hheap
    exact ⟨hclasses, hinstances, hroots, hsorted.heapId_of_mem_link hheap⟩
  · exact (hsorted.rootCounts kind).trans (congrArg (List.countP _) (Census.roots_link _).symm)
  · rw [show records = _ from hrecords.symm, List.countP_map]
    exact Census.recordCounts_ofEntries _ tag
  · rw [show records = _ from hrecords.symm, List.countP_map]
    exact Census.unknownRecords_ofEntries _

/-- Heap 65 is switched to in the first body, and the last one leaves it and comes back.  Of the two
threads one has no object. -/
def alternating : ByteArray :=
  (Draft.toBytes ⟨"JAVA PROFILE 1.0.3", .four, 0,
    [.heapDump [.root (.root .systemClass) ⟨1⟩, .heapSwitch 65 ⟨100⟩,
        .classDump ⟨1⟩ none 0 [] [(⟨101⟩, .int 5)] []],
      .raw 0x77 [1, 2, 3],
      .segment [.threadObject ⟨2⟩ 7 0, .threadObject ⟨0⟩ 8 0, .instance ⟨2⟩ ⟨1⟩ []],
      .segment [.heapSwitch 0 ⟨100⟩, .primitiveArray ⟨3⟩ .byte [.byte 1], .heapSwitch 90 ⟨100⟩,
        .heapSwitch 65 ⟨100⟩, .root (.root .systemClass) ⟨3⟩, .objectArray ⟨4⟩ ⟨1⟩ [none]]]⟩).toByteArray

theorem heaps_of_accepted_alternating :
    ∃ graph heap, read (.ofBytes alternating) = .ok graph ∧ heap ∈ graph.heaps ∧ heap.id = 65 ∧
      let records := (Record.list (.ofBytes alternating) graph.header).items
      let subRecords := records.flatMap (·.subRecords (.ofBytes alternating) graph.idWidth)
      (graph.heaps.toList.map (·.id) = SubRecord.heapIds subRecords ∧
        SubRecord.heapIds subRecords = [0, 65, 90]) ∧
      (heap.roots.toList = (SubRecord.heldBy heap.id subRecords).filterMap (·.root?) ∧
        heap.roots.toList = [⟨⟨2⟩, .threadObject 7⟩, ⟨⟨3⟩, .systemClass⟩]) ∧
      heap.instances.toList.map (·.asRead) =
        (SubRecord.objectsIn heap.id subRecords).filterMap (·.instance?) ∧
      (graph.rootCount .systemClass = graph.roots.countP (·.origin.kind = .systemClass) ∧
        graph.roots.countP (·.origin.kind = .systemClass) = 2) ∧
      graph.unknownRecords = records.countP (·.tag? = none) ∧ records.countP (·.tag? = none) = 1 := by
  have hread : ((read (.ofBytes alternating)).toOption.any fun graph =>
      let records := (Record.list (.ofBytes alternating) graph.header).items
      let subRecords := records.flatMap (·.subRecords (.ofBytes alternating) graph.idWidth)
      (graph.heaps.any fun heap => decide (heap.id = 65) &&
        decide (heap.roots.toList = [⟨⟨2⟩, .threadObject 7⟩, ⟨⟨3⟩, .systemClass⟩])) &&
      decide (SubRecord.heapIds subRecords = [0, 65, 90]) &&
      decide (graph.roots.countP (·.origin.kind = .systemClass) = 2) &&
      decide (records.countP (·.tag? = none) = 1)) = true := by
    decide +kernel
  obtain ⟨graph, hgraph, hfacts⟩ := exists_of_any hread
  simp only [Bool.and_eq_true, decide_eq_true_eq, Array.any_eq_true'] at hfacts
  obtain ⟨⟨⟨⟨heap, hheap, hid, hlisted⟩, hswitched⟩, hclasses⟩, hunknown⟩ := hfacts
  obtain ⟨-, ⟨hids, -, -⟩, hheaps, hkinds, -, hothers⟩ := heaps_of_accepted alternating graph hgraph
  obtain ⟨-, hinstances, hroots, -, -⟩ := hheaps heap hheap
  exact ⟨graph, heap, hgraph, hheap, hid, ⟨hids, hswitched⟩, ⟨hroots, hlisted⟩, hinstances,
    ⟨hkinds .systemClass, hclasses⟩, hothers, hunknown⟩

end ObjectGraph

end HeapDump

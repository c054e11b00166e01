import HeapDump.ObjectGraph.Census
import HeapDump.Proofs.SubRecord.Bounds
import HeapDump.Proofs.SubRecord.Detach
import Mathlib.Data.List.Induction

/-! Censuses of dumps that hold the same in other places.  Two censuses are alike if they differ only in
where the bytes of instances lie, and these bytes are the same.  They stay alike when sub-records that
are the same when detached are added to both, and the other records do not touch the heaps. -/

namespace HeapDump

theorem cases_of_map_eq {α β γ : Type} {f : α → γ} {g : β → γ} {a? : Option α} {b? : Option β}
    (h : a?.map f = b?.map g) :
    a? = none ∧ b? = none ∨ ∃ a b, a? = some a ∧ b? = some b ∧ f a = g b := by
  cases a? with
  | none =>
    cases b? with
    | none => exact .inl ⟨rfl, rfl⟩
    | some b => cases h
  | some a =>
    cases b? with
    | none => cases h
    | some b => exact .inr ⟨a, b, rfl, rfl, Option.some.inj h⟩

/-- An instance without its place, and its bytes or the bytes of its elements. -/
def Instance.detach (source : ByteSource) (width : IdWidth) :
    Instance → Instance × Option (List UInt8)
  | plain i => (plain { i with offset := 0 }, (source.slice i.offset i.length.toNat).toOption)
  | array a =>
    (array { a with offset := a.offset.map fun _ => 0 },
      a.offset.bind fun offset => (source.slice offset (a.contentsLength width)).toOption)

theorem Instance.id_detach (source : ByteSource) (width : IdWidth) (i : Instance) :
    (i.detach source width).1.id = i.id := by
  cases i <;> rfl

/-- A heap with its instances detached. -/
def HeapCensus.detach (source : ByteSource) (width : IdWidth) (heap : HeapCensus) :
    HeapCensus × Array (Instance × Option (List UInt8)) :=
  ({ heap with instances := #[] }, heap.instances.map (Instance.detach source width))

theorem HeapCensus.detach_empty (source : ByteSource) (width : IdWidth) (id : UInt32) :
    (empty id).detach source width = (empty id, #[]) := by
  simp only [detach, empty, Array.map_empty]

namespace Census

/-- The heaps of two censuses are the same up to the places of instances. -/
structure SameHeaps (source source' : ByteSource) (width : IdWidth) (census census' : Census) :
    Prop where
  heaps : census.heaps.map (HeapCensus.detach source width) =
    census'.heaps.map (HeapCensus.detach source' width)
  current : census.current = census'.current
  index : census.index = census'.index
  threads : census.threads = census'.threads
  rootCounts : census.rootCounts = census'.rootCounts

variable {source source' : ByteSource} {width : IdWidth} {census census' : Census}

theorem SameHeaps.refl (census : Census) : SameHeaps source source width census census :=
  ⟨rfl, rfl, rfl, rfl, rfl⟩

theorem SameHeaps.symm (h : SameHeaps source source' width census census') :
    SameHeaps source' source width census' census :=
  ⟨h.heaps.symm, h.current.symm, h.index.symm, h.threads.symm, h.rootCounts.symm⟩

theorem SameHeaps.trans {source'' : ByteSource} {census'' : Census}
    (h : SameHeaps source source' width census census')
    (h' : SameHeaps source' source'' width census' census'') :
    SameHeaps source source'' width census census'' :=
  ⟨h.heaps.trans h'.heaps, h.current.trans h'.current, h.index.trans h'.index,
    h.threads.trans h'.threads, h.rootCounts.trans h'.rootCounts⟩

theorem currentHeap_detach (source : ByteSource) (width : IdWidth) (census : Census) :
    (census.heaps.map (HeapCensus.detach source width))[census.current]? =
      some (census.currentHeap.detach source width) := by
  rw [Array.getElem?_map, Array.getElem?_eq_getElem census.current_lt]
  rfl

theorem SameHeaps.currentHeap (h : SameHeaps source source' width census census') :
    census.currentHeap.detach source width = census'.currentHeap.detach source' width := by
  have hcurrent := currentHeap_detach source width census
  rw [h.heaps, h.current, currentHeap_detach] at hcurrent
  exact (Option.some.inj hcurrent).symm

/-- A change of the current heap that does to both heaps the same. -/
theorem SameHeaps.modifyHeap (h : SameHeaps source source' width census census')
    {f f' : HeapCensus → HeapCensus}
    (hf : ∀ heap heap', heap.detach source width = heap'.detach source' width →
      (f heap).detach source width = (f' heap').detach source' width) :
    SameHeaps source source' width (census.modifyHeap f) (census'.modifyHeap f') := by
  refine ⟨Array.ext_getElem? fun i => ?_, h.current, h.index, h.threads, h.rootCounts⟩
  have hi := congrArg (·[i]?) h.heaps
  simp only [Array.getElem?_map] at hi
  simp only [Census.modifyHeap, Array.getElem?_map, Array.getElem?_modify, h.current]
  split
  · rcases cases_of_map_eq hi with ⟨hnone, hnone'⟩ | ⟨heap, heap', hheap, hheap', hsame⟩
    · rw [hnone, hnone']
      rfl
    · rw [hheap, hheap']
      exact congrArg some (hf heap heap' hsame)
  · exact hi

theorem SameHeaps.enter (h : SameHeaps source source' width census census') (id : Ident)
    (slot : Slot) : SameHeaps source source' width (census.enter id slot) (census'.enter id slot) := by
  have hinsert : census'.index.insert id ⟨census.current, slot⟩ =
      census'.index.insert id ⟨census'.current, slot⟩ := by rw [h.current]
  unfold Census.enter
  rw [h.index]
  split
  · exact ⟨h.heaps, h.current, h.index, h.threads, h.rootCounts⟩
  · exact ⟨h.heaps, h.current, hinsert, h.threads, h.rootCounts⟩

theorem SameHeaps.addClass (h : SameHeaps source source' width census census') (dump : ClassDump) :
    SameHeaps source source' width (census.addClass dump) (census'.addClass dump) := by
  have hclasses := congrArg (·.1.classes) h.currentHeap
  dsimp only [HeapCensus.detach] at hclasses
  unfold Census.addClass
  rw [hclasses]
  refine SameHeaps.enter (h.modifyHeap fun heap heap' hheap => ?_) _ _
  simp only [HeapCensus.detach, Prod.mk.injEq, HeapCensus.mk.injEq] at hheap ⊢
  simp only [hheap, and_self]

theorem SameHeaps.addInstance (h : SameHeaps source source' width census census')
    {i i' : Instance} (hi : i.detach source width = i'.detach source' width) :
    SameHeaps source source' width (census.addInstance i) (census'.addInstance i') := by
  have hinstances := congrArg (·.2.size) h.currentHeap
  simp only [HeapCensus.detach, Array.size_map] at hinstances
  have hid : i.id = i'.id := by
    rw [← Instance.id_detach source width i, hi, Instance.id_detach]
  unfold Census.addInstance
  rw [hinstances, hid]
  refine SameHeaps.enter (h.modifyHeap fun heap heap' hheap => ?_) _ _
  simp only [HeapCensus.detach, Prod.mk.injEq, HeapCensus.mk.injEq, Array.map_push] at hheap ⊢
  simp only [hheap, hi, and_self]

theorem SameHeaps.addRoot (h : SameHeaps source source' width census census') (root : Root) :
    SameHeaps source source' width (census.addRoot root) (census'.addRoot root) := by
  have hheaps : SameHeaps source source' width
      (census.modifyHeap fun h => { h with roots := h.roots.push root })
      (census'.modifyHeap fun h => { h with roots := h.roots.push root }) := by
    refine h.modifyHeap fun heap heap' hheap => ?_
    simp only [HeapCensus.detach, Prod.mk.injEq, HeapCensus.mk.injEq] at hheap ⊢
    simp only [hheap, and_self]
  exact ⟨hheaps.heaps, hheaps.current, hheaps.index, hheaps.threads,
    congrArg (bump · root.origin.kind) h.rootCounts⟩

theorem SameHeaps.addThread (h : SameHeaps source source' width census census')
    (thread : ThreadObject) :
    SameHeaps source source' width (census.addThread thread) (census'.addThread thread) := by
  have hthreads : SameHeaps source source' width
      { census with threads := census.threads.insert thread.thread thread }
      { census' with threads := census'.threads.insert thread.thread thread } :=
    ⟨h.heaps, h.current, h.index, congrArg (·.insert thread.thread thread) h.threads, h.rootCounts⟩
  unfold Census.addThread
  split
  · exact hthreads
  · exact hthreads.addRoot _

theorem findIdx?_detach (source : ByteSource) (width : IdWidth) (heaps : Array HeapCensus) (id : UInt32) :
    (heaps.findFinIdx? (·.id = id)).map (·.val) =
      (heaps.map (HeapCensus.detach source width)).findIdx? (·.1.id = id) := by
  rw [Array.findIdx?_map, ← Array.findIdx?_eq_map_findFinIdx?_val]
  rfl

theorem SameHeaps.switchHeap (h : SameHeaps source source' width census census')
    (info : HeapSwitch) :
    SameHeaps source source' width (census.switchHeap info) (census'.switchHeap info) := by
  have hfind : (census.heaps.findFinIdx? (·.id = info.heap)).map (·.val) =
      (census'.heaps.findFinIdx? (·.id = info.heap)).map (·.val) := by
    rw [findIdx?_detach source width, h.heaps, ← findIdx?_detach]
  unfold Census.switchHeap
  refine SameHeaps.modifyHeap ?_ fun heap heap' hheap => ?_
  · rcases cases_of_map_eq hfind with ⟨hnone, hnone'⟩ | ⟨i, i', hi, hi', hsame⟩
    · rw [hnone, hnone']
      refine ⟨?_, ?_, h.index, h.threads, h.rootCounts⟩
      · simp only [Array.map_push, h.heaps, HeapCensus.detach_empty]
      · simpa using congrArg Array.size h.heaps
    · rw [hi, hi']
      exact ⟨h.heaps, hsame, h.index, h.threads, h.rootCounts⟩
  · simp only [HeapCensus.detach, Prod.mk.injEq, HeapCensus.mk.injEq] at hheap ⊢
    simp only [hheap, and_self]

/-- Sub-records that are the same when detached are filed away in the same place. -/
theorem SameHeaps.addSubRecord (h : SameHeaps source source' width census census')
    {subRecord subRecord' : SubRecord}
    (hsub : subRecord.detach source width = subRecord'.detach source' width) :
    SameHeaps source source' width (census.addSubRecord subRecord)
      (census'.addSubRecord subRecord') := by
  have hheapId := congrArg (·.1.id) h.currentHeap
  dsimp only [HeapCensus.detach] at hheapId
  -- Sub-records of different kinds stay different when detached, so one case remains for each kind.
  cases subRecord <;> cases subRecord' <;>
    simp only [SubRecord.detach, Prod.mk.injEq, reduceCtorEq, false_and, SubRecord.root.injEq,
      SubRecord.thread.injEq, SubRecord.heapSwitch.injEq, SubRecord.classDump.injEq, and_true] at hsub
  case root.root root root' =>
    subst hsub
    exact h.addRoot root
  case thread.thread thread thread' =>
    subst hsub
    exact h.addThread thread
  case heapSwitch.heapSwitch info info' =>
    subst hsub
    exact h.switchHeap info
  case classDump.classDump dump dump' =>
    subst hsub
    exact h.addClass dump
  case instance.instance dump dump' =>
    simp only [SubRecord.instance.injEq, InstanceDump.mk.injEq] at hsub
    obtain ⟨⟨hid, htrace, hclass, -, hlength⟩, hslice⟩ := hsub
    rw [hlength] at hslice
    refine h.addInstance ?_
    simp only [Instance.detach, hid, htrace, hclass, hlength, hslice, hheapId]
  case objectArray.objectArray dump dump' =>
    simp only [SubRecord.objectArray.injEq, ObjectArrayDump.mk.injEq] at hsub
    obtain ⟨⟨hid, htrace, hclass, hcount, -⟩, hslice⟩ := hsub
    rw [hcount] at hslice
    refine h.addInstance ?_
    simp only [Instance.detach, ArrayInstance.contentsLength, FieldType.size, Option.map_some,
      Option.bind_some, hid, htrace, hclass, hcount, hslice, hheapId]
  case primitiveArray.primitiveArray dump dump' =>
    simp only [SubRecord.primitiveArray.injEq, PrimitiveArrayDump.mk.injEq] at hsub
    obtain ⟨⟨hid, htrace, htype, hcount, hoffset⟩, hslice⟩ := hsub
    simp only [PrimitiveArrayDump.contentsLength, htype, hcount] at hslice
    refine h.addInstance ?_
    simp only [Instance.detach, ArrayInstance.contentsLength, FieldType.size, hid, htrace, htype,
      hcount, hoffset, hslice, hheapId]

theorem SameHeaps.foldl_addSubRecord (h : SameHeaps source source' width census census')
    {subRecords subRecords' : List SubRecord}
    (hsub : subRecords.map (SubRecord.detach source width) =
      subRecords'.map (SubRecord.detach source' width)) :
    SameHeaps source source' width (subRecords.foldl Census.addSubRecord census)
      (subRecords'.foldl Census.addSubRecord census') := by
  induction subRecords generalizing subRecords' census census' with
  | nil =>
    obtain rfl := List.map_eq_nil_iff.mp hsub.symm
    exact h
  | cons subRecord subRecords ih =>
    cases subRecords' with
    | nil => cases hsub
    | cons subRecord' subRecords' =>
      obtain ⟨hfirst, hrest⟩ := List.cons.inj hsub
      exact ih (h.addSubRecord hfirst) hrest

/-! ### Entries -/

/-- What a census keeps beside the heaps. -/
structure Beside (census census' : Census) : Prop where
  strings : census.strings = census'.strings
  classNames : census.classNames = census'.classNames
  classSerials : census.classSerials = census'.classSerials
  frames : census.frames = census'.frames
  traces : census.traces = census'.traces
  recordCounts : census.recordCounts = census'.recordCounts
  unknownRecords : census.unknownRecords = census'.unknownRecords

theorem Beside.trans {census'' : Census} (h : Beside census census') (h' : Beside census' census'') :
    Beside census census'' :=
  ⟨h.strings.trans h'.strings, h.classNames.trans h'.classNames,
    h.classSerials.trans h'.classSerials, h.frames.trans h'.frames, h.traces.trans h'.traces,
    h.recordCounts.trans h'.recordCounts, h.unknownRecords.trans h'.unknownRecords⟩

theorem beside_enter (census : Census) (id : Ident) (slot : Slot) :
    Beside (census.enter id slot) census := by
  unfold Census.enter
  split <;> exact ⟨rfl, rfl, rfl, rfl, rfl, rfl, rfl⟩

theorem beside_addSubRecord (census : Census) (subRecord : SubRecord) :
    Beside (census.addSubRecord subRecord) census := by
  have hsame : ∀ f, Beside (census.modifyHeap f) census := fun _ => ⟨rfl, rfl, rfl, rfl, rfl, rfl, rfl⟩
  cases subRecord with
  | root root => exact ⟨rfl, rfl, rfl, rfl, rfl, rfl, rfl⟩
  | thread thread =>
    show Beside (census.addThread thread) census
    unfold addThread
    dsimp only
    split <;> exact ⟨rfl, rfl, rfl, rfl, rfl, rfl, rfl⟩
  | heapSwitch info =>
    show Beside (census.switchHeap info) census
    unfold switchHeap
    dsimp only
    split <;> exact ⟨rfl, rfl, rfl, rfl, rfl, rfl, rfl⟩
  | classDump dump => exact (beside_enter _ _ _).trans (hsame _)
  | «instance» dump => exact (beside_enter _ _ _).trans (hsame _)
  | objectArray dump => exact (beside_enter _ _ _).trans (hsame _)
  | primitiveArray dump => exact (beside_enter _ _ _).trans (hsame _)

theorem beside_foldl_addSubRecord (subRecords : List SubRecord) (census : Census) :
    Beside (subRecords.foldl addSubRecord census) census := by
  induction subRecords generalizing census with
  | nil => exact ⟨rfl, rfl, rfl, rfl, rfl, rfl, rfl⟩
  | cons subRecord subRecords ih => exact (ih _).trans (beside_addSubRecord census subRecord)

theorem sameHeaps_countRecord (census : Census) (record : Record) :
    SameHeaps source source width (census.countRecord record) census := by
  unfold countRecord
  split <;> exact ⟨rfl, rfl, rfl, rfl, rfl⟩

/-- Of a dump, only the sub-records matter to the heaps. -/
theorem sameHeaps_ofEntries (entries : List Entry) :
    SameHeaps source source width (ofEntries entries)
      ((entries.flatMap (·.contents.subRecords)).foldl addSubRecord empty) := by
  induction entries using List.reverseRecOn with
  | nil => exact .refl empty
  | append_singleton entries entry ih =>
    rw [List.flatMap_append, List.foldl_append, List.flatMap_singleton, ofEntries, List.foldl_append]
    change SameHeaps source source width ((ofEntries entries).add entry) _
    have hcounted := (sameHeaps_countRecord (ofEntries entries) entry.record).trans ih
    unfold Census.add
    cases hcontents : entry.contents with
    | heapDump subRecords => exact hcounted.foldl_addSubRecord rfl
    | _ =>
      exact ⟨hcounted.heaps, hcounted.current, hcounted.index, hcounted.threads, hcounted.rootCounts⟩

end Census

end HeapDump

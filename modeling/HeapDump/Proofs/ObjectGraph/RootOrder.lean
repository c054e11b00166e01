import HeapDump.ObjectGraph.Contents
import HeapDump.Proofs.Graph.TopologicalOrder
import HeapDump.Proofs.ObjectGraph.Index

/-! The order of the roots.  The roots are collected heap by heap, and the heaps stand in the order in
which the dump first switches to them.  So they come in the order in which they were read if the dump
never returns to a heap that it has left, and otherwise just if no root is held by a heap further in
front than all those that hold a root read earlier. -/

namespace HeapDump

/-! ### First occurrences -/

section FirstOccurrences

variable {α κ : Type} [DecidableEq α] {l l' : List α} {a b : α}

theorem pairwise_eraseDups (l : List α) : l.eraseDups.Pairwise fun a b => l.idxOf a < l.idxOf b := by
  induction l using List.reverseRecOn with
  | nil => exact .nil
  | append_singleton l c ih =>
    have hfront : ∀ a ∈ l, (l ++ [c]).idxOf a = l.idxOf a := fun a ha => List.idxOf_append_of_mem ha
    have hold : l.eraseDups.Pairwise fun a b => (l ++ [c]).idxOf a < (l ++ [c]).idxOf b :=
      ih.imp_of_mem fun ha hb h => by
        rwa [hfront _ (List.mem_eraseDups.mp ha), hfront _ (List.mem_eraseDups.mp hb)]
    rw [eraseDups_append_singleton]
    split
    · rwa [List.append_nil]
    · next hc =>
      refine List.pairwise_append.mpr ⟨hold, List.pairwise_singleton _ _, fun a ha b hb => ?_⟩
      obtain rfl := List.mem_singleton.mp hb
      have ha := List.mem_eraseDups.mp ha
      rw [hfront a ha, List.idxOf_append_of_notMem hc]
      exact Nat.lt_of_lt_of_le (List.idxOf_lt_length_of_mem ha) (Nat.le_add_right _ _)

theorem idxOf_eraseDups_lt (ha : a ∈ l) (hb : b ∈ l) (h : l.idxOf a < l.idxOf b) :
    l.eraseDups.idxOf a < l.eraseDups.idxOf b := by
  refine idxOf_lt_of_pairwise (pairwise_eraseDups l) (List.mem_eraseDups.mpr ha)
    (List.mem_eraseDups.mpr hb) ?_ (Nat.lt_asymm h)
  rintro rfl
  exact Nat.lt_irrefl _ h

theorem idxOf_eraseDups_lt_iff (ha : a ∈ l) (hb : b ∈ l) :
    l.eraseDups.idxOf a < l.eraseDups.idxOf b ↔ l.idxOf a < l.idxOf b := by
  refine ⟨fun h => ?_, idxOf_eraseDups_lt ha hb⟩
  rcases Nat.lt_trichotomy (l.idxOf a) (l.idxOf b) with hlt | heq | hgt
  · exact hlt
  · rw [(List.idxOf_inj ha).mp heq] at h
    exact absurd h (Nat.lt_irrefl _)
  · exact absurd (idxOf_eraseDups_lt hb ha hgt) (Nat.lt_asymm h)

theorem nodup_eraseDups (l : List α) : l.eraseDups.Nodup :=
  (pairwise_eraseDups l).imp fun hlt => by
    rintro rfl
    exact Nat.lt_irrefl _ hlt

theorem eraseDups_of_nodup (h : l.Nodup) : l.eraseDups = l := by
  induction l using List.reverseRecOn with
  | nil => rfl
  | append_singleton l c ih =>
    obtain ⟨hfront, -, hc⟩ := List.nodup_append'.mp h
    rw [eraseDups_append_singleton, ih hfront,
      if_neg fun hmem => hc hmem (List.mem_singleton_self c)]

/-- Two lists with the same members have them in the same order, each once, if those that come first in
one come first in the other. -/
theorem eraseDups_eq_iff (hmem : ∀ a, a ∈ l ↔ a ∈ l') :
    l.eraseDups = l'.eraseDups ↔
      ∀ a ∈ l', ∀ b ∈ l', l'.idxOf a < l'.idxOf b → l.idxOf a < l.idxOf b := by
  refine ⟨fun h a ha b hb hlt => ?_, fun h => ?_⟩
  · rw [← idxOf_eraseDups_lt_iff ((hmem a).mpr ha) ((hmem b).mpr hb), h]
    exact idxOf_eraseDups_lt ha hb hlt
  · have hperm : l.eraseDups.Perm l'.eraseDups :=
      (List.perm_ext_iff_of_nodup (nodup_eraseDups l) (nodup_eraseDups l')).mpr fun a => by
        rw [List.mem_eraseDups, List.mem_eraseDups, hmem]
    refine hperm.eq_of_pairwise (fun a b _ _ hab hba => absurd hba (Nat.lt_asymm hab))
      (pairwise_eraseDups l) ((pairwise_eraseDups l').imp_of_mem fun ha hb hlt => ?_)
    exact h _ (List.mem_eraseDups.mp ha) _ (List.mem_eraseDups.mp hb) hlt

/-- In lists one behind the other, `a` comes before `b` if a list has it before `b` and no list in front
of that one has `b`. -/
theorem idxOf_flatMap_lt_iff {f : κ → List α} {keys : List κ} :
    (keys.flatMap f).idxOf a < (keys.flatMap f).idxOf b ↔
      ∃ before k after, keys = before ++ k :: after ∧ (∀ e ∈ before, b ∉ f e) ∧
        (f k).idxOf a < (f k).idxOf b := by
  induction keys with
  | nil => simp
  | cons first keys ih =>
    have hsplit : (∃ before k after, first :: keys = before ++ k :: after ∧
          (∀ e ∈ before, b ∉ f e) ∧ (f k).idxOf a < (f k).idxOf b) ↔
        (f first).idxOf a < (f first).idxOf b ∨
          b ∉ f first ∧ (keys.flatMap f).idxOf a < (keys.flatMap f).idxOf b := by
      rw [ih]
      constructor
      · rintro ⟨_ | ⟨e, before⟩, k, after, hkeys, hbefore, hlt⟩
        · cases hkeys
          exact .inl hlt
        · cases hkeys
          exact .inr ⟨hbefore _ List.mem_cons_self, before, k, after, rfl,
            fun e he => hbefore e (List.mem_cons_of_mem _ he), hlt⟩
      · rintro (hlt | ⟨hfirst, before, k, after, rfl, hbefore, hlt⟩)
        · exact ⟨[], first, keys, rfl, fun _ h => absurd h List.not_mem_nil, hlt⟩
        · exact ⟨first :: before, k, after, rfl, List.forall_mem_cons.mpr ⟨hfirst, hbefore⟩, hlt⟩
    rw [hsplit, List.flatMap_cons, List.idxOf_append, List.idxOf_append]
    have hle : ∀ c, (f first).idxOf c ≤ (f first).length := fun c => List.idxOf_le_length
    have hmem : ∀ c, c ∈ f first ↔ (f first).idxOf c < (f first).length := fun c =>
      List.idxOf_lt_length_iff.symm
    have hleA := hle a
    have hleB := hle b
    simp only [hmem]
    split <;> split <;> omega

end FirstOccurrences

/-! ### Sub-records heap by heap -/

namespace SubRecord

/-- The objects that roots among some of the sub-records name, mention by mention, as far as the
sub-records hold them. -/
def rootMentions (subRecords held : List SubRecord) : List Ident :=
  ((held.filterMap (·.root?)).map (·.object)).filter (· ∈ subRecords.filterMap (·.objectId?))

variable {subRecords : List SubRecord}

theorem mem_flatMap_heldBy {subRecord : SubRecord} :
    subRecord ∈ (heapIds subRecords).flatMap (heldBy · subRecords) ↔ subRecord ∈ subRecords := by
  simp only [List.mem_flatMap, heldBy, List.mem_map, List.mem_filter, decide_eq_true_eq]
  constructor
  · rintro ⟨-, -, ⟨s, n⟩, ⟨hentry, -⟩, rfl⟩
    exact List.fst_mem_of_mem_zipIdx hentry
  · intro hmem
    obtain ⟨n, hn⟩ := List.mem_iff_getElem?.mp hmem
    refine ⟨_, ?_, (subRecord, n), ⟨List.mem_zipIdx_iff_getElem?.mpr hn, rfl⟩, rfl⟩
    have hmem := mem_heapIds_append (currentHeap_mem (subRecords.take n)) (subRecords.drop n)
    rwa [List.take_append_drop] at hmem

theorem flatMap_rootMentions (keys : List UInt32) :
    (keys.flatMap fun heapId => rootMentions subRecords (heldBy heapId subRecords)) =
      rootMentions subRecords (keys.flatMap (heldBy · subRecords)) := by
  simp only [rootMentions, List.filterMap_flatMap, List.map_flatMap, List.filter_flatMap]

theorem mem_rootMentions {held held' : List SubRecord} (h : ∀ s, s ∈ held ↔ s ∈ held') (id : Ident) :
    id ∈ rootMentions subRecords held ↔ id ∈ rootMentions subRecords held' := by
  simp only [rootMentions, List.mem_filter, List.mem_map, List.mem_filterMap, h]

/-- If no heap is returned to, the current heap is the last one. -/
theorem exists_heapIds_eq (h : (Heap.defaultId :: subRecords.filterMap (·.switchedTo?)).Nodup) :
    ∃ left, heapIds subRecords = left ++ [currentHeap subRecords] ∧ currentHeap subRecords ∉ left := by
  rw [heapIds, eraseDups_of_nodup h, currentHeap]
  rcases List.eq_nil_or_concat (subRecords.filterMap (·.switchedTo?)) with hnil | ⟨left, last, hconcat⟩
  · exact ⟨[], by simp [hnil]⟩
  · rw [hconcat, List.concat_eq_append] at h ⊢
    rw [← List.cons_append, List.nodup_append'] at h
    exact ⟨Heap.defaultId :: left, by simp, by simpa using h.2.2⟩

/-- If no heap is returned to, the sub-records lie heap by heap. -/
theorem flatMap_heldBy (h : (Heap.defaultId :: subRecords.filterMap (·.switchedTo?)).Nodup) :
    (heapIds subRecords).flatMap (heldBy · subRecords) = subRecords := by
  induction subRecords using List.reverseRecOn with
  | nil => rfl
  | append_singleton subRecords subRecord ih =>
    rw [List.filterMap_append, ← List.cons_append] at h
    obtain ⟨hbefore, -, hnew⟩ := List.nodup_append'.mp h
    obtain ⟨left, hids, hleft⟩ := exists_heapIds_eq hbefore
    have hother : ∀ heapId, currentHeap subRecords ≠ heapId →
        heldBy heapId (subRecords ++ [subRecord]) = heldBy heapId subRecords := fun heapId hne => by
      rw [heldBy_append_singleton, if_neg hne, List.append_nil]
    have hrest : left.flatMap (heldBy · (subRecords ++ [subRecord])) =
        left.flatMap (heldBy · subRecords) :=
      List.flatMap_congr fun heapId hheapId => hother heapId (by rintro rfl; exact hleft hheapId)
    have hold := ih hbefore
    rw [hids, List.flatMap_append, List.flatMap_singleton] at hold
    have hfront : (heapIds subRecords).flatMap (heldBy · (subRecords ++ [subRecord])) =
        subRecords ++ [subRecord] := by
      rw [hids, List.flatMap_append, hrest, List.flatMap_singleton, heldBy_append_singleton,
        if_pos rfl, ← List.append_assoc, hold]
    rw [heapIds_append_singleton, List.flatMap_append, hfront]
    cases hswitch : subRecord.switchedTo? with
    | none => simp
    | some heapId =>
      -- The heap is new, and what switches to it is still held by the one before.
      have hnot : heapId ∉ heapIds subRecords := fun hmem =>
        hnew (List.mem_eraseDups.mp hmem) (by simp [hswitch])
      have hnil : heldBy heapId (subRecords ++ [subRecord]) = [] := by
        rw [hother heapId, heldBy_eq_nil hnot]
        rintro rfl
        exact hnot (currentHeap_mem subRecords)
      simp [hnot, hnil]

end SubRecord

namespace Census

/-- The roots of a census, heap by heap. -/
theorem Sorted.roots_eq {census : Census} {subRecords : List SubRecord} (h : Sorted subRecords census) :
    census.roots = (SubRecord.heapIds subRecords).flatMap fun heapId =>
      (SubRecord.heldBy heapId subRecords).filterMap (·.root?) := by
  rw [← h.ids, List.flatMap_map, Census.roots]
  exact List.flatMap_congr fun heap hheap => h.roots heap (Array.mem_toList_iff.mp hheap)

end Census

namespace ObjectGraph

/-- The roots of the graph of an accepted dump. -/
theorem roots_of_accepted (file : ByteArray) (graph : ObjectGraph)
    (h : read (.ofBytes file) = .ok graph) :
    let subRecords := (Record.list (.ofBytes file) graph.header).items.flatMap
      (·.subRecords (.ofBytes file) graph.idWidth)
    let heapIds := SubRecord.heapIds subRecords
    let inFile := SubRecord.rootMentions subRecords subRecords
    let inHeap := fun heapId => SubRecord.rootMentions subRecords (SubRecord.heldBy heapId subRecords)
    (graph.rooted.roots.Nodup ∧ ∀ id, id ∈ graph.rooted.roots ↔ id ∈ inFile) ∧
    graph.rooted.roots = (heapIds.flatMap inHeap).eraseDups ∧
    (graph.rooted.roots = inFile.eraseDups ↔
      ∀ a ∈ inFile, ∀ b ∈ inFile, inFile.idxOf a < inFile.idxOf b →
        ∃ before heapId after, heapIds = before ++ heapId :: after ∧ (∀ e ∈ before, b ∉ inHeap e) ∧
          (inHeap heapId).idxOf a < (inHeap heapId).idxOf b) ∧
    ((Heap.defaultId :: subRecords.filterMap (·.switchedTo?)).Nodup →
      graph.rooted.roots = inFile.eraseDups) := by
  obtain ⟨header, -, hentries, -, rfl⟩ := exists_of_read (ByteSource.lawful_ofBytes file) h
  obtain ⟨hsorted, hindexed⟩ :=
    Census.invariant_indexed.ofEntries (Entry.list (.ofBytes file) header).items
  rw [(Entry.list_of_accepted hentries).2] at hsorted hindexed
  intro subRecords heapIds inFile inHeap
  change Census.Sorted subRecords _ at hsorted
  change Census.Indexed subRecords _ at hindexed
  have hcontains : ∀ id, (ofDump (.ofBytes file) header).contains id =
      decide (id ∈ subRecords.filterMap (·.objectId?)) := fun id => by
    rw [Bool.eq_iff_iff, decide_eq_true_iff, ← hindexed.mem_iff]
    exact Std.TreeMap.contains_iff_mem
  have hheaps : (ofDump (.ofBytes file) header).roots = heapIds.flatMap fun heapId =>
      (SubRecord.heldBy heapId subRecords).filterMap (·.root?) :=
    (Census.roots_link _).trans hsorted.roots_eq
  have hroots : (ofDump (.ofBytes file) header).rooted.roots = (heapIds.flatMap inHeap).eraseDups := by
    show (((ofDump (.ofBytes file) header).roots.map (·.object)).filter _).eraseDups = _
    rw [hheaps, List.map_flatMap, List.filter_flatMap]
    exact congrArg List.eraseDups
      (List.flatMap_congr fun heapId _ => List.filter_congr fun id _ => hcontains id)
  have hmem : ∀ id, id ∈ heapIds.flatMap inHeap ↔ id ∈ inFile := by
    intro id
    rw [SubRecord.flatMap_rootMentions]
    exact SubRecord.mem_rootMentions (fun s => SubRecord.mem_flatMap_heldBy) id
  rw [hroots]
  refine ⟨⟨nodup_eraseDups _, fun id => List.mem_eraseDups.trans (hmem id)⟩, rfl, ?_, fun hnew => ?_⟩
  · simp only [eraseDups_eq_iff hmem, idxOf_flatMap_lt_iff]
  · rw [SubRecord.flatMap_rootMentions, SubRecord.flatMap_heldBy hnew]

/-- A root is read into heap 65, and behind it three into the last heap.  The object of one of them is
not in the dump. -/
def twoHeaps (last : UInt32) : ByteArray :=
  (Draft.toBytes ⟨"JAVA PROFILE 1.0.2", .four, 0,
    [.heapDump [.heapSwitch 65 ⟨101⟩, .classDump ⟨16⟩ none 0 [] [] [],
      .root (.root .systemClass) ⟨16⟩, .heapSwitch last ⟨101⟩, .classDump ⟨17⟩ none 0 [] [] [],
      .root (.root .systemClass) ⟨17⟩, .root (.root .systemClass) ⟨16⟩,
      .root (.root .systemClass) ⟨18⟩]]⟩).toByteArray

/-- The last heap is the default one, which comes first. -/
theorem exists_reordered :
    ∃ graph, read (.ofBytes (twoHeaps 0)) = .ok graph ∧
      let subRecords := (Record.list (.ofBytes (twoHeaps 0)) graph.header).items.flatMap
        (·.subRecords (.ofBytes (twoHeaps 0)) graph.idWidth)
      SubRecord.heapIds subRecords = [0, 65] ∧
      SubRecord.rootMentions subRecords subRecords = [⟨16⟩, ⟨17⟩, ⟨16⟩] ∧
      graph.rooted.roots = [⟨17⟩, ⟨16⟩] := by
  have hread : ((read (.ofBytes (twoHeaps 0))).toOption.any fun graph =>
      let subRecords := (Record.list (.ofBytes (twoHeaps 0)) graph.header).items.flatMap
        (·.subRecords (.ofBytes (twoHeaps 0)) graph.idWidth)
      decide (SubRecord.heapIds subRecords = [0, 65]) &&
      decide (SubRecord.rootMentions subRecords subRecords = [⟨16⟩, ⟨17⟩, ⟨16⟩]) &&
      decide (graph.rooted.roots = [⟨17⟩, ⟨16⟩])) = true := by
    decide +kernel
  obtain ⟨graph, hgraph, hfacts⟩ := exists_of_any hread
  simp only [Bool.and_eq_true, decide_eq_true_eq] at hfacts
  obtain ⟨⟨hheaps, hmentions⟩, hroots⟩ := hfacts
  exact ⟨graph, hgraph, hheaps, hmentions, hroots⟩

/-- The root read first is not the first root. -/
theorem roots_reordered :
    ∃ graph, read (.ofBytes (twoHeaps 0)) = .ok graph ∧
      let subRecords := (Record.list (.ofBytes (twoHeaps 0)) graph.header).items.flatMap
        (·.subRecords (.ofBytes (twoHeaps 0)) graph.idWidth)
      (SubRecord.rootMentions subRecords subRecords).eraseDups = [⟨16⟩, ⟨17⟩] ∧
        graph.rooted.roots = [⟨17⟩, ⟨16⟩] := by
  obtain ⟨graph, hgraph, -, hmentions, hroots⟩ := exists_reordered
  exact ⟨graph, hgraph, congrArg List.eraseDups hmentions, hroots⟩

theorem roots_of_accepted_twoHeaps :
    (∃ graph, read (.ofBytes (twoHeaps 0)) = .ok graph ∧
      let subRecords := (Record.list (.ofBytes (twoHeaps 0)) graph.header).items.flatMap
        (·.subRecords (.ofBytes (twoHeaps 0)) graph.idWidth)
      let inHeap := fun heapId =>
        SubRecord.rootMentions subRecords (SubRecord.heldBy heapId subRecords)
      graph.rooted.roots.Nodup ∧ ⟨16⟩ ∈ graph.rooted.roots ∧ ⟨18⟩ ∉ graph.rooted.roots ∧
      graph.rooted.roots = (inHeap 0 ++ inHeap 65).eraseDups) ∧
    ∃ graph, read (.ofBytes (twoHeaps 66)) = .ok graph ∧
      let subRecords := (Record.list (.ofBytes (twoHeaps 66)) graph.header).items.flatMap
        (·.subRecords (.ofBytes (twoHeaps 66)) graph.idWidth)
      (Heap.defaultId :: subRecords.filterMap (·.switchedTo?)).Nodup ∧
      graph.rooted.roots = [⟨16⟩, ⟨17⟩] := by
  constructor
  · obtain ⟨graph, hgraph, hheaps, hmentions, -⟩ := exists_reordered
    obtain ⟨⟨hnodup, hmem⟩, hbyHeap, -, -⟩ := roots_of_accepted (twoHeaps 0) graph hgraph
    rw [hheaps] at hbyHeap
    refine ⟨graph, hgraph, hnodup, (hmem _).mpr (by simp [hmentions]),
      fun hdangling => ?_, by simpa using hbyHeap⟩
    simpa [hmentions] using (hmem _).mp hdangling
  · have hread : ((read (.ofBytes (twoHeaps 66))).toOption.any fun graph =>
        let subRecords := (Record.list (.ofBytes (twoHeaps 66)) graph.header).items.flatMap
          (·.subRecords (.ofBytes (twoHeaps 66)) graph.idWidth)
        decide (Heap.defaultId :: subRecords.filterMap SubRecord.switchedTo?).Nodup &&
        decide (SubRecord.rootMentions subRecords subRecords = [⟨16⟩, ⟨17⟩, ⟨16⟩])) = true := by
      decide +kernel
    obtain ⟨graph, hgraph, hfacts⟩ := exists_of_any hread
    simp only [Bool.and_eq_true, decide_eq_true_eq] at hfacts
    obtain ⟨hnever, hmentions⟩ := hfacts
    obtain ⟨-, -, -, hstraight⟩ := roots_of_accepted (twoHeaps 66) graph hgraph
    exact ⟨graph, hgraph, hnever, (hstraight hnever).trans (congrArg List.eraseDups hmentions)⟩

end ObjectGraph

end HeapDump

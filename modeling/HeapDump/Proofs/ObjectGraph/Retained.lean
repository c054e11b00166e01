import HeapDump.Draft
import HeapDump.Proofs.Graph.Subtree
import HeapDump.Proofs.ObjectGraph.Decode
import Mathlib.Algebra.Order.BigOperators.Group.Finset

/-! What retained sizes add up.  The tree of dominators leads from each object to those that every path to
it goes through, so the row of an object, once everything is settled, holds the bytes of just what would
be unreachable without it. -/

namespace HeapDump

/-! ### Sums of sizes -/

theorem toNat_sum {ι : Type} {s : Finset ι} {f : ι → UInt64}
    (h : ∑ i ∈ s, (f i).toNat < 2 ^ 64) : (∑ i ∈ s, f i).toNat = ∑ i ∈ s, (f i).toNat := by
  classical
  induction s using Finset.induction_on with
  | empty => rfl
  | insert i s hi ih =>
    rw [Finset.sum_insert hi] at h ⊢
    rw [Finset.sum_insert hi, UInt64.toNat_add, ih (by omega), Nat.mod_eq_of_lt h]

theorem foldl_add (row : Array UInt64) :
    row.foldl (· + ·) 0 = ∑ i ∈ Finset.range row.size, row.getD i 0 := by
  rw [← Array.foldl_toList]
  obtain ⟨row⟩ := row
  simp only [List.size_toArray, Array.getD_eq_getD_getElem?, List.getElem?_toArray]
  induction row using List.reverseRecOn with
  | nil => rfl
  | append_singleton row a ih =>
    have hinit : ∀ i ∈ Finset.range row.length,
        (row ++ [a])[i]?.getD (0 : UInt64) = row[i]?.getD 0 := by
      intro i hi
      rw [List.getElem?_append_left (Finset.mem_range.mp hi)]
    rw [List.foldl_append, ih, List.length_append, List.length_singleton, Finset.sum_range_succ,
      Finset.sum_congr rfl hinit, List.getElem?_concat_length]
    rfl

namespace DominatorTree

open Dominance

variable {ε : Type} {graph : RootedGraph ε}

theorem above_iff_dominates {t : Traversal} (covers : t.Covers graph) {d v : Ident}
    (hd : graph.Reachable d) (hv : graph.Reachable v) :
    Above (ofTraversal t).parents (numberOf t.order d) (numberOf t.order v) ↔
      graph.Dominates d v := by
  have exact := solve_exact (ordered_tableOf covers)
  have hle := (reachable_numberOf covers hv).2
  rw [← dominates_iff covers hd hv]
  exact ⟨exact.dominates_of_above hle, exact.toSound.above_of_dominates (exact.inTree_of_le hle)⟩

theorem above_zero {t : Traversal} (covers : t.Covers graph) {n : Nat} (hn : n ≤ t.order.length) :
    Above (ofTraversal t).parents 0 n := by
  have exact := solve_exact (ordered_tableOf covers)
  refine exact.toSound.above_of_dominates (exact.inTree_of_le hn) fun before hpath => ?_
  obtain ⟨path, hnumbers, -⟩ := path_of_numbers covers hpath
  rw [hnumbers]
  exact List.mem_append_right _ (List.mem_singleton.mpr rfl)

theorem ofGraph_eq_ok {tree : DominatorTree} (h : ofGraph graph = .ok tree) :
    ∃ t, tree = ofTraversal t ∧ t.Covers graph := by
  have hspec := Traversal.ofGraph_spec graph
  rw [ofGraph] at h
  cases ht : Traversal.ofGraph graph with
  | error e =>
    rw [ht] at h
    cases h
  | ok t =>
    rw [ht] at h hspec
    cases h
    exact ⟨t, rfl, hspec.2⟩

end DominatorTree

namespace ObjectGraph

variable {graph : ObjectGraph}

/-- The bytes that an object takes itself. -/
def ownSize (graph : ObjectGraph) (id : Ident) : UInt64 :=
  (graph.resolve id).elim 0 graph.shallowSize

open scoped Classical in
/-- The objects that the roots reach. -/
noncomputable def reached (graph : ObjectGraph) : Finset Ident :=
  graph.index.keys.toFinset.filter graph.rooted.Reachable

open scoped Classical in
/-- The reached objects that every path to them comes to through `id`, which include `id`. -/
noncomputable def keptBy (graph : ObjectGraph) (id : Ident) : Finset Ident :=
  graph.reached.filter (graph.rooted.Dominates id)

/-- The bytes in one heap that would be unreachable without `id`. -/
noncomputable def retainedIn (graph : ObjectGraph) (id : Ident) (heap : Nat) : Nat :=
  ∑ m ∈ graph.keptBy id with graph.heapIndex? m = some heap, (graph.ownSize m).toNat

theorem contains_of_reachable {id : Ident} (h : graph.rooted.Reachable id) :
    graph.contains id = true := by
  have hmem : id ∈ graph.rooted.nodes := by
    refine Flow.Reaches.induction (fun r hr => graph.rooted.roots_mem r hr) ?_ h
    rintro u v - ⟨vs, hvs, hv⟩
    exact graph.rooted.successors_mem u vs hvs v hv
  exact Std.TreeMap.mem_keys.mp hmem

theorem mem_reached {id : Ident} : id ∈ graph.reached ↔ graph.rooted.Reachable id := by
  classical
  rw [reached, Finset.mem_filter, List.mem_toFinset, and_iff_right_iff_imp]
  exact fun h => mem_nodes_of_contains (contains_of_reachable h)

theorem mem_keptBy {id m : Ident} :
    m ∈ graph.keptBy id ↔ m ∈ graph.reached ∧ graph.rooted.Dominates id m := by
  classical
  exact Finset.mem_filter

theorem keptBy_subset {id : Ident} : graph.keptBy id ⊆ graph.reached :=
  fun _ h => (mem_keptBy.mp h).1

end ObjectGraph

namespace RetainedSizes

open Dominance DominatorTree

/-- Every number is the sum of the sizes of the objects that it stands for. -/
structure Accounts (graph : ObjectGraph) (sizes : RetainedSizes) : Prop where
  size_isSome : ∀ id, (sizes.size? id).isSome ↔ graph.rooted.Reachable id
  sizeInHeap_isSome : ∀ id heap, (sizes.sizeInHeap? id heap).isSome ↔ graph.rooted.Reachable id
  sizeInHeap : ∀ id heap size, sizes.sizeInHeap? id heap = some size →
    size.toNat = graph.retainedIn id heap
  size : ∀ id size, sizes.size? id = some size →
    size.toNat = ∑ heap ∈ Finset.range graph.heaps.size, graph.retainedIn id heap
  totalInHeap : ∀ heap, (sizes.totalInHeap heap).toNat =
    ∑ m ∈ graph.reached with graph.heapIndex? m = some heap, (graph.ownSize m).toNat
  total : sizes.total.toNat = ∑ m ∈ graph.reached, (graph.ownSize m).toNat

/-- The rows of the objects alone, the row of the super-root first. -/
def rows (graph : ObjectGraph) (order : Array Ident) : Array (Array UInt64) :=
  #[zeros graph.heaps.size] ++ order.map (alone graph)

/-! ### Rows of objects alone -/

variable {graph : ObjectGraph}

theorem size_alone (id : Ident) : (alone graph id).size = graph.heaps.size := by
  unfold alone
  dsimp only
  split
  · rw [Array.size_setIfInBounds, zeros, Array.size_replicate]
  · rw [zeros, Array.size_replicate]

theorem entry_rows_zero (order : List Ident) (heap : Nat) :
    entry (rows graph order.toArray) 0 heap = 0 := by
  simp only [entry, rows, Array.getD_eq_getD_getElem?, Array.getElem?_append, zeros]
  simp only [List.size_toArray, List.length_singleton, Nat.zero_lt_one, if_true,
    List.getElem?_toArray, List.getElem?_cons_zero, Option.getD_some, Array.getElem?_replicate]
  split <;> rfl

theorem entry_rows {order : List Ident} {n : Nat} {id : Ident} (h : order[n]? = some id)
    (heap : Nat) :
    entry (rows graph order.toArray) (n + 1) heap = (alone graph id).getD heap 0 := by
  simp [entry, rows, h]

theorem shaped_rows (order : List Ident) :
    Shaped order.length graph.heaps.size (rows graph order.toArray) := by
  refine ⟨by simp [rows], fun n hn => ?_⟩
  cases n with
  | zero => simp [rows, zeros]
  | succ n =>
    have hlt : n < order.length := hn
    simp [rows, hlt, size_alone]

section Sound

variable (sound : graph.Sound)
include sound

theorem heapIndex_of_contains {id : Ident} (h : graph.contains id = true) :
    ∃ object heap, graph.resolve id = some object ∧ graph.heapIndex? id = some heap ∧
      heap < graph.heaps.size := by
  obtain ⟨object, hresolve, -⟩ := sound.resolve_of_contains h
  obtain ⟨location, hlocation, hat⟩ := ObjectTable.resolve_eq_some.mp hresolve
  obtain ⟨heap, hheap, -⟩ := Option.bind_eq_some_iff.mp hat
  refine ⟨object, location.heap, hresolve, ?_, (Array.getElem?_eq_some_iff.mp hheap).1⟩
  rw [ObjectTable.heapIndex?, hlocation]
  rfl

theorem getD_alone {id : Ident} (h : graph.contains id = true) (heap : Nat) :
    (alone graph id).getD heap 0 =
      if graph.heapIndex? id = some heap then graph.ownSize id else 0 := by
  obtain ⟨object, index, hresolve, hindex, hlt⟩ := heapIndex_of_contains sound h
  simp only [alone, hresolve, hindex, ObjectGraph.ownSize, Option.elim_some, Option.some.injEq,
    Array.getD_eq_getD_getElem?, Array.getElem?_setIfInBounds, zeros, Array.size_replicate, hlt,
    if_true]
  split
  · rfl
  · rw [Array.getElem?_replicate]
    split <;> rfl

/-- The weight of a number, which is that of the object it stands for, is the size of the object in its
own heap and nothing in others. -/
theorem sumOf_rows {t : Traversal} (covers : t.Covers graph.rooted) (heap : Nat)
    (picks : Nat → Prop) [DecidablePred picks] :
    sumOf t.order.length (entry (rows graph t.order.toArray) · heap) picks =
      ∑ m ∈ graph.reached with picks (numberOf t.order m) ∧ graph.heapIndex? m = some heap,
        graph.ownSize m := by
  rw [Finset.sum_filter]
  symm
  refine Finset.sum_of_injOn (numberOf t.order) (fun v hv w hw h => ?_) (fun v hv => ?_)
    (fun n hn hnot => ?_) fun v hv => ?_
  · exact reachable_inj covers (ObjectGraph.mem_reached.mp hv) (ObjectGraph.mem_reached.mp hw) h
  · have hle := (reachable_numberOf covers (ObjectGraph.mem_reached.mp hv)).2
    exact Finset.mem_coe.mpr (Finset.mem_range.mpr (by omega))
  · rcases Nat.eq_zero_or_pos n with rfl | hpos
    -- The super-root stands for no object and weighs nothing.
    · simp only [entry_rows_zero, ite_self]
    · have hle := Nat.le_of_lt_succ (Finset.mem_range.mp hn)
      obtain ⟨v, hv, rfl⟩ := exists_numberOf covers.nodup hpos hle
      exact absurd ⟨v, ObjectGraph.mem_reached.mpr ((covers.mem_order v).mp hv), rfl⟩ hnot
  · have hreach := ObjectGraph.mem_reached.mp hv
    obtain ⟨-, hpos, hget⟩ := getElem?_numberOf covers.nodup ((covers.mem_order v).mpr hreach)
    have hentry : entry (rows graph t.order.toArray) (numberOf t.order v - 1 + 1) heap =
        (alone graph v).getD heap 0 := entry_rows hget heap
    rw [Nat.sub_add_cancel hpos] at hentry
    dsimp only
    rw [hentry, getD_alone sound (ObjectGraph.contains_of_reachable hreach)]
    by_cases hpick : picks (numberOf t.order v)
    · simp only [hpick, true_and, if_true]
    · simp only [hpick, false_and, if_false]

/-- Every object lies in one heap. -/
theorem sum_heaps (objects : Finset Ident) (hobjects : objects ⊆ graph.reached)
    (size : Ident → Nat) :
    ∑ heap ∈ Finset.range graph.heaps.size,
        ∑ m ∈ objects with graph.heapIndex? m = some heap, size m =
      ∑ m ∈ objects, size m := by
  have hheap : ∀ m ∈ objects, ∃ heap, graph.heapIndex? m = some heap ∧
      heap < graph.heaps.size := by
    intro m hm
    obtain ⟨-, heap, -, hindex, hlt⟩ := heapIndex_of_contains sound
      (ObjectGraph.contains_of_reachable (ObjectGraph.mem_reached.mp (hobjects hm)))
    exact ⟨heap, hindex, hlt⟩
  rw [← Finset.sum_fiberwise_of_maps_to (g := fun m => (graph.heapIndex? m).getD 0)
    (t := Finset.range graph.heaps.size)]
  · refine Finset.sum_congr rfl fun heap _ => Finset.sum_congr ?_ fun _ _ => rfl
    refine Finset.filter_congr fun m hm => ?_
    obtain ⟨index, hindex, -⟩ := hheap m hm
    rw [hindex, Option.getD_some, Option.some.injEq]
  · intro m hm
    obtain ⟨index, hindex, hlt⟩ := hheap m hm
    rw [hindex]
    exact Finset.mem_range.mpr hlt

section Bounded

variable (hbound : ∑ m ∈ graph.reached, (graph.ownSize m).toNat < 2 ^ 64)
include hbound

/-- A row that holds the sizes of some objects by their heaps adds up to the sum of these sizes. -/
theorem toNat_foldl_row {row : Array UInt64} (hsize : row.size = graph.heaps.size)
    {objects : Finset Ident} (hobjects : objects ⊆ graph.reached)
    (hrow : ∀ heap, (row.getD heap 0).toNat =
      ∑ m ∈ objects with graph.heapIndex? m = some heap, (graph.ownSize m).toNat) :
    (row.foldl (· + ·) 0).toNat = ∑ m ∈ objects, (graph.ownSize m).toNat := by
  have hsum : ∑ heap ∈ Finset.range graph.heaps.size, (row.getD heap 0).toNat =
      ∑ m ∈ objects, (graph.ownSize m).toNat := by
    rw [← sum_heaps sound objects hobjects]
    exact Finset.sum_congr rfl fun heap _ => hrow heap
  rw [foldl_add, hsize, toNat_sum, hsum]
  rw [hsum]
  exact Nat.lt_of_le_of_lt (Finset.sum_le_sum_of_subset hobjects) hbound

/-- The row of a number holds, heap by heap, the sizes of the objects whose numbers are below it. -/
theorem getElem?_sizes {t : Traversal} (covers : t.Covers graph.rooted) {n : Nat}
    (hn : n ≤ t.order.length) {objects : Finset Ident} (hobjects : objects ⊆ graph.reached)
    (habove : ∀ m ∈ graph.reached,
      Above (ofTraversal t).parents n (numberOf t.order m) ↔ m ∈ objects) :
    ∃ row, (ofTree graph (ofTraversal t)).sizes[n]? = some row ∧ row.size = graph.heaps.size ∧
      ∀ heap, (row.getD heap 0).toNat =
        ∑ m ∈ objects with graph.heapIndex? m = some heap, (graph.ownSize m).toNat := by
  classical
  have exact := solve_exact (ordered_tableOf covers)
  obtain ⟨shaped, hentry⟩ : Shaped t.order.length graph.heaps.size
      (ofTree graph (ofTraversal t)).sizes ∧ ∀ m ≤ t.order.length, ∀ heap,
        entry (ofTree graph (ofTraversal t)).sizes m heap =
          sumOf t.order.length (entry (rows graph t.order.toArray) · heap)
            (Above (ofTraversal t).parents m) :=
    entry_foldl_settle exact.toIsTree (shaped_rows t.order)
  have hlt : n < (ofTree graph (ofTraversal t)).sizes.size := by
    rw [shaped.size]
    exact Nat.lt_succ_of_le hn
  have hgetD : ((ofTree graph (ofTraversal t)).sizes).getD n #[] =
      (ofTree graph (ofTraversal t)).sizes[n] := by
    rw [Array.getD_eq_getD_getElem?, Array.getElem?_eq_getElem hlt, Option.getD_some]
  refine ⟨_, Array.getElem?_eq_getElem hlt, ?_, fun heap => ?_⟩
  · rw [← hgetD]
    exact shaped.row n hn
  · have hfilter : ∀ m ∈ graph.reached,
        (Above (ofTraversal t).parents n (numberOf t.order m) ∧ graph.heapIndex? m = some heap ↔
          m ∈ objects ∧ graph.heapIndex? m = some heap) :=
      fun m hm => and_congr_left fun _ => habove m hm
    have hsubset : (graph.reached.filter fun m =>
        m ∈ objects ∧ graph.heapIndex? m = some heap) =
          objects.filter fun m => graph.heapIndex? m = some heap := by
      rw [← Finset.filter_filter, Finset.filter_mem_eq_inter, Finset.inter_eq_right.mpr hobjects]
    rw [← hgetD]
    change (entry _ n heap).toNat = _
    rw [hentry n hn heap, sumOf_rows sound covers heap, Finset.filter_congr hfilter, hsubset]
    refine toNat_sum (Nat.lt_of_le_of_lt (Finset.sum_le_sum_of_subset ?_) hbound)
    exact (Finset.filter_subset _ _).trans hobjects

theorem row?_of_reachable {t : Traversal} (covers : t.Covers graph.rooted) {id : Ident}
    (hid : graph.rooted.Reachable id) :
    ∃ row, (ofTree graph (ofTraversal t)).row? id = some row ∧ row.size = graph.heaps.size ∧
      ∀ heap, (row.getD heap 0).toNat = graph.retainedIn id heap := by
  have habove : ∀ m ∈ graph.reached,
      (Above (ofTraversal t).parents (numberOf t.order id) (numberOf t.order m) ↔
        m ∈ graph.keptBy id) := by
    intro m hm
    rw [above_iff_dominates covers hid (ObjectGraph.mem_reached.mp hm), ObjectGraph.mem_keptBy,
      and_iff_right hm]
  obtain ⟨row, hrow, hsize, hsum⟩ := getElem?_sizes sound hbound covers
    (reachable_numberOf covers hid).2 ObjectGraph.keptBy_subset habove
  refine ⟨row, ?_, hsize, hsum⟩
  have hnumber := (getElem?_numberOf covers.nodup ((covers.mem_order id).mpr hid)).1
  exact Option.bind_eq_some_iff.mpr ⟨_, hnumber, hrow⟩

theorem row?_isSome {t : Traversal} (covers : t.Covers graph.rooted) (id : Ident) :
    ((ofTree graph (ofTraversal t)).row? id).isSome ↔ graph.rooted.Reachable id := by
  refine ⟨fun h => ?_, fun h => ?_⟩
  · obtain ⟨row, hrow⟩ := Option.isSome_iff_exists.mp h
    obtain ⟨n, hn, -⟩ := Option.bind_eq_some_iff.mp hrow
    obtain ⟨i, -, hi⟩ := (getElem?_number covers.nodup id n).mp hn
    exact (covers.mem_order id).mp (List.mem_of_getElem? hi)
  · obtain ⟨row, hrow, -⟩ := row?_of_reachable sound hbound covers h
    rw [hrow, Option.isSome_some]

theorem accounts_ofTraversal {t : Traversal} (covers : t.Covers graph.rooted) :
    (ofTree graph (ofTraversal t)).Accounts graph := by
  have hrow := row?_isSome sound hbound covers
  obtain ⟨top, htop, htopsize, htopsum⟩ := getElem?_sizes sound hbound covers
    (Nat.zero_le _) (Finset.Subset.refl _) fun m hm => iff_of_true
      (above_zero covers (reachable_numberOf covers (ObjectGraph.mem_reached.mp hm)).2) hm
  have hroot : (ofTree graph (ofTraversal t)).rootRow = top := by
    rw [rootRow, Array.getD_eq_getD_getElem?, htop, Option.getD_some]
  refine ⟨fun id => ?_, fun id heap => ?_, fun id heap size h => ?_, fun id size h => ?_,
    fun heap => ?_, ?_⟩
  · rw [size?, Option.isSome_map, hrow]
  · rw [sizeInHeap?, Option.isSome_map, hrow]
  · obtain ⟨row, hrow', rfl⟩ := Option.map_eq_some_iff.mp h
    have hid := (hrow id).mp (hrow' ▸ Option.isSome_some)
    obtain ⟨_, hsome, -, hsum⟩ := row?_of_reachable sound hbound covers hid
    rw [hrow'] at hsome
    cases hsome
    exact hsum heap
  · obtain ⟨row, hrow', rfl⟩ := Option.map_eq_some_iff.mp h
    have hid := (hrow id).mp (hrow' ▸ Option.isSome_some)
    obtain ⟨_, hsome, hsize, hsum⟩ := row?_of_reachable sound hbound covers hid
    rw [hrow'] at hsome
    cases hsome
    rw [toNat_foldl_row sound hbound hsize ObjectGraph.keptBy_subset hsum]
    exact (sum_heaps sound (graph.keptBy id) ObjectGraph.keptBy_subset _).symm
  · rw [totalInHeap, hroot]
    exact htopsum heap
  · rw [total, hroot]
    exact toNat_foldl_row sound hbound htopsize (Finset.Subset.refl _) htopsum

end Bounded

end Sound

end RetainedSizes

namespace ObjectGraph

theorem sum_reached_le (graph : ObjectGraph) :
    ∑ m ∈ graph.reached, (graph.ownSize m).toNat ≤
      (graph.index.keys.map fun m => (graph.ownSize m).toNat).sum := by
  classical
  rw [← List.sum_toFinset _ graph.index.nodup_keys]
  exact Finset.sum_le_sum_of_subset (Finset.filter_subset _ _)

/-- If the sizes of everything reachable fit into a word, retained sizes are given for just what is
reachable, and each is the sum of the sizes of the objects that cannot be reached without it. -/
theorem retainedSizes_accounts (file : ByteArray) (graph : ObjectGraph) (tree : DominatorTree)
    (hread : read (.ofBytes file) = .ok graph) (htree : graph.dominators = .ok tree)
    (hbound : ∑ m ∈ graph.reached, (graph.ownSize m).toNat < 2 ^ 64) :
    ∃ sizes, graph.retainedSizes = .ok sizes ∧ sizes.Accounts graph := by
  have sound : graph.Sound := read_sound (ByteSource.lawful_ofBytes file) hread
  obtain ⟨t, rfl, covers⟩ := DominatorTree.ofGraph_eq_ok htree
  refine ⟨.ofTree graph (.ofTraversal t), ?_, RetainedSizes.accounts_ofTraversal sound hbound covers⟩
  rw [retainedSizes, htree]
  rfl

/-- Two linked instances of one class in two heaps, the first of them a root. -/
def linked : ByteArray :=
  (Draft.toBytes ⟨"JAVA PROFILE 1.0.2", .four, 0,
    [.heapDump [.classDump ⟨1⟩ none 4 [] [] [(⟨2⟩, .object)], .instance ⟨16⟩ ⟨1⟩ [0, 0, 0, 17],
      .heapSwitch 1 ⟨3⟩, .instance ⟨17⟩ ⟨1⟩ [0, 0, 0, 0], .root (.root .systemClass) ⟨16⟩]]⟩).toByteArray

theorem retainedSizes_accounts_linked :
    ∃ graph tree, read (.ofBytes linked) = .ok graph ∧ graph.dominators = .ok tree ∧
      ∑ m ∈ graph.reached, (graph.ownSize m).toNat < 2 ^ 64 ∧
        ∃ sizes, graph.retainedSizes = .ok sizes ∧ sizes.Accounts graph := by
  have hok : ((read (.ofBytes linked)).toOption.any fun graph => graph.dominators.isOk &&
      decide ((graph.index.keys.map fun m => (graph.ownSize m).toNat).sum < 2 ^ 64)) = true := by
    decide +kernel
  cases h : read (.ofBytes linked) with
  | error e =>
    rw [h] at hok
    cases hok
  | ok graph =>
    rw [h] at hok
    obtain ⟨htree, hsum⟩ := Bool.and_eq_true_iff.mp hok
    have hbound := Nat.lt_of_le_of_lt (sum_reached_le graph) (of_decide_eq_true hsum)
    cases ht : graph.dominators with
    | error e =>
      rw [ht] at htree
      cases htree
    | ok tree =>
      exact ⟨graph, tree, rfl, ht, hbound, retainedSizes_accounts linked graph tree h ht hbound⟩

end ObjectGraph

end HeapDump

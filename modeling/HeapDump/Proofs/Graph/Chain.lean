import HeapDump.Proofs.Graph.Dominators

/-! Chains of dominators.  A node is first met on a way through earlier nodes, so what dominates it, other
than itself, comes earlier in the order.  Going from a node to its immediate dominator, and on from there,
therefore ends, and it passes all dominators of the node, nearest first.  Read the other way, the tree
parts the reachable nodes among their immediate dominators. -/

namespace HeapDump

variable {ε : Type} {graph : RootedGraph ε}

/-! ### Dominators come first -/

section Covers

variable {t : Traversal} (covers : t.Covers graph)
include covers

theorem Traversal.Covers.exists_path {before rest : List Ident} {v : Ident}
    (h : t.order = before ++ v :: rest) :
    ∃ path, graph.flow.Path (v :: path) ∧ ∀ u ∈ path, u ∈ before := by
  induction hlength : before.length using Nat.strongRecOn generalizing before v rest with
  | ind length ih =>
    subst hlength
    obtain ⟨start, hedge, hbefore⟩ := covers.met before v rest h
    obtain ⟨hstep, -⟩ := (covers.mem_edges start v).mp hedge
    cases start with
    | none => exact ⟨[], .single hstep, nofun⟩
    | some u =>
      obtain ⟨front, back, rfl⟩ := List.append_of_mem (hbefore u rfl)
      have horder : t.order = front ++ u :: (back ++ v :: rest) := by simp [h]
      obtain ⟨path, hpath, hall⟩ := ih front.length (by simp) horder rfl
      refine ⟨u :: path, hpath.snoc hstep, List.forall_mem_cons.mpr ⟨by simp, fun w hw => ?_⟩⟩
      exact List.mem_append_left _ (hall w hw)

theorem Traversal.Covers.idxOf_lt {d v : Ident} (hv : graph.Reachable v) (hdom : graph.Dominates d v)
    (hne : d ≠ v) : t.order.idxOf d < t.order.idxOf v := by
  obtain ⟨before, rest, horder⟩ := List.append_of_mem ((covers.mem_order v).mpr hv)
  obtain ⟨path, hpath, hall⟩ := covers.exists_path horder
  have hd := hall d ((List.mem_cons.mp (hdom path hpath)).resolve_left hne)
  have hnodup := covers.nodup
  rw [horder] at hnodup ⊢
  have hv : v ∉ before := fun h => List.disjoint_of_nodup_append hnodup h List.mem_cons_self
  rw [List.idxOf_append_of_mem hd, List.idxOf_append_of_notMem hv]
  have := List.idxOf_lt_length_of_mem hd
  omega

end Covers

namespace DominatorTree

/-! ### Chains -/

/-- The nodes other than `n` on every path to `n`, nearest first. -/
structure Lists (graph : RootedGraph ε) (n : Ident) (dominators : List Ident) : Prop where
  nodup : dominators.Nodup
  mem : ∀ d, d ∈ dominators ↔ d ≠ n ∧ graph.Dominates d n
  nearest : dominators.Pairwise fun near far => graph.Dominates far near

theorem lists_nil {n : Ident} (h : graph.IsNearest n .root) : Lists graph n [] where
  nodup := .nil
  mem d := ⟨nofun, fun ⟨hne, hdom⟩ => absurd (h d hdom) hne⟩
  nearest := .nil

theorem lists_cons {n p : Ident} {dominators : List Ident} (hn : graph.Reachable n)
    (h : graph.IsNearest n (.object p)) (hlists : Lists graph p dominators) :
    Lists graph n (p :: dominators) where
  nodup := List.nodup_cons.mpr ⟨fun hp => ((hlists.mem p).mp hp).1 rfl, hlists.nodup⟩
  mem d := by
    obtain ⟨hne, hdom, hleast⟩ := h
    rw [List.mem_cons, hlists.mem]
    constructor
    · rintro (rfl | ⟨hdp, hd⟩)
      · exact ⟨hne, hdom⟩
      · refine ⟨?_, hd.trans hdom⟩
        rintro rfl
        exact hne (hdom.antisymm hd hn)
    · rintro ⟨hdn, hd⟩
      by_cases hdp : d = p
      · exact .inl hdp
      · exact .inr ⟨hdp, hleast d hdn hd⟩
  nearest := hlists.nearest.cons fun far hfar => ((hlists.mem far).mp hfar).2

section Chain

variable {t : Traversal} (covers : t.Covers graph)
include covers

theorem idxOf_lt_of_immediate? {d v : Ident} (h : (ofTraversal t).immediate? v = some (.object d)) :
    t.order.idxOf d < t.order.idxOf v := by
  obtain ⟨hv, hne, hdom, -⟩ := (immediate?_eq_some_iff covers).mp h
  exact covers.idxOf_lt hv hdom hne

/-- Each step of the chain goes to an earlier node, so the place of the node bounds the steps. -/
theorem chainFrom_lists {n : Ident} (hn : graph.Reachable n) :
    ∃ dominators, Lists graph n dominators ∧ ∀ fuel, t.order.idxOf n < fuel →
      (ofTraversal t).chainFrom fuel n = dominators.map .object ++ [.root] := by
  induction hplace : t.order.idxOf n using Nat.strongRecOn generalizing n with
  | ind place ih =>
    subst hplace
    obtain ⟨d, hd, hnearest⟩ := immediate?_isNearest covers hn
    cases d with
    | root =>
      refine ⟨[], lists_nil hnearest, fun fuel hfuel => ?_⟩
      obtain ⟨fuel, rfl⟩ := Nat.exists_eq_add_one_of_ne_zero (Nat.ne_zero_of_lt hfuel)
      rw [chainFrom, hd]
      rfl
    | object p =>
      have hlt := idxOf_lt_of_immediate? covers hd
      have hp : graph.Reachable p := hnearest.2.1.reaches hn
      obtain ⟨dominators, hlists, hchain⟩ := ih _ hlt hp rfl
      refine ⟨p :: dominators, lists_cons hn hnearest hlists, fun fuel hfuel => ?_⟩
      obtain ⟨fuel, rfl⟩ := Nat.exists_eq_add_one_of_ne_zero (Nat.ne_zero_of_lt hfuel)
      rw [chainFrom, hd, List.map_cons, List.cons_append]
      exact congrArg (Dominator.object p :: ·) (hchain fuel (by omega))

theorem chainFrom_eq_nil {n : Ident} (hn : ¬graph.Reachable n) (fuel : Nat) :
    (ofTraversal t).chainFrom fuel n = [] := by
  cases fuel with
  | zero => rfl
  | succ fuel => rw [chainFrom, immediate?_eq_none covers hn]

theorem idxOf_lt_size {n : Ident} (hn : graph.Reachable n) :
    t.order.idxOf n < (ofTraversal t).size :=
  List.idxOf_lt_length_of_mem ((covers.mem_order n).mpr hn)

end Chain

/-! ### Children -/

section Children

variable {parents : Dominance.Parents} {table : Array (Array Ident)} {p : Nat}

theorem size_putBelow (node : Ident × Nat) : (putBelow parents table node).size = table.size := by
  rw [putBelow]
  split
  · exact Array.size_modify
  · rfl

theorem getD_putBelow (hp : p < table.size) (node : Ident × Nat) :
    ((putBelow parents table node).getD p #[]).toList = (table.getD p #[]).toList ++
      ([node].filter fun node => Dominance.parent? parents node.2 = some p).map (·.1) := by
  rw [putBelow]
  split
  · next q hq =>
    by_cases hqp : q = p
    · subst hqp
      simp [hq, hp, Array.getElem_modify]
    · simp [hq, hqp, hp, Array.getElem_modify]
  · next hnone => simp [hnone]

theorem getD_foldl_putBelow (hp : p < table.size) (nodes : List (Ident × Nat)) :
    ((nodes.foldl (putBelow parents) table).getD p #[]).toList = (table.getD p #[]).toList ++
      (nodes.filter fun node => Dominance.parent? parents node.2 = some p).map (·.1) := by
  induction nodes generalizing table with
  | nil => simp
  | cons node nodes ih =>
    rw [List.foldl_cons, ih (by rwa [size_putBelow]), getD_putBelow hp, List.append_assoc,
      ← List.map_append, ← List.filter_append]
    rfl

theorem getD_childrenOf {order : List Ident} (hp : p ≤ order.length) :
    ((childrenOf parents order).getD p #[]).toList =
      ((order.zipIdx 1).filter fun node => Dominance.parent? parents node.2 = some p).map (·.1) := by
  have hsize : p < (Array.replicate (order.length + 1) (#[] : Array Ident)).size := by
    rw [Array.size_replicate]
    omega
  rw [childrenOf, getD_foldl_putBelow hsize]
  simp [Nat.lt_succ_of_le hp]

end Children

section Parts

variable {t : Traversal} (covers : t.Covers graph)
include covers

/-- Each dominator has its own number. -/
theorem ofNumber_eq_some_iff {q : Nat} {d : Dominator} :
    ofNumber t.order.toArray q = some d ↔ (ofTraversal t).number? d = some q := by
  cases d with
  | root => cases q <;> simp [ofNumber, number?]
  | object id =>
    have hnumber : (ofTraversal t).number? (.object id) = (number t.order)[id]? := rfl
    rw [hnumber, getElem?_number covers.nodup]
    cases q <;> simp [ofNumber]

theorem immediate?_of_mem_zipIdx {node : Ident × Nat} (h : node ∈ t.order.zipIdx 1) :
    (ofTraversal t).immediate? node.1 =
      (Dominance.parent? (ofTraversal t).parents node.2).bind (ofNumber t.order.toArray) := by
  obtain ⟨hle, hget⟩ := List.mem_zipIdx_iff_le_and_getElem?_sub.mp h
  have hnumber : (ofTraversal t).numbers[node.1]? = some node.2 :=
    (getElem?_number covers.nodup node.1 node.2).mpr ⟨node.2 - 1, by omega, hget⟩
  rw [immediate?, hnumber]
  rfl

theorem number?_le {d : Dominator} {p : Nat} (h : (ofTraversal t).number? d = some p) :
    p ≤ t.order.length := by
  cases d with
  | root =>
    cases h
    exact Nat.zero_le _
  | object id =>
    obtain ⟨i, rfl, hi⟩ := (getElem?_number covers.nodup id p).mp h
    exact (List.getElem?_eq_some_iff.mp hi).1

/-- The children put below a dominator are the nodes that have it as their immediate dominator. -/
theorem dominatedBy_eq_filter (d : Dominator) :
    (ofTraversal t).dominatedBy d =
      t.order.filter fun n => (ofTraversal t).immediate? n = some d := by
  have hsplit : t.order.filter (fun n => (ofTraversal t).immediate? n = some d) =
      ((t.order.zipIdx 1).filter fun node =>
        (ofTraversal t).immediate? node.1 = some d).map (·.1) := by
    conv_lhs => rw [← List.zipIdx_map_fst 1 t.order, List.filter_map]
    rfl
  have himmediate : ∀ node ∈ t.order.zipIdx 1, ((ofTraversal t).immediate? node.1 = some d ↔
      ∃ q, Dominance.parent? (ofTraversal t).parents node.2 = some q ∧
        (ofTraversal t).number? d = some q) := by
    intro node hnode
    rw [immediate?_of_mem_zipIdx covers hnode, Option.bind_eq_some_iff]
    exact exists_congr fun q => and_congr_right fun _ => ofNumber_eq_some_iff covers
  rw [hsplit, dominatedBy]
  cases hnumber : (ofTraversal t).number? d with
  | none =>
    have hnil : (t.order.zipIdx 1).filter
        (fun node => (ofTraversal t).immediate? node.1 = some d) = [] := by
      refine List.filter_eq_nil_iff.mpr fun node hnode h => ?_
      obtain ⟨q, -, hq⟩ := (himmediate node hnode).mp (of_decide_eq_true h)
      rw [hnumber] at hq
      cases hq
    rw [hnil]
    rfl
  | some p =>
    change ((childrenOf (ofTraversal t).parents t.order).getD p #[]).toList = _
    rw [getD_childrenOf (number?_le covers hnumber)]
    refine congrArg _ (List.filter_congr fun node hnode => ?_)
    rw [decide_eq_decide, himmediate node hnode, hnumber]
    simp only [Option.some.injEq, exists_eq_right']

theorem mem_dominatedBy {d : Dominator} {n : Ident} :
    n ∈ (ofTraversal t).dominatedBy d ↔ (ofTraversal t).immediate? n = some d := by
  rw [dominatedBy_eq_filter covers, List.mem_filter, decide_eq_true_eq, covers.mem_order]
  exact and_iff_right_of_imp fun h => ((immediate?_eq_some_iff covers).mp h).1

/-- Every reachable node stands below one dominator, once. -/
theorem flatMap_dominatedBy_perm :
    ((.root :: t.order.map .object).flatMap (ofTraversal t).dominatedBy).Perm t.order := by
  have hkeys : (Dominator.root :: t.order.map .object).Nodup := by
    refine List.nodup_cons.mpr ⟨by simp, covers.nodup.map fun _ _ h => ?_⟩
    exact Dominator.object.inj h
  have hparts : ((.root :: t.order.map .object).flatMap (ofTraversal t).dominatedBy).Nodup := by
    refine List.nodup_flatMap.mpr ⟨fun d _ => ?_, hkeys.imp fun hne n hn hn' => hne ?_⟩
    · rw [dominatedBy_eq_filter covers]
      exact covers.nodup.filter _
    · rw [mem_dominatedBy covers] at hn hn'
      exact Option.some.inj (hn.symm.trans hn')
  refine (List.perm_ext_iff_of_nodup hparts covers.nodup).mpr fun n => ?_
  simp only [List.mem_flatMap, mem_dominatedBy covers, immediate?_eq_some_iff covers]
  constructor
  · rintro ⟨d, -, hn, -⟩
    exact (covers.mem_order n).mpr hn
  · intro hn
    have hreach := (covers.mem_order n).mp hn
    obtain ⟨d, -, hnearest⟩ := immediate?_isNearest covers hreach
    refine ⟨d, ?_, hreach, hnearest⟩
    cases d with
    | root => exact List.mem_cons_self
    | object p =>
      have hp := (covers.mem_order p).mpr (hnearest.2.1.reaches hreach)
      exact List.mem_cons_of_mem _ (List.mem_map_of_mem hp)

end Parts

theorem nodup_chain {dominators : List Ident} (h : dominators.Nodup) :
    (dominators.map Dominator.object ++ [Dominator.root]).Nodup := by
  have hroot : Dominator.root ∉ dominators.map Dominator.object := by simp
  have hobjects := h.map fun _ _ h => Dominator.object.inj h
  exact hobjects.append (List.nodup_singleton _) (List.disjoint_singleton.mpr hroot)

/-- The tree of a graph none of whose reachable nodes fails: its chains, its parts and its order. -/
theorem tree_of_total (graph : RootedGraph ε)
    (htotal : ∀ u, graph.Reachable u → ∃ vs, graph.successors u = .ok vs) :
    ∃ tree, ofGraph graph = .ok tree ∧
      (tree.reachable.Nodup ∧ ∀ n, n ∈ tree.reachable ↔ graph.Reachable n) ∧
      (∀ n, graph.Reachable n → (tree.chain n).Nodup ∧
        (∃ dominators, tree.chain n = dominators.map .object ++ [.root] ∧
          Lists graph n dominators) ∧
        ∀ fuel, tree.size ≤ fuel → tree.chainFrom fuel n = tree.chain n) ∧
      (∀ n, ¬graph.Reachable n → tree.chain n = []) ∧
      ((.root :: tree.reachable.map .object).flatMap tree.dominatedBy).Perm tree.reachable ∧
      (∀ d n, n ∈ tree.dominatedBy d ↔ tree.immediate? n = some d) ∧
      (∀ d, (tree.dominatedBy d).Sublist tree.reachable) ∧
      ∀ d n, tree.immediate? n = some (.object d) →
        tree.reachable.idxOf d < tree.reachable.idxOf n := by
  obtain ⟨t, ht, covers⟩ := ofGraph_ok htotal
  refine ⟨ofTraversal t, ht, ⟨covers.nodup, covers.mem_order⟩, ?_,
    fun n hn => chainFrom_eq_nil covers hn _, flatMap_dominatedBy_perm covers,
    fun d n => mem_dominatedBy covers, fun d => ?_, fun d n => idxOf_lt_of_immediate? covers⟩
  · intro n hn
    obtain ⟨dominators, hlists, hchain⟩ := chainFrom_lists covers hn
    have hsize := idxOf_lt_size covers hn
    have hself : (ofTraversal t).chain n = dominators.map .object ++ [.root] := hchain _ hsize
    refine ⟨hself ▸ nodup_chain hlists.nodup, ⟨dominators, hself, hlists⟩, fun fuel hfuel => ?_⟩
    rw [hself]
    exact hchain fuel (Nat.lt_of_lt_of_le hsize hfuel)
  · rw [dominatedBy_eq_filter covers]
    exact List.filter_sublist

/-- Two ways that part below the second node and meet again, with an edge back, and an edge from a node out
of reach. -/
def kite : RootedGraph String :=
  .ofEdges [⟨1⟩] [(⟨1⟩, ⟨2⟩), (⟨2⟩, ⟨3⟩), (⟨2⟩, ⟨4⟩), (⟨3⟩, ⟨5⟩), (⟨4⟩, ⟨5⟩), (⟨5⟩, ⟨2⟩), (⟨6⟩, ⟨5⟩)]
    fun _ => none

theorem tree_of_total_kite :
    (∀ u, kite.Reachable u → ∃ vs, kite.successors u = .ok vs) ∧
      ∃ tree, ofGraph kite = .ok tree ∧
        (tree.reachable = [⟨1⟩, ⟨2⟩, ⟨4⟩, ⟨3⟩, ⟨5⟩] ∧
          tree.chain ⟨5⟩ = [.object ⟨2⟩, .object ⟨1⟩, .root] ∧ tree.chain ⟨6⟩ = [] ∧
          tree.dominatedBy (.object ⟨2⟩) = [⟨4⟩, ⟨3⟩, ⟨5⟩]) ∧
        Lists kite ⟨5⟩ [⟨2⟩, ⟨1⟩] ∧ ¬kite.Reachable ⟨6⟩ := by
  have htotal : ∀ u, kite.Reachable u → ∃ vs, kite.successors u = .ok vs := fun _ _ => ⟨_, rfl⟩
  obtain ⟨tree, htree, ⟨-, hmem⟩, hchains, -⟩ := tree_of_total kite htotal
  have hanswers : (ofGraph kite).toOption.map (fun tree => (tree.reachable, tree.chain ⟨5⟩,
      tree.chain ⟨6⟩, tree.dominatedBy (.object ⟨2⟩))) = some ([⟨1⟩, ⟨2⟩, ⟨4⟩, ⟨3⟩, ⟨5⟩],
      [.object ⟨2⟩, .object ⟨1⟩, .root], [], [⟨4⟩, ⟨3⟩, ⟨5⟩]) := by
    decide +kernel
  rw [htree] at hanswers
  obtain ⟨hreachable, hchain, hnone, hparts⟩ := by simpa [Except.toOption] using hanswers
  refine ⟨htotal, tree, htree, ⟨hreachable, hchain, hnone, hparts⟩, ?_, ?_⟩
  · have hfive : kite.Reachable ⟨5⟩ := (hmem _).mp (by rw [hreachable]; decide)
    obtain ⟨-, ⟨dominators, hsame, hlists⟩, -⟩ := hchains ⟨5⟩ hfive
    have hmap : dominators.map Dominator.object = [⟨2⟩, ⟨1⟩].map .object :=
      List.append_cancel_right (hsame.symm.trans hchain)
    rwa [List.map_injective_iff.mpr (fun _ _ => Dominator.object.inj) hmap] at hlists
  · rw [← hmem, hreachable]
    decide

end DominatorTree

end HeapDump

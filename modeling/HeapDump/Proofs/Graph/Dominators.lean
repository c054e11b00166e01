import HeapDump.Proofs.Graph.Rounds
import HeapDump.Proofs.Graph.Traversal

/-! The finished tree of dominators.  The numbers of the nodes carry the paths of the graph over to paths
of numbers that start from 0, and with them what dominates what.  So the tree gives each reachable node
the nearest of the nodes that dominate it. -/

namespace HeapDump.DominatorTree

variable {ε : Type} {graph : RootedGraph ε}

/-! ### The numbers of the nodes -/

theorem number_concat (order : List Ident) (v : Ident) :
    number (order ++ [v]) = (number order).insert v (order.length + 1) := by
  rw [number, List.zipIdx_append, List.foldl_append, Nat.add_comm]
  rfl

theorem getElem?_number {order : List Ident} (hnodup : order.Nodup) (v : Ident) (n : Nat) :
    (number order)[v]? = some n ↔ ∃ i, n = i + 1 ∧ order[i]? = some v := by
  induction order using List.reverseRecOn with
  | nil => simp [number]
  | append_singleton order w ih =>
    obtain ⟨hbefore, -, hnew⟩ := List.nodup_append.mp hnodup
    rw [number_concat, Std.TreeMap.getElem?_insert]
    by_cases hvw : w = v
    · subst hvw
      simp only [Std.compare_self, if_pos, Option.some.injEq]
      refine ⟨fun h => ⟨order.length, h.symm, List.getElem?_concat_length⟩, fun ⟨i, hi, hget⟩ => ?_⟩
      rcases Nat.lt_or_ge i order.length with hlt | hge
      · rw [List.getElem?_append_left hlt] at hget
        exact absurd rfl (hnew w (List.mem_of_getElem? hget) w (List.mem_singleton.mpr rfl))
      · have := (List.getElem?_eq_some_iff.mp hget).1
        rw [List.length_append, List.length_singleton] at this
        omega
    · rw [if_neg (by rwa [Std.LawfulEqOrd.compare_eq_iff_eq]), ih hbefore]
      refine exists_congr fun i => and_congr_right fun _ => ?_
      rcases Nat.lt_or_ge i order.length with hlt | hge
      · rw [List.getElem?_append_left hlt]
      · rw [List.getElem?_eq_none hge, List.getElem?_append_right hge]
        refine ⟨fun h => (nomatch h), fun h => ?_⟩
        exact absurd (List.mem_singleton.mp (List.mem_of_getElem? h)).symm hvw

/-- A node without a number counts as 0. -/
def numberOf (order : List Ident) (v : Ident) : Nat := (number order).getD v 0

theorem getElem?_numberOf {order : List Ident} (hnodup : order.Nodup) {v : Ident}
    (hv : v ∈ order) :
    (number order)[v]? = some (numberOf order v) ∧ 0 < numberOf order v ∧
      order[numberOf order v - 1]? = some v := by
  obtain ⟨i, hi⟩ := List.getElem?_of_mem hv
  have hnumber := (getElem?_number hnodup v (i + 1)).mpr ⟨i, rfl, hi⟩
  have heq : numberOf order v = i + 1 := by
    rw [numberOf, Std.TreeMap.getD_eq_getD_getElem?, hnumber, Option.getD_some]
  rw [heq]
  exact ⟨hnumber, Nat.succ_pos i, hi⟩

theorem numberOf_pos {order : List Ident} (hnodup : order.Nodup) {v : Ident} (hv : v ∈ order) :
    0 < numberOf order v :=
  (getElem?_numberOf hnodup hv).2.1

theorem numberOf_le {order : List Ident} (hnodup : order.Nodup) {v : Ident} (hv : v ∈ order) :
    numberOf order v ≤ order.length := by
  obtain ⟨-, hpos, hget⟩ := getElem?_numberOf hnodup hv
  have := (List.getElem?_eq_some_iff.mp hget).1
  omega

theorem numberOf_inj {order : List Ident} (hnodup : order.Nodup) {v w : Ident} (hv : v ∈ order)
    (hw : w ∈ order) (h : numberOf order v = numberOf order w) : v = w := by
  obtain ⟨-, -, hgetv⟩ := getElem?_numberOf hnodup hv
  obtain ⟨-, -, hgetw⟩ := getElem?_numberOf hnodup hw
  rw [h, hgetw] at hgetv
  exact (Option.some.inj hgetv).symm

theorem exists_numberOf {order : List Ident} (hnodup : order.Nodup) {n : Nat} (hpos : 0 < n)
    (hn : n ≤ order.length) : ∃ v ∈ order, numberOf order v = n := by
  have hlt : n - 1 < order.length := by omega
  refine ⟨order[n - 1], List.getElem_mem hlt, ?_⟩
  have hnumber := (getElem?_number hnodup order[n - 1] n).mpr
    ⟨n - 1, by omega, List.getElem?_eq_getElem hlt⟩
  rw [numberOf, Std.TreeMap.getD_eq_getD_getElem?, hnumber, Option.getD_some]

theorem numberOf_lt {before rest : List Ident} {u v : Ident}
    (hnodup : (before ++ v :: rest).Nodup) (hu : u ∈ before) :
    numberOf (before ++ v :: rest) u < numberOf (before ++ v :: rest) v := by
  obtain ⟨i, hi⟩ := List.getElem?_of_mem hu
  have hlt := (List.getElem?_eq_some_iff.mp hi).1
  have hnu := (getElem?_number hnodup u (i + 1)).mpr
    ⟨i, rfl, by rw [List.getElem?_append_left hlt, hi]⟩
  have hnv := (getElem?_number hnodup v (before.length + 1)).mpr
    ⟨before.length, rfl, by rw [List.getElem?_append_right (Nat.le_refl _), Nat.sub_self]; rfl⟩
  rw [numberOf, numberOf, Std.TreeMap.getD_eq_getD_getElem?, Std.TreeMap.getD_eq_getD_getElem?,
    hnu, hnv, Option.getD_some, Option.getD_some]
  omega

/-! ### The table of predecessors -/

theorem size_predecessors (numbers : Std.TreeMap Ident Nat) (count : Nat)
    (edges : List (Option Ident × Ident)) :
    (predecessors numbers count edges).size = count + 1 := by
  rw [predecessors]
  induction edges using List.reverseRecOn with
  | nil => exact Array.size_replicate
  | append_singleton edges e ih =>
    rw [List.foldl_append]
    exact Array.size_modify.trans ih

/-- The table names the starts of exactly those edges that end at a number. -/
theorem mem_predecessors (numbers : Std.TreeMap Ident Nat) {count n p : Nat} (hn : n ≤ count)
    (edges : List (Option Ident × Ident)) :
    p ∈ (predecessors numbers count edges).getD n [] ↔
      ∃ start v, (start, v) ∈ edges ∧ numbers.getD v 0 = n ∧
        start.elim 0 (numbers.getD · 0) = p := by
  induction edges using List.reverseRecOn with
  | nil =>
    have hempty : (predecessors numbers count []).getD n [] = [] := by
      rw [predecessors, List.foldl_nil, Array.getD_eq_getD_getElem?,
        Array.getElem?_replicate, if_pos (Nat.lt_succ_of_le hn), Option.getD_some]
    simp [hempty]
  | append_singleton edges e ih =>
    obtain ⟨start, v⟩ := e
    have hsize := size_predecessors numbers count edges
    have hconcat : predecessors numbers count (edges ++ [(start, v)]) =
        (predecessors numbers count edges).modify (numbers.getD v 0)
          (start.elim 0 (numbers.getD · 0) :: ·) := by
      rw [predecessors, List.foldl_append]
      rfl
    have hmem : p ∈ (predecessors numbers count (edges ++ [(start, v)])).getD n [] ↔
        (numbers.getD v 0 = n ∧ start.elim 0 (numbers.getD · 0) = p) ∨
          p ∈ (predecessors numbers count edges).getD n [] := by
      rw [hconcat, Array.getD_eq_getD_getElem?, Array.getD_eq_getD_getElem?,
        Array.getElem?_modify, Array.getElem?_eq_getElem (by omega)]
      by_cases hv : numbers.getD v 0 = n
      · rw [if_pos hv]
        simp [hv, eq_comm]
      · rw [if_neg hv]
        simp [hv]
    rw [hmem, ih]
    constructor
    · rintro (⟨hv, hp⟩ | ⟨s, w, hedge, hw⟩)
      · exact ⟨start, v, List.mem_append_right _ (List.mem_singleton.mpr rfl), hv, hp⟩
      · exact ⟨s, w, List.mem_append_left _ hedge, hw⟩
    · rintro ⟨s, w, hedge, hw⟩
      rcases List.mem_append.mp hedge with hedge | hedge
      · exact .inr ⟨s, w, hedge, hw⟩
      · cases List.mem_singleton.mp hedge
        exact .inl hw

/-! ### Paths of numbers -/

section Covers

open Dominance

/-- The table of predecessors that a traversal leads to. -/
def tableOf (t : Traversal) : Array (List Nat) :=
  predecessors (number t.order) t.order.length t.edges.toList

variable {t : Traversal} (covers : t.Covers graph)
include covers

theorem step_iff {p n : Nat} (hn : n ≤ t.order.length) :
    (flow (tableOf t)).step p n ↔ ∃ start v, graph.IsEdge start v ∧
      (∀ u, start = some u → graph.Reachable u) ∧ numberOf t.order v = n ∧
        start.elim 0 (numberOf t.order) = p := by
  change p ∈ (tableOf t).getD n [] ↔ _
  rw [tableOf, mem_predecessors _ hn]
  refine exists_congr fun start => exists_congr fun v => ?_
  rw [Array.mem_toList_iff, covers.mem_edges, and_assoc]
  rfl

theorem reachable_numberOf {v : Ident} (hv : graph.Reachable v) :
    0 < numberOf t.order v ∧ numberOf t.order v ≤ t.order.length :=
  have hmem := (covers.mem_order v).mpr hv
  ⟨numberOf_pos covers.nodup hmem, numberOf_le covers.nodup hmem⟩

theorem reachable_inj {v w : Ident} (hv : graph.Reachable v) (hw : graph.Reachable w)
    (h : numberOf t.order v = numberOf t.order w) : v = w :=
  numberOf_inj covers.nodup ((covers.mem_order v).mpr hv) ((covers.mem_order w).mpr hw) h

theorem ordered_tableOf : Ordered (tableOf t) t.order.length where
  size := size_predecessors _ _ _
  start := by
    apply List.eq_nil_iff_forall_not_mem.mpr
    intro p hp
    obtain ⟨start, v, hedge, hstart, hv, -⟩ := (step_iff covers (Nat.zero_le _)).mp hp
    have := (reachable_numberOf covers (hedge.reachable hstart)).1
    omega
  earlier n hzero hn := by
    obtain ⟨v, hv, rfl⟩ := exists_numberOf covers.nodup (Nat.pos_of_ne_zero hzero) hn
    obtain ⟨before, rest, horder⟩ := List.append_of_mem hv
    obtain ⟨start, hedge, hbefore⟩ := covers.met before v rest horder
    have hstep := (step_iff covers hn).mpr ⟨start, v, ((covers.mem_edges start v).mp hedge).1,
      ((covers.mem_edges start v).mp hedge).2, rfl, rfl⟩
    refine ⟨_, hstep, ?_⟩
    cases start with
    | none => exact Nat.pos_of_ne_zero hzero
    | some u =>
      have hnodup := covers.nodup
      rw [horder] at hnodup ⊢
      exact numberOf_lt hnodup (hbefore u rfl)

/-- The numbers on a path of the graph, with 0 for the super-root, are a path. -/
theorem path_numberOf {path : List Ident} (h : graph.flow.Path path) :
    (flow (tableOf t)).Path (path.map (numberOf t.order) ++ [0]) := by
  induction h with
  | single hr =>
    have hreach : graph.Reachable _ := ⟨[], .single hr⟩
    refine (Flow.Path.single rfl).snoc ((step_iff covers (reachable_numberOf covers hreach).2).mpr ?_)
    exact ⟨none, _, hr, fun u hu => (nomatch hu), rfl, rfl⟩
  | @snoc u v before hpath hstep ih =>
    have hreach : graph.Reachable v := hpath.reaches.step hstep
    refine ih.snoc ((step_iff covers (reachable_numberOf covers hreach).2).mpr ?_)
    refine ⟨some u, v, hstep, fun w hw => ?_, rfl, rfl⟩
    cases hw
    exact hpath.reaches

/-- Every path of numbers but the one that stays at 0 comes from a path of the graph. -/
theorem path_of_numbers {numbers : List Nat} (h : (flow (tableOf t)).Path numbers) :
    ∃ path, numbers = path.map (numberOf t.order) ++ [0] ∧
      (path ≠ [] → graph.flow.Path path) := by
  induction h with
  | single hzero => exact ⟨[], by rw [show _ = 0 from hzero]; rfl, fun hne => absurd rfl hne⟩
  | @snoc p n before hpath hstep ih =>
    obtain ⟨path, hnumbers, hgraph⟩ := ih
    have hn := le_of_step (ordered_tableOf covers) hstep
    obtain ⟨start, v, hedge, hstart, hv, hp⟩ := (step_iff covers hn).mp hstep
    refine ⟨v :: path, by rw [hnumbers, List.map_cons, hv]; rfl, fun _ => ?_⟩
    cases path with
    | nil =>
      cases start with
      | none => exact .single hedge
      | some u =>
        have hpos := (reachable_numberOf covers (hstart u rfl)).1
        cases hnumbers
        exact absurd hp (by simp only [Option.elim_some]; omega)
    | cons w path =>
      have hw := hgraph (List.cons_ne_nil w path)
      have hpw : numberOf t.order w = p := (List.cons.inj hnumbers).1.symm
      cases start with
      | none =>
        have hpos := (reachable_numberOf covers hw.reaches).1
        exact absurd hp (by simp only [Option.elim_none]; omega)
      | some u =>
        rw [reachable_inj covers (hstart u rfl) hw.reaches (hp.trans hpw.symm)] at hedge
        exact hw.snoc hedge

theorem dominates_iff {d v : Ident} (hd : graph.Reachable d) (hv : graph.Reachable v) :
    (flow (tableOf t)).Dominates (numberOf t.order d) (numberOf t.order v) ↔
      graph.Dominates d v := by
  constructor
  · intro h before hpath
    have hmem : _ ∈ (v :: before).map (numberOf t.order) ++ [0] := h _ (path_numberOf covers hpath)
    rw [List.mem_append, List.mem_map, List.mem_singleton] at hmem
    rcases hmem with ⟨w, hw, hwd⟩ | hzero
    · obtain ⟨rest, hrest, -⟩ := hpath.of_mem hw
      exact reachable_inj covers hrest.reaches hd hwd ▸ hw
    · have := (reachable_numberOf covers hd).1
      omega
  · intro h before hpath
    obtain ⟨path, hnumbers, hgraph⟩ := path_of_numbers covers hpath
    cases path with
    | nil =>
      have := (reachable_numberOf covers hv).1
      have := (List.cons.inj hnumbers).1
      omega
    | cons w path =>
      have hw := hgraph (List.cons_ne_nil w path)
      have hwv : w = v := reachable_inj covers hw.reaches hv (List.cons.inj hnumbers).1.symm
      subst hwv
      rw [hnumbers]
      exact List.mem_append_left _ (List.mem_map_of_mem (h path hw))

end Covers

/-! ### Immediate dominators -/

section Immediate

variable {t : Traversal} (covers : t.Covers graph)
include covers

theorem immediate?_eq_none {v : Ident} (hv : ¬graph.Reachable v) :
    (ofTraversal t).immediate? v = none := by
  have hnone : (number t.order)[v]? = none := by
    rw [Option.eq_none_iff_forall_ne_some]
    intro n hn
    obtain ⟨i, -, hi⟩ := (getElem?_number covers.nodup v n).mp hn
    exact hv ((covers.mem_order v).mp (List.mem_of_getElem? hi))
  rw [immediate?, show (ofTraversal t).numbers = number t.order from rfl, hnone]
  rfl

theorem immediate?_isNearest {v : Ident} (hv : graph.Reachable v) :
    ∃ d, (ofTraversal t).immediate? v = some d ∧ graph.IsNearest v d := by
  obtain ⟨hpos, hle⟩ := reachable_numberOf covers hv
  have hnumber := (getElem?_numberOf covers.nodup ((covers.mem_order v).mpr hv)).1
  obtain ⟨q, hq, hlt, hdom, hnearest⟩ :=
    Dominance.parent?_solve (ordered_tableOf covers) (Nat.pos_iff_ne_zero.mp hpos) hle
  have himmediate : (ofTraversal t).immediate? v = ofNumber t.order.toArray q := by
    rw [immediate?, show (ofTraversal t).numbers = number t.order from rfl, hnumber]
    change (Dominance.parent? (Dominance.solve (tableOf t) t.order.length) _).bind _ = _
    rw [hq]
    rfl
  -- Whatever else dominates the node has a number that dominates `q`.
  have hother : ∀ e, e ≠ v → graph.Dominates e v → graph.Reachable e ∧
      (Dominance.flow (tableOf t)).Dominates (numberOf t.order e) q := by
    intro e hne he
    have hreach : graph.Reachable e := he.reaches hv
    refine ⟨hreach, hnearest _ (fun h => hne ?_) ((dominates_iff covers hreach hv).mpr he)⟩
    exact reachable_inj covers hreach hv h
  rw [himmediate]
  by_cases hzero : q = 0
  · subst hzero
    refine ⟨.root, rfl, fun e he => ?_⟩
    by_contra hne
    obtain ⟨hreach, h⟩ := hother e hne he
    have := Dominance.dominates_zero h
    have := (reachable_numberOf covers hreach).1
    omega
  · obtain ⟨d, hd, rfl⟩ := exists_numberOf covers.nodup (Nat.pos_of_ne_zero hzero) (by omega)
    have hreach := (covers.mem_order d).mp hd
    obtain ⟨-, hdpos, hget⟩ := getElem?_numberOf covers.nodup hd
    obtain ⟨i, hi⟩ : ∃ i, numberOf t.order d = i + 1 := ⟨_, (Nat.succ_pred hzero).symm⟩
    refine ⟨.object d, ?_, fun h => ?_, (dominates_iff covers hreach hv).mp hdom, fun e hne he => ?_⟩
    · rw [hi, Nat.add_sub_cancel] at hget
      rw [hi, ofNumber, List.getElem?_toArray, hget]
      rfl
    · rw [h] at hlt
      exact Nat.lt_irrefl _ hlt
    · obtain ⟨hereach, h⟩ := hother e hne he
      exact (dominates_iff covers hereach hreach).mp h

theorem immediate?_eq_some_iff {v : Ident} {d : Dominator} :
    (ofTraversal t).immediate? v = some d ↔ graph.Reachable v ∧ graph.IsNearest v d := by
  by_cases hv : graph.Reachable v
  · obtain ⟨e, he, hnearest⟩ := immediate?_isNearest covers hv
    rw [he, Option.some.injEq]
    exact ⟨fun h => h ▸ ⟨hv, hnearest⟩, fun h => hnearest.unique hv h.2⟩
  · rw [immediate?_eq_none covers hv]
    exact ⟨nofun, fun h => absurd h.1 hv⟩

end Immediate

theorem ofGraph_ok (htotal : graph.Total) :
    ∃ t, ofGraph graph = .ok (ofTraversal t) ∧ t.Covers graph := by
  obtain ⟨t, ht, covers⟩ := Traversal.ofGraph_ok htotal
  exact ⟨t, by rw [ofGraph, ht]; rfl, covers⟩

/-- The tree of a graph whose successors do not fail gives exactly the reachable nodes an immediate
dominator, and that is the nearest of what dominates the node. -/
theorem immediate?_iff_isNearest (graph : RootedGraph ε)
    (htotal : ∀ u, graph.Reachable u → ∃ vs, graph.successors u = .ok vs) :
    ∃ tree, ofGraph graph = .ok tree ∧ ∀ v,
      ((tree.immediate? v).isSome ↔ graph.Reachable v) ∧
        ∀ d, tree.immediate? v = some d ↔ graph.Reachable v ∧ graph.IsNearest v d := by
  obtain ⟨t, ht, covers⟩ := ofGraph_ok htotal
  refine ⟨ofTraversal t, ht, fun v => ⟨?_, fun d => immediate?_eq_some_iff covers⟩⟩
  rw [Option.isSome_iff_exists]
  constructor
  · rintro ⟨d, hd⟩
    exact ((immediate?_eq_some_iff covers).mp hd).1
  · intro hv
    obtain ⟨d, hd, -⟩ := immediate?_isNearest covers hv
    exact ⟨d, hd⟩

/-- Two ways that part below a root and meet again, with an edge back. -/
def diamond : RootedGraph String :=
  .ofEdges [⟨1⟩, ⟨1⟩] [(⟨1⟩, ⟨2⟩), (⟨1⟩, ⟨3⟩), (⟨2⟩, ⟨4⟩), (⟨3⟩, ⟨4⟩), (⟨4⟩, ⟨2⟩), (⟨5⟩, ⟨4⟩)]
    fun _ => none

theorem immediate?_iff_isNearest_diamond :
    (∀ u, diamond.Reachable u → ∃ vs, diamond.successors u = .ok vs) ∧
      ∃ tree, ofGraph diamond = .ok tree ∧ ∀ v,
        ((tree.immediate? v).isSome ↔ diamond.Reachable v) ∧
          ∀ d, tree.immediate? v = some d ↔ diamond.Reachable v ∧ diamond.IsNearest v d :=
  have htotal : ∀ u, diamond.Reachable u → ∃ vs, diamond.successors u = .ok vs :=
    fun _ _ => ⟨_, rfl⟩
  ⟨htotal, immediate?_iff_isNearest diamond htotal⟩

example : (ofGraph diamond).toOption.map (fun tree => [⟨1⟩, ⟨2⟩, ⟨3⟩, ⟨4⟩, ⟨5⟩].map tree.immediate?) =
    some [some .root, some (.object ⟨1⟩), some (.object ⟨1⟩), some (.object ⟨1⟩), none] := by
  decide +kernel

end HeapDump.DominatorTree

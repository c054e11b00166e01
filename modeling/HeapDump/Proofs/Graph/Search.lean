import HeapDump.Proofs.Graph.Path
import Mathlib.Logic.Relation

/-! A depth first search step by step.  The traversal calls itself for each successor; here the calls under
way are a stack of frames, each a node with those of its successors that are still to be looked at.  A
step looks at a node that was found before, goes into a new one, or finishes one.  The traversal takes
such steps until the super-root has no roots left, or to a new node that fails.  So what the steps keep
holds of the traversal. -/

namespace HeapDump

namespace RootedGraph

variable {ε : Type} {graph : RootedGraph ε}

/-- An edge; one without a start leads from the super-root to a root. -/
def IsEdge (graph : RootedGraph ε) : Option Ident → Ident → Prop
  | none, v => v ∈ graph.roots
  | some u, v => graph.flow.step u v

theorem IsEdge.reachable {start : Option Ident} {v : Ident} (h : graph.IsEdge start v)
    (hstart : ∀ u, start = some u → graph.Reachable u) : graph.Reachable v := by
  cases start with
  | none => exact ⟨[], .single h⟩
  | some u => exact (hstart u rfl).step h

/-- The successors of no reachable node fail. -/
def Total (graph : RootedGraph ε) : Prop :=
  ∀ u, graph.Reachable u → ∃ vs, graph.successors u = .ok vs

/-- The successors of a node, or of the super-root. -/
def targets (graph : RootedGraph ε) : Option Ident → Except ε (List Ident)
  | none => .ok graph.roots
  | some u => graph.successors u

theorem isEdge_iff {start : Option Ident} {v : Ident} :
    graph.IsEdge start v ↔ ∃ vs, graph.targets start = .ok vs ∧ v ∈ vs := by
  cases start with
  | none => exact ⟨fun h => ⟨_, rfl, h⟩, by rintro ⟨_, ⟨⟩, h⟩; exact h⟩
  | some u => exact Iff.rfl

end RootedGraph

/-! ### Nodes still to be found -/

/-- How many of the nodes have not been seen; it bounds the depth of a search. -/
def unseen (nodes : List Ident) (seen : Std.TreeSet Ident) : Nat :=
  nodes.countP fun v => v ∉ seen

section Unseen

variable {nodes : List Ident} {seen seen' : Std.TreeSet Ident} {v w : Ident}

theorem mem_insert_iff : w ∈ seen.insert v ↔ w = v ∨ w ∈ seen := by
  rw [Std.TreeSet.mem_insert, Std.LawfulEqOrd.compare_eq_iff_eq, eq_comm]

theorem unseen_le (h : ∀ v, v ∈ seen → v ∈ seen') : unseen nodes seen' ≤ unseen nodes seen := by
  apply List.countP_mono_left
  intro v _ hv
  rw [decide_eq_true_eq] at hv ⊢
  exact fun hseen => hv (h v hseen)

theorem unseen_insert_lt (hnode : v ∈ nodes) (hv : v ∉ seen) :
    unseen nodes (seen.insert v) < unseen nodes seen := by
  obtain ⟨before, after, rfl⟩ := List.append_of_mem hnode
  have hsub : ∀ w, w ∈ seen → w ∈ seen.insert v := fun w hw => mem_insert_iff.mpr (.inr hw)
  have hbefore : unseen before (seen.insert v) ≤ unseen before seen := unseen_le hsub
  have hafter : unseen after (seen.insert v) ≤ unseen after seen := unseen_le hsub
  unfold unseen at hbefore hafter ⊢
  rw [List.countP_append, List.countP_append, List.countP_cons_of_neg (by simp),
    List.countP_cons_of_pos (by simp [hv])]
  omega

end Unseen

namespace Traversal

variable {ε : Type} {graph : RootedGraph ε}

theorem mem_seen_find {t : Traversal} {v w : Ident} : w ∈ (t.find v).seen ↔ w = v ∨ w ∈ t.seen :=
  mem_insert_iff

/-! ### Steps -/

/-- A node or the super-root, with those of its successors that are still to be looked at. -/
structure Frame where
  start : Option Ident
  left : List Ident

/-- What the stack holds has been found and not finished, innermost first, with the super-root at its
bottom. -/
inductive Step (graph : RootedGraph ε) :
    Traversal × List Frame → Traversal × List Frame → Prop
  | known {t : Traversal} {start : Option Ident} {v : Ident} {left : List Ident} {stack : List Frame} :
    v ∈ t.seen →
      Step graph (t, ⟨start, v :: left⟩ :: stack) (t.look start v, ⟨start, left⟩ :: stack)
  | new {t : Traversal} {start : Option Ident} {v : Ident} {left vs : List Ident}
    {stack : List Frame} :
    v ∉ t.seen → graph.successors v = .ok vs →
      Step graph (t, ⟨start, v :: left⟩ :: stack)
        ((t.look start v).find v, ⟨some v, vs⟩ :: ⟨start, left⟩ :: stack)
  | done {t : Traversal} {v : Ident} {stack : List Frame} :
    Step graph (t, ⟨some v, []⟩ :: stack) (t.finish v, stack)

abbrev Steps (graph : RootedGraph ε) :
    Traversal × List Frame → Traversal × List Frame → Prop :=
  Relation.ReflTransGen (Step graph)

/-- Nothing found is given up. -/
theorem Steps.seen {state state' : Traversal × List Frame} (h : Steps graph state state') {v : Ident}
    (hv : v ∈ state.1.seen) : v ∈ state'.1.seen := by
  induction h with
  | refl => exact hv
  | tail _ hstep ih =>
    cases hstep with
    | known => exact ih
    | new => exact mem_seen_find.mpr (.inr ih)
    | done => exact ih

/-- Where a search comes to from a state: to the end of the frame on top of the stack, or to a new node
that fails. -/
def ComesTo (graph : RootedGraph ε) (state : Traversal × List Frame) (stack : List Frame) :
    Except ε Traversal → Prop
  | .ok t => Steps graph state (t, stack)
  | .error e => ∃ t start v left below, Steps graph state (t, ⟨start, v :: left⟩ :: below) ∧
      v ∉ t.seen ∧ graph.successors v = .error e

theorem ComesTo.head {state state' : Traversal × List Frame} {stack : List Frame}
    {answer : Except ε Traversal} (hsteps : Steps graph state state')
    (h : ComesTo graph state' stack answer) : ComesTo graph state stack answer := by
  cases answer with
  | error e =>
    obtain ⟨t, start, v, left, below, hrest, hfails⟩ := h
    exact ⟨t, start, v, left, below, hsteps.trans hrest, hfails⟩
  | ok t => exact hsteps.trans h

theorem ComesTo.bind {state : Traversal × List Frame} {stack stack' : List Frame}
    {answer : Except ε Traversal} {next : Traversal → Except ε Traversal}
    (h : ComesTo graph state stack answer)
    (hnext : ∀ t, Steps graph state (t, stack) → ComesTo graph (t, stack) stack' (next t)) :
    ComesTo graph state stack' (answer.bind next) := by
  cases answer with
  | error e => exact h
  | ok t => exact (hnext t h).head h

/-! ### The traversal takes these steps -/

theorem foldlM_comesTo {fuel : Nat} {start : Option Ident} {stack : List Frame}
    (hvisit : ∀ t v left, v ∈ graph.nodes → unseen graph.nodes t.seen < fuel →
      ComesTo graph (t, ⟨start, v :: left⟩ :: stack) (⟨start, left⟩ :: stack)
        (visit graph fuel (t.look start v) v))
    {targets : List Ident} (htargets : ∀ v ∈ targets, v ∈ graph.nodes) {t : Traversal}
    (hfuel : unseen graph.nodes t.seen < fuel) :
    ComesTo graph (t, ⟨start, targets⟩ :: stack) (⟨start, []⟩ :: stack)
      (targets.foldlM (fun t v => visit graph fuel (t.look start v) v) t) := by
  induction targets generalizing t with
  | nil => exact .refl
  | cons v targets ih =>
    obtain ⟨hv, hrest⟩ := List.forall_mem_cons.mp htargets
    rw [List.foldlM_cons]
    refine (hvisit t v targets hv hfuel).bind fun t' hsteps => ih hrest ?_
    exact Nat.lt_of_le_of_lt (unseen_le fun w hw => hsteps.seen hw) hfuel

/-- The fuel bounds the nodes still to be found, so it is never used up. -/
theorem visit_comesTo {fuel : Nat} {t : Traversal} {start : Option Ident} {v : Ident}
    {left : List Ident} {stack : List Frame} (hv : v ∈ graph.nodes)
    (hfuel : unseen graph.nodes t.seen < fuel) :
    ComesTo graph (t, ⟨start, v :: left⟩ :: stack) (⟨start, left⟩ :: stack)
      (visit graph fuel (t.look start v) v) := by
  induction fuel generalizing t start v left stack with
  | zero => omega
  | succ fuel ih =>
    rw [visit]
    split
    · next hseen => exact .single (.known hseen)
    · next hseen =>
      have hlt : unseen graph.nodes ((t.look start v).find v).seen < unseen graph.nodes t.seen :=
        unseen_insert_lt hv hseen
      cases hvs : graph.successors v with
      | error e => exact ⟨t, start, v, left, stack, .refl, hseen, hvs⟩
      | ok vs =>
        have hinto : Steps graph (t, ⟨start, v :: left⟩ :: stack)
            ((t.look start v).find v, ⟨some v, vs⟩ :: ⟨start, left⟩ :: stack) :=
          .single (.new hseen hvs)
        have hfold : ComesTo graph
            ((t.look start v).find v, ⟨some v, vs⟩ :: ⟨start, left⟩ :: stack)
            (⟨some v, []⟩ :: ⟨start, left⟩ :: stack)
            (vs.foldlM (fun t w => visit graph fuel (t.look (some v) w) w)
              ((t.look start v).find v)) :=
          foldlM_comesTo (fun _ _ _ hw hlt => ih hw hlt) (graph.successors_mem v vs hvs) (by omega)
        have hdone : ∀ t', ComesTo graph (t', ⟨some v, []⟩ :: ⟨start, left⟩ :: stack)
            (⟨start, left⟩ :: stack) (.ok (t'.finish v)) := fun t' => .single .done
        exact (hfold.bind fun t' _ => hdone t').head hinto

theorem ofGraph_comesTo (graph : RootedGraph ε) :
    ComesTo graph (empty, [⟨none, graph.roots⟩]) [⟨none, []⟩] (ofGraph graph) :=
  foldlM_comesTo (fun _ _ _ hv hfuel => visit_comesTo hv hfuel) graph.roots_mem
    (Nat.lt_succ_of_le List.countP_le_length)

end Traversal

end HeapDump

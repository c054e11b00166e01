import HeapDump.Proofs.Graph.Traversal

/-! Topological order.  While a node is under way, so are only nodes that lead to it, since each call comes
from a node that steps to the one called.  Hence an edge to a node that is finished later closes a cycle:
that node was under way when the edge was looked at.  In the order of a traversal all other edges lead
from earlier nodes to later ones. -/

namespace HeapDump

open Relation

/-- Of two members of a list, the one that may not stand behind the other stands before it. -/
theorem idxOf_lt_of_pairwise {α : Type} [DecidableEq α] {R : α → α → Prop} {l : List α}
    (h : l.Pairwise R) {u v : α} (hu : u ∈ l) (hv : v ∈ l) (hne : u ≠ v) (hnot : ¬R v u) :
    l.idxOf u < l.idxOf v := by
  have hu := List.idxOf_lt_length_of_mem hu
  have hv := List.idxOf_lt_length_of_mem hv
  rcases Nat.lt_trichotomy (l.idxOf u) (l.idxOf v) with hlt | heq | hgt
  · exact hlt
  · refine absurd ?_ hne
    rw [← List.getElem_idxOf hu, ← List.getElem_idxOf hv]
    simp only [heq]
  · have hrel := List.pairwise_iff_getElem.mp h _ _ hv hu hgt
    rw [List.getElem_idxOf, List.getElem_idxOf] at hrel
    exact absurd hrel hnot

namespace RootedGraph

variable {ε : Type} {graph : RootedGraph ε}

/-- There is a way along edges from one node to another, or they are the same. -/
def Leads (graph : RootedGraph ε) : Ident → Ident → Prop := ReflTransGen graph.flow.step

end RootedGraph

namespace Traversal

variable {ε : Type} {graph : RootedGraph ε} {state state' : Traversal × List Frame}

/-- The calls under way form a way from the super-root, and an edge to a node further on in the line closes
a cycle. -/
structure Nested (graph : RootedGraph ε) (state : Traversal × List Frame) : Prop where
  bottom : state.2.map (·.start) = (pending state.2).map some ++ [none]
  way : (pending state.2).Pairwise fun inner outer => graph.Leads outer inner
  back : (state.1.line (pending state.2)).Pairwise fun u v => graph.flow.step u v → graph.Leads v u

theorem nested_empty (graph : RootedGraph ε) : Nested graph (empty, [⟨none, graph.roots⟩]) where
  bottom := rfl
  way := .nil
  back := .nil

/-- A node that the top of the stack steps to can be reached from everything under way. -/
theorem Nested.leads {t : Traversal} {start : Option Ident} {v : Ident} {left : List Ident}
    {stack : List Frame} (nested : Nested graph (t, ⟨start, left⟩ :: stack))
    (hedge : graph.IsEdge start v) :
    ∀ w ∈ pending (⟨start, left⟩ :: stack), graph.Leads w v := by
  cases start with
  | none =>
    -- The super-root stands at the bottom only, so nothing else is under way.
    have hbottom : none :: stack.map (·.start) = (pending stack).map some ++ [none] := nested.bottom
    intro w hw
    rw [pending_none] at hw
    cases hpending : pending stack with
    | nil =>
      rw [hpending] at hw
      cases hw
    | cons u rest =>
      rw [hpending] at hbottom
      cases hbottom
  | some u =>
    have hway := nested.way
    rw [pending_some] at hway
    intro w hw
    rw [pending_some] at hw
    rcases List.mem_cons.mp hw with rfl | hw
    · exact .single hedge
    · exact ((List.pairwise_cons.mp hway).1 w hw).tail hedge

theorem Nested.step (nested : Nested graph state) (stands : Stands graph state)
    (h : Step graph state state') : Nested graph state' := by
  cases h with
  | known hseen => exact ⟨nested.bottom, nested.way, nested.back⟩
  | @new t start v left vs stack hnew hvs =>
    have hleads := nested.leads (stands.fits _ List.mem_cons_self).isEdge
    obtain ⟨hfinished, hway, hback⟩ := List.pairwise_append.mp nested.back
    refine ⟨congrArg (some v :: ·) nested.bottom, nested.way.cons hleads, ?_⟩
    rw [pending_some, line_find, List.pairwise_append]
    refine ⟨hfinished, hway.cons fun w hw _ => hleads w hw, fun u hu w hw hstep => ?_⟩
    rcases List.mem_cons.mp hw with rfl | hw
    · -- All successors of a finished node have been found.
      obtain ⟨us, hus, hseen⟩ := stands.holds.done u (Array.mem_toList_iff.mp hu)
      obtain ⟨us', hus', hmem⟩ := hstep
      cases hus.symm.trans hus'
      exact absurd (hseen w hmem).1 hnew
    · exact hback u hu w hw hstep
  | @done t v stack =>
    have hway := nested.way
    refine ⟨(List.cons.inj nested.bottom).2, (List.pairwise_cons.mp hway).2, ?_⟩
    rw [line_finish]
    exact nested.back

theorem nested_of_steps (h : Steps graph (empty, [⟨none, graph.roots⟩]) state) : Nested graph state := by
  induction h with
  | refl => exact nested_empty graph
  | tail hsteps hstep ih => exact ih.step ((stands_empty graph).steps hsteps) hstep

/-- An edge to a node that comes earlier in the order closes a cycle. -/
theorem pairwise_order {t : Traversal} (h : ofGraph graph = .ok t) :
    t.order.Pairwise fun v u => graph.flow.step u v → graph.Leads v u := by
  have hsearch := ofGraph_comesTo graph
  rw [h] at hsearch
  have hback := (nested_of_steps hsearch).back
  rw [line, show pending [⟨none, []⟩] = [] from rfl, List.append_nil] at hback
  exact List.pairwise_reverse.mpr hback

end Traversal

namespace RootedGraph

variable {ε : Type} {graph : RootedGraph ε}

theorem topologicalOrder_eq {t : Traversal} (h : Traversal.ofGraph graph = .ok t) :
    graph.topologicalOrder = .ok t.order := by
  rw [topologicalOrder, h]
  rfl

/-- The order of a graph none of whose reachable nodes fails. -/
theorem topologicalOrder_of_total (graph : RootedGraph ε)
    (htotal : ∀ u, graph.Reachable u → ∃ vs, graph.successors u = .ok vs) :
    ∃ order, graph.topologicalOrder = .ok order ∧ order.Nodup ∧
      (∀ v, v ∈ order ↔ graph.Reachable v) ∧
      (∀ u v, graph.Reachable u → graph.flow.step u v → u ≠ v → ¬graph.Leads v u →
        order.idxOf u < order.idxOf v) ∧
      ((∀ v, graph.Reachable v → ¬TransGen graph.flow.step v v) →
        ∀ u v, graph.Reachable u → graph.flow.step u v → order.idxOf u < order.idxOf v) ∧
      ∀ r ∈ order.head?, r ∈ graph.roots := by
  obtain ⟨t, ht, covers⟩ := Traversal.ofGraph_ok htotal
  have hbefore : ∀ u v, graph.Reachable u → graph.flow.step u v → u ≠ v → ¬graph.Leads v u →
      t.order.idxOf u < t.order.idxOf v := by
    intro u v hu hstep hne hback
    have hv : graph.Reachable v := hu.step hstep
    exact idxOf_lt_of_pairwise (Traversal.pairwise_order ht) ((covers.mem_order u).mpr hu)
      ((covers.mem_order v).mpr hv) hne fun himp => hback (himp hstep)
  refine ⟨t.order, topologicalOrder_eq ht, covers.nodup, covers.mem_order, hbefore, ?_, ?_⟩
  · intro hacyclic u v hu hstep
    refine hbefore u v hu hstep ?_ fun hback => hacyclic u hu (.head' hstep hback)
    rintro rfl
    exact hacyclic u hu (.single hstep)
  · intro r hr
    cases horder : t.order with
    | nil =>
      rw [horder] at hr
      cases hr
    | cons first rest =>
      rw [horder] at hr
      obtain rfl : first = r := Option.some.inj hr
      obtain ⟨start, hedge, hstart⟩ := covers.met [] first rest horder
      cases start with
      | none => exact ((covers.mem_edges none first).mp hedge).1
      | some u => cases hstart u rfl

/-- A root on a cycle, a root given twice that leads there, and an edge from a node out of reach. -/
def circling : RootedGraph String :=
  .ofEdges [⟨3⟩, ⟨1⟩, ⟨1⟩] [(⟨1⟩, ⟨2⟩), (⟨2⟩, ⟨3⟩), (⟨3⟩, ⟨4⟩), (⟨4⟩, ⟨3⟩), (⟨1⟩, ⟨4⟩), (⟨5⟩, ⟨1⟩)]
    fun _ => none

theorem topologicalOrder_of_total_circling :
    (∀ u, circling.Reachable u → ∃ vs, circling.successors u = .ok vs) ∧
      circling.topologicalOrder = .ok [⟨1⟩, ⟨2⟩, ⟨3⟩, ⟨4⟩] ∧
      (∀ v, v ∈ [⟨1⟩, ⟨2⟩, ⟨3⟩, ⟨4⟩] ↔ circling.Reachable v) ∧
      ∀ u v, circling.Reachable u → circling.flow.step u v → u ≠ v → ¬circling.Leads v u →
        [⟨1⟩, ⟨2⟩, ⟨3⟩, ⟨4⟩].idxOf u < [⟨1⟩, ⟨2⟩, ⟨3⟩, ⟨4⟩].idxOf v := by
  have htotal : ∀ u, circling.Reachable u → ∃ vs, circling.successors u = .ok vs :=
    fun _ _ => ⟨_, rfl⟩
  have horder : circling.topologicalOrder = .ok [⟨1⟩, ⟨2⟩, ⟨3⟩, ⟨4⟩] := by decide +kernel
  obtain ⟨order, hanswer, -, hmem, hbefore, -⟩ := topologicalOrder_of_total circling htotal
  cases horder.symm.trans hanswer
  exact ⟨htotal, horder, hmem, hbefore⟩

end RootedGraph

end HeapDump

import HeapDump.Graph.Dominators
import Mathlib.Data.List.Nodup

/-! Paths and dominance.  A flow says where paths start and which steps they take.  A node dominates
another if every path to the other goes through it.  The nodes that dominate a node are ordered by
dominance, and what a path with loops goes through, one without loops can avoid. -/

namespace HeapDump

/-- Where paths start and how they go on. -/
structure Flow (α : Type) where
  start : α → Prop
  step : α → α → Prop

namespace Flow

variable {α : Type} (flow : Flow α)

/-- The nodes of a path, last one first. -/
inductive Path : List α → Prop
  | single {a : α} (h : flow.start a) : Path [a]
  | snoc {a b : α} {before : List α} (h : Path (a :: before)) (hstep : flow.step a b) :
      Path (b :: a :: before)

def Reaches (n : α) : Prop := ∃ before, flow.Path (n :: before)

/-- Every path to `n` goes through `d`. -/
def Dominates (d n : α) : Prop := ∀ before, flow.Path (n :: before) → d ∈ n :: before

variable {flow}

theorem Path.reaches {n : α} {before : List α} (h : flow.Path (n :: before)) : flow.Reaches n :=
  ⟨before, h⟩

theorem Reaches.step {a b : α} (h : flow.Reaches a) (hstep : flow.step a b) : flow.Reaches b := by
  obtain ⟨before, hpath⟩ := h
  exact ⟨a :: before, hpath.snoc hstep⟩

/-- What holds where paths start and is kept by steps holds wherever they lead. -/
theorem Reaches.induction {P : α → Prop} (hstart : ∀ a, flow.start a → P a)
    (hstep : ∀ a b, P a → flow.step a b → P b) {n : α} (h : flow.Reaches n) : P n := by
  obtain ⟨before, hpath⟩ := h
  induction before generalizing n with
  | nil => cases hpath with | single h => exact hstart n h
  | cons a before ih => cases hpath with | snoc hpath h => exact hstep a n (ih hpath) h

theorem Path.of_append {after before : List α} {a : α} (h : flow.Path (after ++ a :: before)) :
    flow.Path (a :: before) := by
  induction after with
  | nil => exact h
  | cons b after ih =>
    apply ih
    cases after with
    | nil => cases h with | snoc h _ => exact h
    | cons c after => cases h with | snoc h _ => exact h

theorem Path.of_mem {path : List α} {a : α} (h : flow.Path path) (ha : a ∈ path) :
    ∃ before, flow.Path (a :: before) ∧ a :: before <:+ path := by
  obtain ⟨after, before, rfl⟩ := List.append_of_mem ha
  exact ⟨before, h.of_append, List.suffix_append after _⟩

/-- A path can leave out its loops. -/
theorem Path.exists_nodup {n : α} {before : List α} (h : flow.Path (n :: before)) :
    ∃ shorter, flow.Path (n :: shorter) ∧ (n :: shorter).Nodup ∧
      ∀ x ∈ n :: shorter, x ∈ n :: before := by
  induction before generalizing n with
  | nil => exact ⟨[], h, List.nodup_singleton n, fun _ hx => hx⟩
  | cons p before ih =>
    cases h with
    | snoc hp hstep =>
      obtain ⟨shorter, hpath, hnodup, hsub⟩ := ih hp
      by_cases hn : n ∈ p :: shorter
      · obtain ⟨rest, hrest, hsuffix⟩ := hpath.of_mem hn
        exact ⟨rest, hrest, hsuffix.sublist.nodup hnodup,
          fun x hx => List.mem_cons_of_mem n (hsub x (hsuffix.subset hx))⟩
      · refine ⟨p :: shorter, hpath.snoc hstep, List.nodup_cons.mpr ⟨hn, hnodup⟩, fun x hx => ?_⟩
        rcases List.mem_cons.mp hx with rfl | hx
        · exact List.mem_cons_self
        · exact List.mem_cons_of_mem n (hsub x hx)

theorem Dominates.refl (n : α) : flow.Dominates n n := fun _ _ => List.mem_cons_self

theorem Dominates.trans {a b c : α} (hab : flow.Dominates a b) (hbc : flow.Dominates b c) :
    flow.Dominates a c := by
  intro before hpath
  obtain ⟨rest, hrest, hsuffix⟩ := hpath.of_mem (hbc before hpath)
  exact hsuffix.subset (hab rest hrest)

theorem Dominates.pred {d p n : α} (h : flow.Dominates d n) (hne : d ≠ n)
    (hstep : flow.step p n) : flow.Dominates d p := by
  intro before hpath
  exact (List.mem_cons.mp (h (p :: before) (hpath.snoc hstep))).resolve_left hne

theorem Dominates.reaches {d n : α} (h : flow.Dominates d n) (hn : flow.Reaches n) :
    flow.Reaches d := by
  obtain ⟨before, hpath⟩ := hn
  obtain ⟨rest, hrest, -⟩ := hpath.of_mem (h before hpath)
  exact hrest.reaches

theorem Dominates.antisymm {a b : α} (hab : flow.Dominates a b) (hba : flow.Dominates b a)
    (hb : flow.Reaches b) : a = b := by
  obtain ⟨before, hpath⟩ := hb
  obtain ⟨shorter, hshorter, hnodup, -⟩ := hpath.exists_nodup
  by_contra hne
  have ha := (List.mem_cons.mp (hab shorter hshorter)).resolve_left hne
  -- The path comes to `a` before it comes to `b`, so the way up to `a` is free of `b`.
  obtain ⟨after, rest, rfl⟩ := List.append_of_mem ha
  have hrest : flow.Path (a :: rest) := (show flow.Path ((b :: after) ++ a :: rest) from
    hshorter).of_append
  exact (List.nodup_cons.mp hnodup).1 (List.mem_append_right after (hba rest hrest))

end Flow

namespace RootedGraph

variable {ε : Type} (graph : RootedGraph ε)

/-- The paths of a graph start from the super-root, which is left out, and so at any root. -/
def flow : Flow Ident where
  start r := r ∈ graph.roots
  step u v := ∃ vs, graph.successors u = .ok vs ∧ v ∈ vs

/-- There is a path from the super-root to `v`. -/
def Reachable (v : Ident) : Prop := graph.flow.Reaches v

/-- Every path from the super-root to `v` goes through `d`. -/
def Dominates (d v : Ident) : Prop := graph.flow.Dominates d v

/-- What dominates a node, other than itself, and is dominated by all else that does; the super-root
if nothing else dominates the node. -/
def IsNearest (v : Ident) : Dominator → Prop
  | .root => ∀ d, graph.Dominates d v → d = v
  | .object d => d ≠ v ∧ graph.Dominates d v ∧ ∀ e, e ≠ v → graph.Dominates e v → graph.Dominates e d

variable {graph}

theorem IsNearest.unique {v : Ident} (hv : graph.Reachable v) {d e : Dominator}
    (hd : graph.IsNearest v d) (he : graph.IsNearest v e) : d = e := by
  match d, e, hd, he with
  | .root, .root, _, _ => rfl
  | .root, .object _, hd, ⟨hne, hdom, _⟩ => exact absurd (hd _ hdom) hne
  | .object _, .root, ⟨hne, hdom, _⟩, he => exact absurd (he _ hdom) hne
  | .object _, .object _, ⟨hne, hdom, hleast⟩, ⟨hne', hdom', hleast'⟩ =>
    exact congrArg Dominator.object
      ((hleast' _ hne hdom).antisymm (hleast _ hne' hdom') (hdom'.reaches hv))

end RootedGraph

end HeapDump

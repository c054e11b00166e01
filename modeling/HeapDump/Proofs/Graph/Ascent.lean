import HeapDump.Proofs.Graph.Dominators

/-! The rounds end, and nothing that is missing is read on the way.  Whenever a round comes to a node, one
of its predecessors has a parent, so the node gets one too; and from then on its parent only moves up,
to a proper ancestor.  Two facts carry this.  What is above all predecessors of a node is never further
down than its parent.  And the parent is above each earlier predecessor: a round may move such a
predecessor away from below the parent, but then it has passed the parent and comes to the node before
it ends. -/

namespace HeapDump

namespace Dominance

/-! ### Loops without a bound -/

/-- The moves by which two numbers meet: the greater one goes to its parent, which has to be there. -/
inductive Meets (parents : Parents) : Nat → Nat → Nat → Prop
  | same {a : Nat} : Meets parents a a a
  | left {a b c q : Nat} (hlt : b < a) (hq : parent? parents a = some q) (h : Meets parents q b c) :
    Meets parents a b c
  | right {a b c q : Nat} (hlt : a < b) (hq : parent? parents b = some q) (h : Meets parents a q c) :
    Meets parents a b c

/-- One round after another, until one changes nothing. -/
inductive Settles (predecessors : Array (List Nat)) (count : Nat) : Parents → Parents → Prop
  | done {parents next : Parents} (h : pass predecessors count parents = (next, false)) :
    Settles predecessors count parents next
  | again {parents next final : Parents} (h : pass predecessors count parents = (next, true))
    (hrest : Settles predecessors count next final) : Settles predecessors count parents final

theorem meets_meet {parents : Parents} (tree : IsTree parents) {fuel a b : Nat}
    (ha : InTree parents a) (hb : InTree parents b) (hfuel : a + b ≤ fuel) :
    Meets parents a b (meet parents fuel a b) := by
  induction fuel generalizing a b with
  | zero =>
    obtain ⟨rfl, rfl⟩ : a = 0 ∧ b = 0 := by omega
    exact .same
  | succ fuel ih =>
    rw [meet]
    split
    · next heq => exact heq ▸ .same
    · next hne =>
      split
      · next hlt =>
        have hup := up_lt tree ha (by omega)
        have hrest := ih (inTree_up tree ha) hb (by omega)
        obtain ⟨q, hq⟩ := ha
        rw [up, hq, Option.getD_some] at hrest ⊢
        exact .left hlt hq hrest
      · next hge =>
        have hup := up_lt tree hb (by omega)
        have hrest := ih ha (inTree_up tree hb) (by omega)
        obtain ⟨q, hq⟩ := hb
        rw [up, hq, Option.getD_some] at hrest ⊢
        exact .right (by omega) hq hrest

theorem settles_settle {predecessors : Array (List Nat)} {count fuel : Nat} {parents : Parents}
    (h : pass predecessors count (settle predecessors count fuel parents) =
      (settle predecessors count fuel parents, false)) :
    Settles predecessors count parents (settle predecessors count fuel parents) := by
  induction fuel generalizing parents with
  | zero => exact .done h
  | succ fuel ih =>
    rw [settle] at h ⊢
    split
    · next next hpass =>
      rw [hpass] at h
      exact .again hpass (ih h)
    · next next hpass => exact .done hpass

/-! ### One node moves up -/

section Ancestors

variable {parents : Parents} {a p q : Nat} (tree : IsTree parents)
include tree

/-- Of two ancestors, the one with the smaller number is above the other. -/
theorem Above.of_le (ha : Above parents a p) (hq : Above parents q p) (hle : a ≤ q) :
    Above parents a q := by
  induction hq with
  | refl => exact ha
  | @up n r hr hq ih =>
    by_cases hne : a = n
    · have hqr := hq.le tree
      have hrn := tree.parent_le hr
      obtain rfl : a = q := by omega
      exact .refl
    · exact ih (ha.parent hr hne)

end Ancestors

/-- The tree in which `x` has come below `m`, which was above its parent if it had one. -/
structure Raised (parents parents' : Parents) (x m : Nat) : Prop where
  parent? : ∀ n, parent? parents' n = if x = n then some m else parent? parents n
  inTree : InTree parents m
  above : ∀ q, Dominance.parent? parents x = some q → Above parents m q

namespace Raised

variable {parents parents' : Parents} {x m a p q : Nat} (tree : IsTree parents)
  (raised : Raised parents parents' x m)
include raised

theorem inTree_of_inTree (hp : InTree parents p) : InTree parents' p := by
  rw [InTree, raised.parent?]
  split
  · exact ⟨m, rfl⟩
  · exact hp

include tree

/-- A number in the tree gets no new ancestors. -/
theorem above_of_above (hp : InTree parents p) (h : Above parents' a p) : Above parents a p := by
  induction h with
  | refl => exact .refl
  | @up n q hq _ ih =>
    obtain ⟨r, hr⟩ := hp
    rw [raised.parent?] at hq
    split at hq
    · next hx =>
      subst hx
      cases hq
      exact .up hr ((ih raised.inTree).trans (raised.above r hr))
    · exact .up hq (ih (tree.inTree hq))

/-- The ancestors of smaller numbers stay the same. -/
theorem above_iff_of_lt (hlt : p < x) : Above parents' a p ↔ Above parents a p := by
  constructor
  · intro h
    induction h with
    | refl => exact .refl
    | @up n q hq _ ih =>
      rw [raised.parent?, if_neg (by omega)] at hq
      have hle := tree.parent_le hq
      exact .up hq (ih (by omega))
  · intro h
    induction h with
    | refl => exact .refl
    | @up n q hq _ ih =>
      have hle := tree.parent_le hq
      refine .up ?_ (ih (by omega))
      rwa [raised.parent?, if_neg (by omega)]

/-- What is above a number and not above `x` stays above the number. -/
theorem above_of_le (hle : x ≤ q) (h : Above parents q p) : Above parents' q p := by
  induction h with
  | refl => exact .refl
  | @up n r hr hq ih =>
    by_cases hsame : q = n
    · exact hsame ▸ .refl
    · have hqr := hq.le tree
      have hrn := tree.parent_le hr
      refine .up ?_ ih
      rwa [raised.parent?, if_neg (by omega)]

end Raised

/-! ### What the rounds keep -/

/-- A round that has come to node `i`. -/
structure Ascending (predecessors : Array (List Nat)) (i : Nat) (parents : Parents) : Prop where
  /-- What is above all predecessors is not further down than the parent. -/
  low : ∀ {n q c}, parent? parents n = some q → n ≠ 0 →
    (∀ p ∈ predecessors.getD n [], InTree parents p → Above parents c p) → c ≤ q
  /-- An earlier predecessor is below the parent, or the round has moved it. -/
  near : ∀ {n q p}, parent? parents n = some q → n ≠ 0 → p ∈ predecessors.getD n [] → p < n →
    InTree parents p ∧ (Above parents q p ∨
      q ≤ i ∧ i < n ∧ ∀ a, Above parents a p → a ≤ q → Above parents a q)

variable {predecessors : Array (List Nat)} {count : Nat} {parents : Parents}

/-- The nearest common ancestor of the predecessors is above the parent. -/
theorem Ascending.above {i n m q p : Nat} (ascending : Ascending predecessors i parents)
    (tree : IsTree parents) (hmeet : IsMeet parents (predecessors.getD n []) m) (hzero : n ≠ 0)
    (hq : parent? parents n = some q) (hp : p ∈ predecessors.getD n []) (hlt : p < n) :
    Above parents m q := by
  obtain ⟨hin, hnear⟩ := ascending.near hq hzero hp hlt
  have hle : m ≤ q := ascending.low hq hzero hmeet.above
  have hmp : Above parents m p := hmeet.above p hp hin
  rcases hnear with hqp | ⟨-, -, hall⟩
  · exact hmp.of_le tree hqp hle
  · exact hall m hmp hle

theorem Ascending.raise {parents' : Parents} {i m : Nat}
    (ascending : Ascending predecessors i parents) (tree : IsTree parents)
    (raised : Raised parents parents' (i + 1) m) (hbefore : ∀ p ≤ i, InTree parents p)
    (hmeet : IsMeet parents (predecessors.getD (i + 1) []) m) :
    Ascending predecessors (i + 1) parents' := by
  refine ⟨fun {n q c} hq hzero hc => ?_, fun {n q p} hq hzero hp hlt => ?_⟩
  · have hold : ∀ p ∈ predecessors.getD n [], InTree parents p → Above parents c p :=
      fun p hp hin => raised.above_of_above tree hin (hc p hp (raised.inTree_of_inTree hin))
    rw [raised.parent?] at hq
    split at hq
    · next hn =>
      cases hq
      exact (hmeet.greatest c (hn ▸ hold)).le tree
    · exact ascending.low hq hzero hold
  · rw [raised.parent?] at hq
    split at hq
    · next hn =>
      cases hq
      subst hn
      have hin := hbefore p (by omega)
      exact ⟨raised.inTree_of_inTree hin,
        .inl ((raised.above_iff_of_lt tree hlt).mpr (hmeet.above p hp hin))⟩
    · next hn =>
      obtain ⟨hin, hnear⟩ := ascending.near hq hzero hp hlt
      refine ⟨raised.inTree_of_inTree hin, ?_⟩
      -- Once the round has passed the parent, the ancestors of the parent do not change any more.
      have hpassed : q ≤ i → (∀ a, Above parents a p → a ≤ q → Above parents a q) →
          ∀ a, Above parents' a p → a ≤ q → Above parents' a q := fun hqi hall a ha hle =>
        (raised.above_iff_of_lt tree (by omega)).mpr
          (hall a (raised.above_of_above tree hin ha) hle)
      rcases hnear with hqp | ⟨hqi, hin, hall⟩
      · by_cases hiq : i + 1 ≤ q
        · exact .inl (raised.above_of_le tree hiq hqp)
        · by_cases hni : n ≤ i
          · exact .inl ((raised.above_iff_of_lt tree (by omega)).mpr hqp)
          · exact .inr ⟨by omega, by omega,
              hpassed (by omega) fun a ha hle => ha.of_le tree hqp hle⟩
      · exact .inr ⟨by omega, by omega, hpassed hqi hall⟩

theorem Midway.raised (ordered : Ordered predecessors count) {k i : Nat}
    (midway : Midway predecessors count k i parents) (ascending : Ascending predecessors i parents)
    (changed : Bool) (hi : i + 1 ≤ count) :
    ∃ m, nearest parents (predecessors.getD (i + 1) []) = some m ∧
      IsMeet parents (predecessors.getD (i + 1) []) m ∧
      Raised parents (improve predecessors (parents, changed) (i + 1)).1 (i + 1) m := by
  obtain ⟨p, hp, hlt⟩ := ordered.earlier (i + 1) (Nat.succ_ne_zero i) hi
  have hin := midway.inTree p (by omega)
  obtain ⟨m, hm, hmin, hmeet⟩ := nearest_eq_some midway.sound hp hin
  refine ⟨m, hm, hmeet, ⟨fun n => ?_, hmin, fun q hq => ?_⟩⟩
  · rw [parent?_improve midway.sound changed hi, hm]
  · exact ascending.above midway.sound.toIsTree hmeet (Nat.succ_ne_zero i) hq hp hlt

theorem ascending_start (predecessors : Array (List Nat)) (count : Nat) :
    Ascending predecessors 0 (start count) := by
  have hnone : ∀ {n q}, parent? (start count) n = some q → n = 0 := by
    intro n q hq
    by_contra hzero
    rw [parent?_start, if_neg hzero] at hq
    cases hq
  exact ⟨fun hq hzero => absurd (hnone hq) hzero, fun hq hzero => absurd (hnone hq) hzero⟩

/-- Once a round has come to all nodes, every parent is above each earlier predecessor. -/
theorem Ascending.restart (ascending : Ascending predecessors count parents)
    (sound : Sound predecessors count parents) : Ascending predecessors 0 parents := by
  refine ⟨ascending.low, fun {n q p} hq hzero hp hlt => ?_⟩
  obtain ⟨hin, hnear⟩ := ascending.near hq hzero hp hlt
  refine ⟨hin, .inl (hnear.resolve_right fun ⟨_, hn, _⟩ => ?_)⟩
  have hsize := lt_size hq
  rw [sound.size] at hsize
  omega

/-- The tree after `k` rounds and the first `i` nodes of another. -/
def onTheWay (predecessors : Array (List Nat)) (count k i : Nat) : Parents :=
  (pass predecessors i ((round predecessors count)^[k] (start count))).1

section Rounds

variable (ordered : Ordered predecessors count)
include ordered

theorem midway_onTheWay (k : Nat) {i : Nat} (hi : i ≤ count) :
    Midway predecessors count k i (onTheWay predecessors count k i) :=
  midway_pass ordered (rounds_sound ordered k).1 (rounds_sound ordered k).2 hi

theorem raised_onTheWay {k i : Nat} (hi : i < count)
    (ascending : Ascending predecessors i (onTheWay predecessors count k i)) :
    ∃ m, nearest (onTheWay predecessors count k i) (predecessors.getD (i + 1) []) = some m ∧
      IsMeet (onTheWay predecessors count k i) (predecessors.getD (i + 1) []) m ∧
      Raised (onTheWay predecessors count k i) (onTheWay predecessors count k (i + 1)) (i + 1) m := by
  rw [onTheWay, onTheWay, pass_succ]
  exact (midway_onTheWay ordered k (Nat.le_of_lt hi)).raised ordered ascending _ hi

theorem ascending_onTheWay (k : Nat) {i : Nat} (hi : i ≤ count) :
    Ascending predecessors i (onTheWay predecessors count k i) := by
  have hround : ∀ k, Ascending predecessors 0 (onTheWay predecessors count k 0) →
      ∀ i ≤ count, Ascending predecessors i (onTheWay predecessors count k i) := by
    intro k hstart i
    induction i with
    | zero => exact fun _ => hstart
    | succ i ih =>
      intro hi
      have midway := midway_onTheWay ordered k (Nat.le_of_succ_le hi)
      obtain ⟨m, -, hmeet, raised⟩ := raised_onTheWay ordered hi (ih (Nat.le_of_succ_le hi))
      exact (ih (Nat.le_of_succ_le hi)).raise midway.sound.toIsTree raised midway.inTree hmeet
  have hstart : Ascending predecessors 0 (onTheWay predecessors count k 0) := by
    induction k with
    | zero => exact ascending_start predecessors count
    | succ k ih =>
      have hnext : onTheWay predecessors count (k + 1) 0 = onTheWay predecessors count k count :=
        Function.iterate_succ_apply' (round predecessors count) k (start count)
      rw [hnext]
      exact (hround k ih count (Nat.le_refl count)).restart
        (midway_onTheWay ordered k (Nat.le_refl count)).sound
  exact hround k hstart i hi

/-- One step of a round: the node gets a parent, and whatever has one keeps it or moves up. -/
theorem moves_up {k i : Nat} (hi : i < count) {n q : Nat}
    (hq : parent? (onTheWay predecessors count k i) n = some q) :
    ∃ q', parent? (onTheWay predecessors count k (i + 1)) n = some q' ∧
      (q' = q ∨ q' ≠ q ∧ Above (onTheWay predecessors count k i) q' q) := by
  obtain ⟨m, -, -, raised⟩ :=
    raised_onTheWay ordered hi (ascending_onTheWay ordered k (Nat.le_of_lt hi))
  rw [raised.parent?]
  split
  · next hn =>
    subst hn
    refine ⟨m, rfl, ?_⟩
    by_cases hsame : m = q
    · exact .inl hsame
    · exact .inr ⟨hsame, raised.above q hq⟩
  · exact ⟨q, hq, .inl rfl⟩

end Rounds

end Dominance

namespace DominatorTree

open Dominance

variable {ε : Type}

/-- The rounds of a graph none of whose reachable nodes fails.  They end, and at any time on the way every
parent is there and smaller, any two numbers that are there meet, and the next node has a predecessor
that is there, gets a parent, and moves up if it had one before. -/
theorem settles_of_total (graph : RootedGraph ε)
    (htotal : ∀ u, graph.Reachable u → ∃ vs, graph.successors u = .ok vs) :
    ∃ t tree, Traversal.ofGraph graph = .ok t ∧ ofGraph graph = .ok tree ∧
      Traversal.Steps graph (.empty, [⟨none, graph.roots⟩]) (t, [⟨none, []⟩]) ∧
      Settles (tableOf t) t.order.length (start t.order.length) tree.parents ∧
      ∀ k, ∀ i ≤ t.order.length,
        let tree := onTheWay (tableOf t) t.order.length k i
        IsTree tree ∧
        (∀ numbers p m, nearest tree numbers = some m → InTree tree p →
          InTree tree m ∧ Meets tree p m (intersect tree p m)) ∧
        (i < t.order.length →
          (∃ p ∈ (tableOf t).getD (i + 1) [], InTree tree p) ∧
          nearest tree ((tableOf t).getD (i + 1) []) ≠ none ∧
          ∀ n q, parent? tree n = some q →
            ∃ q', parent? (onTheWay (tableOf t) t.order.length k (i + 1)) n = some q' ∧
              (q' = q ∨ q' ≠ q ∧ Above tree q' q)) := by
  obtain ⟨t, ht, covers⟩ := Traversal.ofGraph_ok htotal
  have ordered := ordered_tableOf covers
  have hsteps := Traversal.ofGraph_comesTo graph
  rw [ht] at hsteps
  refine ⟨t, ofTraversal t, ht, by rw [ofGraph, ht]; rfl, hsteps,
    settles_settle (pass_solve ordered), fun k i hi => ?_⟩
  have midway := midway_onTheWay ordered k hi
  have tree := midway.sound.toIsTree
  refine ⟨tree, fun numbers p m hm hp => ?_, fun hlt => ⟨?_, ?_, fun n q => moves_up ordered hlt⟩⟩
  · have hin := (nearest_some tree hm).1
    exact ⟨hin, meets_meet tree hp hin (Nat.le_refl _)⟩
  · obtain ⟨p, hp, hpi⟩ := ordered.earlier (i + 1) (Nat.succ_ne_zero i) hlt
    exact ⟨p, hp, midway.inTree p (Nat.le_of_lt_succ hpi)⟩
  · obtain ⟨m, hm, -⟩ := raised_onTheWay ordered hlt (ascending_onTheWay ordered k hi)
    rw [hm]
    exact Option.some_ne_none m

/-- The third node lies below the second in the first round, and below the first once the fourth, which
comes after it and leads back to it, is known to lie there. -/
def rising : RootedGraph String :=
  .ofEdges [⟨1⟩] [(⟨1⟩, ⟨2⟩), (⟨1⟩, ⟨4⟩), (⟨2⟩, ⟨3⟩), (⟨3⟩, ⟨4⟩), (⟨4⟩, ⟨3⟩)] fun _ => none

theorem settles_of_total_rising :
    (∀ u, rising.Reachable u → ∃ vs, rising.successors u = .ok vs) ∧
      ∃ t tree, Traversal.ofGraph rising = .ok t ∧ ofGraph rising = .ok tree ∧
        t.order = [⟨1⟩, ⟨2⟩, ⟨3⟩, ⟨4⟩] ∧ Settles (tableOf t) 4 (start 4) tree.parents ∧
        parent? (onTheWay (tableOf t) 4 1 2) 3 = some 2 ∧
        parent? (onTheWay (tableOf t) 4 1 3) 3 = some 1 ∧
        Above (onTheWay (tableOf t) 4 1 2) 1 2 := by
  have htotal : ∀ u, rising.Reachable u → ∃ vs, rising.successors u = .ok vs := fun _ _ => ⟨_, rfl⟩
  obtain ⟨t, tree, ht, htree, -, hsettles, hrounds⟩ := settles_of_total rising htotal
  have hanswers : (Traversal.ofGraph rising).toOption.map (fun t => (t.order,
      parent? (onTheWay (tableOf t) 4 1 2) 3, parent? (onTheWay (tableOf t) 4 1 3) 3)) =
        some ([⟨1⟩, ⟨2⟩, ⟨3⟩, ⟨4⟩], some 2, some 1) := by
    decide +kernel
  rw [ht] at hanswers
  obtain ⟨horder, htwo, hone⟩ := by simpa [Except.toOption] using hanswers
  have hlength : t.order.length = 4 := by rw [horder]; rfl
  rw [hlength] at hsettles hrounds
  obtain ⟨-, -, hstep⟩ := hrounds 1 2 (by decide)
  obtain ⟨-, -, hmoves⟩ := hstep (by decide)
  obtain ⟨q, hq, hup⟩ := hmoves 3 2 htwo
  obtain rfl : 1 = q := Option.some.inj (hone.symm.trans hq)
  have habove := hup.resolve_left (by decide)
  exact ⟨htotal, t, tree, ht, htree, horder, hsettles, htwo, hone, habove.2⟩

end DominatorTree

end HeapDump

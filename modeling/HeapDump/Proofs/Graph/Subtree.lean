import HeapDump.ObjectGraph.Retained
import HeapDump.Proofs.Graph.Rounds
import Mathlib.Algebra.BigOperators.Group.Finset.Basic
import Mathlib.Data.UInt

/-! Sums over the tree of parents.  Numbers are settled from the last one down, each adding its row to
that of its parent.  Once the numbers above `k` are settled, the row of a number holds what has come to
it through settled numbers; when all are settled, that is everything below it in the tree, each row
counted once. -/

namespace HeapDump.Dominance

open scoped Classical in
/-- The sum over the numbers up to `count` that a relation picks out. -/
noncomputable def sumOf (count : Nat) (weight : Nat → UInt64) (picks : Nat → Prop) : UInt64 :=
  ∑ n ∈ Finset.range (count + 1), if picks n then weight n else 0

/-- `n` comes to `m` by moves from settled numbers, which are those above `k`, to their parents. -/
inductive Arrives (parents : Parents) (k m : Nat) : Nat → Prop
  | refl : Arrives parents k m m
  | up {n q : Nat} (hn : k < n) (h : parent? parents n = some q) (hq : Arrives parents k m q) :
      Arrives parents k m n

section Sums

variable {count : Nat} {weight : Nat → UInt64} {p q : Nat → Prop}

theorem sumOf_congr (h : ∀ n ≤ count, p n ↔ q n) : sumOf count weight p = sumOf count weight q := by
  classical
  refine Finset.sum_congr rfl fun n hn => ?_
  simp only [h n (Nat.le_of_lt_succ (Finset.mem_range.mp hn))]

theorem sumOf_or (h : ∀ n ≤ count, ¬(p n ∧ q n)) :
    sumOf count weight (fun n => p n ∨ q n) = sumOf count weight p + sumOf count weight q := by
  classical
  rw [sumOf, sumOf, sumOf, ← Finset.sum_add_distrib]
  refine Finset.sum_congr rfl fun n hn => ?_
  have hnot := h n (Nat.le_of_lt_succ (Finset.mem_range.mp hn))
  by_cases hp : p n
  · have hq : ¬q n := fun hq => hnot ⟨hp, hq⟩
    simp [hp, hq]
  · simp [hp]

theorem sumOf_eq {m : Nat} (hm : m ≤ count) : sumOf count weight (· = m) = weight m := by
  rw [sumOf, Finset.sum_eq_single m, if_pos rfl]
  · exact fun n _ hne => if_neg hne
  · exact fun hout => absurd (Finset.mem_range.mpr (Nat.lt_succ_of_le hm)) hout

end Sums

/-! ### What has arrived -/

section Arrives

variable {parents : Parents} {k m n : Nat}

theorem Arrives.above (h : Arrives parents k m n) : Above parents m n := by
  induction h with
  | refl => exact .refl
  | up _ hn _ ih => exact .up hn ih

/-- Nothing moves on from a number that is not settled. -/
theorem Arrives.eq_of_le (h : Arrives parents k m n) (hn : n ≤ k) : m = n := by
  cases h with
  | refl => rfl
  | up hlt => omega

theorem Arrives.unique {a b : Nat} (ha : Arrives parents k a n) (hb : Arrives parents k b n)
    (hak : a ≤ k) (hbk : b ≤ k) : a = b := by
  induction ha with
  | refl => exact (hb.eq_of_le hak).symm
  | up hn hq _ ih =>
    cases hb with
    | refl => omega
    | up _ hq' hb =>
      rw [hq] at hq'
      cases hq'
      exact ih hb

theorem Arrives.weaken (h : Arrives parents (k + 1) m n) : Arrives parents k m n := by
  induction h with
  | refl => exact .refl
  | up hn hq _ ih => exact .up (by omega) hq ih

theorem Arrives.trans {a b : Nat} (hab : Arrives parents k a b) (hb : Arrives parents k b n) :
    Arrives parents k a n := by
  induction hb with
  | refl => exact hab
  | up hn hq _ ih => exact .up hn hq ih

/-- Settling `k + 1` moves what has arrived there to its parent, and nothing else. -/
theorem arrives_iff (tree : IsTree parents) :
    Arrives parents k m n ↔ Arrives parents (k + 1) m n ∨
      parent? parents (k + 1) = some m ∧ Arrives parents (k + 1) (k + 1) n := by
  constructor
  · intro h
    induction h with
    | refl => exact .inl .refl
    | @up n q hn hq hmq ih =>
      rcases Nat.lt_or_ge (k + 1) n with hlt | hge
      · rcases ih with h | ⟨hm, h⟩
        · exact .inl (.up hlt hq h)
        · exact .inr ⟨hm, .up hlt hq h⟩
      · obtain rfl : n = k + 1 := by omega
        have hqk : q ≤ k := Nat.le_of_lt_succ (tree.lt hq (Nat.succ_ne_zero k))
        exact .inr ⟨hmq.eq_of_le hqk ▸ hq, .refl⟩
  · rintro (h | ⟨hm, h⟩)
    · exact h.weaken
    · exact Arrives.trans (.up (Nat.lt_succ_self k) hm .refl) h.weaken

theorem arrives_zero_iff (tree : IsTree parents) : Arrives parents 0 m n ↔ Above parents m n := by
  refine ⟨Arrives.above, fun h => ?_⟩
  induction h with
  | refl => exact .refl
  | @up n q hq hm ih =>
    by_cases hzero : n = 0
    · subst hzero
      rw [tree.root] at hq
      cases hq
      exact ih
    · exact .up (Nat.pos_of_ne_zero hzero) hq ih

theorem sumOf_arrives {count : Nat} (tree : IsTree parents) (weight : Nat → UInt64) :
    sumOf count weight (Arrives parents k m) =
      sumOf count weight (Arrives parents (k + 1) m) +
        if parent? parents (k + 1) = some m then
          sumOf count weight (Arrives parents (k + 1) (k + 1)) else 0 := by
  split
  · next hm =>
    have hlt : m < k + 1 := tree.lt hm (Nat.succ_ne_zero k)
    have hiff : ∀ n ≤ count, Arrives parents k m n ↔
        Arrives parents (k + 1) m n ∨ Arrives parents (k + 1) (k + 1) n := by
      intro n _
      rw [arrives_iff tree, hm, and_iff_right rfl]
    rw [sumOf_congr hiff, sumOf_or]
    rintro n - ⟨h, h'⟩
    exact Nat.ne_of_lt hlt (h.unique h' (Nat.le_of_lt hlt) (Nat.le_refl _))
  · next hm =>
    have hiff : ∀ n ≤ count, Arrives parents k m n ↔ Arrives parents (k + 1) m n := by
      intro n _
      rw [arrives_iff tree, or_iff_left fun h => hm h.1]
    rw [sumOf_congr hiff, add_zero]

end Arrives

end HeapDump.Dominance

namespace HeapDump.RetainedSizes

open Dominance

/-! ### Rows -/

/-- What row `n` holds for a heap. -/
def entry (sizes : Array (Array UInt64)) (n heap : Nat) : UInt64 := (sizes.getD n #[]).getD heap 0

/-- There is a row for each number up to `count`, each as long as there are heaps. -/
structure Shaped (count heaps : Nat) (sizes : Array (Array UInt64)) : Prop where
  size : sizes.size = count + 1
  row : ∀ n ≤ count, (sizes.getD n #[]).size = heaps

variable {count heaps : Nat} {sizes : Array (Array UInt64)} {parents : Parents}

theorem getD_zipWith {a b : Array UInt64} (h : a.size = b.size) (i : Nat) :
    (a.zipWith (· + ·) b).getD i 0 = a.getD i 0 + b.getD i 0 := by
  simp only [Array.getD_eq_getD_getElem?, Array.getElem?_zipWith]
  by_cases hi : i < a.size
  · rw [Array.getElem?_eq_getElem hi, Array.getElem?_eq_getElem (h ▸ hi)]
    rfl
  · rw [Array.getElem?_eq_none (Nat.not_lt.mp hi), Array.getElem?_eq_none (h ▸ Nat.not_lt.mp hi)]
    simp

theorem getD_settle {n q : Nat} (hq : parent? parents n = some q) (m : Nat) (hm : m < sizes.size) :
    (settle parents sizes n).getD m #[] =
      if q = m then (sizes.getD m #[]).zipWith (· + ·) (sizes.getD n #[]) else sizes.getD m #[] := by
  simp only [settle, hq, Array.getD_eq_getD_getElem?, Array.getElem?_modify,
    Array.getElem?_eq_getElem hm]
  split <;> rfl

theorem Shaped.settle (shaped : Shaped count heaps sizes) {n : Nat} (hn : n ≤ count) :
    Shaped count heaps (settle parents sizes n) := by
  cases hq : parent? parents n with
  | none =>
    rw [RetainedSizes.settle, hq]
    exact shaped
  | some q =>
    refine ⟨?_, fun m hm => ?_⟩
    · rw [RetainedSizes.settle, hq, Array.size_modify, shaped.size]
    · rw [getD_settle hq m (by rw [shaped.size]; omega)]
      split
      · rw [Array.size_zipWith, shaped.row m hm, shaped.row n hn, Nat.min_self]
      · exact shaped.row m hm

theorem entry_settle (shaped : Shaped count heaps sizes) {n m : Nat} (hn : n ≤ count)
    (hm : m ≤ count) (heap : Nat) :
    entry (settle parents sizes n) m heap =
      entry sizes m heap + if parent? parents n = some m then entry sizes n heap else 0 := by
  cases hq : parent? parents n with
  | none => simp [RetainedSizes.settle, hq]
  | some q =>
    rw [entry, getD_settle hq m (by rw [shaped.size]; omega)]
    by_cases h : q = m
    · rw [if_pos h, if_pos (congrArg some h), entry, entry]
      exact getD_zipWith ((shaped.row m hm).trans (shaped.row n hn).symm) heap
    · rw [if_neg h, if_neg (fun hsome => h (Option.some.inj hsome)), add_zero]
      rfl

/-- When all numbers are settled, each row holds the sum of the rows of everything below it. -/
theorem entry_foldl_settle (tree : IsTree parents) (shaped : Shaped count heaps sizes) :
    let settled := (List.range' 1 count).reverse.foldl (settle parents) sizes
    Shaped count heaps settled ∧ ∀ m ≤ count, ∀ heap, entry settled m heap =
      sumOf count (entry sizes · heap) (Above parents m) := by
  -- Induction on the numbers still to settle: row `m` holds what has arrived at `m` from the others.
  have hfold : ∀ k ≤ count, ∀ current, Shaped count heaps current →
      (∀ m ≤ count, ∀ heap, entry current m heap =
        sumOf count (entry sizes · heap) (Arrives parents k m)) →
      let settled := (List.range' 1 k).reverse.foldl (settle parents) current
      Shaped count heaps settled ∧ ∀ m ≤ count, ∀ heap, entry settled m heap =
        sumOf count (entry sizes · heap) (Arrives parents 0 m) := by
    intro k
    induction k with
    | zero => exact fun _ current hshaped hentry => ⟨hshaped, hentry⟩
    | succ k ih =>
      intro hk current hshaped hentry
      rw [List.range'_1_concat, List.reverse_append, List.reverse_singleton,
        List.singleton_append, List.foldl_cons, Nat.add_comm 1 k]
      refine ih (by omega) _ (hshaped.settle hk) fun m hm heap => ?_
      rw [entry_settle hshaped hk hm, hentry m hm, hentry (k + 1) hk, ← sumOf_arrives tree]
  have hstart : ∀ m ≤ count, ∀ heap, entry sizes m heap =
      sumOf count (entry sizes · heap) (Arrives parents count m) := by
    intro m hm heap
    have hiff : ∀ n ≤ count, Arrives parents count m n ↔ n = m := by
      refine fun n hn => ⟨fun h => (h.eq_of_le hn).symm, ?_⟩
      rintro rfl
      exact .refl
    rw [sumOf_congr hiff, sumOf_eq hm]
  obtain ⟨hshaped, hentry⟩ := hfold count (Nat.le_refl count) sizes shaped hstart
  refine ⟨hshaped, fun m hm heap => ?_⟩
  rw [hentry m hm heap]
  exact sumOf_congr fun n _ => arrives_zero_iff tree

end HeapDump.RetainedSizes

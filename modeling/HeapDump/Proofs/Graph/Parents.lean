import HeapDump.Proofs.Graph.Path
import Mathlib.Data.List.Induction

/-! The trees of parents that the rounds build, and common ancestors in them.  In such a tree every
number but 0 has a smaller parent that is in the tree too.  `intersect` finds the nearest common
ancestor of two numbers, and `nearest` that of all numbers of a list that are in the tree. -/

namespace HeapDump.Dominance

/-- `n` has a parent. -/
def InTree (parents : Parents) (n : Nat) : Prop := ∃ q, parent? parents n = some q

/-- `a` is `n` or one of its ancestors. -/
inductive Above (parents : Parents) (a : Nat) : Nat → Prop
  | refl : Above parents a a
  | up {n q : Nat} (h : parent? parents n = some q) (hq : Above parents a q) : Above parents a n

/-- The shape of every tree on the way. -/
structure IsTree (parents : Parents) : Prop where
  root : parent? parents 0 = some 0
  lt : ∀ {n q}, parent? parents n = some q → n ≠ 0 → q < n
  inTree : ∀ {n q}, parent? parents n = some q → InTree parents q

/-- `m` is above each of the numbers that is in the tree, and below all that is. -/
structure IsMeet (parents : Parents) (numbers : List Nat) (m : Nat) : Prop where
  above : ∀ n ∈ numbers, InTree parents n → Above parents m n
  greatest : ∀ a, (∀ n ∈ numbers, InTree parents n → Above parents a n) → Above parents a m

theorem parent?_set (parents : Parents) (n m : Nat) (best : Option Nat) (hn : n < parents.size) :
    parent? (parents.setIfInBounds n best) m = if n = m then best else parent? parents m := by
  simp only [parent?, Array.getD_eq_getD_getElem?, Array.getElem?_setIfInBounds]
  by_cases h : n = m
  · subst h
    simp [hn]
  · simp [h]

theorem lt_size {parents : Parents} {n q : Nat} (h : parent? parents n = some q) :
    n < parents.size := by
  by_contra hge
  rw [parent?, Array.getD_eq_getD_getElem?, Array.getElem?_eq_none (Nat.not_lt.mp hge)] at h
  cases h

/-! ### Ancestors -/

section Ancestors

variable {parents : Parents} {a b n q : Nat}

theorem Above.trans (hab : Above parents a b) (hb : Above parents b n) : Above parents a n := by
  induction hb with
  | refl => exact hab
  | up h _ ih => exact .up h ih

theorem Above.parent (h : Above parents a n) (hq : parent? parents n = some q) (hne : a ≠ n) :
    Above parents a q := by
  cases h with
  | refl => exact absurd rfl hne
  | up h ha =>
    rw [hq] at h
    cases h
    exact ha

variable (tree : IsTree parents)
include tree

theorem IsTree.parent_le (h : parent? parents n = some q) : q ≤ n := by
  by_cases hn : n = 0
  · subst hn
    rw [tree.root] at h
    cases h
    exact Nat.le_refl 0
  · exact Nat.le_of_lt (tree.lt h hn)

theorem Above.le (h : Above parents a n) : a ≤ n := by
  induction h with
  | refl => exact Nat.le_refl a
  | up h _ ih => exact Nat.le_trans ih (tree.parent_le h)

theorem Above.antisymm (hab : Above parents a b) (hba : Above parents b a) : a = b :=
  Nat.le_antisymm (hab.le tree) (hba.le tree)

theorem Above.inTree (h : Above parents a n) (hn : InTree parents n) : InTree parents a := by
  induction h with
  | refl => exact hn
  | up h _ ih => exact ih (tree.inTree h)

theorem IsTree.eq_zero_of_above (h : Above parents a 0) : a = 0 :=
  Nat.le_zero.mp (h.le tree)

end Ancestors

/-! ### Common ancestors -/

section Common

variable {parents : Parents}

theorem above_of_up {a m : Nat} (ha : InTree parents a) (h : Above parents m (up parents a)) :
    Above parents m a := by
  obtain ⟨q, hq⟩ := ha
  rw [up, hq, Option.getD_some] at h
  exact .up hq h

variable (tree : IsTree parents)
include tree

/-- One move up keeps the common ancestors of two numbers. -/
theorem above_up {a b c : Nat} (ha : InTree parents a) (hlt : b < a)
    (hca : Above parents c a) (hcb : Above parents c b) : Above parents c (up parents a) := by
  obtain ⟨q, hq⟩ := ha
  have hup : up parents a = q := by rw [up, hq, Option.getD_some]
  have hne : c ≠ a := by
    have := hcb.le tree
    omega
  rw [hup]
  exact hca.parent hq hne

theorem up_lt {a : Nat} (ha : InTree parents a) (hpos : 0 < a) : up parents a < a := by
  obtain ⟨q, hq⟩ := ha
  rw [up, hq, Option.getD_some]
  exact tree.lt hq (by omega)

theorem inTree_up {a : Nat} (ha : InTree parents a) : InTree parents (up parents a) := by
  obtain ⟨q, hq⟩ := ha
  rw [up, hq, Option.getD_some]
  exact tree.inTree hq

/-- `meet` comes to the nearest common ancestor if it may move often enough. -/
theorem meet_spec {fuel a b : Nat} (ha : InTree parents a) (hb : InTree parents b)
    (hfuel : a + b ≤ fuel) :
    Above parents (meet parents fuel a b) a ∧ Above parents (meet parents fuel a b) b ∧
      ∀ c, Above parents c a → Above parents c b → Above parents c (meet parents fuel a b) := by
  induction fuel generalizing a b with
  | zero =>
    obtain ⟨rfl, rfl⟩ : a = 0 ∧ b = 0 := by omega
    exact ⟨.refl, .refl, fun c hca _ => hca⟩
  | succ fuel ih =>
    rw [meet]
    split
    · next heq =>
      subst heq
      exact ⟨.refl, .refl, fun c hca _ => hca⟩
    · next hne =>
      split
      · next hlt =>
        have hup := up_lt tree ha (by omega)
        obtain ⟨hma, hmb, hmeet⟩ := ih (inTree_up tree ha) hb (by omega)
        exact ⟨above_of_up ha hma, hmb,
          fun c hca hcb => hmeet c (above_up tree ha hlt hca hcb) hcb⟩
      · next hge =>
        have hlt : a < b := by omega
        have hup := up_lt tree hb (by omega)
        obtain ⟨hma, hmb, hmeet⟩ := ih ha (inTree_up tree hb) (by omega)
        exact ⟨hma, above_of_up hb hmb,
          fun c hca hcb => hmeet c hca (above_up tree hb hlt hcb hca)⟩

theorem intersect_spec {a b : Nat} (ha : InTree parents a) (hb : InTree parents b) :
    Above parents (intersect parents a b) a ∧ Above parents (intersect parents a b) b ∧
      ∀ c, Above parents c a → Above parents c b → Above parents c (intersect parents a b) :=
  meet_spec tree ha hb (Nat.le_refl _)

end Common

/-! ### The nearest common ancestor of many numbers -/

theorem isMeet_singleton {parents : Parents} {a : Nat} (ha : InTree parents a) :
    IsMeet parents [a] a where
  above _ hn _ := List.mem_singleton.mp hn ▸ .refl
  greatest _ h := h a (List.mem_singleton_self a) ha

/-- Only the numbers that are in the tree matter. -/
theorem IsMeet.congr {parents : Parents} {numbers others : List Nat} {m : Nat}
    (hmeet : IsMeet parents numbers m)
    (h : ∀ n, InTree parents n → (n ∈ numbers ↔ n ∈ others)) : IsMeet parents others m where
  above n hn hin := hmeet.above n ((h n hin).mpr hn) hin
  greatest a ha := hmeet.greatest a fun n hn hin => ha n ((h n hin).mp hn) hin

theorem IsMeet.intersect {parents : Parents} (tree : IsTree parents) {numbers : List Nat} {p b : Nat}
    (hp : InTree parents p) (hb : InTree parents b) (hmeet : IsMeet parents numbers b) :
    IsMeet parents (numbers ++ [p]) (intersect parents p b) := by
  obtain ⟨hmp, hmb, hgreatest⟩ := intersect_spec tree hp hb
  refine ⟨fun n hn hin => ?_, fun a ha => ?_⟩
  · rcases List.mem_append.mp hn with hn | hn
    · exact hmb.trans (hmeet.above n hn hin)
    · rw [List.mem_singleton.mp hn]
      exact hmp
  · exact hgreatest a (ha p (List.mem_append_right _ (List.mem_singleton.mpr rfl)) hp)
      (hmeet.greatest a fun n hn => ha n (List.mem_append_left _ hn))

theorem nearest_concat (parents : Parents) (numbers : List Nat) (p : Nat) :
    nearest parents (numbers ++ [p]) =
      if (parent? parents p).isNone then nearest parents numbers
      else match nearest parents numbers with
        | none => some p
        | some b => some (intersect parents p b) := by
  rw [nearest, nearest, List.foldl_append]
  rfl

theorem inTree_iff {parents : Parents} {n : Nat} :
    InTree parents n ↔ ¬(parent? parents n).isNone = true := by
  rw [InTree, ← Option.isSome_iff_exists]
  cases parent? parents n <;> simp

theorem nearest_none {parents : Parents} {numbers : List Nat} (h : nearest parents numbers = none) :
    ∀ n ∈ numbers, ¬InTree parents n := by
  induction numbers using List.reverseRecOn with
  | nil => simp
  | append_singleton numbers p ih =>
    rw [nearest_concat] at h
    split at h
    · next hp =>
      intro n hn
      rcases List.mem_append.mp hn with hn | hn
      · exact ih h n hn
      · rw [List.mem_singleton.mp hn, inTree_iff]
        exact fun hnot => hnot hp
    · split at h <;> cases h

theorem nearest_some {parents : Parents} (tree : IsTree parents) {numbers : List Nat} {m : Nat}
    (h : nearest parents numbers = some m) : InTree parents m ∧ IsMeet parents numbers m := by
  induction numbers using List.reverseRecOn generalizing m with
  | nil => cases h
  | append_singleton numbers p ih =>
    rw [nearest_concat] at h
    split at h
    · next hp =>
      obtain ⟨hm, hmeet⟩ := ih h
      refine ⟨hm, hmeet.congr fun n hin => ?_⟩
      have hne : n ≠ p := fun heq => inTree_iff.mp (heq ▸ hin) hp
      rw [List.mem_append, List.mem_singleton, or_iff_left hne]
    · next hp =>
      have hin : InTree parents p := inTree_iff.mpr hp
      split at h
      · next hnone =>
        cases h
        refine ⟨hin, (isMeet_singleton hin).congr fun n hn => ?_⟩
        have hout : n ∉ numbers := fun hmem => nearest_none hnone n hmem hn
        rw [List.mem_append, or_iff_right hout]
      · next b hsome =>
        cases h
        obtain ⟨hb, hmeet⟩ := ih hsome
        exact ⟨(intersect_spec tree hin hb).1.inTree tree hin, hmeet.intersect tree hin hb⟩

theorem exists_nearest {parents : Parents} (tree : IsTree parents) {numbers : List Nat} {n : Nat}
    (hn : n ∈ numbers) (hin : InTree parents n) :
    ∃ m, nearest parents numbers = some m ∧ InTree parents m ∧ IsMeet parents numbers m := by
  obtain ⟨m, hm⟩ := Option.ne_none_iff_exists'.mp fun hnone => nearest_none hnone n hn hin
  exact ⟨m, hm, nearest_some tree hm⟩

end HeapDump.Dominance

import HeapDump.Proofs.Graph.Ascent

/-! The nearest common ancestor as an operation.  Two loops look for it in turn: each moves one of the two
numbers up until it is not greater than the other.  They go by the numbers and not by depth: ancestors
have smaller numbers, so a move of the greater number loses no common ancestor.  What they come to is
the one meet of the two numbers, and so neither order nor grouping matters when there are more. -/

namespace HeapDump.Dominance

variable {parents : Parents}

/-! ### Two loops in turn -/

/-- Moves a number up until it is not greater than the bound.  Every parent has to be there. -/
inductive Lowers (parents : Parents) (bound : Nat) : Nat → Nat → Prop
  | stop {n : Nat} (h : n ≤ bound) : Lowers parents bound n n
  | up {n q m : Nat} (h : bound < n) (hq : parent? parents n = some q)
    (hrest : Lowers parents bound q m) : Lowers parents bound n m

/-- Lowers one number to the other and the other to what came of it, until the two are the same. -/
inductive Alternates (parents : Parents) : Nat → Nat → Nat → Prop
  | same {a : Nat} : Alternates parents a a a
  | turn {a b a' b' c : Nat} (hne : a ≠ b) (ha : Lowers parents b a a')
    (hb : Lowers parents a' b b') (hrest : Alternates parents a' b' c) : Alternates parents a b c

theorem Lowers.eq_of_le {bound n m : Nat} (h : Lowers parents bound n m) (hle : n ≤ bound) :
    m = n := by
  cases h with
  | stop _ => rfl
  | up hlt => exact absurd hlt (Nat.not_lt.mpr hle)

theorem Meets.lower_left {a a' b c : Nat} (ha : Lowers parents b a a') (h : Meets parents a' b c) :
    Meets parents a b c := by
  induction ha with
  | stop _ => exact h
  | up hlt hq _ ih => exact .left hlt hq (ih h)

theorem Meets.lower_right {a b b' c : Nat} (hb : Lowers parents a b b') (h : Meets parents a b' c) :
    Meets parents a b c := by
  induction hb with
  | stop _ => exact h
  | up hlt hq _ ih => exact .right hlt hq (ih h)

theorem Alternates.meets {a b c : Nat} (h : Alternates parents a b c) : Meets parents a b c := by
  induction h with
  | same => exact .same
  | turn _ ha hb _ ih => exact (ih.lower_right hb).lower_left ha

/-- Single moves of the greater number fall into turns. -/
theorem Meets.alternates {a b c : Nat} (h : Meets parents a b c) : Alternates parents a b c := by
  induction h with
  | same => exact .same
  | @left a b c q hlt hq _ ih =>
    -- The first loop makes this move and then those it would have made from the parent.
    cases ih with
    | same =>
      exact .turn (Nat.ne_of_gt hlt) (.up hlt hq (.stop (Nat.le_refl _))) (.stop (Nat.le_refl _))
        .same
    | turn _ ha hb hrest => exact .turn (Nat.ne_of_gt hlt) (.up hlt hq ha) hb hrest
  | @right a b c q hlt hq _ ih =>
    have hstop : Lowers parents b a a := .stop (Nat.le_of_lt hlt)
    rcases Nat.lt_or_ge a q with hgt | hle
    · -- The second loop goes on: in the turn from the parent the first one had nothing to do.
      cases ih with
      | same => exact absurd hgt (Nat.lt_irrefl _)
      | turn _ ha hb hrest =>
        obtain rfl := ha.eq_of_le (Nat.le_of_lt hgt)
        exact .turn (Nat.ne_of_lt hlt) hstop (.up hlt hq hb) hrest
    · exact .turn (Nat.ne_of_lt hlt) hstop (.up hlt hq (.stop hle)) ih

theorem Meets.unique {a b c c' : Nat} (h : Meets parents a b c) (h' : Meets parents a b c') :
    c = c' := by
  induction h with
  | same =>
    cases h' with
    | same => rfl
    | left hlt => exact absurd hlt (Nat.lt_irrefl _)
    | right hlt => exact absurd hlt (Nat.lt_irrefl _)
  | left hlt hq _ ih =>
    cases h' with
    | same => exact absurd hlt (Nat.lt_irrefl _)
    | left _ hq' h' =>
      obtain rfl := Option.some.inj (hq.symm.trans hq')
      exact ih h'
    | right hgt => exact absurd hlt (Nat.lt_asymm hgt)
  | right hlt hq _ ih =>
    cases h' with
    | same => exact absurd hlt (Nat.lt_irrefl _)
    | left hgt => exact absurd hlt (Nat.lt_asymm hgt)
    | right _ hq' h' =>
      obtain rfl := Option.some.inj (hq.symm.trans hq')
      exact ih h'

/-! ### One nearest common ancestor -/

theorem intersect_self (parents : Parents) (a : Nat) : intersect parents a a = a := by
  rw [intersect]
  cases a with
  | zero => rfl
  | succ n => rw [← Nat.add_assoc, meet, if_pos rfl]

section Tree

variable (tree : IsTree parents)
include tree

/-- The loops end, and they end at one number only. -/
theorem alternates_iff {a b c : Nat} (ha : InTree parents a) (hb : InTree parents b) :
    Alternates parents a b c ↔ c = intersect parents a b := by
  have hmeets : Meets parents a b (intersect parents a b) := meets_meet tree ha hb (Nat.le_refl _)
  constructor
  · exact fun h => h.meets.unique hmeets
  · rintro rfl
    exact hmeets.alternates

theorem IsMeet.unique {numbers : List Nat} {m m' : Nat} (h : IsMeet parents numbers m)
    (h' : IsMeet parents numbers m') : m = m' :=
  Above.antisymm tree (h'.greatest m h.above) (h.greatest m' h'.above)

theorem inTree_intersect {a b : Nat} (ha : InTree parents a) (hb : InTree parents b) :
    InTree parents (intersect parents a b) :=
  (intersect_spec tree ha hb).1.inTree tree ha

theorem isMeet_pair {a b : Nat} (ha : InTree parents a) (hb : InTree parents b) :
    IsMeet parents [b, a] (intersect parents a b) :=
  (isMeet_singleton hb).intersect tree ha hb

theorem intersect_comm {a b : Nat} (ha : InTree parents a) (hb : InTree parents b) :
    intersect parents a b = intersect parents b a := by
  have hswap : IsMeet parents [a, b] (intersect parents a b) :=
    (isMeet_pair tree ha hb).congr fun _ _ => (List.Perm.swap a b []).mem_iff
  exact hswap.unique tree (isMeet_pair tree hb ha)

/-- Both sides are the nearest common ancestor of all three numbers. -/
theorem intersect_assoc {a b c : Nat} (ha : InTree parents a) (hb : InTree parents b)
    (hc : InTree parents c) :
    intersect parents (intersect parents a b) c = intersect parents a (intersect parents b c) := by
  have hab := inTree_intersect tree ha hb
  have hbc := inTree_intersect tree hb hc
  have hleft : IsMeet parents [b, a, c] (intersect parents c (intersect parents a b)) :=
    (isMeet_pair tree ha hb).intersect tree hc hab
  have hright : IsMeet parents [c, b, a] (intersect parents a (intersect parents b c)) :=
    (isMeet_pair tree hb hc).intersect tree ha hbc
  rw [intersect_comm tree hab hc]
  refine (hleft.congr fun n _ => ?_).unique tree hright
  exact (List.perm_append_comm : ([b, a] ++ [c]).Perm ([c] ++ [b, a])).mem_iff

/-! ### Folding a list -/

omit tree in
theorem nearest_eq_none_iff {numbers : List Nat} :
    nearest parents numbers = none ↔ ∀ n ∈ numbers, ¬InTree parents n := by
  refine ⟨nearest_none, fun h => ?_⟩
  induction numbers using List.reverseRecOn with
  | nil => rfl
  | append_singleton numbers p ih =>
    have hp : ¬InTree parents p := h p (List.mem_append_right _ (List.mem_singleton_self p))
    rw [nearest_concat, if_pos (not_not.mp (mt inTree_iff.mpr hp))]
    exact ih fun n hn => h n (List.mem_append_left _ hn)

/-- The result depends only on which numbers of the tree the list holds. -/
theorem nearest_congr {numbers others : List Nat}
    (h : ∀ n, InTree parents n → (n ∈ numbers ↔ n ∈ others)) :
    nearest parents numbers = nearest parents others := by
  by_cases hsome : ∃ n ∈ numbers, InTree parents n
  · obtain ⟨n, hn, hin⟩ := hsome
    obtain ⟨m, hm, -, hmeet⟩ := exists_nearest tree hn hin
    obtain ⟨m', hm', -, hmeet'⟩ := exists_nearest tree ((h n hin).mp hn) hin
    rw [hm, hm', (hmeet.congr h).unique tree hmeet']
  · have hnone : ∀ n ∈ numbers, ¬InTree parents n := fun n hn hin => hsome ⟨n, hn, hin⟩
    have hothers : ∀ n ∈ others, ¬InTree parents n :=
      fun n hn hin => hnone n ((h n hin).mpr hn) hin
    rw [nearest_eq_none_iff.mpr hnone, nearest_eq_none_iff.mpr hothers]

end Tree

/-- Only the entries that there are need be looked at. -/
theorem isTree_iff : IsTree parents ↔ parent? parents 0 = some 0 ∧
    ∀ n < parents.size, ∀ q ∈ parent? parents n, (n ≠ 0 → q < n) ∧ (parent? parents q).isSome := by
  constructor
  · exact fun tree => ⟨tree.root, fun n _ q hq =>
      ⟨tree.lt hq, Option.isSome_iff_exists.mpr (tree.inTree hq)⟩⟩
  · rintro ⟨hroot, hall⟩
    exact ⟨hroot, fun hq => (hall _ (lt_size hq) _ hq).1,
      fun hq => Option.isSome_iff_exists.mp (hall _ (lt_size hq) _ hq).2⟩

instance : Decidable (IsTree parents) := decidable_of_iff _ isTree_iff.symm

/-- Two numbers of a tree have one nearest common ancestor, which the loops come to.  Taking it is
commutative, associative and idempotent, and a list gives that of all its numbers in the tree in
whatever order they stand. -/
theorem intersect_of_tree (tree : IsTree parents) :
    (∀ a b, InTree parents a → InTree parents b →
      (∀ c, Alternates parents a b c ↔ c = intersect parents a b) ∧
      InTree parents (intersect parents a b) ∧
      Above parents (intersect parents a b) a ∧ Above parents (intersect parents a b) b ∧
      (∀ c, Above parents c a → Above parents c b → Above parents c (intersect parents a b)) ∧
      intersect parents a b = intersect parents b a) ∧
    (∀ a b c, InTree parents a → InTree parents b → InTree parents c →
      intersect parents (intersect parents a b) c = intersect parents a (intersect parents b c)) ∧
    (∀ a, intersect parents a a = a) ∧
    ∀ numbers,
      ((∃ n ∈ numbers, InTree parents n) →
        ∃ m, nearest parents numbers = some m ∧ InTree parents m ∧ IsMeet parents numbers m) ∧
      ∀ others, numbers.Perm others → nearest parents numbers = nearest parents others := by
  refine ⟨fun a b ha hb => ?_, fun a b c ha hb hc => intersect_assoc tree ha hb hc,
    intersect_self parents, fun numbers =>
      ⟨fun ⟨n, hn, hin⟩ => exists_nearest tree hn hin, fun others hperm => ?_⟩⟩
  · obtain ⟨habove, hbelow, hgreatest⟩ := intersect_spec tree ha hb
    exact ⟨fun c => alternates_iff tree ha hb, inTree_intersect tree ha hb, habove, hbelow, hgreatest,
      intersect_comm tree ha hb⟩
  · exact nearest_congr tree fun n _ => hperm.mem_iff

/-- A tree of seven numbers, and one that is not in it yet. -/
def forked : Parents := #[some 0, some 0, some 1, some 1, some 2, none, some 3, some 4]

/-- The numbers 7 and 6 stand at different depths below 1. -/
theorem intersect_of_tree_forked :
    IsTree forked ∧ Alternates forked 7 6 1 ∧ intersect forked 7 6 = 1 ∧ Above forked 1 7 ∧
      intersect forked (intersect forked 7 4) 6 = intersect forked 7 (intersect forked 4 6) ∧
      nearest forked [7, 5, 4] = some 4 ∧ nearest forked [5, 4, 7] = some 4 := by
  have tree : IsTree forked := by decide
  have hin : ∀ n q, parent? forked n = some q → InTree forked n := fun _ q hq => ⟨q, hq⟩
  obtain ⟨hpair, hassoc, -, hfold⟩ := intersect_of_tree tree
  have hmeet : intersect forked 7 6 = 1 := by decide
  obtain ⟨hloops, -, habove, -⟩ := hpair 7 6 (hin 7 4 rfl) (hin 6 3 rfl)
  have hfour : nearest forked [7, 5, 4] = some 4 := by decide
  have horder := (hfold [7, 5, 4]).2 [5, 4, 7] (by decide)
  exact ⟨tree, (hloops 1).mpr hmeet.symm, hmeet, hmeet ▸ habove,
    hassoc 7 4 6 (hin 7 4 rfl) (hin 4 2 rfl) (hin 6 3 rfl), hfour, horder ▸ hfour⟩

end HeapDump.Dominance

import HeapDump.Proofs.Graph.Parents
import Mathlib.Data.List.Perm.Subperm
import Mathlib.Logic.Function.Iterate

/-! The rounds that settle the tree of dominators.  Every tree on the way has room for the truth: what
dominates a number dominates its parent.  After `k` rounds every path of at most `k` steps goes
through the parent of the number it leads to.  Loops can be left out of a path, so after as many rounds
as there are numbers the parents dominate, and a further round changes nothing. -/

namespace HeapDump.Dominance

/-- The flow from 0 along the edges that the predecessors name. -/
def flow (predecessors : Array (List Nat)) : Flow Nat where
  start n := n = 0
  step p n := p ∈ predecessors.getD n []

/-- What the order of a traversal gives: every number has a smaller one before it. -/
structure Ordered (predecessors : Array (List Nat)) (count : Nat) : Prop where
  size : predecessors.size = count + 1
  start : predecessors.getD 0 [] = []
  earlier : ∀ n, n ≠ 0 → n ≤ count → ∃ p ∈ predecessors.getD n [], p < n

/-- A tree on the way. -/
structure Sound (predecessors : Array (List Nat)) (count : Nat) (parents : Parents) : Prop
    extends IsTree parents where
  size : parents.size = count + 1
  /-- What dominates a number, other than itself, dominates its parent. -/
  keeps : ∀ {n q d}, parent? parents n = some q → n ≠ 0 → d ≠ n →
    (flow predecessors).Dominates d n → (flow predecessors).Dominates d q

/-- Every path of at most `k` steps to `n` goes through the parent of `n`. -/
def PassedBy (predecessors : Array (List Nat)) (parents : Parents) (k n : Nat) : Prop :=
  ∀ before, (flow predecessors).Path (n :: before) → before.length ≤ k →
    ∃ q, parent? parents n = some q ∧ (n = 0 ∨ q ∈ before)

variable {predecessors : Array (List Nat)} {count : Nat} {parents : Parents}

/-! ### Numbers and paths -/

theorem le_of_step (ordered : Ordered predecessors count) {p n : Nat}
    (h : (flow predecessors).step p n) : n ≤ count := by
  by_contra hlarge
  have hnil : predecessors.getD n [] = [] := by
    rw [Array.getD_eq_getD_getElem?, Array.getElem?_eq_none (by rw [ordered.size]; omega)]
    rfl
  change p ∈ predecessors.getD n [] at h
  rw [hnil] at h
  cases h

theorem le_of_reaches (ordered : Ordered predecessors count) {n : Nat}
    (h : (flow predecessors).Reaches n) : n ≤ count :=
  h.induction (fun _ hzero => (show _ = 0 from hzero) ▸ Nat.zero_le count)
    fun _ _ _ hstep => le_of_step ordered hstep

theorem le_of_mem_path (ordered : Ordered predecessors count) {path : List Nat}
    (h : (flow predecessors).Path path) : ∀ n ∈ path, n ≤ count := by
  intro n hn
  obtain ⟨before, hbefore, -⟩ := h.of_mem hn
  exact le_of_reaches ordered hbefore.reaches

theorem reaches (ordered : Ordered predecessors count) {n : Nat} (hn : n ≤ count) :
    (flow predecessors).Reaches n := by
  induction n using Nat.strongRecOn with
  | _ n ih =>
    by_cases hzero : n = 0
    · exact ⟨[], .single hzero⟩
    · obtain ⟨p, hp, hlt⟩ := ordered.earlier n hzero hn
      exact (ih p hlt (by omega)).step hp

theorem dominates_zero {d : Nat}
    (h : (flow predecessors).Dominates d 0) : d = 0 :=
  List.mem_singleton.mp (h [] (.single rfl))

/-! ### Dominators and ancestors -/

section Sound

variable (sound : Sound predecessors count parents)
include sound

theorem Sound.above_of_dominates {d n : Nat}
    (hn : InTree parents n) (h : (flow predecessors).Dominates d n) : Above parents d n := by
  induction n using Nat.strongRecOn with
  | _ n ih =>
    by_cases hdn : d = n
    · exact hdn ▸ .refl
    · by_cases hzero : n = 0
      · subst hzero
        exact absurd (dominates_zero h) hdn
      · obtain ⟨q, hq⟩ := hn
        exact .up hq (ih q (sound.lt hq hzero) (sound.inTree hq) (sound.keeps hq hzero hdn h))

/-- A dominator of a number either dominates a given ancestor or stands below it. -/
theorem Sound.dominates_or_above {d c n : Nat}
    (h : (flow predecessors).Dominates d n) (hc : Above parents c n) :
    (flow predecessors).Dominates d c ∨ Above parents c d := by
  induction hc with
  | refl => exact .inl h
  | @up n q hq hc ih =>
    by_cases hdn : d = n
    · exact .inr (hdn ▸ .up hq hc)
    · by_cases hzero : n = 0
      · subst hzero
        exact absurd (dominates_zero h) hdn
      · exact ih (sound.keeps hq hzero hdn h)

/-- A short path goes through every ancestor of the number it leads to. -/
theorem Sound.mem_of_above {k n a : Nat} (passed : ∀ m, PassedBy predecessors parents k m)
    (ha : Above parents a n) {before : List Nat}
    (hpath : (flow predecessors).Path (n :: before)) (hshort : before.length ≤ k) :
    a ∈ n :: before := by
  induction ha generalizing before with
  | refl => exact List.mem_cons_self
  | @up n q hq ha ih =>
    obtain ⟨q', hq', hmem⟩ := passed n before hpath hshort
    rw [hq] at hq'
    cases hq'
    rcases hmem with rfl | hmem
    · rw [sound.root] at hq
      cases hq
      rw [sound.eq_zero_of_above ha]
      exact List.mem_cons_self
    · obtain ⟨rest, hrest, hsuffix⟩ := hpath.of_mem (List.mem_cons_of_mem n hmem)
      have hlength := hsuffix.length_le
      simp only [List.length_cons] at hlength
      exact hsuffix.subset (ih hrest (by omega))

end Sound

/-! ### One node -/

theorem improve_eq (parents : Parents) (changed : Bool) (n : Nat) :
    (improve predecessors (parents, changed) n).1 =
      if parent? parents n = nearest parents (predecessors.getD n []) then parents
      else parents.setIfInBounds n (nearest parents (predecessors.getD n [])) := by
  rw [improve]
  split <;> rfl

theorem parent?_improve (sound : Sound predecessors count parents) (changed : Bool) {n : Nat}
    (hn : n ≤ count) (m : Nat) :
    parent? (improve predecessors (parents, changed) n).1 m =
      if n = m then nearest parents (predecessors.getD n []) else parent? parents m := by
  rw [improve_eq]
  split
  · next hsame =>
    split
    · next heq => rw [← heq, hsame]
    · rfl
  · exact parent?_set parents n m _ (by rw [sound.size]; omega)

/-- A node one of whose predecessors is in the tree gets a parent from which every predecessor in the
tree descends. -/
theorem nearest_eq_some (sound : Sound predecessors count parents) {n p : Nat}
    (hp : p ∈ predecessors.getD n []) (hin : InTree parents p) :
    ∃ m, nearest parents (predecessors.getD n []) = some m ∧ InTree parents m ∧
      IsMeet parents (predecessors.getD n []) m :=
  exists_nearest sound.toIsTree hp hin

/-- What dominates a node, other than itself, dominates the nearest common ancestor of those
predecessors that are in the tree. -/
theorem dominates_meet (sound : Sound predecessors count parents) {n p m d : Nat}
    (hp : p ∈ predecessors.getD n []) (hin : InTree parents p)
    (hmeet : IsMeet parents (predecessors.getD n []) m) (hdn : d ≠ n)
    (h : (flow predecessors).Dominates d n) : (flow predecessors).Dominates d m := by
  have hpred : ∀ p ∈ predecessors.getD n [], (flow predecessors).Dominates d p :=
    fun p hp => h.pred hdn hp
  have habove : Above parents d m :=
    hmeet.greatest d fun p hp hin => sound.above_of_dominates hin (hpred p hp)
  rcases sound.dominates_or_above (hpred p hp) (hmeet.above p hp hin) with hdom | hbelow
  · exact hdom
  · rw [habove.antisymm sound.toIsTree hbelow]
    exact .refl m

theorem improve_sound (sound : Sound predecessors count parents) (changed : Bool) {n p : Nat}
    (hzero : n ≠ 0) (hn : n ≤ count) (hp : p ∈ predecessors.getD n []) (hlt : p < n)
    (hin : InTree parents p) :
    Sound predecessors count (improve predecessors (parents, changed) n).1 := by
  obtain ⟨m, hm, hmin, hmeet⟩ := nearest_eq_some sound hp hin
  have hle : m ≤ p := (hmeet.above p hp hin).le sound.toIsTree
  have hparent := parent?_improve sound changed hn
  have hstays : ∀ {x}, InTree parents x →
      InTree (improve predecessors (parents, changed) n).1 x := by
    intro x hx
    rw [InTree, hparent x, hm]
    split
    · exact ⟨m, rfl⟩
    · exact hx
  refine { root := ?_, lt := ?_, inTree := ?_, size := ?_, keeps := ?_ }
  · rw [hparent, if_neg hzero]
    exact sound.root
  · intro x q hq hx
    rw [hparent, hm] at hq
    split at hq
    · cases hq
      omega
    · exact sound.lt hq hx
  · intro x q hq
    rw [hparent, hm] at hq
    split at hq
    · cases hq
      exact hstays hmin
    · exact hstays (sound.inTree hq)
  · rw [improve_eq]
    split
    · exact sound.size
    · rw [Array.size_setIfInBounds]
      exact sound.size
  · intro x q d hq hx hdx hdom
    rw [hparent, hm] at hq
    split at hq
    · next heq =>
      cases hq
      subst heq
      exact dominates_meet sound hp hin hmeet hdx hdom
    · exact sound.keeps hq hx hdx hdom

/-! ### One round -/

theorem PassedBy.mono {k k' n : Nat} (h : PassedBy predecessors parents k' n) (hle : k ≤ k') :
    PassedBy predecessors parents k n :=
  fun before hpath hshort => h before hpath (Nat.le_trans hshort hle)

/-- A node with a new parent is passed by on paths one step longer than its predecessors are. -/
theorem improve_passedBy (sound : Sound predecessors count parents) {k n : Nat}
    (passed : ∀ m, PassedBy predecessors parents k m) (changed : Bool) (hzero : n ≠ 0)
    (hn : n ≤ count) :
    PassedBy predecessors (improve predecessors (parents, changed) n).1 (k + 1) n := by
  intro before hpath hshort
  rw [parent?_improve sound changed hn, if_pos rfl]
  cases hpath with
  | single h => exact absurd h hzero
  | @snoc p _ rest hrest hstep =>
    have hlength : rest.length ≤ k := Nat.le_of_succ_le_succ hshort
    obtain ⟨q, hq, -⟩ := passed p rest hrest hlength
    obtain ⟨m, hm, -, hmeet⟩ := nearest_eq_some sound hstep ⟨q, hq⟩
    exact ⟨m, hm, .inr (sound.mem_of_above passed (hmeet.above p hstep ⟨q, hq⟩) hrest hlength)⟩

theorem improve_passedBy_of_ne (sound : Sound predecessors count parents) (changed : Bool)
    {k m n : Nat} (hn : n ≤ count) (hne : n ≠ m) (h : PassedBy predecessors parents k m) :
    PassedBy predecessors (improve predecessors (parents, changed) n).1 k m := by
  intro before hpath hshort
  rw [parent?_improve sound changed hn, if_neg hne]
  exact h before hpath hshort

/-- A round that has come to node `i`, after `k` full rounds. -/
structure Midway (predecessors : Array (List Nat)) (count k i : Nat) (parents : Parents) :
    Prop where
  sound : Sound predecessors count parents
  inTree : ∀ m ≤ i, InTree parents m
  passed : ∀ m, PassedBy predecessors parents k m
  done : ∀ m ≤ i, PassedBy predecessors parents (k + 1) m

theorem Midway.step (ordered : Ordered predecessors count) {k i : Nat}
    (midway : Midway predecessors count k i parents) (changed : Bool) (hi : i + 1 ≤ count) :
    Midway predecessors count k (i + 1) (improve predecessors (parents, changed) (i + 1)).1 := by
  have hzero : i + 1 ≠ 0 := Nat.succ_ne_zero i
  obtain ⟨p, hp, hlt⟩ := ordered.earlier (i + 1) hzero hi
  have hin := midway.inTree p (by omega)
  have hnew := improve_passedBy midway.sound midway.passed changed hzero hi
  refine ⟨improve_sound midway.sound changed hzero hi hp hlt hin, fun m hm => ?_, fun m => ?_,
    fun m hm => ?_⟩
  · rw [InTree, parent?_improve midway.sound changed hi]
    split
    · obtain ⟨q, hq, -⟩ := nearest_eq_some midway.sound hp hin
      exact ⟨q, hq⟩
    · exact midway.inTree m (by omega)
  · by_cases hne : i + 1 = m
    · exact hne ▸ hnew.mono (Nat.le_succ k)
    · exact improve_passedBy_of_ne midway.sound changed hi hne (midway.passed m)
  · by_cases hne : i + 1 = m
    · exact hne ▸ hnew
    · exact improve_passedBy_of_ne midway.sound changed hi hne (midway.done m (by omega))

theorem Midway.start {k : Nat} (sound : Sound predecessors count parents)
    (passed : ∀ m, PassedBy predecessors parents k m) :
    Midway predecessors count k 0 parents := by
  refine ⟨sound, fun m hm => ?_, passed, fun m hm before _ _ => ?_⟩
  · rw [Nat.le_zero.mp hm]
    exact ⟨0, sound.root⟩
  · rw [Nat.le_zero.mp hm]
    exact ⟨0, sound.root, .inl rfl⟩

/-- A round over one more node ends with that node. -/
theorem pass_succ (predecessors : Array (List Nat)) (i : Nat) (parents : Parents) :
    pass predecessors (i + 1) parents = improve predecessors (pass predecessors i parents) (i + 1) := by
  rw [pass, List.range'_1_concat, List.foldl_append, Nat.add_comm 1 i]
  rfl

theorem midway_pass (ordered : Ordered predecessors count) {k : Nat}
    (sound : Sound predecessors count parents)
    (passed : ∀ m, PassedBy predecessors parents k m) {i : Nat} (hi : i ≤ count) :
    Midway predecessors count k i (pass predecessors i parents).1 := by
  induction i with
  | zero => exact .start sound passed
  | succ i ih =>
    rw [pass_succ]
    exact (ih (by omega)).step ordered _ hi

/-! ### All rounds -/

/-- The tree after one more round. -/
def round (predecessors : Array (List Nat)) (count : Nat) (parents : Parents) : Parents :=
  (pass predecessors count parents).1

theorem parent?_start (count n : Nat) :
    parent? (start count) n = if n = 0 then some 0 else none := by
  rw [start, parent?_set _ _ _ _ (by simp)]
  by_cases hn : n = 0
  · simp [hn]
  · rw [if_neg (Ne.symm hn), if_neg hn, parent?, Array.getD_eq_getD_getElem?,
      Array.getElem?_replicate]
    split <;> rfl

theorem start_sound (predecessors : Array (List Nat)) (count : Nat) :
    Sound predecessors count (start count) := by
  have hsome : ∀ {n q}, parent? (start count) n = some q → n = 0 ∧ q = 0 := by
    intro n q hq
    rw [parent?_start] at hq
    split at hq
    · next hn =>
      cases hq
      exact ⟨hn, rfl⟩
    · cases hq
  refine { root := ?_, lt := ?_, inTree := ?_, size := ?_, keeps := ?_ }
  · rw [parent?_start, if_pos rfl]
  · exact fun hq hn => absurd (hsome hq).1 hn
  · intro n q hq
    rw [(hsome hq).2]
    exact ⟨0, by rw [parent?_start, if_pos rfl]⟩
  · rw [start, Array.size_setIfInBounds, Array.size_replicate]
  · exact fun hq hn => absurd (hsome hq).1 hn

/-- Where `k` rounds have led to. -/
theorem rounds_sound (ordered : Ordered predecessors count) (k : Nat) :
    Sound predecessors count ((round predecessors count)^[k] (start count)) ∧
      ∀ m, PassedBy predecessors ((round predecessors count)^[k] (start count)) k m := by
  induction k with
  | zero =>
    refine ⟨start_sound predecessors count, fun m before hpath hshort => ?_⟩
    rw [List.length_eq_zero_iff.mp (Nat.le_zero.mp hshort)] at hpath
    cases hpath with
    | single h =>
      rw [show m = 0 from h]
      exact ⟨0, (start_sound predecessors count).root, .inl rfl⟩
  | succ k ih =>
    rw [Function.iterate_succ_apply']
    have midway := midway_pass ordered ih.1 ih.2 (Nat.le_refl count)
    refine ⟨midway.sound, fun m before hpath => ?_⟩
    exact midway.done m (le_of_reaches ordered hpath.reaches) before hpath

/-- A tree whose parents dominate. -/
structure Exact (predecessors : Array (List Nat)) (count : Nat) (parents : Parents) : Prop
    extends Sound predecessors count parents where
  dominates : ∀ n, n ≠ 0 → n ≤ count →
    ∃ q, parent? parents n = some q ∧ (flow predecessors).Dominates q n

theorem length_le_of_nodup {path : List Nat} (hnodup : path.Nodup) (hle : ∀ n ∈ path, n ≤ count) :
    path.length ≤ count + 1 := by
  have hsub : path ⊆ List.range (count + 1) :=
    fun n hn => List.mem_range.mpr (Nat.lt_succ_of_le (hle n hn))
  have := (List.subperm_of_subset hnodup hsub).length_le
  rwa [List.length_range] at this

/-- As many rounds as there are numbers are enough. -/
theorem rounds_exact (ordered : Ordered predecessors count) {k : Nat} (hk : count ≤ k) :
    Exact predecessors count ((round predecessors count)^[k] (start count)) := by
  obtain ⟨sound, passed⟩ := rounds_sound ordered k
  refine { sound with dominates := fun n hzero hn => ?_ }
  obtain ⟨before, hpath⟩ := reaches ordered hn
  have hall : ∀ before, (flow predecessors).Path (n :: before) → ∃ q,
      parent? ((round predecessors count)^[k] (start count)) n = some q ∧ q ∈ before := by
    intro before hpath
    obtain ⟨shorter, hshorter, hnodup, hsub⟩ := hpath.exists_nodup
    have hlength := length_le_of_nodup hnodup (le_of_mem_path ordered hshorter)
    rw [List.length_cons] at hlength
    obtain ⟨q, hq, hmem⟩ := passed n shorter hshorter (by omega)
    have hlt := sound.lt hq hzero
    have hbefore := hsub q (List.mem_cons_of_mem n (hmem.resolve_left hzero))
    exact ⟨q, hq, (List.mem_cons.mp hbefore).resolve_left (by omega)⟩
  obtain ⟨q, hq, -⟩ := hall before hpath
  refine ⟨q, hq, fun before hpath => ?_⟩
  obtain ⟨q', hq', hmem⟩ := hall before hpath
  rw [hq] at hq'
  cases hq'
  exact List.mem_cons_of_mem n hmem

/-! ### The end of the rounds -/

section Exact

variable (exact : Exact predecessors count parents)
include exact

/-- In a tree whose parents dominate, so do all ancestors. -/
theorem Exact.dominates_of_above {a n : Nat} (hn : n ≤ count) (h : Above parents a n) :
    (flow predecessors).Dominates a n := by
  induction h with
  | refl => exact .refl a
  | @up n q hq _ ih =>
    by_cases hzero : n = 0
    · subst hzero
      rw [exact.root] at hq
      cases hq
      exact ih hn
    · obtain ⟨q', hq', hdom⟩ := exact.dominates n hzero hn
      rw [hq] at hq'
      cases hq'
      have hlt := exact.lt hq hzero
      exact (ih (by omega)).trans hdom

theorem Exact.inTree_of_le {n : Nat} (hn : n ≤ count) : InTree parents n := by
  by_cases hzero : n = 0
  · exact ⟨0, hzero ▸ exact.root⟩
  · obtain ⟨q, hq, -⟩ := exact.dominates n hzero hn
    exact ⟨q, hq⟩

theorem Exact.improve_eq (ordered : Ordered predecessors count) (changed : Bool) {n : Nat}
    (hzero : n ≠ 0) (hn : n ≤ count) :
    improve predecessors (parents, changed) n = (parents, changed) := by
  -- The parent of the node and the meet of its predecessors dominate each other.
  obtain ⟨p, hp, hlt⟩ := ordered.earlier n hzero hn
  have hin : InTree parents p := exact.inTree_of_le (by omega)
  obtain ⟨m, hm, hmin, hmeet⟩ := nearest_eq_some exact.toSound hp hin
  obtain ⟨q, hq, hqn⟩ := exact.dominates n hzero hn
  have hqlt := exact.lt hq hzero
  have hmp : m ≤ p := (hmeet.above p hp hin).le exact.toIsTree
  have hmn : (flow predecessors).Dominates m n := by
    intro before hpath
    cases hpath with
    | single h => exact absurd h hzero
    | @snoc p' _ rest hrest hstep =>
      have hp' := le_of_reaches ordered hrest.reaches
      have habove := hmeet.above p' hstep (exact.inTree_of_le hp')
      exact List.mem_cons_of_mem n (exact.dominates_of_above hp' habove rest hrest)
  have hqm := dominates_meet exact.toSound hp hin hmeet (by omega) hqn
  have hmq := exact.keeps hq hzero (by omega) hmn
  have heq : m = q := hmq.antisymm hqm (reaches ordered (by omega))
  rw [improve, hm, heq, hq, if_pos rfl]

theorem Exact.pass_eq (ordered : Ordered predecessors count) :
    pass predecessors count parents = (parents, false) := by
  have hpass : ∀ i ≤ count, pass predecessors i parents = (parents, false) := by
    intro i
    induction i with
    | zero => exact fun _ => rfl
    | succ i ih =>
      intro hi
      rw [pass_succ, ih (by omega)]
      exact exact.improve_eq ordered false (Nat.succ_ne_zero i) hi
  exact hpass count (Nat.le_refl count)

end Exact

theorem improve_unchanged {state : Parents × Bool} {n : Nat}
    (h : (improve predecessors state n).2 = false) :
    improve predecessors state n = state := by
  rw [improve] at h ⊢
  split at h
  · next hsame => rw [if_pos hsame]
  · cases h

theorem pass_unchanged (h : (pass predecessors count parents).2 = false) :
    (pass predecessors count parents).1 = parents := by
  have hfold : ∀ (numbers : List Nat) (state : Parents × Bool),
      (numbers.foldl (improve predecessors) state).2 = false →
        numbers.foldl (improve predecessors) state = state := by
    intro numbers
    induction numbers using List.reverseRecOn with
    | nil => exact fun _ _ => rfl
    | append_singleton numbers n ih =>
      intro state hstate
      rw [List.foldl_append] at hstate ⊢
      have hlast := improve_unchanged hstate
      have hfirst : (numbers.foldl (improve predecessors) state).2 = false := by
        rw [← hlast]
        exact hstate
      exact hlast.trans (ih state hfirst)
  rw [pass, hfold _ _ h]

/-- To stop at a round that changes nothing is as good as to go on. -/
theorem settle_eq (predecessors : Array (List Nat)) (count fuel : Nat) (parents : Parents) :
    settle predecessors count fuel parents = (round predecessors count)^[fuel] parents := by
  induction fuel generalizing parents with
  | zero => rfl
  | succ fuel ih =>
    rw [settle, Function.iterate_succ_apply]
    split
    · next next hpass =>
      rw [round, hpass]
      exact ih next
    · next next hpass =>
      have hsame : next = parents := by
        have h : (pass predecessors count parents).1 = parents := pass_unchanged (by rw [hpass])
        rwa [hpass] at h
      have hfixed : round predecessors count parents = parents := by rw [round, hpass, hsame]
      rw [hfixed, Function.iterate_fixed hfixed, hsame]

theorem solve_exact (ordered : Ordered predecessors count) :
    Exact predecessors count (solve predecessors count) := by
  rw [solve, settle_eq]
  exact rounds_exact ordered (Nat.le_trans (Nat.le_succ count) (Nat.le_mul_self (count + 1)))

/-- The rounds end before their fuel does: one more would change nothing. -/
theorem pass_solve (ordered : Ordered predecessors count) :
    pass predecessors count (solve predecessors count) = (solve predecessors count, false) :=
  (solve_exact ordered).pass_eq ordered

theorem parent?_solve (ordered : Ordered predecessors count) {n : Nat} (hzero : n ≠ 0)
    (hn : n ≤ count) :
    ∃ q, parent? (solve predecessors count) n = some q ∧ q < n ∧
      (flow predecessors).Dominates q n ∧
      ∀ d, d ≠ n → (flow predecessors).Dominates d n → (flow predecessors).Dominates d q := by
  have exact := solve_exact ordered
  obtain ⟨q, hq, hdom⟩ := exact.dominates n hzero hn
  exact ⟨q, hq, exact.lt hq hzero, hdom, fun d hd h => exact.keeps hq hzero hd h⟩

end HeapDump.Dominance

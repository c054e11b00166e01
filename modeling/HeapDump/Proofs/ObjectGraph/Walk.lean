import HeapDump.ObjectGraph.Walk
import HeapDump.Proofs.ObjectGraph.Decode

/-! How walks end.  A walk meets nothing but what the roots reach.  A walk that passes nothing over meets
all of that and has the references of everything it has met, unless some of them fail. -/

namespace HeapDump.Walk

variable {graph : ObjectGraph} {descend : HeapObject → Bool}

/-! ### One visit -/

theorem visit_succ (graph : ObjectGraph) (descend : HeapObject → Bool) (fuel : Nat) (id : Ident)
    (walk : Walk) :
    visit graph descend (fuel + 1) id walk =
      match graph.resolve id with
      | none => .ok () walk
      | some object =>
        if object.id ∈ walk.met then .ok () walk
        else if descend object then
          match graph.references id with
          | .error e => .error e (walk.enter object)
          | .ok ids =>
            match ids.forM (visit graph descend fuel) (walk.enter object) with
            | .error e walk => .error e walk
            | .ok _ walk => .ok () (walk.leave object)
        else .ok () (walk.enter object) := by
  rw [visit]
  cases graph.resolve id with
  | none => rfl
  | some object =>
    show (if object.id ∈ walk.met then pure () else _ : EStateM DumpError Walk Unit) walk = _
    by_cases hmet : object.id ∈ walk.met
    · rw [if_pos hmet]
      simp only [if_pos hmet]
      rfl
    · rw [if_neg hmet]
      simp only [if_neg hmet]
      show (if descend object then _ else _ : EStateM DumpError Walk Unit) (walk.enter object) = _
      split
      · show EStateM.run (references graph id >>= _) (walk.enter object) = _
        rw [EStateM.run_bind]
        simp only [EStateM.run, references]
        cases graph.references id with
        | error e => rfl
        | ok ids =>
          show EStateM.run (ids.forM (visit graph descend fuel) >>= _) (walk.enter object) = _
          rw [EStateM.run_bind]
          simp only [EStateM.run]
          cases ids.forM (visit graph descend fuel) (walk.enter object) <;> rfl
      · rfl

theorem forM_cons (f : Ident → EStateM DumpError Walk Unit) (id : Ident) (ids : List Ident)
    (walk : Walk) :
    (id :: ids).forM f walk =
      match f id walk with
      | .error e walk => .error e walk
      | .ok _ walk => ids.forM f walk := by
  show EStateM.run (f id >>= fun _ => ids.forM f) walk = _
  rw [EStateM.run_bind]
  simp only [EStateM.run]
  cases f id walk <;> rfl

/-! ### Walks that meet no failure -/

theorem forM_ok {f : Ident → EStateM DumpError Walk Unit} {ids : List Ident}
    (h : ∀ id ∈ ids, ∀ walk, ∃ walk', f id walk = .ok () walk') (walk : Walk) :
    ∃ walk', ids.forM f walk = .ok () walk' := by
  induction ids generalizing walk with
  | nil => exact ⟨walk, rfl⟩
  | cons id ids ih =>
    obtain ⟨walk', hwalk'⟩ := h id List.mem_cons_self walk
    rw [forM_cons, hwalk']
    exact ih (fun i hi => h i (List.mem_cons_of_mem id hi)) walk'

theorem contains_of_resolve {id : Ident} {object : HeapObject}
    (h : graph.resolve id = some object) : graph.contains id = true := by
  obtain ⟨location, hlocation, -⟩ := ObjectTable.resolve_eq_some.mp h
  exact Std.TreeMap.contains_eq_isSome_getElem?.trans (by rw [hlocation]; rfl)

theorem visit_ok (total : graph.rooted.Total) (fuel : Nat) {id : Ident}
    (hid : graph.contains id = true → graph.rooted.Reachable id) (walk : Walk) :
    ∃ walk', visit graph descend fuel id walk = .ok () walk' := by
  induction fuel generalizing id walk with
  | zero => exact ⟨walk, rfl⟩
  | succ fuel ih =>
    rw [visit_succ]
    split
    · exact ⟨walk, rfl⟩
    · next object hresolve =>
      have hreach := hid (contains_of_resolve hresolve)
      obtain ⟨ids, hids⟩ := total id hreach
      have hids' : graph.references id = .ok ids := hids
      split
      · exact ⟨walk, rfl⟩
      · split
        · rw [hids']
          have hall : ∀ w ∈ ids, ∀ walk, ∃ walk', visit graph descend fuel w walk = .ok () walk' :=
            fun w hw walk => ih (fun _ => hreach.step ⟨ids, hids, hw⟩) walk
          obtain ⟨walk', hwalk'⟩ := forM_ok hall (walk.enter object)
          simp only [hwalk']
          exact ⟨_, rfl⟩
        · exact ⟨_, rfl⟩

theorem reachable_of_root {root : Root} (hroot : root ∈ graph.roots)
    (h : graph.contains root.object = true) : graph.rooted.Reachable root.object := by
  refine ⟨[], .single ?_⟩
  show root.object ∈ graph.rootObjects
  rw [ObjectGraph.rootObjects, List.mem_eraseDups]
  exact List.mem_filter.mpr ⟨List.mem_map_of_mem hroot, h⟩

theorem fromRoots_ok (total : graph.rooted.Total) :
    ∃ walk, fromRoots graph descend = .ok () walk := by
  apply forM_ok
  intro id hid walk
  obtain ⟨root, hroot, rfl⟩ := List.mem_map.mp hid
  exact visit_ok total _ (reachable_of_root hroot) walk

/-! ### Walks that pass nothing over -/

/-- The references of everything met are met too, except for what is still being visited. -/
def Closed (graph : ObjectGraph) (walk : Walk) (pending : List Ident) : Prop :=
  ∀ id ∈ walk.met, id ∈ pending ∨
    ∃ ids, graph.references id = .ok ids ∧ ∀ w ∈ ids, w ∈ walk.met

/-- What a visit without a failure comes to. -/
structure Visited (graph : ObjectGraph) (walk : Walk) (pending ids : List Ident) (walk' : Walk) :
    Prop where
  closed : Closed graph walk' pending
  keeps : ∀ id ∈ walk.met, id ∈ walk'.met
  met : ∀ id ∈ ids, graph.contains id = true → id ∈ walk'.met

theorem forM_visited {fuel : Nat} {pending : List Ident}
    (hstep : ∀ {id walk walk'}, Closed graph walk pending →
      unseen graph.index.keys walk.met < fuel →
      visit graph (fun _ => true) fuel id walk = .ok () walk' →
      Visited graph walk pending [id] walk')
    {ids : List Ident} {walk walk' : Walk} (hclosed : Closed graph walk pending)
    (hfuel : unseen graph.index.keys walk.met < fuel)
    (hvisit : ids.forM (visit graph (fun _ => true) fuel) walk = .ok () walk') :
    Visited graph walk pending ids walk' := by
  induction ids generalizing walk with
  | nil =>
    cases hvisit
    exact ⟨hclosed, fun _ h => h, by simp⟩
  | cons id ids ih =>
    rw [forM_cons] at hvisit
    split at hvisit
    · cases hvisit
    · next _ middle hfirst =>
      have first := hstep hclosed hfuel hfirst
      have rest := ih first.closed (Nat.lt_of_le_of_lt (unseen_le first.keeps) hfuel) hvisit
      refine ⟨rest.closed, fun i hi => rest.keeps i (first.keeps i hi), fun i hi hcontains => ?_⟩
      rcases List.mem_cons.mp hi with rfl | hi
      · exact rest.keeps i (first.met i (List.mem_singleton.mpr rfl) hcontains)
      · exact rest.met i hi hcontains

theorem Closed.enter {walk : Walk} {pending : List Ident} (h : Closed graph walk pending)
    {object : HeapObject} : Closed graph (walk.enter object) (object.id :: pending) := by
  intro x hx
  rcases mem_insert_iff.mp hx with rfl | hx
  · exact .inl List.mem_cons_self
  · rcases h x hx with hpending | ⟨ids, hids, hmet⟩
    · exact .inl (List.mem_cons_of_mem _ hpending)
    · exact .inr ⟨ids, hids, fun w hw => mem_insert_iff.mpr (.inr (hmet w hw))⟩

theorem contains_of_references {id w : Ident} {ids : List Ident}
    (h : graph.references id = .ok ids) (hw : w ∈ ids) : graph.contains w = true :=
  Std.TreeMap.mem_keys.mp (graph.rooted.successors_mem id ids h w hw)

theorem Visited.leave {walk walk' : Walk} {pending ids : List Ident} {object : HeapObject}
    (h : Visited graph (walk.enter object) (object.id :: pending) ids walk')
    (hids : graph.references object.id = .ok ids) :
    Visited graph walk pending [object.id] (walk'.leave object) := by
  refine ⟨fun x hx => ?_, fun x hx => h.keeps x (mem_insert_iff.mpr (.inr hx)),
    fun x hx _ => ?_⟩
  · rcases h.closed x hx with hpending | hrefs
    · rcases List.mem_cons.mp hpending with rfl | hpending
      · exact .inr ⟨ids, hids, fun w hw => h.met w hw (contains_of_references hids hw)⟩
      · exact .inl hpending
    · exact .inr hrefs
  · exact h.keeps x (mem_insert_iff.mpr (.inl (List.mem_singleton.mp hx)))

section Sound

variable (sound : graph.Sound)
include sound

/-- The fuel bounds the objects still to be met, so no visit is cut short. -/
theorem visit_visited {fuel : Nat} {id : Ident} {walk walk' : Walk} {pending : List Ident}
    (hclosed : Closed graph walk pending) (hfuel : unseen graph.index.keys walk.met < fuel)
    (hvisit : visit graph (fun _ => true) fuel id walk = .ok () walk') :
    Visited graph walk pending [id] walk' := by
  induction fuel generalizing id walk walk' pending with
  | zero => omega
  | succ fuel ih =>
    rw [visit_succ] at hvisit
    split at hvisit
    · next hnone =>
      cases hvisit
      refine ⟨hclosed, fun _ h => h, fun i hi hcontains => ?_⟩
      obtain ⟨object, hresolve, -⟩ := sound.resolve_of_contains hcontains
      rw [List.mem_singleton.mp hi, hnone] at hresolve
      cases hresolve
    · next object hresolve =>
      obtain rfl : object.id = id := sound.id_of_resolve hresolve
      split at hvisit
      · next hmet =>
        cases hvisit
        exact ⟨hclosed, fun _ h => h, fun i hi _ => List.mem_singleton.mp hi ▸ hmet⟩
      · next hmet =>
        rw [if_pos rfl] at hvisit
        split at hvisit
        · cases hvisit
        · next ids hids =>
          split at hvisit
          · cases hvisit
          · next _ middle hforM =>
            cases hvisit
            have hnode : object.id ∈ graph.index.keys :=
              ObjectGraph.mem_nodes_of_contains (contains_of_resolve hresolve)
            have hless := unseen_insert_lt hnode hmet
            have hfuel' : unseen graph.index.keys (walk.enter object).met < fuel :=
              Nat.lt_of_lt_of_le hless (Nat.le_of_lt_succ hfuel)
            exact (forM_visited ih hclosed.enter hfuel' hforM).leave hids

/-- A walk from all roots that passes nothing over comes to all that they reach. -/
theorem total_of_fromRoots {walk : Walk} (h : fromRoots graph (fun _ => true) = .ok () walk) :
    graph.rooted.Total := by
  have hempty : Closed graph empty [] := fun id hid => by simp [empty] at hid
  have hfuel : unseen graph.index.keys empty.met < graph.index.size + 1 := by
    rw [← Std.TreeMap.length_keys]
    exact Nat.lt_succ_of_le List.countP_le_length
  have visited := forM_visited (visit_visited sound) hempty hfuel h
  have hmet : ∀ {id}, graph.rooted.Reachable id → id ∈ walk.met := by
    intro id hreach
    refine hreach.induction (fun root hroot => ?_) fun u v hu hstep => ?_
    · have hmem := List.mem_filter.mp (List.mem_eraseDups.mp hroot)
      exact visited.met root hmem.1 hmem.2
    · obtain ⟨ids, hids, hv⟩ := hstep
      obtain hpending | ⟨ids', hids', hall⟩ := visited.closed u hu
      · cases hpending
      · rw [show graph.references u = .ok ids from hids] at hids'
        cases hids'
        exact hall v hv
  intro id hreach
  obtain hpending | ⟨ids, hids, -⟩ := visited.closed id (hmet hreach)
  · cases hpending
  · exact ⟨ids, hids⟩

theorem fromRoots_ok_iff :
    (∀ descend, ∃ walk, fromRoots graph descend = .ok () walk) ↔
      ∀ id, graph.rooted.Reachable id → ¬graph.Broken id := by
  rw [← sound.total_iff]
  constructor
  · intro h
    obtain ⟨walk, hwalk⟩ := h fun _ => true
    exact total_of_fromRoots sound hwalk
  · exact fun total _ => fromRoots_ok total

end Sound

end HeapDump.Walk

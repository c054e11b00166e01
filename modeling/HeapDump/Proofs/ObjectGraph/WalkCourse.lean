import HeapDump.Proofs.ObjectGraph.WalkOrder

/-! The course of a walk that passes objects over.  A walk goes into the references of those objects only
that it is told to descend into.  `Course` says which events follow from what has happened before:
each object that the walk descends into stands around the course of its references.  So events are
nested, and what happens inside an object depends only on what has been entered before it.  What a
course enters is all that its targets lead to through objects that have not been entered yet, since it
leaves no reference of an object that it has gone through. -/

namespace HeapDump

namespace Walk

open Relation

/-! ### Courses -/

/-- The identifiers of the objects that have been entered. -/
def enteredIds (events : List WalkEvent) : List Ident :=
  (events.filterMap (·.entered?)).map (·.id)

@[simp] theorem enteredIds_nil : enteredIds [] = [] := rfl

@[simp] theorem enteredIds_append (events events' : List WalkEvent) :
    enteredIds (events ++ events') = enteredIds events ++ enteredIds events' := by
  rw [enteredIds, List.filterMap_append, List.map_append]
  rfl

@[simp] theorem enteredIds_enter (object : HeapObject) (events : List WalkEvent) :
    enteredIds (.enter object :: events) = object.id :: enteredIds events := rfl

@[simp] theorem enteredIds_leave (object : HeapObject) (events : List WalkEvent) :
    enteredIds (.leave object :: events) = enteredIds events := rfl

theorem mem_entered {events : List WalkEvent} {object : HeapObject} :
    object ∈ events.filterMap (·.entered?) ↔ .enter object ∈ events := by
  rw [List.mem_filterMap]
  constructor
  · rintro ⟨event, hevent, hobject⟩
    cases event with
    | enter other =>
      cases hobject
      exact hevent
    | leave other => cases hobject
  · exact fun hevent => ⟨_, hevent, rfl⟩

/-- The walk descends into `u`, which refers to `v`. -/
def Follows (graph : ObjectGraph) (descend : HeapObject → Bool) (u v : Ident) : Prop :=
  ∃ object, graph.resolve u = some object ∧ descend object = true ∧
    ∃ ids, graph.references u = .ok ids ∧ v ∈ ids

/-- The walk descends into `u`, which refers to `v`, and `v` has not been entered before. -/
def FollowsNew (graph : ObjectGraph) (descend : HeapObject → Bool) (history : List WalkEvent)
    (u v : Ident) : Prop :=
  Follows graph descend u v ∧ v ∉ enteredIds history

/-- Events of which those inside an object come between the events that enter it and leave it.  An object
that is not descended into has nothing inside and is not left. -/
inductive Nested (descend : HeapObject → Bool) : List WalkEvent → Prop
  | nil : Nested descend []
  | passed {object : HeapObject} {events : List WalkEvent} (h : descend object = false)
    (hrest : Nested descend events) : Nested descend (.enter object :: events)
  | around {object : HeapObject} {inside events : List WalkEvent} (h : descend object = true)
    (hinside : Nested descend inside) (hrest : Nested descend events) :
    Nested descend (.enter object :: (inside ++ .leave object :: events))

/-- After the events of a history, the walk on from a list of identifiers consists of certain events. -/
inductive Course (graph : ObjectGraph) (descend : HeapObject → Bool) :
    List WalkEvent → List Ident → List WalkEvent → Prop
  | nil {history : List WalkEvent} : Course graph descend history [] []
  | skipped {history events : List WalkEvent} {id : Ident} {ids : List Ident}
    (h : graph.resolve id = none ∨ id ∈ enteredIds history) (hrest : Course graph descend history ids events) :
    Course graph descend history (id :: ids) events
  | passed {history events : List WalkEvent} {object : HeapObject} {ids : List Ident}
    (hresolve : graph.resolve object.id = some object) (hnew : object.id ∉ enteredIds history)
    (h : descend object = false)
    (hrest : Course graph descend (history ++ [.enter object]) ids events) :
    Course graph descend history (object.id :: ids) (.enter object :: events)
  | around {history inside events : List WalkEvent} {object : HeapObject} {refs ids : List Ident}
    (hresolve : graph.resolve object.id = some object) (hnew : object.id ∉ enteredIds history)
    (h : descend object = true) (hrefs : graph.references object.id = .ok refs)
    (hinside : Course graph descend (history ++ [.enter object]) refs inside)
    (hrest : Course graph descend (history ++ .enter object :: (inside ++ [.leave object])) ids events) :
    Course graph descend history (object.id :: ids) (.enter object :: (inside ++ .leave object :: events))

/-- Everything that is entered is left, unless it is passed over. -/
theorem Nested.perm {descend : HeapObject → Bool} {events : List WalkEvent} (h : Nested descend events) :
    (events.filterMap (·.left?)).Perm ((events.filterMap (·.entered?)).filter descend) := by
  induction h with
  | nil => exact .nil
  | passed h _ ih => simpa [WalkEvent.left?, WalkEvent.entered?, h] using ih
  | around h _ _ ihinside ihrest =>
    simp only [WalkEvent.left?, WalkEvent.entered?, List.filterMap_cons, List.filterMap_append,
      List.filter_cons_of_pos h, List.filter_append]
    exact List.perm_middle.trans ((ihinside.append ihrest).cons _)

/-- Events that enter and leave each object once at most. -/
theorem nodup_events {events : List WalkEvent} (hentered : (events.filterMap (·.entered?)).Nodup)
    (hleft : (events.filterMap (·.left?)).Nodup) : events.Nodup := by
  induction events with
  | nil => exact List.nodup_nil
  | cons event events ih =>
    cases event with
    | enter object =>
      obtain ⟨hnew, hentered⟩ := List.nodup_cons.mp hentered
      exact List.nodup_cons.mpr
        ⟨fun h => hnew (List.mem_filterMap.mpr ⟨_, h, rfl⟩), ih hentered hleft⟩
    | leave object =>
      obtain ⟨hnew, hleft⟩ := List.nodup_cons.mp hleft
      exact List.nodup_cons.mpr
        ⟨fun h => hnew (List.mem_filterMap.mpr ⟨_, h, rfl⟩), ih hentered hleft⟩

/-- An object is entered and left in one way only. -/
theorem around_inj {before inside after before' inside' after' : List WalkEvent} {object : HeapObject}
    (hnodup : (before ++ .enter object :: (inside ++ .leave object :: after)).Nodup)
    (h : before ++ .enter object :: (inside ++ .leave object :: after) =
      before' ++ .enter object :: (inside' ++ .leave object :: after')) :
    before = before' ∧ inside = inside' := by
  have hrest := List.nodup_cons.mp (List.nodup_middle.mp hnodup)
  have hafter := List.nodup_cons.mp (List.nodup_middle.mp (List.nodup_append.mp hrest.2).2.1)
  obtain ⟨hbefore, -, hinside⟩ := (List.append_cons_inj_of_notMem
    (fun hmem => hrest.1 (List.mem_append_left _ hmem))
    (fun hmem => hrest.1 (List.mem_append_right _ hmem))).mp h
  obtain ⟨hinside, -⟩ := (List.append_cons_inj_of_notMem
    (fun hmem => hafter.1 (List.mem_append_left _ hmem))
    (fun hmem => hafter.1 (List.mem_append_right _ hmem))).mp hinside
  exact ⟨hbefore, hinside⟩

namespace Course

variable {graph : ObjectGraph} {descend : HeapObject → Bool} {history events events' : List WalkEvent}
  {id v : Ident} {ids : List Ident} {object : HeapObject}

theorem cons (h : Course graph descend history [id] events)
    (hrest : Course graph descend (history ++ events) ids events') :
    Course graph descend history (id :: ids) (events ++ events') := by
  cases h with
  | skipped hskip h =>
    cases h
    rw [List.append_nil] at hrest
    exact .skipped hskip hrest
  | passed hresolve hnew hdescend h =>
    cases h
    exact .passed hresolve hnew hdescend hrest
  | around hresolve hnew hdescend hrefs hinside h =>
    cases h
    rw [List.cons_append, List.append_assoc]
    exact .around hresolve hnew hdescend hrefs hinside hrest

theorem nested (h : Course graph descend history ids events) : Nested descend events := by
  induction h with
  | nil => exact .nil
  | skipped _ _ ih => exact ih
  | passed _ _ h _ ih => exact .passed h ih
  | around _ _ h _ _ _ ihinside ihrest => exact .around h ihinside ihrest

/-- Nothing is entered that has been entered before, and nothing twice. -/
theorem nodup (h : Course graph descend history ids events) (hhistory : (enteredIds history).Nodup) :
    (enteredIds (history ++ events)).Nodup := by
  induction h with
  | nil => rwa [List.append_nil]
  | skipped _ _ ih => exact ih hhistory
  | @passed history events object ids _ hnew _ _ ih =>
    rw [List.append_cons]
    refine ih ?_
    rw [enteredIds_append]
    exact hhistory.append (List.nodup_singleton _) (List.disjoint_singleton.mpr hnew)
  | @around history inside events object refs ids _ hnew _ _ _ _ ihinside ihrest =>
    have hwhole : history ++ .enter object :: (inside ++ .leave object :: events) =
        history ++ .enter object :: (inside ++ [.leave object]) ++ events := by simp
    rw [hwhole]
    refine ihrest ?_
    have hinside := ihinside ?_
    · simpa using hinside
    · rw [enteredIds_append]
      exact hhistory.append (List.nodup_singleton _) (List.disjoint_singleton.mpr hnew)

theorem resolve (h : Course graph descend history ids events) :
    ∀ object, .enter object ∈ events → graph.resolve object.id = some object := by
  induction h with
  | nil => simp
  | skipped _ _ ih => exact ih
  | passed hresolve _ _ _ ih => simpa [hresolve] using ih
  | around hresolve _ _ _ _ _ ihinside ihrest =>
    intro object hobject
    simp only [List.mem_cons, List.mem_append, WalkEvent.enter.injEq, reduceCtorEq, false_or] at hobject
    rcases hobject with rfl | hobject | hobject
    · exact hresolve
    · exact ihinside object hobject
    · exact ihrest object hobject

/-- The course of an object that the walk descends into. -/
theorem exists_inside (h : Course graph descend history ids events) (hobject : .enter object ∈ events)
    (hdescend : descend object = true) :
    ∃ before inside after refs, events = before ++ .enter object :: (inside ++ .leave object :: after) ∧
      graph.references object.id = .ok refs ∧
      Course graph descend (history ++ before ++ [.enter object]) refs inside := by
  induction h with
  | nil => cases hobject
  | skipped _ _ ih => exact ih hobject
  | @passed history events first ids _ _ hpassed _ ih =>
    rcases List.mem_cons.mp hobject with heq | hobject
    · cases heq
      rw [hdescend] at hpassed
      cases hpassed
    · obtain ⟨before, inside, after, refs, rfl, hrefs, hinside⟩ := ih hobject
      exact ⟨.enter first :: before, inside, after, refs, rfl, hrefs, by simpa using hinside⟩
  | @around history inside events first refs ids _ _ _ hrefs hcourse _ ihinside ihrest =>
    simp only [List.mem_cons, List.mem_append, WalkEvent.enter.injEq, reduceCtorEq, false_or] at hobject
    rcases hobject with rfl | hobject | hobject
    · exact ⟨[], inside, events, refs, rfl, hrefs, by simpa using hcourse⟩
    · obtain ⟨before, inside', after, refs', rfl, hrefs', hinside'⟩ := ihinside hobject
      exact ⟨.enter first :: before, inside', after ++ .leave first :: events, refs', by simp, hrefs',
        by simpa using hinside'⟩
    · obtain ⟨before, inside', after, refs', rfl, hrefs', hinside'⟩ := ihrest hobject
      exact ⟨.enter first :: (inside ++ .leave first :: before), inside', after, refs', by simp, hrefs',
        by simpa using hinside'⟩

/-! ### What a course enters -/

/-- What is new after more events is new after fewer. -/
theorem way_mono {s : Ident} (hsub : enteredIds history ⊆ enteredIds events)
    (h : ReflTransGen (FollowsNew graph descend events) s v) :
    ReflTransGen (FollowsNew graph descend history) s v :=
  ReflTransGen.mono (fun _ _ h => ⟨h.1, fun hv => h.2 (hsub hv)⟩) _ _ h

/-- What is entered can be reached. -/
theorem exists_way (h : Course graph descend history ids events) (hv : v ∈ enteredIds events) :
    ∃ s ∈ ids, (graph.resolve s).isSome ∧ s ∉ enteredIds history ∧
      ReflTransGen (FollowsNew graph descend history) s v := by
  induction h with
  | nil => cases hv
  | skipped _ _ ih =>
    obtain ⟨s, hs, hrest⟩ := ih hv
    exact ⟨s, List.mem_cons_of_mem _ hs, hrest⟩
  | @passed history events object ids hresolve hnew _ _ ih =>
    rcases List.mem_cons.mp hv with rfl | hv
    · exact ⟨object.id, List.mem_cons_self, by rw [hresolve]; rfl, hnew, .refl⟩
    · obtain ⟨s, hs, hsome, hsnew, hway⟩ := ih hv
      have hsub : enteredIds history ⊆ enteredIds (history ++ [.enter object]) := by simp
      exact ⟨s, List.mem_cons_of_mem _ hs, hsome, fun h => hsnew (hsub h),
        way_mono hsub hway⟩
  | @around history inside events object refs ids hresolve hnew hdescend hrefs _ _ ihinside ihrest =>
    have hself : (graph.resolve object.id).isSome := by rw [hresolve]; rfl
    rw [enteredIds_enter, enteredIds_append, enteredIds_leave, List.mem_cons, List.mem_append] at hv
    rcases hv with rfl | hv | hv
    · exact ⟨object.id, List.mem_cons_self, hself, hnew, .refl⟩
    · obtain ⟨s, hs, -, hsnew, hway⟩ := ihinside hv
      have hsub : enteredIds history ⊆ enteredIds (history ++ [.enter object]) := by simp
      have hfirst : FollowsNew graph descend history object.id s :=
        ⟨⟨object, hresolve, hdescend, refs, hrefs, hs⟩, fun h => hsnew (hsub h)⟩
      exact ⟨object.id, List.mem_cons_self, hself, hnew,
        .head hfirst (way_mono hsub hway)⟩
    · obtain ⟨s, hs, hsome, hsnew, hway⟩ := ihrest hv
      have hsub : enteredIds history ⊆
          enteredIds (history ++ .enter object :: (inside ++ [.leave object])) := by simp
      exact ⟨s, List.mem_cons_of_mem _ hs, hsome, fun h => hsnew (hsub h),
        way_mono hsub hway⟩

/-- Each target has been entered in the end. -/
theorem mem_of_target (h : Course graph descend history ids events) (hid : id ∈ ids)
    (hsome : (graph.resolve id).isSome) : id ∈ enteredIds (history ++ events) := by
  induction h with
  | nil => cases hid
  | @skipped history events first ids hskip _ ih =>
    rcases List.mem_cons.mp hid with rfl | hid
    · rcases hskip with hnone | hmet
      · rw [hnone] at hsome
        cases hsome
      · rw [enteredIds_append]
        exact List.mem_append_left _ hmet
    · exact ih hid
  | @passed history events object ids _ _ _ _ ih =>
    rcases List.mem_cons.mp hid with rfl | hid
    · simp
    · simpa using ih hid
  | around _ _ _ _ _ _ _ ihrest =>
    rcases List.mem_cons.mp hid with rfl | hid
    · simp
    · simpa using ihrest hid

/-- Nothing is left out behind what has been entered. -/
theorem mem_of_follows (h : Course graph descend history ids events) {u : Ident}
    (hu : u ∈ enteredIds events) (hstep : Follows graph descend u v)
    (hsome : (graph.resolve v).isSome) : v ∈ enteredIds (history ++ events) := by
  induction h with
  | nil => cases hu
  | skipped _ _ ih => exact ih hu
  | @passed history events object ids hresolve _ hpassed _ ih =>
    rcases List.mem_cons.mp hu with rfl | hu
    · obtain ⟨object', hobject, hdescend, -⟩ := hstep
      cases hresolve.symm.trans hobject
      rw [hdescend] at hpassed
      cases hpassed
    · simpa using ih hu
  | @around history inside events object refs ids hresolve _ _ hrefs hinside _ ihinside ihrest =>
    rw [enteredIds_enter, enteredIds_append, enteredIds_leave, List.mem_cons, List.mem_append] at hu
    have hwhole : history ++ .enter object :: (inside ++ .leave object :: events) =
        history ++ [.enter object] ++ inside ++ .leave object :: events := by simp
    have hsub : enteredIds (history ++ [.enter object] ++ inside) ⊆
        enteredIds (history ++ .enter object :: (inside ++ .leave object :: events)) := by
      rw [hwhole, enteredIds_append (history ++ [WalkEvent.enter object] ++ inside)]
      exact List.subset_append_left _ _
    rcases hu with rfl | hu | hu
    · obtain ⟨-, -, -, refs', hrefs', hv⟩ := hstep
      cases hrefs.symm.trans hrefs'
      exact hsub (hinside.mem_of_target hv hsome)
    · exact hsub (ihinside hu)
    · simpa using ihrest hu

/-- A course enters what its targets lead to through objects that have not been entered before. -/
theorem mem_iff (sound : graph.Sound) (h : Course graph descend history ids events) :
    v ∈ enteredIds events ↔ ∃ s ∈ ids, (graph.resolve s).isSome ∧ s ∉ enteredIds history ∧
      ReflTransGen (FollowsNew graph descend history) s v := by
  refine ⟨h.exists_way, ?_⟩
  rintro ⟨s, hs, hsome, hnew, hway⟩
  have hlast : ∀ {w}, w ∈ enteredIds (history ++ events) → w ∉ enteredIds history →
      w ∈ enteredIds events := by
    intro w hw hnot
    rw [enteredIds_append] at hw
    exact (List.mem_append.mp hw).resolve_left hnot
  induction hway with
  | refl => exact hlast (h.mem_of_target hs hsome) hnew
  | tail _ hstep ih =>
    obtain ⟨-, -, -, ids, hids, hw⟩ := hstep.1
    obtain ⟨object, hobject, -⟩ := sound.resolve_of_contains (contains_of_references hids hw)
    exact hlast (h.mem_of_follows ih hstep.1 (by rw [hobject]; rfl)) hstep.2

theorem enter_mem_iff (h : Course graph descend history ids events) :
    .enter object ∈ events ↔ graph.resolve object.id = some object ∧ object.id ∈ enteredIds events := by
  rw [enteredIds, List.mem_map]
  constructor
  · exact fun hmem => ⟨h.resolve object hmem, object, mem_entered.mpr hmem, rfl⟩
  · rintro ⟨hresolve, other, hother, hid⟩
    have hsame := h.resolve other (mem_entered.mp hother)
    rw [hid, hresolve] at hsame
    cases hsame
    exact mem_entered.mp hother

/-- What comes inside an object is what it leads to through objects that have not been entered yet. -/
theorem mem_iff_of_references (sound : graph.Sound) {refs : List Ident}
    (h : Course graph descend history refs events) (hresolve : graph.resolve object.id = some object)
    (hdescend : descend object = true) (hrefs : graph.references object.id = .ok refs) :
    v ∈ enteredIds events ↔ TransGen (FollowsNew graph descend history) object.id v := by
  rw [h.mem_iff sound, TransGen.head'_iff]
  refine exists_congr fun s => ?_
  have hfollows : Follows graph descend object.id s ↔ s ∈ refs := by
    constructor
    · rintro ⟨-, -, -, refs', hrefs', hs⟩
      cases hrefs.symm.trans hrefs'
      exact hs
    · exact fun hs => ⟨object, hresolve, hdescend, refs, hrefs, hs⟩
  rw [FollowsNew, hfollows]
  constructor
  · rintro ⟨hs, -, hnew, hway⟩
    exact ⟨⟨hs, hnew⟩, hway⟩
  · rintro ⟨⟨hs, hnew⟩, hway⟩
    obtain ⟨other, hother, -⟩ := sound.resolve_of_contains (contains_of_references hrefs hs)
    exact ⟨hs, by rw [hother]; rfl, hnew, hway⟩

end Course

/-! ### Walks take their course -/

section Walks

variable {graph : ObjectGraph} {descend : HeapObject → Bool}

/-- What a walk has met is what it has entered. -/
def Records (walk : Walk) : Prop := ∀ v, v ∈ walk.met ↔ v ∈ enteredIds walk.events.toList

theorem Records.enter {walk : Walk} (h : Records walk) (object : HeapObject) :
    Records (walk.enter object) := by
  intro v
  rw [show v ∈ (walk.enter object).met ↔ v = object.id ∨ v ∈ walk.met from mem_insert_iff, h v]
  simp [Walk.enter, or_comm]

theorem Records.leave {walk : Walk} (h : Records walk) (object : HeapObject) :
    Records (walk.leave object) := by
  intro v
  rw [show v ∈ (walk.leave object).met ↔ v ∈ walk.met from Iff.rfl, h v]
  simp [Walk.leave]

/-- A walk that goes on from a list of identifiers without a failure. -/
def Takes (graph : ObjectGraph) (descend : HeapObject → Bool) (walk : Walk) (ids : List Ident)
    (result : EStateM.Result DumpError Walk Unit) : Prop :=
  ∃ walk' events, result = .ok () walk' ∧ Records walk' ∧
    walk'.events.toList = walk.events.toList ++ events ∧
    Course graph descend walk.events.toList ids events

theorem forM_takes {fuel : Nat}
    (hvisit : ∀ id walk, unseen graph.index.keys walk.met < fuel → Records walk →
      Takes graph descend walk [id] (visit graph descend fuel id walk))
    (ids : List Ident) {walk : Walk} (hfuel : unseen graph.index.keys walk.met < fuel)
    (hrecords : Records walk) :
    Takes graph descend walk ids (ids.forM (visit graph descend fuel) walk) := by
  induction ids generalizing walk with
  | nil => exact ⟨walk, [], rfl, hrecords, (List.append_nil _).symm, .nil⟩
  | cons id ids ih =>
    obtain ⟨middle, events, hfirst, hmiddle, hevents, hcourse⟩ := hvisit id walk hfuel hrecords
    have hkeeps : ∀ v, v ∈ walk.met → v ∈ middle.met := by
      intro v hv
      rw [hmiddle, hevents, enteredIds_append]
      exact List.mem_append_left _ ((hrecords v).mp hv)
    obtain ⟨walk', events', hrest, hrecords', hevents', hcourse'⟩ :=
      ih (Nat.lt_of_le_of_lt (unseen_le hkeeps) hfuel) hmiddle
    rw [hevents] at hevents' hcourse'
    refine ⟨walk', events ++ events', ?_, hrecords', by rw [hevents', List.append_assoc],
      hcourse.cons hcourse'⟩
    rw [forM_cons, hfirst]
    exact hrest

variable (sound : graph.Sound) (hrefs : ∀ id, ∃ refs, graph.references id = .ok refs)
include sound hrefs

/-- The fuel bounds the objects still to be met, so no visit is cut short. -/
theorem visit_takes {fuel : Nat} (id : Ident) {walk : Walk}
    (hfuel : unseen graph.index.keys walk.met < fuel) (hrecords : Records walk) :
    Takes graph descend walk [id] (visit graph descend fuel id walk) := by
  induction fuel generalizing id walk with
  | zero => omega
  | succ fuel ih =>
    have hskip : (graph.resolve id = none ∨ id ∈ enteredIds walk.events.toList) →
        Takes graph descend walk [id] (.ok () walk) := fun h =>
      ⟨walk, [], rfl, hrecords, (List.append_nil _).symm, .skipped h .nil⟩
    rw [visit_succ]
    cases hresolve : graph.resolve id with
    | none => exact hskip (.inl hresolve)
    | some object =>
      obtain rfl : object.id = id := sound.id_of_resolve hresolve
      by_cases hmet : object.id ∈ walk.met
      · simp only [if_pos hmet]
        exact hskip (.inr ((hrecords _).mp hmet))
      · have hnew : object.id ∉ enteredIds walk.events.toList := fun h => hmet ((hrecords _).mpr h)
        have henter : (walk.enter object).events.toList = walk.events.toList ++ [.enter object] :=
          Array.toList_push
        simp only [if_neg hmet]
        by_cases hdescend : descend object = true
        · obtain ⟨refs, hrefs'⟩ := hrefs object.id
          have hnode : object.id ∈ graph.index.keys :=
            ObjectGraph.mem_nodes_of_contains (contains_of_resolve hresolve)
          have hless : unseen graph.index.keys (walk.enter object).met <
              unseen graph.index.keys walk.met := unseen_insert_lt hnode hmet
          have hforM : Takes graph descend (walk.enter object) refs
              (refs.forM (visit graph descend fuel) (walk.enter object)) :=
            forM_takes (fun id _ hlt h => ih id hlt h) refs (by omega) (hrecords.enter object)
          obtain ⟨walk', inside, hinside, hrecords', hevents, hcourse⟩ := hforM
          rw [henter] at hevents hcourse
          simp only [if_pos hdescend, hrefs', hinside]
          refine ⟨walk'.leave object, .enter object :: (inside ++ [.leave object]), rfl,
            hrecords'.leave object, ?_, .around hresolve hnew hdescend hrefs' hcourse .nil⟩
          show (walk'.events.push (.leave object)).toList = _
          rw [Array.toList_push, hevents]
          simp
        · simp only [if_neg hdescend]
          exact ⟨walk.enter object, [.enter object], rfl, hrecords.enter object, henter,
            .passed hresolve hnew (by simpa using hdescend) .nil⟩

end Walks

/-- What a walk that did not fail has come to. -/
def finished? : EStateM.Result DumpError Walk Unit → Option Walk
  | .ok _ walk => some walk
  | .error _ _ => none

end Walk

namespace ObjectGraph

open Walk Relation

/-- A walk through an accepted dump whose references decode. -/
theorem walk_of_accepted (file : ByteArray) (graph : ObjectGraph)
    (h : read (.ofBytes file) = .ok graph) (hrefs : ∀ id, ∃ refs, graph.references id = .ok refs)
    (descend : HeapObject → Bool) (starts : List Ident) :
    ∃ walk, fromStarts graph descend starts = .ok () walk ∧ (walk.entered.map (·.id)).Nodup ∧
      (∀ object, object ∈ walk.entered ↔ graph.resolve object.id = some object ∧
        ∃ s ∈ starts, (graph.resolve s).isSome ∧ ReflTransGen (Follows graph descend) s object.id) ∧
      walk.left.Perm (walk.entered.filter descend) ∧ Nested descend walk.events.toList ∧
      ∀ before object inside after,
        walk.events.toList = before ++ .enter object :: (inside ++ .leave object :: after) →
          ∀ other, .enter other ∈ inside ↔ graph.resolve other.id = some other ∧
            TransGen (FollowsNew graph descend (before ++ [.enter object])) object.id other.id := by
  have sound : graph.Sound := read_sound (ByteSource.lawful_ofBytes file) h
  have hfuel : unseen graph.index.keys Walk.empty.met < graph.index.size + 1 := by
    rw [← Std.TreeMap.length_keys]
    exact Nat.lt_succ_of_le List.countP_le_length
  have hempty : Records Walk.empty := by simp [Records, Walk.empty]
  have htakes : Takes graph descend .empty starts (fromStarts graph descend starts) :=
    forM_takes (fun id _ hlt h => visit_takes sound hrefs id hlt h) starts hfuel hempty
  obtain ⟨walk, events, hwalk, hrecords, hevents, hcourse⟩ := htakes
  obtain rfl : walk.events.toList = events := hevents
  replace hcourse : Course graph descend [] starts walk.events.toList := hcourse
  have hnodup : (walk.entered.map (·.id)).Nodup := hcourse.nodup List.nodup_nil
  have hperm : walk.left.Perm (walk.entered.filter descend) := hcourse.nested.perm
  refine ⟨walk, hwalk, hnodup, ?_, hperm, hcourse.nested, ?_⟩
  · intro object
    have hfollows : FollowsNew graph descend [] = Follows graph descend := by
      funext u v
      simp [FollowsNew]
    rw [entered, mem_entered, hcourse.enter_mem_iff, hcourse.mem_iff sound, hfollows]
    simp
  · intro before object inside after hsplit other
    have hleft : object ∈ walk.left := by
      rw [left, hsplit]
      simp [WalkEvent.left?]
    have hdescend : descend object = true := (List.mem_filter.mp (hperm.mem_iff.mp hleft)).2
    have hmem : .enter object ∈ walk.events.toList := by simp [hsplit]
    obtain ⟨before', inside', after', refs, hsplit', hrefs', hinside⟩ :=
      hcourse.exists_inside hmem hdescend
    have hevents : walk.events.toList.Nodup :=
      nodup_events hnodup.of_map (hperm.nodup_iff.mpr (hnodup.of_map.filter _))
    obtain ⟨rfl, rfl⟩ := around_inj (hsplit ▸ hevents) (hsplit.symm.trans hsplit')
    rw [hinside.enter_mem_iff,
      hinside.mem_iff_of_references sound (hcourse.resolve object hmem) hdescend hrefs',
      List.nil_append]

/-- A dump without plain instances has no fields to decode. -/
theorem references_ok_of_arrays {file : ByteArray} {graph : ObjectGraph}
    (h : read (.ofBytes file) = .ok graph)
    (harrays : (graph.instances.all fun i => i.plain?.isNone) = true) (id : Ident) :
    ∃ refs, graph.references id = .ok refs := by
  have sound : graph.Sound := read_sound (ByteSource.lawful_ofBytes file) h
  refine (sound.references_ok_iff id).mpr ?_
  rintro ⟨i, hi, -⟩
  cases List.all_eq_true.mp harrays _ (mem_instances_of_resolve hi)

/-- An array of `knotted`. -/
def knot (id : Ident) (count : UInt32) (offset : Nat) : HeapObject :=
  .instance (.array ⟨id, .object, some ⟨8⟩, 0, 0, count, some offset⟩)

/-- The walk through the arrays of `knotted` that passes the second one over.  The third one is a start, and
so is the first, which has been entered by then. -/
theorem walk_of_accepted_knotted :
    ∃ graph walk a b c, a = knot ⟨1⟩ 3 77 ∧ b = knot ⟨2⟩ 3 106 ∧ c = knot ⟨3⟩ 1 135 ∧
      read (.ofBytes knotted) = .ok graph ∧ (∀ id, ∃ refs, graph.references id = .ok refs) ∧
      fromStarts graph (fun object => object.id ≠ ⟨2⟩) [⟨9⟩, ⟨3⟩, ⟨1⟩] = .ok () walk ∧
      walk.events.toList = [.enter c, .enter a, .enter b, .leave a, .leave c] ∧
      walk.left.Perm [c, a] ∧
      TransGen (FollowsNew graph (fun object => object.id ≠ ⟨2⟩) [.enter c]) c.id b.id := by
  have hread : ((read (.ofBytes knotted)).toOption.any fun graph =>
      (graph.instances.all fun i => i.plain?.isNone) &&
        (finished? (fromStarts graph (fun object => object.id ≠ ⟨2⟩) [⟨9⟩, ⟨3⟩, ⟨1⟩])).any fun walk =>
          walk.events.toList = [.enter (knot ⟨3⟩ 1 135), .enter (knot ⟨1⟩ 3 77),
            .enter (knot ⟨2⟩ 3 106), .leave (knot ⟨1⟩ 3 77), .leave (knot ⟨3⟩ 1 135)]) = true := by
    decide +kernel
  obtain ⟨graph, hgraph, hchecked⟩ := exists_of_any hread
  rw [Bool.and_eq_true] at hchecked
  obtain ⟨harrays, hevents⟩ := hchecked
  have hrefs := references_ok_of_arrays hgraph harrays
  obtain ⟨walk, hwalk, -, -, hperm, -, hinside⟩ :=
    walk_of_accepted knotted graph hgraph hrefs (fun object => object.id ≠ ⟨2⟩) [⟨9⟩, ⟨3⟩, ⟨1⟩]
  rw [hwalk, finished?, Option.any_some, decide_eq_true_eq] at hevents
  have hway := (hinside [] _ [_, _, _] [] hevents (knot ⟨2⟩ 3 106)).mp (by simp)
  have hentered : walk.entered.filter (fun object => object.id ≠ ⟨2⟩) =
      [knot ⟨3⟩ 1 135, knot ⟨1⟩ 3 77] := by
    rw [entered, hevents]
    decide
  exact ⟨graph, walk, _, _, _, rfl, rfl, rfl, hgraph, hrefs, hwalk, hevents, hentered ▸ hperm, hway.2⟩

end ObjectGraph

end HeapDump

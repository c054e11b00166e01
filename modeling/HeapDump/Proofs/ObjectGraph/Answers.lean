import HeapDump.Proofs.Graph.Failure
import HeapDump.Proofs.ObjectGraph.SameGraph
import HeapDump.Proofs.ObjectGraph.Walk

/-! Answers of alike graphs.  What is read later goes to the place where the bytes of an instance lie, and
there alike graphs find the same bytes.  So they give the same answers, and a failure in one is the same
failure at another place in the other. -/

namespace HeapDump

/-- A failure without the place where it was met. -/
def DumpError.unplaced : DumpError → DumpError
  | unopened _ fault => unopened 0 fault
  | outOfBounds _ length limit => outOfBounds 0 length limit
  | malformed _ fault => malformed 0 fault
  | unsupportedIdWidth bytes => unsupportedIdWidth bytes

/-- The same answer, or the same failure at places of their own. -/
def SameAnswer {α : Type} (answer answer' : Except DumpError α) : Prop :=
  answer.mapError DumpError.unplaced = answer'.mapError DumpError.unplaced

theorem SameAnswer.map {α β : Type} {answer answer' : Except DumpError α}
    (h : SameAnswer answer answer') (f : α → β) : SameAnswer (answer.map f) (answer'.map f) := by
  unfold SameAnswer at h ⊢
  rw [mapError_map, h, ← mapError_map]

theorem SameAnswer.cases {α : Type} {answer answer' : Except DumpError α}
    (h : SameAnswer answer answer') : (∃ a, answer = .ok a ∧ answer' = .ok a) ∨
      ∃ e e', answer = .error e ∧ answer' = .error e' ∧ e.unplaced = e'.unplaced := by
  cases answer with
  | error e =>
    cases answer' with
    | error e' => exact .inr ⟨e, e', rfl, rfl, Except.error.inj h⟩
    | ok a' => cases h
  | ok a =>
    cases answer' with
    | error e' => cases h
    | ok a' =>
      cases h
      exact .inl ⟨a, rfl, rfl⟩

/-- A value without the place of the object that it refers to. -/
def ResolvedValue.detach (source : ByteSource) (width : IdWidth) :
    ResolvedValue → ResolvedValue × Option (List UInt8)
  | null => (null, none)
  | object target => (object (target.detach source width).1, (target.detach source width).2)
  | primitive value => (primitive value, none)

/-- An event without the place of its object, and the bytes of the object. -/
def WalkEvent.detach (source : ByteSource) (width : IdWidth) :
    WalkEvent → WalkEvent × Option (List UInt8)
  | enter object => (enter (object.detach source width).1, (object.detach source width).2)
  | leave object => (leave (object.detach source width).1, (object.detach source width).2)

/-- Two objects of two graphs are the same in places of their own. -/
def ObjectGraph.Twins (graph graph' : ObjectGraph) (object object' : HeapObject) : Prop :=
  object.detach graph.source graph.idWidth = object'.detach graph'.source graph.idWidth

theorem ObjectGraph.Twins.id {graph graph' : ObjectGraph} {object object' : HeapObject}
    (h : graph.Twins graph' object object') : object.id = object'.id := by
  rw [← HeapObject.id_detach graph.source graph.idWidth, h, HeapObject.id_detach]

namespace Walk

/-- Two walks have met the same objects in the same order. -/
structure Alike (graph graph' : ObjectGraph) (walk walk' : Walk) : Prop where
  met : walk.met = walk'.met
  events : walk.events.map (WalkEvent.detach graph.source graph.idWidth) =
    walk'.events.map (WalkEvent.detach graph'.source graph.idWidth)

/-- Two walks end in the same way, up to the place of a failure. -/
def SameEnd (graph graph' : ObjectGraph) :
    EStateM.Result DumpError Walk Unit → EStateM.Result DumpError Walk Unit → Prop
  | .ok _ walk, .ok _ walk' => Alike graph graph' walk walk'
  | .error e walk, .error e' walk' => e.unplaced = e'.unplaced ∧ Alike graph graph' walk walk'
  | _, _ => False

variable {graph graph' : ObjectGraph} {walk walk' : Walk} {object object' : HeapObject}

theorem SameEnd.cases {result result' : EStateM.Result DumpError Walk Unit}
    (h : SameEnd graph graph' result result') :
    (∃ walk walk', result = .ok () walk ∧ result' = .ok () walk' ∧ Alike graph graph' walk walk') ∨
      ∃ e e' walk walk', result = .error e walk ∧ result' = .error e' walk' ∧
        e.unplaced = e'.unplaced ∧ Alike graph graph' walk walk' := by
  cases result with
  | ok _ walk =>
    cases result' with
    | ok _ walk' => exact .inl ⟨walk, walk', rfl, rfl, h⟩
    | error e' walk' => exact h.elim
  | error e walk =>
    cases result' with
    | ok _ walk' => exact h.elim
    | error e' walk' => exact .inr ⟨e, e', walk, walk', rfl, rfl, h⟩

theorem Alike.enter (h : Alike graph graph' walk walk') (hsame : graph.Twins graph' object object') :
    Alike graph graph' (walk.enter object) (walk'.enter object') := by
  constructor
  · simp only [Walk.enter, h.met, hsame.id]
  · unfold ObjectGraph.Twins at hsame
    simp only [Walk.enter, Array.map_push, h.events, WalkEvent.detach, hsame]

theorem Alike.leave (h : Alike graph graph' walk walk') (hsame : graph.Twins graph' object object') :
    Alike graph graph' (walk.leave object) (walk'.leave object') := by
  constructor
  · exact h.met
  · unfold ObjectGraph.Twins at hsame
    simp only [Walk.leave, Array.map_push, h.events, WalkEvent.detach, hsame]

theorem sameEnd_forM {f f' : Ident → EStateM DumpError Walk Unit}
    (hf : ∀ id walk walk', Alike graph graph' walk walk' →
      SameEnd graph graph' (f id walk) (f' id walk')) (ids : List Ident)
    (h : Alike graph graph' walk walk') :
    SameEnd graph graph' (ids.forM f walk) (ids.forM f' walk') := by
  induction ids generalizing walk walk' with
  | nil => exact h
  | cons id ids ih =>
    rw [forM_cons, forM_cons]
    rcases (hf id walk walk' h).cases with
      ⟨next, next', hok, hok', hnext⟩ | ⟨e, e', next, next', herror, herror', hend⟩
    · rw [hok, hok']
      exact ih hnext
    · rw [herror, herror']
      exact hend

end Walk

namespace ObjectGraph

variable {graph graph' : ObjectGraph}

/-- The field values with the objects that they refer to, these detached. -/
def detachedValues (graph : ObjectGraph) (i : PlainInstance) :
    Except DumpError (List (Field × ResolvedValue × Option (List UInt8))) :=
  (graph.resolvedValues i).map (·.map fun entry =>
    (entry.1, entry.2.detach graph.source graph.idWidth))

/-- What is asked of instances has the same answers for two instances of two graphs. -/
def SameContents (graph graph' : ObjectGraph) : Instance → Instance → Prop
  | .plain i, .plain i' =>
    SameAnswer (graph.fieldValues i) (graph'.fieldValues i') ∧
      SameAnswer (graph.detachedValues i) (graph'.detachedValues i') ∧
        SameAnswer (graph.stringValue (.plain i)) (graph'.stringValue (.plain i'))
  | .array a, .array a' =>
    SameAnswer (graph.arrayTargets a) (graph'.arrayTargets a') ∧
      SameAnswer (graph.arrayValues a) (graph'.arrayValues a') ∧
        SameAnswer (graph.stringValue (.array a)) (graph'.stringValue (.array a'))
  | _, _ => False

/-- Whatever is asked of two graphs has the same answers. -/
structure SameAnswers (graph graph' : ObjectGraph) : Prop where
  contents : List.Forall₂ (SameContents graph graph') graph.instances graph'.instances
  references : ∀ id, SameAnswer (graph.references id) (graph'.references id)
  topologicalOrder : SameAnswer graph.topologicalOrder graph'.topologicalOrder
  dominators : SameAnswer graph.dominators graph'.dominators
  retainedSizes : SameAnswer graph.retainedSizes graph'.retainedSizes
  /-- Walks that do not choose their way by the places of instances. -/
  walks : ∀ starts descend descend',
    (∀ object object', graph.Twins graph' object object' → descend object = descend' object') →
    Walk.SameEnd graph graph' (Walk.fromStarts graph descend starts)
      (Walk.fromStarts graph' descend' starts)

/-! ### Field values and elements -/

section Alike

variable (h : graph.Alike graph') (sound : graph.Sound) (sound' : graph'.Sound)
include h

theorem Alike.resolve (id : Ident) :
    (graph.resolve id).map (HeapObject.detach graph.source graph.idWidth) =
      (graph'.resolve id).map (HeapObject.detach graph'.source graph'.idWidth) := by
  rw [← h.idWidth]
  exact h.table.resolve id

/-- What a value refers to is the same when detached. -/
theorem Alike.resolveValue (value : Value) :
    (graph.resolveValue value).detach graph.source graph.idWidth =
      (graph'.resolveValue value).detach graph'.source graph'.idWidth := by
  cases value with
  | object target =>
    cases target with
    | none => rfl
    | some id =>
      show (((graph.resolve id).map ResolvedValue.object).getD .null).detach _ _ =
        (((graph'.resolve id).map ResolvedValue.object).getD .null).detach _ _
      rcases cases_of_map_eq (h.resolve id) with ⟨hnone, hnone'⟩ | ⟨o, o', ho, ho', hsame⟩
      · rw [hnone, hnone']
        rfl
      · rw [ho, ho']
        simp only [Option.map_some, Option.getD_some, ResolvedValue.detach, hsame]
  | _ => rfl

theorem Alike.detachedValues {i i' : PlainInstance}
    (hvalues : SameAnswer (graph.fieldValues i) (graph'.fieldValues i')) :
    SameAnswer (graph.detachedValues i) (graph'.detachedValues i') := by
  have hmap : ∀ (graph : ObjectGraph) (i : PlainInstance), graph.detachedValues i =
      (graph.fieldValues i).map (·.map fun entry =>
        (entry.1, (graph.resolveValue entry.2).detach graph.source graph.idWidth)) := by
    intro graph i
    unfold ObjectGraph.detachedValues resolvedValues
    cases graph.fieldValues i with
    | error e => rfl
    | ok values => exact congrArg Except.ok List.map_map
  rw [hmap, hmap]
  simp only [h.resolveValue]
  exact hvalues.map _

include sound sound'

omit h in
/-- A plain instance and its twin in an alike graph have the same bytes. -/
theorem exists_plain_of_sound {i : PlainInstance} {j : Instance}
    (hi : Instance.plain i ∈ graph.instances) (hj : j ∈ graph'.instances)
    (hsame : (Instance.plain i).detach graph.source graph.idWidth =
      j.detach graph'.source graph.idWidth) :
    ∃ offset blob, j = .plain { i with offset } ∧
      graph.source.slice i.offset i.length.toNat = .ok blob ∧
        graph'.source.slice offset i.length.toNat = .ok blob := by
  obtain ⟨offset, rfl, hslice⟩ := exists_plain_of_detach hsame
  obtain ⟨blob, hblob, -⟩ := sound.lawful.slice_ok (sound.inside hi)
  obtain ⟨blob', hblob', -⟩ := sound'.lawful.slice_ok (sound'.inside hj)
  change graph'.source.slice offset i.length.toNat = .ok blob' at hblob'
  rw [hblob, hblob'] at hslice
  cases hslice
  exact ⟨offset, blob, rfl, hblob, hblob'⟩

/-- An array and its twin have the same contents, or both have none. -/
theorem Alike.exists_array {a : ArrayInstance} {j : Instance}
    (ha : Instance.array a ∈ graph.instances) (hj : j ∈ graph'.instances)
    (hsame : (Instance.array a).detach graph.source graph.idWidth =
      j.detach graph'.source graph.idWidth) :
    (a.offset = none ∧ j = .array a) ∨
      ∃ offset offset' contents, a.offset = some offset ∧
        j = .array { a with offset := some offset' } ∧
          graph.source.slice offset (a.contentsLength graph.idWidth) = .ok contents ∧
            graph'.source.slice offset' (a.contentsLength graph.idWidth) = .ok contents := by
  cases j with
  | plain i => simp [Instance.detach] at hsame
  | array b =>
    obtain ⟨id, type, classId, heapId, trace, count, offset?⟩ := a
    obtain ⟨id', type', classId', heapId', trace', count', offset'?⟩ := b
    simp only [Instance.detach, Prod.mk.injEq, Instance.array.injEq, ArrayInstance.mk.injEq] at hsame
    obtain ⟨⟨rfl, rfl, rfl, rfl, rfl, rfl, hoffset⟩, hslice⟩ := hsame
    cases offset? with
    | none =>
      cases offset'? with
      | none => exact .inl ⟨rfl, rfl⟩
      | some offset' => cases hoffset
    | some offset =>
      cases offset'? with
      | none => cases hoffset
      | some offset' =>
        obtain ⟨contents, hcontents, -⟩ := sound.lawful.slice_ok (sound.inside ha offset rfl)
        obtain ⟨contents', hcontents', -⟩ := sound'.lawful.slice_ok (sound'.inside hj offset' rfl)
        rw [← h.idWidth] at hcontents'
        rw [Option.bind_some, Option.bind_some, hcontents] at hslice
        change some contents = (graph'.source.slice offset'
          (ArrayInstance.contentsLength graph.idWidth _)).toOption at hslice
        rw [hcontents'] at hslice
        cases hslice
        exact .inr ⟨offset, offset', contents, rfl, rfl, hcontents, hcontents'⟩

omit sound sound' in
theorem Alike.fieldValues {i : PlainInstance} {offset : Nat} {blob : List UInt8}
    (hblob : graph.source.slice i.offset i.length.toNat = .ok blob)
    (hblob' : graph'.source.slice offset i.length.toNat = .ok blob) :
    SameAnswer (graph.fieldValues i) (graph'.fieldValues { i with offset }) := by
  unfold SameAnswer ObjectGraph.fieldValues
  dsimp only
  rw [h.layout?]
  split
  · rfl
  · next layout _ =>
    rw [hblob, hblob']
    show (layout.mapM (graph.fieldValue i blob)).mapError _ =
      (layout.mapM (graph'.fieldValue { i with offset } blob)).mapError _
    rw [mapError_mapM, mapError_mapM]
    refine congrArg (layout.mapM ·) (funext fun f => ?_)
    unfold fieldValue
    rw [h.idWidth]
    split <;> rfl

theorem Alike.elementBytes {a a' : ArrayInstance} (ha : Instance.array a ∈ graph.instances)
    (ha' : Instance.array a' ∈ graph'.instances)
    (hsame : (Instance.array a).detach graph.source graph.idWidth =
      (Instance.array a').detach graph'.source graph.idWidth) :
    a.elementType = a'.elementType ∧ graph.elementBytes a = graph'.elementBytes a' := by
  rcases h.exists_array sound sound' ha ha' hsame with
    ⟨hnone, hj⟩ | ⟨offset, offset', contents, hoffset, hj, hcontents, hcontents'⟩
  · cases hj
    refine ⟨rfl, ?_⟩
    unfold ObjectGraph.elementBytes
    rw [hnone]
  · cases hj
    refine ⟨rfl, ?_⟩
    unfold ObjectGraph.elementBytes
    simp only [hoffset, hcontents, ← h.idWidth]
    exact congrArg (Except.bind · _) hcontents'.symm

end Alike

/-! ### Strings -/

/-- The array that a value refers to. -/
def arrayOf? (graph : ObjectGraph) (value : Value) : Option ArrayInstance := do
  (← graph.instance? (← value.target?)).array?

open StringValue in
/-- The text that field values and the contents of an array come to. -/
def textOf (values : List (Field × Value)) (a : ArrayInstance) (bytes : List UInt8) : Option String :=
  let number (name : String) : Option Int := (valueNamed? values name).bind (·.integer?)
  (units? a.elementType (number "coder") a.count.toNat bytes).map fun units =>
    Text.Utf16.decodeLossy (part (number "offset") (number "count") units)

/-- The text that field values and the array that they refer to come to. -/
def textIn (graph : ObjectGraph) (values : List (Field × Value)) :
    Option ArrayInstance → Except DumpError (Option String)
  | none => .ok none
  | some a =>
    match a.elementType, a.offset with
    | .object, _ | _, none => .ok none
    | _, some offset =>
      return textOf values a (← graph.source.slice offset (a.contentsLength graph.idWidth))

theorem stringValue_eq (graph : ObjectGraph) (i : PlainInstance) :
    graph.stringValue (.plain i) =
      if ((graph.class? i.classId).map (·.name)).all (· ∉ StringValue.classNames) then .ok none
      else (graph.fieldValues i).bind fun values =>
        graph.textIn values ((valueNamed? values "value").bind graph.arrayOf?) := by
  unfold stringValue
  dsimp only
  refine if_congr Iff.rfl rfl (congrArg (Except.bind _) (funext fun values => ?_))
  have harray : (valueNamed? values "value").bind graph.arrayOf? =
      (do
        let value ← valueNamed? values "value"
        let i ← graph.instance? (← value.target?)
        i.array?) := rfl
  rw [harray]
  cases (do
      let value ← valueNamed? values "value"
      let i ← graph.instance? (← value.target?)
      i.array?) with
  | none => rfl
  | some a =>
    obtain ⟨_, type, _, _, _, _, offset?⟩ := a
    cases type <;> cases offset? <;> rfl

section Alike

variable (h : graph.Alike graph') (sound : graph.Sound) (sound' : graph'.Sound)
include h sound sound'

/-- The text in the array of a value is the same. -/
theorem Alike.textIn (values : List (Field × Value)) (value? : Option Value) :
    graph.textIn values (value?.bind graph.arrayOf?) =
      graph'.textIn values (value?.bind graph'.arrayOf?) := by
  cases value? with
  | none => rfl
  | some value =>
    show graph.textIn values (value.target?.bind fun id => (graph.instance? id).bind (·.array?)) =
      graph'.textIn values (value.target?.bind fun id => (graph'.instance? id).bind (·.array?))
    cases value.target? with
    | none => rfl
    | some id =>
      show graph.textIn values ((graph.instance? id).bind (·.array?)) =
        graph'.textIn values ((graph'.instance? id).bind (·.array?))
      rcases cases_of_map_eq (h.table.instance? id) with ⟨hnone, hnone'⟩ | ⟨i, i', hi, hi', hsame⟩
      · rw [hnone, hnone']
        rfl
      · rw [hi, hi']
        have hmem := mem_instances_of_instance? hi
        have hmem' := mem_instances_of_instance? hi'
        cases i with
        | plain i =>
          obtain ⟨_, _, rfl, -⟩ := exists_plain_of_sound sound sound' hmem hmem' hsame
          rfl
        | array a =>
          rcases h.exists_array sound sound' hmem hmem' hsame with
            ⟨hnone, rfl⟩ | ⟨offset, offset', contents, hoffset, rfl, hcontents, hcontents'⟩
          · obtain ⟨_, type, _, _, _, _, _⟩ := a
            cases hnone
            cases type <;> rfl
          · obtain ⟨_, type, _, _, _, _, _⟩ := a
            cases hoffset
            cases type with
            | object => rfl
            | primitive type =>
              simp only [Option.bind_some, Instance.array?, ObjectGraph.textIn]
              rw [← h.idWidth, hcontents]
              exact congrArg (Except.bind · _) hcontents'.symm

theorem Alike.stringValue {i : PlainInstance} {offset : Nat}
    (hvalues : SameAnswer (graph.fieldValues i) (graph'.fieldValues { i with offset })) :
    SameAnswer (graph.stringValue (.plain i)) (graph'.stringValue (.plain { i with offset })) := by
  rw [stringValue_eq, stringValue_eq, h.table.class?]
  split
  · rfl
  · rcases hvalues.cases with ⟨values, hv, hv'⟩ | ⟨e, e', he, he', hsame⟩
    · rw [hv, hv']
      exact congrArg (Except.mapError _) (h.textIn sound sound' values _)
    · rw [he, he']
      exact congrArg Except.error hsame

/-! ### References, dominators and retained sizes -/

theorem Alike.sameContents {i i' : Instance} (hi : i ∈ graph.instances) (hi' : i' ∈ graph'.instances)
    (hsame : i.detach graph.source graph.idWidth = i'.detach graph'.source graph.idWidth) :
    SameContents graph graph' i i' := by
  cases i with
  | plain i =>
    obtain ⟨offset, blob, rfl, hblob, hblob'⟩ := exists_plain_of_sound sound sound' hi hi' hsame
    have hvalues := h.fieldValues hblob hblob'
    exact ⟨hvalues, h.detachedValues hvalues, h.stringValue sound sound' hvalues⟩
  | array a =>
    cases i' with
    | plain i' => simp [Instance.detach] at hsame
    | array a' =>
      obtain ⟨htype, hbytes⟩ := h.elementBytes sound sound' hi hi' hsame
      refine ⟨?_, ?_, rfl⟩
      · unfold arrayTargets
        rw [htype, hbytes]
        rfl
      · unfold arrayValues
        rw [htype, hbytes]
        rfl

theorem Alike.targets {object object' : HeapObject}
    (hi : ∀ i, object = .instance i → i ∈ graph.instances)
    (hi' : ∀ i, object' = .instance i → i ∈ graph'.instances)
    (hsame : graph.Twins graph' object object') :
    SameAnswer (graph.targets object) (graph'.targets object') := by
  cases object with
  | classObject c =>
    cases object' with
    | classObject c' =>
      cases hsame
      rfl
    | «instance» i' => cases hsame
  | «instance» i =>
    cases object' with
    | classObject c' => cases hsame
    | «instance» i' =>
      simp only [Twins, HeapObject.detach, Prod.mk.injEq, HeapObject.instance.injEq] at hsame
      have hcontents := h.sameContents sound sound' (hi i rfl) (hi' i' rfl) (Prod.ext hsame.1 hsame.2)
      cases i with
      | plain i =>
        cases i' with
        | plain i' => exact hcontents.1.map _
        | array a' => exact hcontents.elim
      | array a =>
        cases i' with
        | plain i' => exact hcontents.elim
        | array a' => exact hcontents.1.map _

theorem Alike.references (id : Ident) : SameAnswer (graph.references id) (graph'.references id) := by
  unfold ObjectGraph.references
  rcases cases_of_map_eq (h.table.resolve id) with ⟨hnone, hnone'⟩ | ⟨o, o', ho, ho', hsame⟩
  · rw [hnone, hnone']
    rfl
  · rw [ho, ho', h.table.contains]
    refine (h.targets sound sound' ?_ ?_ hsame).map _
    · rintro i rfl
      exact mem_instances_of_resolve ho
    · rintro i rfl
      exact mem_instances_of_resolve ho'

/-- The graphs of references are the same up to the places of failures. -/
theorem Alike.rooted :
    graph.rooted.mapFailure DumpError.unplaced = graph'.rooted.mapFailure DumpError.unplaced := by
  have hroots : graph.rootObjects = graph'.rootObjects := by
    rw [rootObjects, h.table.roots, h.table.contains, ← rootObjects]
  unfold RootedGraph.mapFailure ObjectGraph.rooted
  simp only [RootedGraph.mk.injEq]
  exact ⟨congrArg Std.TreeMap.keys h.table.index, hroots, funext (h.references sound sound')⟩

theorem Alike.dominators : SameAnswer graph.dominators graph'.dominators := by
  unfold SameAnswer ObjectGraph.dominators
  rw [← DominatorTree.ofGraph_mapFailure, h.rooted sound sound', DominatorTree.ofGraph_mapFailure]

omit sound sound'

theorem Alike.shallowSize {object object' : HeapObject}
    (hsame : graph.Twins graph' object object') :
    graph.shallowSize object = graph'.shallowSize object' := by
  have hdetach : ∀ (source : ByteSource) (object : HeapObject),
      graph.shallowSize (object.detach source graph.idWidth).1 = graph.shallowSize object := by
    intro source object
    cases object with
    | classObject c => rfl
    | «instance» i => cases i <;> rfl
  have hgraph : graph.shallowSize = graph'.shallowSize := by
    funext object
    unfold ObjectGraph.shallowSize
    rw [h.idWidth, h.table.class?]
  rw [← hdetach graph.source, hsame, hdetach, hgraph]

theorem Alike.alone : RetainedSizes.alone graph = RetainedSizes.alone graph' := by
  funext id
  unfold RetainedSizes.alone
  rw [h.table.size_heaps, h.table.heapIndex?]
  rcases cases_of_map_eq (h.table.resolve id) with ⟨hnone, hnone'⟩ | ⟨o, o', ho, ho', hsame⟩
  · rw [hnone, hnone']
  · rw [ho, ho']
    cases graph'.heapIndex? id with
    | none => rfl
    | some heap => exact congrArg (Array.setIfInBounds _ heap) (h.shallowSize hsame)

/-! ### Walks -/

include sound sound'

theorem Alike.visit {descend descend' : HeapObject → Bool}
    (hdescend : ∀ object object', graph.Twins graph' object object' →
      descend object = descend' object') (fuel : Nat) (id : Ident) {walk walk' : Walk}
    (hwalk : Walk.Alike graph graph' walk walk') :
    Walk.SameEnd graph graph' (Walk.visit graph descend fuel id walk)
      (Walk.visit graph' descend' fuel id walk') := by
  -- Both walks have the same fuel and look the same objects up, so they go the same way.
  induction fuel generalizing id walk walk' with
  | zero => exact hwalk
  | succ fuel ih =>
    rw [Walk.visit_succ, Walk.visit_succ]
    rcases cases_of_map_eq (h.table.resolve id) with ⟨hnone, hnone'⟩ | ⟨o, o', ho, ho', hsame⟩
    · rw [hnone, hnone']
      exact hwalk
    · have htwins : graph.Twins graph' o o' := hsame
      have henter := hwalk.enter htwins
      rw [ho, ho']
      dsimp only
      rw [htwins.id, hwalk.met, hdescend o o' htwins]
      split
      · exact hwalk
      · split
        · rcases (h.references sound sound' id).cases with
            ⟨ids, hids, hids'⟩ | ⟨e, e', he, he', hplace⟩
          · rw [hids, hids']
            dsimp only
            rcases (Walk.sameEnd_forM (fun id _ _ => ih id) ids henter).cases with
              ⟨next, next', hok, hok', hnext⟩ | ⟨e, e', next, next', herror, herror', hend⟩
            · rw [hok, hok']
              exact hnext.leave htwins
            · rw [herror, herror']
              exact hend
          · rw [he, he']
            exact ⟨hplace, henter⟩
        · exact henter

theorem Alike.sameAnswers : graph.SameAnswers graph' where
  contents := by
    have hleft := (List.forall₂_and_left (p := (· ∈ graph.instances)) _ _).mpr
      ⟨fun _ hi => hi, h.instances⟩
    have hboth := (List.forall₂_and_left (p := (· ∈ graph'.instances)) _ _).mpr
      ⟨fun _ hi' => hi', hleft.flip⟩
    exact hboth.flip.imp fun i i' ⟨hi', hi, hsame⟩ => h.sameContents sound sound' hi hi' hsame
  references := h.references sound sound'
  topologicalOrder := by
    unfold SameAnswer ObjectGraph.topologicalOrder
    rw [← RootedGraph.topologicalOrder_mapFailure, h.rooted sound sound',
      RootedGraph.topologicalOrder_mapFailure]
  dominators := h.dominators sound sound'
  retainedSizes := by
    have htree : RetainedSizes.ofTree graph = RetainedSizes.ofTree graph' := by
      funext tree
      simp only [RetainedSizes.ofTree, h.alone, h.table.size_heaps]
    have hmap := (h.dominators sound sound').map (RetainedSizes.ofTree graph')
    unfold ObjectGraph.retainedSizes
    rw [htree]
    exact hmap
  walks starts descend descend' hdescend := by
    unfold Walk.fromStarts
    rw [h.table.index]
    have hempty : Walk.Alike graph graph' .empty .empty :=
      ⟨rfl, by simp only [Walk.empty, Array.map_empty]⟩
    exact Walk.sameEnd_forM (fun id _ _ => h.visit sound sound' hdescend _ id) starts hempty

end Alike

end ObjectGraph

end HeapDump

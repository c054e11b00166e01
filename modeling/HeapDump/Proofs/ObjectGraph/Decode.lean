import HeapDump.ObjectGraph.Retained
import HeapDump.ObjectGraph.StringValue
import HeapDump.Proofs.Graph.Dominators
import HeapDump.Proofs.ObjectGraph.Layout
import HeapDump.Proofs.Value

/-! What can still fail once a dump has been accepted.  The sizes of instances are checked by looking
their class up, and their fields are found in the layouts of all classes.  The two differ where an
instance has the identifier of a class that comes after it: an instance of that class is not checked
and may be too short.  Nothing else that is read from an accepted dump fails. -/

namespace HeapDump

/-! ### Computations that succeed -/

theorem exists_mapM_eq_ok {ε α β : Type} {f : α → Except ε β} {items : List α} :
    (∃ answers, items.mapM f = .ok answers) ↔ ∀ a ∈ items, ∃ answer, f a = .ok answer := by
  induction items with
  | nil => exact ⟨fun _ => by simp, fun _ => ⟨[], rfl⟩⟩
  | cons a items ih =>
    rw [List.mapM_cons, List.forall_mem_cons, ← ih]
    cases f a with
    | error e => simp [bind, Except.bind]
    | ok b => cases items.mapM f <;> simp [bind, Except.bind, pure, Except.pure]

theorem exists_map_eq_ok {ε α β : Type} {f : α → β} {answer : Except ε α} :
    (∃ b, (do return f (← answer)) = Except.ok b) ↔ ∃ a, answer = .ok a := by
  cases answer with
  | error e => exact ⟨fun ⟨_, h⟩ => (nomatch h), fun ⟨_, h⟩ => (nomatch h)⟩
  | ok a => exact ⟨fun _ => ⟨a, rfl⟩, fun _ => ⟨f a, rfl⟩⟩

namespace ObjectGraph

variable {graph : ObjectGraph}

/-- The class of the instance stands in the dump behind an instance with the same identifier, and the
instance has fewer bytes than the class and its superclasses lay out. -/
def Undecodable (graph : ObjectGraph) (i : PlainInstance) : Prop :=
  (∃ j, graph.resolve i.classId = some (.instance j)) ∧
    ∃ layout, graph.layout? i.classId = some layout ∧
      i.length.toNat < LayoutField.total graph.idWidth layout

/-- The identifier stands for an instance that cannot be decoded. -/
def Broken (graph : ObjectGraph) (id : Ident) : Prop :=
  ∃ i, graph.resolve id = some (.instance (.plain i)) ∧ graph.Undecodable i

/-! ### Instances -/

theorem fieldValue_ok_iff {i : PlainInstance} {blob : List UInt8} {f : LayoutField} :
    (∃ value, graph.fieldValue i blob f = .ok value) ↔ f.stop graph.idWidth ≤ blob.length := by
  have hpos := FieldType.size_pos graph.idWidth f.field.type
  rw [fieldValue, Slice.value_eq, List.length_drop, LayoutField.stop]
  split
  · next h =>
    split at h
    · exact ⟨fun _ => by omega, fun _ => ⟨_, rfl⟩⟩
    · cases h
  · next h =>
    split at h
    · cases h
    · exact ⟨fun ⟨_, h⟩ => (nomatch h), fun _ => by omega⟩

theorem mem_instances_of_resolve {id : Ident} {i : Instance}
    (h : graph.resolve id = some (.instance i)) : i ∈ graph.instances := by
  obtain ⟨location, -, hat⟩ := ObjectTable.resolve_eq_some.mp h
  exact ObjectTable.mem_instances.mpr ⟨location, hat⟩

theorem mem_instances_of_instance? {id : Ident} {i : Instance}
    (h : graph.instance? id = some i) : i ∈ graph.instances := by
  obtain ⟨object, hresolve, hi⟩ := Option.bind_eq_some_iff.mp h
  cases object with
  | classObject c => cases hi
  | «instance» i' =>
    cases hi
    exact mem_instances_of_resolve hresolve

section Sound

variable (sound : graph.Sound)
include sound

theorem Sound.inside {i : Instance} (hi : i ∈ graph.instances) :
    i.Inside graph.source graph.idWidth := by
  obtain ⟨location, hat⟩ := ObjectTable.mem_instances.mp hi
  exact sound.table.inside location i hat

theorem Sound.resolve_of_contains {id : Ident} (h : graph.contains id = true) :
    ∃ object, graph.resolve id = some object ∧ object.id = id := by
  have hsome := Std.TreeMap.contains_eq_isSome_getElem?.symm.trans h
  obtain ⟨location, hlocation⟩ := Option.isSome_iff_exists.mp hsome
  obtain ⟨object, hat, hid⟩ := sound.table.index id location hlocation
  exact ⟨object, ObjectTable.resolve_eq_some.mpr ⟨location, hlocation, hat⟩, hid⟩

theorem Sound.id_of_resolve {id : Ident} {object : HeapObject}
    (h : graph.resolve id = some object) : object.id = id := by
  obtain ⟨location, hlocation, hat⟩ := ObjectTable.resolve_eq_some.mp h
  obtain ⟨object', hat', hid⟩ := sound.table.index id location hlocation
  rw [hat] at hat'
  cases hat'
  exact hid

theorem Sound.resolve_of_layout {id : Ident} {layout : List LayoutField}
    (h : graph.layout? id = some layout) :
    ∃ object, graph.resolve id = some object ∧ object.id = id := by
  rw [layout?, sound.layouts] at h
  obtain ⟨c, hc, rfl, -⟩ := ObjectTable.getElem?_layouts h
  obtain ⟨location, hat⟩ := ObjectTable.mem_classes.mp hc
  exact sound.resolve_of_contains (sound.table.entered location _ hat)

/-- The check of sizes leaves out only those instances whose class cannot be looked up. -/
theorem Sound.not_undecodable_iff {i : PlainInstance} (hi : Instance.plain i ∈ graph.instances) :
    ¬graph.Undecodable i ↔ ∀ layout, graph.layout? i.classId = some layout →
      LayoutField.total graph.idWidth layout ≤ i.length.toNat := by
  constructor
  · intro hnot layout hlayout
    obtain ⟨object, hresolve, hid⟩ := sound.resolve_of_layout hlayout
    cases object with
    | classObject c =>
      have hclass : graph.class? i.classId = some c := by
        rw [ObjectTable.class?, hresolve]
        rfl
      have hroom := sound.sizes i hi c hclass
      rwa [show c.id = i.classId from hid, hlayout] at hroom
    | «instance» j =>
      exact Nat.not_lt.mp fun hshort => hnot ⟨⟨j, hresolve⟩, layout, hlayout, hshort⟩
  · rintro hroom ⟨-, layout, hlayout, hshort⟩
    exact Nat.not_lt.mpr (hroom layout hlayout) hshort

theorem Sound.fieldValues_ok_iff {i : PlainInstance} (hi : Instance.plain i ∈ graph.instances) :
    (∃ values, graph.fieldValues i = .ok values) ↔ ¬graph.Undecodable i := by
  rw [sound.not_undecodable_iff hi, fieldValues]
  split
  · next hnone =>
    refine ⟨fun _ layout h => ?_, fun _ => ⟨[], rfl⟩⟩
    rw [hnone] at h
    cases h
  · next layout hlayout =>
    obtain ⟨blob, hblob, hlength⟩ := sound.lawful.slice_ok (sound.inside hi)
    have hplace := hlayout
    rw [layout?, sound.layouts] at hplace
    obtain ⟨c, -, -, rfl⟩ := ObjectTable.getElem?_layouts hplace
    show (∃ values, (graph.source.slice i.offset i.length.toNat).bind _ = .ok values) ↔ _
    rw [hblob]
    show (∃ values, List.mapM (graph.fieldValue i blob) _ = .ok values) ↔ _
    simp only [exists_mapM_eq_ok, fieldValue_ok_iff, hlength, hlayout, Option.some.injEq,
      forall_eq']
    exact LayoutField.total_le_iff.symm

/-- The size of an instance has been checked if its class can be looked up. -/
theorem Sound.fieldValues_of_class? {i : PlainInstance} (hi : Instance.plain i ∈ graph.instances)
    {c : ClassObject} (hc : graph.class? i.classId = some c) :
    ∃ values, graph.fieldValues i = .ok values := by
  refine (sound.fieldValues_ok_iff hi).mpr ?_
  rintro ⟨⟨j, hj⟩, -⟩
  rw [ObjectTable.class?, hj] at hc
  cases hc

theorem Sound.resolvedValues_ok_iff {i : PlainInstance}
    (hi : Instance.plain i ∈ graph.instances) :
    (∃ values, graph.resolvedValues i = .ok values) ↔ ¬graph.Undecodable i :=
  exists_map_eq_ok.trans (sound.fieldValues_ok_iff hi)

/-! ### Arrays and strings -/

theorem Sound.elementBytes_ok {a : ArrayInstance} (ha : Instance.array a ∈ graph.instances) :
    ∃ elements, graph.elementBytes a = .ok elements := by
  rw [elementBytes]
  split
  · exact ⟨[], rfl⟩
  · next offset hoffset =>
    obtain ⟨contents, hcontents, -⟩ := sound.lawful.slice_ok (sound.inside ha offset hoffset)
    rw [hcontents]
    exact ⟨_, rfl⟩

theorem Sound.arrayValues_ok {a : ArrayInstance} (ha : Instance.array a ∈ graph.instances) :
    ∃ values, graph.arrayValues a = .ok values :=
  exists_map_eq_ok.mpr (sound.elementBytes_ok ha)

theorem Sound.arrayTargets_ok {a : ArrayInstance} (ha : Instance.array a ∈ graph.instances) :
    ∃ targets, graph.arrayTargets a = .ok targets := by
  rw [arrayTargets]
  split
  · exact ⟨[], rfl⟩
  · exact exists_map_eq_ok.mpr (sound.elementBytes_ok ha)

/-- A string is an instance of a class that can be looked up. -/
theorem Sound.stringValue_ok {i : Instance} (hi : i ∈ graph.instances) :
    ∃ text, graph.stringValue i = .ok text := by
  unfold stringValue
  split
  · exact ⟨none, rfl⟩
  · next i =>
    split
    · exact ⟨none, rfl⟩
    · next hstring =>
      have hclass : ∃ c, graph.class? i.classId = some c := by
        refine Option.ne_none_iff_exists'.mp fun hnone => hstring ?_
        rw [hnone]
        rfl
      obtain ⟨c, hc⟩ := hclass
      obtain ⟨values, hvalues⟩ := sound.fieldValues_of_class? hi hc
      rw [hvalues]
      dsimp only [bind, Except.bind, pure, Except.pure]
      split
      · exact ⟨none, rfl⟩
      · next a harray =>
        split
        · exact ⟨none, rfl⟩
        · exact ⟨none, rfl⟩
        · next offset hoffset _ =>
          have ha : Instance.array a ∈ graph.instances := by
            obtain ⟨value, -, harray⟩ := Option.bind_eq_some_iff.mp harray
            obtain ⟨target, -, harray⟩ := Option.bind_eq_some_iff.mp harray
            obtain ⟨i', hi', harray⟩ := Option.bind_eq_some_iff.mp harray
            cases i' with
            | plain i' => cases harray
            | array a' =>
              cases harray
              exact mem_instances_of_instance? hi'
          obtain ⟨bytes, hbytes, -⟩ := sound.lawful.slice_ok (sound.inside ha offset hoffset)
          rw [hbytes]
          exact ⟨_, rfl⟩

/-! ### References and what follows them -/

theorem Sound.references_ok_iff (id : Ident) :
    (∃ ids, graph.references id = .ok ids) ↔ ¬graph.Broken id := by
  unfold references
  split
  · next hnone =>
    refine ⟨?_, fun _ => ⟨[], rfl⟩⟩
    rintro - ⟨i, hi, -⟩
    rw [hnone] at hi
    cases hi
  · next object hresolve =>
    rw [exists_map_eq_ok]
    have hbroken : graph.Broken id ↔
        ∃ i, object = .instance (.plain i) ∧ graph.Undecodable i := by
      unfold Broken
      simp only [hresolve, Option.some.injEq]
    rw [hbroken]
    cases object with
    | classObject c => exact ⟨fun _ => by simp, fun _ => ⟨_, rfl⟩⟩
    | «instance» i =>
      have hi := mem_instances_of_resolve hresolve
      cases i with
      | plain i =>
        simp only [HeapObject.instance.injEq, Instance.plain.injEq, exists_eq_left', targets]
        exact exists_map_eq_ok.trans (sound.fieldValues_ok_iff hi)
      | array a =>
        refine ⟨fun _ => by simp, fun _ => ?_⟩
        exact exists_map_eq_ok.mpr (sound.arrayTargets_ok hi)

theorem Sound.total_iff :
    graph.rooted.Total ↔ ∀ id, graph.rooted.Reachable id → ¬graph.Broken id :=
  forall_congr' fun id => imp_congr_right fun _ => sound.references_ok_iff id

theorem Sound.dominators_ok_iff :
    (∃ tree, graph.dominators = .ok tree) ↔
      ∀ id, graph.rooted.Reachable id → ¬graph.Broken id :=
  exists_map_eq_ok.trans (Traversal.ofGraph_ok_iff.trans sound.total_iff)

theorem Sound.retainedSizes_ok_iff :
    (∃ sizes, graph.retainedSizes = .ok sizes) ↔
      ∀ id, graph.rooted.Reachable id → ¬graph.Broken id :=
  exists_map_eq_ok.trans sound.dominators_ok_iff

end Sound

end ObjectGraph

end HeapDump

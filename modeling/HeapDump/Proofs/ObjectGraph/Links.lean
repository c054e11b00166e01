import HeapDump.Proofs.ObjectGraph.Acceptance
import HeapDump.Proofs.ObjectGraph.Filing

/-! Links in both directions.  An object names its superclass or its class by identifier, and a class lists
its subclasses and instances.  The lists are filled in one pass over the objects, and yet they say the
same as the names: the class that an identifier stands for lists just the objects that resolve to it, in
the order of the heaps, and a class behind another object with its identifier lists none.  A primitive
array names no class; it belongs to the class found by one of the two names of its type. -/

namespace HeapDump

/-! ### Members -/

namespace Links

theorem members_ofPairs (pairs : List (Ident × Ident)) (key : Ident) :
    (ofPairs pairs).members key = (pairs.filter (·.1 = key)).map (·.2) := by
  unfold ofPairs members
  induction pairs using List.reverseRecOn with
  | nil => simp
  | append_singleton pairs pair ih =>
    obtain ⟨classId, member⟩ := pair
    rw [List.foldl_append, List.foldl_cons, List.foldl_nil, Std.TreeMap.getD_insert,
      List.filter_append, List.map_append, ← ih]
    by_cases hkey : classId = key
    · simp [hkey]
    · simp [hkey]

/-- The members of a key are those that have it. -/
theorem members_filterMap {α : Type} (items : List α) (key? : α → Option Ident) (id : α → Ident)
    (key : Ident) :
    (ofPairs (items.filterMap fun a => (key? a).map (·, id a))).members key =
      (items.filter fun a => key? a = some key).map id := by
  rw [members_ofPairs]
  induction items with
  | nil => rfl
  | cons a items ih =>
    rw [List.filterMap_cons, List.filter_cons]
    cases hkey : key? a with
    | none => simpa using ih
    | some k =>
      by_cases heq : k = key
      · simp [heq, ih]
      · simp [heq, ih]

end Links

namespace ObjectTable

variable {source : ByteSource} {width : IdWidth} {table : ObjectTable}

/-! ### What linking keeps -/

theorem instances_link (table : ObjectTable) :
    table.link.instances = table.instances.map table.assignClass := by
  have hheaps : table.link.heaps.toList.map (·.instances.toList) =
      table.heaps.toList.map fun heap => heap.instances.toList.map table.assignClass := by
    refine List.ext_getElem? fun i => ?_
    simp only [link, List.getElem?_map, Array.getElem?_toList, Array.getElem?_mapIdx, Option.map_map]
    exact congrArg (Option.map · _) (funext fun heap => Array.toList_map)
  rw [instances, instances, List.flatMap_def, hheaps, List.map_flatMap, List.flatMap_def]

/-- What the links of a class do not change is the same for all classes. -/
theorem map_classes_link (table : ObjectTable) {β : Type} (g : ClassObject → β)
    (hg : ∀ location c, g (table.linkClass location c) = g c) :
    table.link.classes.map g = table.classes.map g := by
  have hheaps : table.link.heaps.toList.map (·.classes.toList.map g) =
      table.heaps.toList.map (·.classes.toList.map g) := by
    refine List.ext_getElem? fun i => ?_
    simp only [link, List.getElem?_map, Array.getElem?_toList, Array.getElem?_mapIdx, Option.map_map]
    refine congrArg (Option.map · _) (funext fun heap => ?_)
    refine List.ext_getElem? fun j => ?_
    simp only [Function.comp_apply, List.getElem?_map, Array.getElem?_toList, Array.getElem?_mapIdx,
      Option.map_map]
    exact congrArg (Option.map · _) (funext fun c => hg ⟨i, .classSlot j⟩ c)
  rw [classes, classes, List.map_flatMap, List.map_flatMap, List.flatMap_def, hheaps,
    ← List.flatMap_def]

theorem isSome_class?_link (table : ObjectTable) (id : Ident) :
    (table.link.class? id).isSome = (table.class? id).isSome := by
  have hclass : ∀ location, ((table.link.at? location).bind HeapObject.class?).isSome =
      ((table.at? location).bind HeapObject.class?).isSome := by
    intro location
    rw [at?_link]
    cases table.at? location with
    | none => rfl
    | some object => cases object <;> rfl
  show (((table.index[id]?).bind table.link.at?).bind HeapObject.class?).isSome =
    (((table.index[id]?).bind table.at?).bind HeapObject.class?).isSome
  cases table.index[id]? with
  | none => rfl
  | some location => exact hclass location

/-! ### Forward links -/

/-- An identifier stands for a class that is found under its own just if it is that identifier. -/
theorem bind_class?_eq_some (consistent : table.Consistent source width) {c : ClassObject}
    (hc : table.class? c.id = some c) {id? : Option Ident} :
    id?.bind table.class? = some c ↔ id? = some c.id := by
  constructor
  · intro h
    obtain ⟨id, rfl, hclass⟩ := Option.bind_eq_some_iff.mp h
    rw [id_of_class? consistent hclass]
  · rintro rfl
    exact hc

theorem presentClass?_eq_some {i : Instance} {id : Ident} :
    table.presentClass? i = some id ↔
      table.namedClass? i = some id ∧ (table.class? id).isSome := by
  show (table.namedClass? i).bind _ = some id ↔ _
  rw [Option.bind_eq_some_iff]
  constructor
  · rintro ⟨named, hnamed, hpresent⟩
    split at hpresent
    · next hsome =>
      cases hpresent
      exact ⟨hnamed, hsome⟩
    · cases hpresent
  · rintro ⟨hnamed, hsome⟩
    exact ⟨id, hnamed, by rw [if_pos hsome]⟩

/-- No primitive array has a class yet. -/
def Unassigned (table : ObjectTable) : Prop :=
  ∀ a type, Instance.array a ∈ table.instances → a.elementType = .primitive type → a.classId = none

/-- The class of an instance, once it is assigned, is the one that it names, if the dump holds it. -/
theorem classId?_assignClass (hunassigned : table.Unassigned) {i : Instance}
    (hi : i ∈ table.instances) {id : Ident} (hid : (table.class? id).isSome) :
    (table.assignClass i).classId? = some id ↔ table.namedClass? i = some id := by
  cases i with
  | plain i => exact Iff.rfl
  | array a =>
    unfold assignClass
    cases hpresent : table.presentClass? (.array a) with
    | some named =>
      rw [(presentClass?_eq_some.mp hpresent).1]
      exact Iff.rfl
    | none =>
      have hnot : table.namedClass? (.array a) ≠ some id := by
        intro hnamed
        rw [presentClass?_eq_some.mpr ⟨hnamed, hid⟩] at hpresent
        cases hpresent
      refine iff_of_false (fun hclass => hnot ?_) hnot
      change a.classId = some id at hclass
      rw [namedClass?]
      split
      · exact hclass
      · next type htype =>
        rw [hunassigned a type hi htype] at hclass
        cases hclass

/-! ### Back links -/

theorem subclasses_eq (consistent : table.Consistent source width) {c : ClassObject}
    (hc : table.link.class? c.id = some c) :
    (Links.ofPairs table.subclassPairs).members c.id =
      (table.link.classes.filter fun d => table.link.superclass? d = some c).map (·.id) := by
  -- On both sides the subclasses are those that name the identifier of the class.
  have hnames : ∀ d, (table.superclass? d).map (·.id) = some c.id ↔ d.superclass = some c.id := by
    intro d
    have hfound : (table.class? c.id).isSome := by
      rw [← isSome_class?_link, hc]
      rfl
    constructor
    · intro h
      obtain ⟨s, hs, hid⟩ := Option.map_eq_some_iff.mp h
      obtain ⟨id, hd, hclass⟩ := Option.bind_eq_some_iff.mp hs
      rw [hd, ← hid, id_of_class? consistent hclass]
    · intro h
      obtain ⟨s, hs⟩ := Option.isSome_iff_exists.mp hfound
      rw [superclass?, h]
      show (table.class? c.id).map (·.id) = some c.id
      rw [hs, ← id_of_class? consistent hs]
      rfl
  have hlinked : ∀ d, table.link.superclass? d = some c ↔ d.superclass = some c.id :=
    fun d => bind_class?_eq_some consistent.link hc
  have hpairs : table.subclassPairs =
      table.classes.filterMap fun d => ((table.superclass? d).map (·.id)).map (·, d.id) := by
    simp only [subclassPairs, Option.map_map]
    rfl
  have hkept := map_classes_link table (fun d => (d.superclass, d.id)) fun location d => by
    unfold linkClass
    split <;> rfl
  have hfilter : ∀ classes : List ClassObject,
      (classes.filter fun d => d.superclass = some c.id).map (·.id) =
        ((classes.map fun d => (d.superclass, d.id)).filter fun d => d.1 = some c.id).map (·.2) := by
    intro classes
    rw [List.filter_map, List.map_map]
    rfl
  rw [hpairs, Links.members_filterMap]
  simp only [hnames, hlinked]
  rw [hfilter, hfilter, hkept]

theorem instances_eq (consistent : table.Consistent source width) (hunassigned : table.Unassigned)
    {c : ClassObject} (hc : table.link.class? c.id = some c) :
    (Links.ofPairs table.instancePairs).members c.id =
      (table.link.instances.filter fun i => table.link.classOf? i = some c).map (·.id) := by
  have hfound : (table.class? c.id).isSome := by
    rw [← isSome_class?_link, hc]
    rfl
  rw [instancePairs, Links.members_filterMap, instances_link, List.filter_map, List.map_map]
  have hids : Instance.id ∘ table.assignClass = Instance.id :=
    funext fun i => id_assignClass table i
  rw [hids]
  refine congrArg (List.map Instance.id) (List.filter_congr fun i hi => ?_)
  refine decide_eq_decide.mpr ?_
  show _ ↔ (table.assignClass i).classId?.bind table.link.class? = some c
  rw [bind_class?_eq_some consistent.link hc, classId?_assignClass hunassigned hi hfound,
    presentClass?_eq_some]
  exact and_iff_left hfound

/-! ### Distinct identifiers -/

/-- The identifiers of all classes and instances. -/
def ids (table : ObjectTable) : List Ident :=
  table.classes.map (·.id) ++ table.instances.map (·.id)

/-- If no two objects share an identifier, each is the one that its identifier stands for. -/
theorem resolve_of_at? (consistent : table.Consistent source width) (hdistinct : table.ids.Nodup)
    {location : Location} {object : HeapObject} (h : table.at? location = some object) :
    table.resolve object.id = some object := by
  obtain ⟨hclasses, hinstances, hdisjoint⟩ := List.nodup_append'.mp hdistinct
  have hentered : object.id ∈ table.index := consistent.entered location object h
  obtain ⟨location', hlocation⟩ :=
    Option.isSome_iff_exists.mp (Std.TreeMap.mem_iff_isSome_getElem?.mp hentered)
  obtain ⟨found, hat, hid⟩ := consistent.index object.id location' hlocation
  rw [resolve_eq_some.mpr ⟨location', hlocation, hat⟩]
  cases object with
  | classObject c =>
    have hc : c ∈ table.classes := mem_classes.mpr ⟨location, h⟩
    cases found with
    | classObject c' =>
      have hc' : c' ∈ table.classes := mem_classes.mpr ⟨location', hat⟩
      rw [List.inj_on_of_nodup_map hclasses hc' hc hid]
    | «instance» i' =>
      have hshared : i'.id = c.id := hid
      have hi' := List.mem_map_of_mem (f := Instance.id) (mem_instances.mpr ⟨location', hat⟩)
      rw [hshared] at hi'
      exact absurd hi' (hdisjoint (List.mem_map_of_mem hc))
  | «instance» i =>
    have hi : i ∈ table.instances := mem_instances.mpr ⟨location, h⟩
    cases found with
    | classObject c' =>
      have hshared : c'.id = i.id := hid
      have hc' := List.mem_map_of_mem (f := ClassObject.id) (mem_classes.mpr ⟨location', hat⟩)
      rw [hshared] at hc'
      exact absurd (List.mem_map_of_mem hi) (hdisjoint hc')
    | «instance» i' =>
      have hi' : i' ∈ table.instances := mem_instances.mpr ⟨location', hat⟩
      rw [List.inj_on_of_nodup_map hinstances hi' hi hid]

theorem class?_of_mem (consistent : table.Consistent source width) (hdistinct : table.ids.Nodup)
    {c : ClassObject} (hc : c ∈ table.classes) : table.class? c.id = some c := by
  obtain ⟨location, hat⟩ := mem_classes.mp hc
  rw [class?, show table.resolve c.id = _ from resolve_of_at? consistent hdistinct hat]
  rfl

theorem classByName?_eq (consistent : table.Consistent source width) (hdistinct : table.ids.Nodup)
    (name : String) : table.classByName? name = table.classes.find? (·.name = name) := by
  show (table.classes.find? (·.name = name)).bind (fun c => table.class? c.id) = _
  cases hfind : table.classes.find? (·.name = name) with
  | none => rfl
  | some c => exact class?_of_mem consistent hdistinct (List.mem_of_find?_eq_some hfind)

theorem map_find?_link (table : ObjectTable) (name : String) :
    (table.link.classes.find? (·.name = name)).map (·.id) =
      (table.classes.find? (·.name = name)).map (·.id) := by
  have hpairs : ∀ classes : List ClassObject, (classes.find? (·.name = name)).map (·.id) =
      ((classes.map fun c => (c.name, c.id)).find? (·.1 = name)).map (·.2) := by
    intro classes
    rw [List.find?_map, Option.map_map]
    rfl
  have hkept := map_classes_link table (fun c => (c.name, c.id)) fun location c => by
    unfold linkClass
    split <;> rfl
  rw [hpairs, hpairs, hkept]

theorem findSome?_arrayClassNames {α : Type} (type : PrimitiveType) (f : String → Option α) :
    type.arrayClassNames.findSome? f =
      (f (type.javaName ++ "[]")).or (f ("[" ++ type.descriptor.toString)) := by
  simp only [PrimitiveType.arrayClassNames, List.findSome?_cons, List.findSome?_nil]
  cases f (type.javaName ++ "[]") <;> cases f ("[" ++ type.descriptor.toString) <;> rfl

/-- A primitive array belongs to the class found by the first name of its type that one has. -/
theorem classOf?_primitive (consistent : table.Consistent source width)
    (hunassigned : table.Unassigned) (hdistinct : table.link.ids.Nodup) {a : ArrayInstance}
    {type : PrimitiveType} (ha : Instance.array a ∈ table.link.instances)
    (htype : a.elementType = .primitive type) :
    table.link.classOf? (.array a) = type.arrayClassNames.findSome? table.link.classByName? := by
  rw [instances_link] at ha
  obtain ⟨i, hi, hassigned⟩ := List.mem_map.mp ha
  obtain ⟨b, rfl, hb⟩ : ∃ b, i = .array b ∧ b.elementType = .primitive type := by
    unfold assignClass at hassigned
    split at hassigned
    · cases hassigned
      exact ⟨_, rfl, htype⟩
    · exact ⟨a, hassigned, htype⟩
  have hnamed : table.namedClass? (.array b) =
      (type.arrayClassNames.findSome? table.link.classByName?).map (·.id) := by
    rw [namedClass?, hb, List.map_findSome?]
    refine congrArg (type.arrayClassNames.findSome? ·) (funext fun name => ?_)
    rw [Function.comp_apply, classByName?_eq consistent.link hdistinct, map_find?_link]
  cases hfound : type.arrayClassNames.findSome? table.link.classByName? with
  | none =>
    rw [hfound] at hnamed
    have hnone : table.presentClass? (.array b) = none := by
      show (table.namedClass? (.array b)).bind _ = none
      rw [hnamed]
      rfl
    unfold assignClass at hassigned
    rw [hnone] at hassigned
    cases hassigned
    show a.classId.bind table.link.class? = none
    rw [hunassigned a type hi hb]
    rfl
  | some c =>
    rw [hfound] at hnamed
    obtain ⟨name, -, hname⟩ := List.exists_of_findSome?_eq_some hfound
    rw [classByName?_eq consistent.link hdistinct] at hname
    have hc := class?_of_mem consistent.link hdistinct (List.mem_of_find?_eq_some hname)
    have hpresent : table.presentClass? (.array b) = some c.id := by
      refine presentClass?_eq_some.mpr ⟨hnamed, ?_⟩
      rw [← isSome_class?_link, hc]
      rfl
    unfold assignClass at hassigned
    rw [hpresent] at hassigned
    cases hassigned
    exact hc

/-- Each heap holds the objects read while it is current, in that order. -/
def InReadOrder (table : ObjectTable) (objects : List (UInt32 × CensusObject)) : Prop :=
  ∀ heap ∈ table.heaps,
    heap.classes.toList.map (·.id) =
      (objectsOf heap.id objects).filterMap (fun object => object.classDump?.map (·.id)) ∧
    heap.instances.toList.map (·.id) =
      (objectsOf heap.id objects).filterMap (fun object => object.instance?.map (·.id))

end ObjectTable

/-! ### Censuses -/

namespace Census

variable {source : ByteSource} {width : IdWidth} {census : Census}
  {objects : List (UInt32 × CensusObject)}

theorem mem_instances_table {i : Instance} :
    i ∈ census.table.instances ↔ ∃ location, census.at? location = some (.instance i) := by
  rw [ObjectTable.mem_instances]
  refine exists_congr fun location => ?_
  rw [at?_table, Option.map_eq_some_iff]
  constructor
  · rintro ⟨object, hobject, heq⟩
    cases object with
    | classDump dump => cases heq
    | «instance» j =>
      cases heq
      exact hobject
  · exact fun h => ⟨_, h, rfl⟩

theorem Filed.unassigned (h : Filed objects census)
    (hread : ∀ entry ∈ objects, ∃ subRecord : SubRecord,
      subRecord.object? entry.1 = some entry.2) : census.table.Unassigned := by
  intro a type ha htype
  obtain ⟨heapId, hmem⟩ := h.at?_iff.mp (mem_instances_table.mp ha)
  obtain ⟨subRecord, hobject⟩ : ∃ subRecord : SubRecord,
      subRecord.object? heapId = some (.instance (.array a)) := hread _ hmem
  cases subRecord with
  | primitiveArray dump =>
    cases hobject
    rfl
  | objectArray dump =>
    cases hobject
    cases htype
  | _ => cases hobject

theorem Filed.inReadOrder (h : Filed objects census) : census.table.link.InReadOrder objects := by
  intro heap hheap
  obtain ⟨i, hi⟩ := Array.mem_iff_getElem?.mp hheap
  simp only [ObjectTable.link, Census.table, Array.getElem?_mapIdx, Array.getElem?_map,
    Option.map_map] at hi
  obtain ⟨counted, hcounted, rfl⟩ := Option.map_eq_some_iff.mp hi
  have hholds := h.holds counted (Array.mem_of_getElem? hcounted)
  constructor
  · have hids : (((counted.classes.map (census.classObject counted.id)).mapIdx fun j =>
        census.table.linkClass ⟨i, .classSlot j⟩).toList.map (·.id)) =
        counted.classes.toList.map (·.id) := by
      refine List.ext_getElem? fun j => ?_
      simp only [List.getElem?_map, Array.getElem?_toList, Array.getElem?_mapIdx,
        Array.getElem?_map, Option.map_map]
      exact congrArg (Option.map · _) (funext fun dump => ObjectTable.id_linkClass _ _ _)
    rw [hholds.classes, List.map_filterMap] at hids
    exact hids
  · have hids : (counted.instances.map census.table.assignClass).toList.map (·.id) =
        counted.instances.toList.map (·.id) := by
      rw [Array.toList_map, List.map_map]
      exact List.map_congr_left fun j _ => ObjectTable.id_assignClass _ j
    rw [hholds.instances, List.map_filterMap] at hids
    exact hids

/-- The class that an identifier stands for lists just the objects that resolve to it, and a class behind
another object with its identifier lists none. -/
theorem Consistent.back_links (consistent : census.Consistent source width)
    (hunassigned : census.table.Unassigned) {location : Location} {c : ClassObject}
    (hat : census.table.link.at? location = some (.classObject c)) :
    let table := census.table.link
    (table.index[c.id]? = some location →
      c.instances = (table.instances.filter fun i => table.classOf? i = some c).map (·.id) ∧
      c.subclasses = (table.classes.filter fun d => table.superclass? d = some c).map (·.id)) ∧
    (table.index[c.id]? ≠ some location → c.instances = [] ∧ c.subclasses = []) := by
  intro table
  have hlinked := hat
  rw [ObjectTable.at?_link, at?_table, Option.map_map] at hlinked
  obtain ⟨object, -, hobject⟩ := Option.map_eq_some_iff.mp hlinked
  cases object with
  | «instance» i => cases hobject
  | classDump dump =>
    obtain ⟨bare, hbare, hc⟩ : ∃ bare : ClassObject, (bare.instances = [] ∧ bare.subclasses = []) ∧
        census.table.linkClass location bare = c :=
      ⟨_, ⟨rfl, rfl⟩, HeapObject.classObject.inj hobject⟩
    have hid : c.id = bare.id := by rw [← hc, ObjectTable.id_linkClass]
    refine ⟨fun hindexed => ?_, fun hshadowed => ?_⟩
    · have hfound : table.class? c.id = some c :=
        ObjectTable.class?_eq_some.mpr ⟨location, hindexed, hat⟩
      have hlists : c.instances = (Links.ofPairs census.table.instancePairs).members c.id ∧
          c.subclasses = (Links.ofPairs census.table.subclassPairs).members c.id := by
        have hplace : census.table.isIndexed location bare.id = true := by
          rw [← hid]
          exact decide_eq_true hindexed
        rw [hid, ← hc, ObjectTable.linkClass, if_pos hplace]
        exact ⟨rfl, rfl⟩
      rw [hlists.1, hlists.2]
      exact ⟨ObjectTable.instances_eq consistent.table hunassigned hfound,
        ObjectTable.subclasses_eq consistent.table hfound⟩
    · have hplace : ¬census.table.isIndexed location bare.id = true := by
        rw [← hid]
        exact fun h => hshadowed (of_decide_eq_true h)
      rw [← hc, ObjectTable.linkClass, if_neg hplace]
      exact hbare

end Census

namespace ObjectGraph

/-- The links of an accepted dump.  The list of classes and the list of instances go heap by heap. -/
theorem links_of_accepted (file : ByteArray) (graph : ObjectGraph)
    (h : read (.ofBytes file) = .ok graph) :
    (∀ location c, graph.at? location = some (.classObject c) →
      (graph.index[c.id]? = some location →
        c.instances = (graph.instances.filter fun i => graph.classOf? i = some c).map (·.id) ∧
        c.subclasses = (graph.classes.filter fun d => graph.superclass? d = some c).map (·.id)) ∧
      (graph.index[c.id]? ≠ some location → c.instances = [] ∧ c.subclasses = [])) ∧
    graph.InReadOrder
      (Census.objectsOfEntries (Entry.list (.ofBytes file) graph.header).items) ∧
    (graph.ids.Nodup → ∀ a type, Instance.array a ∈ graph.instances →
      a.elementType = .primitive type →
      graph.classOf? (.array a) = (graph.classByName? (type.javaName ++ "[]")).or
        (graph.classByName? ("[" ++ type.descriptor.toString))) := by
  have lawful := ByteSource.lawful_ofBytes file
  obtain ⟨header, -, -, -, rfl⟩ := exists_of_read lawful h
  have hconsistent := Census.ofEntries_consistent (Entry.list_inside lawful header)
  obtain ⟨hfiled, -⟩ := Census.filed_ofEntries (Entry.list (.ofBytes file) header).items
  have hunassigned := hfiled.unassigned fun entry hentry => by
    obtain ⟨subRecord, -, hobject⟩ := SubRecord.mem_objects hentry
    exact ⟨subRecord, hobject⟩
  refine ⟨fun location c hat => hconsistent.back_links hunassigned hat, hfiled.inReadOrder, ?_⟩
  intro hdistinct a type ha htype
  rw [show (ofDump (.ofBytes file) header).classOf? (.array a) = _ from
    ObjectTable.classOf?_primitive hconsistent.table hunassigned hdistinct ha htype]
  exact ObjectTable.findSome?_arrayClassNames type _

/-- Instances of a class lie before it in another heap, and two classes have names for arrays of integers. -/
def spread : ByteArray :=
  (Draft.toBytes ⟨"JAVA PROFILE 1.0.2", .four, 0,
    [.text ⟨100⟩ "[I", .text ⟨101⟩ "int[]", .loadClass ⟨1, ⟨3⟩, 0, ⟨100⟩⟩,
      .loadClass ⟨2, ⟨4⟩, 0, ⟨101⟩⟩,
      .heapDump [.classDump ⟨1⟩ none 0 [] [] [], .instance ⟨16⟩ ⟨2⟩ [],
        .primitiveArray ⟨17⟩ .int [.int 7], .classDump ⟨3⟩ (some ⟨1⟩) 0 [] [] []],
      .segment [.heapSwitch 65 ⟨102⟩, .classDump ⟨2⟩ (some ⟨1⟩) 0 [] [] [],
        .classDump ⟨4⟩ (some ⟨2⟩) 0 [] [] [], .instance ⟨18⟩ ⟨2⟩ []]]⟩).toByteArray

theorem links_of_accepted_spread :
    ∃ graph c a, read (.ofBytes spread) = .ok graph ∧
      (graph.at? ⟨1, .classSlot 0⟩ = some (.classObject c) ∧
        graph.index[c.id]? = some ⟨1, .classSlot 0⟩ ∧
        c.instances = (graph.instances.filter fun i => graph.classOf? i = some c).map (·.id) ∧
        c.subclasses = (graph.classes.filter fun d => graph.superclass? d = some c).map (·.id)) ∧
      graph.ids.Nodup ∧ Instance.array a ∈ graph.instances ∧ a.elementType = .primitive .int ∧
      graph.classOf? (.array a) = (graph.classByName? ("int" ++ "[]")).or
        (graph.classByName? ("[" ++ 'I'.toString)) := by
  have hread : ((read (.ofBytes spread)).toOption.any fun graph =>
      ((graph.at? ⟨1, .classSlot 0⟩).any fun object => object.class?.any fun c =>
        graph.index[c.id]? = some ⟨1, .classSlot 0⟩) && decide graph.ids.Nodup &&
      graph.instances.any fun i => i.array?.any fun a => a.elementType = .primitive .int) = true := by
    decide +kernel
  obtain ⟨graph, hgraph, hfacts⟩ := exists_of_any hread
  simp only [Bool.and_eq_true, decide_eq_true_eq, Option.any_eq_true, List.any_eq_true] at hfacts
  obtain ⟨⟨⟨object, hat, c, hc, hindex⟩, hdistinct⟩, i, hi, a, ha, htype⟩ := hfacts
  obtain rfl : object = .classObject c := by
    cases object with
    | classObject d =>
      cases hc
      rfl
    | «instance» j => cases hc
  obtain rfl : i = .array a := by
    cases i with
    | plain j => cases ha
    | array b =>
      cases ha
      rfl
  obtain ⟨hlinks, -, harrays⟩ := links_of_accepted spread graph hgraph
  obtain ⟨hinstances, hsubclasses⟩ := (hlinks _ c hat).1 hindex
  exact ⟨graph, c, a, hgraph, ⟨hat, hindex, hinstances, hsubclasses⟩, hdistinct, hi, htype,
    harrays hdistinct a .int hi htype⟩

end ObjectGraph

end HeapDump

import HeapDump.Proofs.ObjectGraph.Heaps

/-! Classes by name.  A lookup goes through the heaps in the order in which the dump first switches to them,
and through the classes of each heap in the order in which they were read.  So of the classes with one
name it finds the one read first, unless another of them was read later, into a heap of an earlier
place. -/

namespace HeapDump

/-! ### Searches key by key -/

section Keys

variable {α κ : Type} [DecidableEq κ] {key : α → κ} {p : α → Bool} {items : List α} {keys : List κ}

theorem findSome?_keys_eq_none (hkeys : ∀ a ∈ items, key a ∈ keys) :
    (keys.findSome? fun k => items.find? fun a => key a = k ∧ p a) = none ↔ ∀ a ∈ items, ¬p a := by
  simp only [List.findSome?_eq_none_iff, List.find?_eq_none, decide_eq_true_eq, not_and]
  exact ⟨fun h a ha => h (key a) (hkeys a ha) a ha rfl, fun h k _ a ha _ => h a ha⟩

/-- Going through items key by key finds the first one of all just if no other one has an earlier key. -/
theorem findSome?_keys_eq_find? (hkeys : ∀ a ∈ items, key a ∈ keys) :
    (keys.findSome? fun k => items.find? fun a => key a = k ∧ p a) = items.find? p ↔
      ∀ first a, items.find? p = some first → a ∈ items → p a →
        keys.idxOf (key first) ≤ keys.idxOf (key a) := by
  cases hfind : items.find? p with
  | none =>
    rw [findSome?_keys_eq_none hkeys, ← List.find?_eq_none]
    simp [hfind]
  | some first =>
    obtain ⟨hfirst, before, after, rfl, hbefore⟩ := List.find?_eq_some_iff_append.mp hfind
    obtain ⟨front, back, rfl, hnew⟩ :=
      List.eq_append_cons_of_mem (hkeys first (List.mem_append_right _ List.mem_cons_self))
    have hself : (before ++ first :: after).find? (fun a => key a = key first ∧ p a) = some first := by
      refine List.find?_eq_some_iff_append.mpr
        ⟨by simpa using hfirst, before, after, rfl, fun b hb => ?_⟩
      have hnot : p b = false := by simpa using hbefore b hb
      simp [hnot]
    have hplace : ∀ a, (front ++ key first :: back).idxOf (key first) ≤
        (front ++ key first :: back).idxOf (key a) ↔ key a ∉ front := by
      intro a
      rw [List.idxOf_append_of_notMem hnew, List.idxOf_cons_self, List.idxOf_append]
      split
      · next hmem => simpa [hmem] using List.idxOf_lt_length_of_mem hmem
      · next hmem => simp [hmem]
    rw [List.findSome?_append, List.findSome?_cons, hself]
    -- The first one is found unless some item has a key in front of its key.
    cases hfront : front.findSome? fun k =>
        (before ++ first :: after).find? fun a => key a = k ∧ p a with
    | none =>
      refine iff_of_true rfl fun c a hc ha hp => ?_
      cases hc
      refine (hplace a).mpr fun hmem => ?_
      have hnone := List.find?_eq_none.mp (List.findSome?_eq_none_iff.mp hfront _ hmem) a ha
      exact hnone (by simpa using hp)
    | some b =>
      obtain ⟨k, hk, hb⟩ := List.exists_of_findSome?_eq_some hfront
      have hkey : key b = k ∧ p b := by simpa using List.find?_some hb
      rw [← hkey.1] at hk
      refine iff_of_false ?_ fun h => ?_
      · rintro ⟨⟩
        exact hnew hk
      · exact (hplace b).mp (h first b rfl (List.mem_of_find?_eq_some hb) hkey.2) hk

end Keys

/-! ### Class dumps -/

namespace SubRecord

def classDump? : SubRecord → Option ClassDump
  | .classDump dump => some dump
  | _ => none

theorem classDump?_object? (subRecord : SubRecord) (heapId : UInt32) :
    (subRecord.object? heapId).bind (·.classDump?) = subRecord.classDump? := by
  cases subRecord <;> rfl

theorem filterMap_classDump?_objects (heapId : UInt32) (subRecords : List SubRecord) :
    (objects heapId subRecords).filterMap (·.2.classDump?) = subRecords.filterMap (·.classDump?) := by
  induction subRecords generalizing heapId with
  | nil => rfl
  | cons subRecord subRecords ih =>
    rw [objects, List.filterMap_append, ih, List.filterMap_cons, ← subRecord.classDump?_object? heapId]
    cases subRecord.object? heapId with
    | none => rfl
    | some object => cases object <;> rfl

end SubRecord

/-! ### Classes heap by heap -/

namespace ObjectTable

variable {table : ObjectTable} {objects : List (UInt32 × CensusObject)}

/-- The classes that some class dumps stand for, in the order of the dumps. -/
def classesOf (table : ObjectTable) (dumps : List ClassDump) : List ClassObject :=
  dumps.filterMap fun dump => table.class? dump.id

/-- Every class is found, under its identifier or by its name, and lies where it was read. -/
structure ClassesFiled (table : ObjectTable) (objects : List (UInt32 × CensusObject)) : Prop where
  found : ∀ c ∈ table.classes, table.class? c.id = some c
  named : ∀ name, table.classByName? name = table.classes.find? (·.name = name)
  order : table.InReadOrder objects
  known : ∀ entry ∈ objects, ∃ heap ∈ table.heaps, heap.id = entry.1
  heapId : ∀ heap ∈ table.heaps, ∀ c ∈ heap.classes, c.heapId = heap.id

namespace ClassesFiled

variable (filed : table.ClassesFiled objects)
include filed

theorem found_in {heap : Heap} (hheap : heap ∈ table.heaps) {c : ClassObject}
    (hc : c ∈ heap.classes.toList) : table.class? c.id = some c :=
  filed.found c (List.mem_flatMap.mpr ⟨heap, Array.mem_toList_iff.mpr hheap, hc⟩)

theorem classes_heap {heap : Heap} (hheap : heap ∈ table.heaps) :
    heap.classes.toList = table.classesOf ((objectsOf heap.id objects).filterMap (·.classDump?)) := by
  have hself : (heap.classes.toList.map (·.id)).filterMap table.class? = heap.classes.toList := by
    rw [List.filterMap_map]
    exact (List.filterMap_congr fun c hc => filed.found_in hheap hc).trans List.filterMap_some
  rw [← hself, (filed.order heap hheap).1, classesOf, List.filterMap_filterMap,
    List.filterMap_filterMap]
  refine List.filterMap_congr fun object _ => ?_
  cases object <;> rfl

/-- A class dump has its class, in the heap that was current. -/
theorem exists_class {entry : UInt32 × CensusObject} (hentry : entry ∈ objects) {dump : ClassDump}
    (hdump : entry.2.classDump? = some dump) :
    ∃ c, table.class? dump.id = some c ∧ c.id = dump.id ∧ c.heapId = entry.1 := by
  obtain ⟨heap, hheap, hid⟩ := filed.known entry hentry
  have hids : dump.id ∈ heap.classes.toList.map (·.id) := by
    rw [(filed.order heap hheap).1, hid]
    refine List.mem_filterMap.mpr ⟨entry.2, mem_objectsOf.mpr hentry, ?_⟩
    rw [hdump, Option.map_some]
  obtain ⟨c, hc, hcid⟩ := List.mem_map.mp hids
  refine ⟨c, ?_, hcid, ?_⟩
  · rw [← hcid]
    exact filed.found_in hheap hc
  · rw [filed.heapId heap hheap c (Array.mem_toList_iff.mp hc), hid]

theorem map_id_classesOf :
    (table.classesOf (objects.filterMap (·.2.classDump?))).map (·.id) =
      (objects.filterMap (·.2.classDump?)).map (·.id) := by
  rw [classesOf, List.map_filterMap, ← List.filterMap_eq_map]
  refine List.filterMap_congr fun dump hdump => ?_
  obtain ⟨entry, hentry, hobject⟩ := List.mem_filterMap.mp hdump
  obtain ⟨c, hc, hid, -⟩ := filed.exists_class hentry hobject
  rw [hc, Option.map_some, hid]
  rfl

/-- Of the classes read, those in one heap are the ones read while it was current. -/
theorem filter_classesOf (heapId : UInt32) :
    (table.classesOf (objects.filterMap (·.2.classDump?))).filter (·.heapId = heapId) =
      table.classesOf ((objectsOf heapId objects).filterMap (·.classDump?)) := by
  have hclass : ∀ entry ∈ objects, ∀ dump, entry.2.classDump? = some dump →
      ∃ c, table.class? dump.id = some c ∧ c.id = dump.id ∧ c.heapId = entry.1 :=
    fun _ hentry _ hdump => filed.exists_class hentry hdump
  clear filed
  induction objects with
  | nil => rfl
  | cons entry objects ih =>
    have hrest := ih fun e he => hclass e (List.mem_cons_of_mem entry he)
    simp only [classesOf, objectsOf] at hrest ⊢
    cases hdump : entry.2.classDump? with
    | none => by_cases hentry : entry.1 = heapId <;> simp [hdump, hentry, hrest]
    | some dump =>
      obtain ⟨c, hc, -, hcurrent⟩ := hclass entry List.mem_cons_self dump hdump
      by_cases hentry : entry.1 = heapId <;> simp [hdump, hc, hcurrent, hentry, hrest]

theorem heapId_mem {c : ClassObject}
    (hc : c ∈ table.classesOf (objects.filterMap (·.2.classDump?))) :
    c.heapId ∈ table.heaps.toList.map (·.id) := by
  obtain ⟨dump, hdump, hfound⟩ := List.mem_filterMap.mp hc
  obtain ⟨entry, hentry, hobject⟩ := List.mem_filterMap.mp hdump
  obtain ⟨c', hc', -, hcurrent⟩ := filed.exists_class hentry hobject
  rw [hc'] at hfound
  cases hfound
  obtain ⟨heap, hheap, hid⟩ := filed.known entry hentry
  exact List.mem_map.mpr ⟨heap, Array.mem_toList_iff.mpr hheap, hid.trans hcurrent.symm⟩

theorem classes_eq_flatMap :
    table.classes = (table.heaps.toList.map (·.id)).flatMap fun heapId =>
      (table.classesOf (objects.filterMap (·.2.classDump?))).filter (·.heapId = heapId) := by
  rw [classes, List.flatMap_map]
  refine List.flatMap_congr fun heap hheap => ?_
  rw [filed.filter_classesOf, filed.classes_heap (Array.mem_toList_iff.mp hheap)]

/-- The first heap that has a class with the name gives the first one read into it. -/
theorem classByName?_eq_findSome? (name : String) :
    table.classByName? name = (table.heaps.toList.map (·.id)).findSome? fun heapId =>
      (table.classesOf (objects.filterMap (·.2.classDump?))).find? fun c =>
        c.heapId = heapId ∧ c.name = name := by
  rw [filed.named, filed.classes_eq_flatMap, List.find?_flatMap]
  refine congrArg (List.findSome? · _) (funext fun heapId => ?_)
  rw [List.find?_filter]
  simp only [Bool.decide_and, Bool.decide_eq_true]

end ClassesFiled

end ObjectTable

/-- The classes of a dump whose objects have different identifiers. -/
theorem Census.Sorted.classesFiled {source : ByteSource} {width : IdWidth} {census : Census}
    {subRecords : List SubRecord} (h : Sorted subRecords census)
    (consistent : census.Consistent source width) (hdistinct : census.table.link.ids.Nodup) :
    census.table.link.ClassesFiled (SubRecord.objects Heap.defaultId subRecords) where
  found c hc := ObjectTable.class?_of_mem consistent.table.link hdistinct hc
  named := ObjectTable.classByName?_eq consistent.table.link hdistinct
  order := h.filed.inReadOrder
  known entry hentry := by
    obtain ⟨counted, hcounted, hid⟩ := h.filed.known entry hentry
    obtain ⟨i, hi⟩ := Array.mem_iff_getElem?.mp hcounted
    obtain ⟨heap, hheap, hof⟩ := census.exists_heap_link hi
    exact ⟨heap, Array.mem_of_getElem? hheap, hof.id.trans hid⟩
  heapId heap hheap := (h.heapId_of_mem_link hheap).1

namespace ObjectGraph

/-- Classes by name in an accepted dump whose objects have different identifiers. -/
theorem classByName?_of_accepted (file : ByteArray) (graph : ObjectGraph)
    (h : read (.ofBytes file) = .ok graph) (hdistinct : graph.ids.Nodup) (name : String) :
    let subRecords := (Record.list (.ofBytes file) graph.header).items.flatMap
      (·.subRecords (.ofBytes file) graph.idWidth)
    let dumps := subRecords.filterMap (·.classDump?)
    let classes := graph.classesOf dumps
    let heapIds := SubRecord.heapIds subRecords
    classes.map (·.id) = dumps.map (·.id) ∧
    graph.classByName? name = (heapIds.findSome? fun heapId =>
      classes.find? fun c => c.heapId = heapId ∧ c.name = name) ∧
    (graph.classByName? name = none ↔ ∀ c ∈ graph.classes, c.name ≠ name) ∧
    (graph.classByName? name = classes.find? (·.name = name) ↔
      ∀ first c, classes.find? (·.name = name) = some first → c ∈ classes → c.name = name →
        heapIds.idxOf first.heapId ≤ heapIds.idxOf c.heapId) := by
  have lawful := ByteSource.lawful_ofBytes file
  obtain ⟨header, -, hentries, -, rfl⟩ := exists_of_read lawful h
  have consistent := Census.ofEntries_consistent (Entry.list_inside lawful header)
  have hsorted := Census.invariant_sorted.ofEntries (Entry.list (.ofBytes file) header).items
  rw [(Entry.list_of_accepted hentries).2] at hsorted
  intro subRecords dumps classes heapIds
  change Census.Sorted subRecords _ at hsorted
  have filed : (ofDump (.ofBytes file) header).ClassesFiled
      (SubRecord.objects Heap.defaultId subRecords) := hsorted.classesFiled consistent hdistinct
  have hids : (ofDump (.ofBytes file) header).heaps.toList.map (·.id) = heapIds :=
    (Census.ids_link _).trans hsorted.ids
  have hdumps := SubRecord.filterMap_classDump?_objects Heap.defaultId subRecords
  have hfind := filed.classByName?_eq_findSome? name
  have hkept := filed.map_id_classesOf
  have hkeys := fun c => filed.heapId_mem (c := c)
  rw [hdumps, hids] at hfind
  rw [hdumps] at hkept
  rw [hdumps, hids] at hkeys
  refine ⟨hkept, hfind, ?_, ?_⟩
  · rw [filed.named, List.find?_eq_none]
    simp only [decide_eq_true_eq, ne_eq]
  · rw [hfind]
    simpa using findSome?_keys_eq_find? (p := fun c => decide (c.name = name)) hkeys

/-- A class is read into heap 65, and behind it one with the same name into the default heap, which comes
first. -/
def revisited : ByteArray :=
  (Draft.toBytes ⟨"JAVA PROFILE 1.0.2", .four, 0,
    [.text ⟨100⟩ "Twice", .loadClass ⟨1, ⟨16⟩, 0, ⟨100⟩⟩, .loadClass ⟨2, ⟨17⟩, 0, ⟨100⟩⟩,
      .heapDump [.heapSwitch 65 ⟨101⟩, .classDump ⟨16⟩ none 0 [] [] [], .heapSwitch 0 ⟨101⟩,
        .classDump ⟨17⟩ none 0 [] [] []]]⟩).toByteArray

theorem exists_revisited :
    ∃ graph, read (.ofBytes revisited) = .ok graph ∧ graph.ids.Nodup ∧
      let subRecords := (Record.list (.ofBytes revisited) graph.header).items.flatMap
        (·.subRecords (.ofBytes revisited) graph.idWidth)
      let dumps := subRecords.filterMap (·.classDump?)
      SubRecord.heapIds subRecords = [0, 65] ∧ dumps.map (·.id) = [⟨16⟩, ⟨17⟩] ∧
      ((graph.classesOf dumps).find? (·.name = "Twice")).map (·.id) = some ⟨16⟩ ∧
      (graph.classByName? "Twice").map (·.id) = some ⟨17⟩ := by
  have hread : ((read (.ofBytes revisited)).toOption.any fun graph =>
      let subRecords := (Record.list (.ofBytes revisited) graph.header).items.flatMap
        (·.subRecords (.ofBytes revisited) graph.idWidth)
      let dumps := subRecords.filterMap SubRecord.classDump?
      decide graph.ids.Nodup && decide (SubRecord.heapIds subRecords = [0, 65]) &&
      decide (dumps.map ClassDump.id = [⟨16⟩, ⟨17⟩]) &&
      decide (((graph.classesOf dumps).find? (·.name = "Twice")).map (·.id) = some ⟨16⟩) &&
      decide ((graph.classByName? "Twice").map (·.id) = some ⟨17⟩)) = true := by
    decide +kernel
  obtain ⟨graph, hgraph, hfacts⟩ := exists_of_any hread
  simp only [Bool.and_eq_true, decide_eq_true_eq] at hfacts
  obtain ⟨⟨⟨⟨hdistinct, hheaps⟩, hdumps⟩, hfirst⟩, hfound⟩ := hfacts
  exact ⟨graph, hgraph, hdistinct, hheaps, hdumps, hfirst, hfound⟩

/-- The class read first is not the one found. -/
theorem classByName?_revisited :
    ∃ graph, read (.ofBytes revisited) = .ok graph ∧ graph.ids.Nodup ∧
      let subRecords := (Record.list (.ofBytes revisited) graph.header).items.flatMap
        (·.subRecords (.ofBytes revisited) graph.idWidth)
      let classes := graph.classesOf (subRecords.filterMap (·.classDump?))
      (classes.find? (·.name = "Twice")).map (·.id) = some ⟨16⟩ ∧
        (graph.classByName? "Twice").map (·.id) = some ⟨17⟩ := by
  obtain ⟨graph, hgraph, hdistinct, -, -, hfirst, hfound⟩ := exists_revisited
  exact ⟨graph, hgraph, hdistinct, hfirst, hfound⟩

theorem classByName?_of_accepted_revisited :
    ∃ graph, read (.ofBytes revisited) = .ok graph ∧ graph.ids.Nodup ∧
      let subRecords := (Record.list (.ofBytes revisited) graph.header).items.flatMap
        (·.subRecords (.ofBytes revisited) graph.idWidth)
      let classes := graph.classesOf (subRecords.filterMap (·.classDump?))
      classes.map (·.id) = [⟨16⟩, ⟨17⟩] ∧
      graph.classByName? "Twice" = ([0, 65].findSome? fun heapId =>
        classes.find? fun c => c.heapId = heapId ∧ c.name = "Twice") ∧
      ∃ c ∈ graph.classes, c.name = "Twice" := by
  obtain ⟨graph, hgraph, hdistinct, hheaps, hdumps, -, hfound⟩ := exists_revisited
  obtain ⟨hids, hfind, hnone, -⟩ := classByName?_of_accepted revisited graph hgraph hdistinct "Twice"
  rw [hheaps] at hfind
  refine ⟨graph, hgraph, hdistinct, hids.trans hdumps, hfind, ?_⟩
  by_contra hall
  rw [hnone.mpr fun c hc hname => hall ⟨c, hc, hname⟩] at hfound
  cases hfound

end ObjectGraph

end HeapDump

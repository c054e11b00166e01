import HeapDump.Proofs.ObjectGraph.Links
import HeapDump.Proofs.ObjectGraph.Notes

/-! Reports and the graph that they are about.  Some notes are made while the dump is read, some before
its objects are linked and some afterwards; all of them agree with the finished graph. -/

namespace HeapDump

open Diagnostic

theorem Census.topic_of_mem_frameNotes {census : Census} :
    ∀ d ∈ census.frameNotes, d.topic = .missingFrame := by
  intro d hd
  obtain ⟨trace, -, hd⟩ := List.mem_flatMap.mp hd
  obtain ⟨id, -, rfl⟩ := List.mem_map.mp hd
  rfl

/-! ### Links -/

namespace ObjectTable

variable {source : ByteSource} {width : IdWidth} {table : ObjectTable}

/-- The note about a class that names a superclass and has none. -/
def missingNote? (table : ObjectTable) (c : ClassObject) : Option Diagnostic :=
  if (table.superclass? c).isSome then none else c.superclass.map (.missingSuperclass c.id ·)

/-- The note about the instances whose class is not in the dump, if there are any. -/
def homelessNotes (table : ObjectTable) : List Diagnostic :=
  let homeless := table.instances.countP fun i => (table.classOf? i).isNone
  if homeless = 0 then [] else [.withoutClass homeless]

theorem topic_of_mem_missing (classes : List ClassObject) :
    ∀ d ∈ classes.filterMap table.missingNote?, d.topic = .missingSuperclass := by
  intro d hd
  obtain ⟨c, -, hc⟩ := List.mem_filterMap.mp hd
  unfold missingNote? at hc
  split at hc
  · cases hc
  · obtain ⟨s, -, rfl⟩ := Option.map_eq_some_iff.mp hc
    rfl

theorem topic_of_mem_homelessNotes : ∀ d ∈ table.homelessNotes, d.topic = .withoutClass := by
  intro d hd
  unfold homelessNotes at hd
  dsimp only at hd
  split at hd
  · cases hd
  · rw [List.mem_singleton.mp hd]
    rfl

theorem topic_of_mem_cycleNotes : ∀ d ∈ table.cycleNotes, d.topic = .superclassCycle := by
  intro d hd
  obtain ⟨c, -, hc⟩ := List.mem_filterMap.mp hd
  obtain ⟨again, -, rfl⟩ := Option.map_eq_some_iff.mp hc
  rfl

theorem isSome_superclass?_link (table : ObjectTable) (c : ClassObject) :
    (table.link.superclass? c).isSome = (table.superclass? c).isSome := by
  unfold superclass?
  cases c.superclass with
  | none => rfl
  | some s => exact isSome_class?_link table s

theorem missingNote?_link (table : ObjectTable) : table.link.missingNote? = table.missingNote? := by
  refine funext fun c => ?_
  unfold missingNote?
  rw [isSome_superclass?_link]

theorem filterMap_classes_link (table : ObjectTable) {β : Type} (f : ClassObject → Option β)
    (hf : ∀ location c, f (table.linkClass location c) = f c) :
    table.link.classes.filterMap f = table.classes.filterMap f := by
  have hkept := congrArg (List.filterMap id) (map_classes_link table f hf)
  rwa [List.filterMap_map, List.filterMap_map] at hkept

theorem missingNote?_linkClass (table : ObjectTable) (location : Location) (c : ClassObject) :
    table.missingNote? (table.linkClass location c) = table.missingNote? c := by
  unfold linkClass
  split <;> rfl

/-- An instance is without a class before the arrays are given theirs just if it is afterwards. -/
theorem isNone_presentClass? (hunassigned : table.Unassigned) {i : Instance}
    (hi : i ∈ table.instances) :
    (table.presentClass? i).isNone = (table.link.classOf? (table.assignClass i)).isNone := by
  rw [← Option.not_isSome, ← Option.not_isSome, Bool.not_inj_iff, Bool.eq_iff_iff,
    Option.isSome_iff_exists, Option.isSome_iff_exists]
  constructor
  · rintro ⟨id, hid⟩
    obtain ⟨hnamed, hclass⟩ := presentClass?_eq_some.mp hid
    obtain ⟨c, hc⟩ := Option.isSome_iff_exists.mp ((isSome_class?_link table id).trans hclass)
    exact ⟨c, Option.bind_eq_some_iff.mpr
      ⟨id, (classId?_assignClass hunassigned hi hclass).mpr hnamed, hc⟩⟩
  · rintro ⟨c, hc⟩
    obtain ⟨id, hid, hlinked⟩ := Option.bind_eq_some_iff.mp hc
    have hclass : (table.class? id).isSome := by
      rw [← isSome_class?_link, hlinked]
      rfl
    exact ⟨id, presentClass?_eq_some.mpr
      ⟨(classId?_assignClass hunassigned hi hclass).mp hid, hclass⟩⟩

theorem countP_instances_link (hunassigned : table.Unassigned) :
    table.instances.countP (fun i => (table.presentClass? i).isNone) =
      table.link.instances.countP fun i => (table.link.classOf? i).isNone := by
  rw [instances_link, List.countP_map]
  exact List.countP_congr fun i hi => by
    rw [Function.comp_apply, isNone_presentClass? hunassigned hi]

/-- The notes about links, told of the linked table. -/
theorem linkNotes_eq (hunassigned : table.Unassigned) :
    table.linkNotes = table.link.classes.filterMap table.link.missingNote? ++
      table.link.homelessNotes := by
  rw [homelessNotes, ← countP_instances_link hunassigned, missingNote?_link,
    filterMap_classes_link table _ (missingNote?_linkClass table), linkNotes]
  congr 1
  refine List.filterMap_congr fun c _ => ?_
  unfold missingNote?
  cases c.superclass <;> cases table.superclass? c <;> rfl

end ObjectTable

/-! ### Cycles -/

/-- Going on from `a`, the first thing whose key has been met before is `again`. -/
inductive Returns {α : Type} (key : α → Ident) (next? : α → Option α) :
    List Ident → α → α → Prop
  | here {met : List Ident} {a : α} (hmet : key a ∈ met) : Returns key next? met a a
  | step {met : List Ident} {a b again : α} (hnew : key a ∉ met) (hnext : next? a = some b)
      (hrest : Returns key next? (key a :: met) b again) : Returns key next? met a again

namespace ObjectTable

variable {table : ObjectTable}

theorem chainFrom_returns {fuel : Nat} {met : List Ident} {c : ClassObject}
    (hnodup : met.Nodup) (hmet : met ⊆ table.classes.map (·.id)) (hc : c ∈ table.classes)
    (hfuel : table.classes.length < fuel + met.length) (again : ClassObject) :
    (table.chainFrom fuel met c).2 = some again ↔
      Returns ClassObject.id table.superclass? met c again := by
  induction fuel generalizing met c with
  | zero =>
    have hle := (List.subperm_of_subset hnodup hmet).length_le
    rw [List.length_map] at hle
    omega
  | succ fuel ih =>
    rw [chainFrom]
    split
    · next hagain =>
      constructor
      · rintro ⟨⟩
        exact .here hagain
      · rintro (_ | ⟨hnew, -, -⟩)
        · rfl
        · exact absurd hagain hnew
    · next hnew =>
      split
      · next hnone =>
        refine iff_of_false (by rintro ⟨⟩) ?_
        rintro (hagain | ⟨-, hs, -⟩)
        · exact hnew hagain
        · rw [hnone] at hs
          cases hs
      · next s hs =>
        have hrest := ih (List.nodup_cons.mpr ⟨hnew, hnodup⟩)
          (List.cons_subset.mpr ⟨List.mem_map_of_mem hc, hmet⟩) (mem_classes_of_superclass? hs)
          (by rw [List.length_cons]; omega)
        refine hrest.trans ⟨.step hnew hs, ?_⟩
        rintro (hagain | ⟨-, hs', hrest⟩)
        · exact absurd hagain hnew
        · rw [hs] at hs'
          cases hs'
          exact hrest

/-- There is a note about a class just if its superclasses lead back to a class met before. -/
theorem chain_returns {c : ClassObject} (hc : c ∈ table.classes) (again : ClassObject) :
    (table.chain c).2 = some again ↔ Returns ClassObject.id table.superclass? [] c again :=
  chainFrom_returns List.nodup_nil (List.nil_subset _) hc (Nat.lt_succ_self _) again

end ObjectTable

/-! ### Sizes -/

namespace ObjectGraph

variable {graph : ObjectGraph}

/-- The instance is one of the class and has other than the declared number of bytes. -/
def Differs (graph : ObjectGraph) (c : ClassObject) (i : PlainInstance) : Prop :=
  graph.class? i.classId = some c ∧ i.length ≠ c.instanceSize

instance (c : ClassObject) (i : PlainInstance) : Decidable (graph.Differs c i) :=
  inferInstanceAs (Decidable (_ ∧ _))

/-- The note about an instance of a class. -/
def sizeNote (report : PlainInstance × ClassObject) : Diagnostic :=
  .otherSize report.1.id report.2.name report.1.length report.2.instanceSize

theorem class?_id {source : ByteSource} {width : IdWidth}
    (consistent : graph.toObjectTable.Consistent source width) {id : Ident} {c : ClassObject}
    (h : graph.class? id = some c) : graph.class? c.id = some c := by
  rwa [ObjectTable.id_of_class? consistent h]

theorem eq_of_differs {c c' : ClassObject} {i : PlainInstance} (h : graph.Differs c i)
    (hc' : graph.class? i.classId = some c') : c = c' :=
  Option.some.inj (h.1.symm.trans hc')

/-- Each class that has not been reported before is reported once, with the first of its instances that
differ. -/
structure Reports (graph : ObjectGraph) (instances : List PlainInstance) (reported : List Ident)
    (reports : List (PlainInstance × ClassObject)) : Prop where
  nodup : (reports.map (·.2.id)).Nodup
  mem_iff : ∀ i c, (i, c) ∈ reports ↔
    c.id ∉ reported ∧ instances.find? (graph.Differs c ·) = some i

variable {first : PlainInstance} {instances : List PlainInstance} {reported : List Ident}
  {reports : List (PlainInstance × ClassObject)}

theorem find?_differs_cons {c : ClassObject} (h : ¬graph.Differs c first) :
    (first :: instances).find? (graph.Differs c ·) = instances.find? (graph.Differs c ·) :=
  List.find?_cons_of_neg (by simpa using h)

theorem Reports.skip (h : graph.Reports instances reported reports)
    (hskip : ∀ c, c.id ∉ reported → ¬graph.Differs c first) :
    graph.Reports (first :: instances) reported reports :=
  ⟨h.nodup, fun i c => (h.mem_iff i c).trans <| and_congr_right fun hc => by
    rw [find?_differs_cons (hskip c hc)]⟩

theorem Reports.cons {source : ByteSource} {width : IdWidth}
    (consistent : graph.toObjectTable.Consistent source width) {c : ClassObject}
    (hdiffers : graph.Differs c first) (hnew : c.id ∉ reported)
    (h : graph.Reports instances (c.id :: reported) reports) :
    graph.Reports (first :: instances) reported ((first, c) :: reports) := by
  have hlater : ∀ i c', (i, c') ∈ reports → c'.id ≠ c.id := fun i c' hreport heq =>
    ((h.mem_iff i c').mp hreport).1 (heq ▸ List.mem_cons_self)
  refine ⟨List.nodup_cons.mpr ⟨fun hagain => ?_, h.nodup⟩, fun i c' => ?_⟩
  · obtain ⟨⟨i, c'⟩, hreport, heq⟩ := List.mem_map.mp hagain
    exact hlater i c' hreport heq
  · by_cases hc : c' = c
    · subst hc
      have hnot : (i, c') ∉ reports := fun hreport => hlater i c' hreport rfl
      rw [List.mem_cons, or_iff_left hnot, List.find?_cons_of_pos (by simpa using hdiffers),
        Prod.mk.injEq, Option.some.injEq]
      exact ⟨fun heq => ⟨hnew, heq.1.symm⟩, fun heq => ⟨heq.2.symm, rfl⟩⟩
    · have hfirst : ¬graph.Differs c' first := fun h' => hc (eq_of_differs h' hdiffers.1)
      rw [List.mem_cons, or_iff_right fun heq => hc (congrArg Prod.snd heq), h.mem_iff,
        find?_differs_cons hfirst]
      refine and_congr_left fun hfind => ?_
      have hi : graph.Differs c' i := by simpa using List.find?_some hfind
      -- Two classes that instances name have two identifiers.
      have hid : c'.id ≠ c.id := fun heq => by
        have hclass := class?_id consistent hi.1
        rw [heq, class?_id consistent hdiffers.1] at hclass
        exact hc (Option.some.inj hclass).symm
      rw [List.mem_cons, not_or]
      exact and_iff_right hid

theorem exists_reports {source : ByteSource} {width : IdWidth}
    (consistent : graph.toObjectTable.Consistent source width)
    (h : (graph.checkSizes instances reported).failure = none) :
    ∃ reports, (graph.checkSizes instances reported).items = reports.map sizeNote ∧
      graph.Reports instances reported reports := by
  induction instances generalizing reported with
  | nil => exact ⟨[], rfl, List.nodup_nil, by simp⟩
  | cons first instances ih =>
    rw [checkSizes] at h ⊢
    cases hfirst : graph.class? first.classId with
    | none =>
      rw [hfirst] at h
      obtain ⟨reports, hitems, hreports⟩ := ih h
      refine ⟨reports, hitems, hreports.skip fun c _ hdiffers => ?_⟩
      cases hfirst.symm.trans hdiffers.1
    | some found =>
      rw [hfirst] at h
      dsimp only at h ⊢
      by_cases hshort : first.length.toNat <
          LayoutField.total graph.idWidth ((graph.layout? found.id).getD [])
      · rw [if_pos hshort] at h
        cases h
      rw [if_neg hshort] at h ⊢
      by_cases hnew : first.length ≠ found.instanceSize ∧ found.id ∉ reported
      · rw [if_pos hnew] at h ⊢
        obtain ⟨reports, hitems, hreports⟩ := ih h
        exact ⟨(first, found) :: reports, congrArg (_ :: ·) hitems,
          hreports.cons consistent ⟨hfirst, hnew.1⟩ hnew.2⟩
      · rw [if_neg hnew] at h ⊢
        obtain ⟨reports, hitems, hreports⟩ := ih h
        refine ⟨reports, hitems, hreports.skip fun c hc hdiffers => ?_⟩
        obtain rfl := eq_of_differs hdiffers hfirst
        exact hnew ⟨hdiffers.2, hc⟩

theorem topic_of_mem_sizeNotes {source : ByteSource} {width : IdWidth}
    (consistent : graph.toObjectTable.Consistent source width)
    (h : graph.sizeNotes.failure = none) : ∀ d ∈ graph.sizeNotes.items, d.topic = .otherSize := by
  intro d hd
  obtain ⟨reports, hitems, -⟩ := exists_reports consistent h
  rw [sizeNotes, hitems] at hd
  obtain ⟨report, -, rfl⟩ := List.mem_map.mp hd
  rfl

/-! ### Whole reports -/

/-- The notes about the reading of an accepted dump, in the order in which they are made. -/
theorem notes_of_read {source : ByteSource} (lawful : source.Lawful) {header : Header}
    (hheader : Header.read source = .ok header) (h : read source = .ok graph) {census : Census}
    (hcensus : Census.ofEntries (Entry.list source header).items = census) :
    (Reading.ofSource source).notes = .opened header.label header.idWidth ::
      (census.notes.toList ++ census.frameNotes ++ census.table.linkNotes ++
        census.table.link.cycleNotes ++ graph.sizeNotes.items ++ [graph.totals]) ∧
      graph.sizeNotes.failure = none := by
  subst hcensus
  obtain ⟨hentries, hfit, rfl⟩ := (read_eq_ok_iff lawful hheader).mp h
  have consistent := Census.ofEntries_consistent (Entry.list_inside lawful header)
  have hsizes := (sizeNotes_failure_iff consistent.table.link).mpr hfit
  refine ⟨?_, hsizes⟩
  unfold Reading.ofSource
  rw [hheader]
  dsimp only
  rw [hentries]
  dsimp only
  unfold Reading.ofCensus
  dsimp only
  rw [show (ofCensus source header _).sizeNotes.failure = none from hsizes]
  rfl

/-- The notes of a reading topic by topic. -/
theorem about_notes_of_read {source : ByteSource} (lawful : source.Lawful) {header : Header}
    (hheader : Header.read source = .ok header) (h : read source = .ok graph) {census : Census}
    (hcensus : Census.ofEntries (Entry.list source header).items = census) (topic : Topic) :
    about topic (Reading.ofSource source).notes =
      (if .opened = topic then [.opened header.label header.idWidth] else []) ++
      about topic census.notes.toList ++
      (if .missingFrame = topic then census.frameNotes else []) ++
      (if .missingSuperclass = topic then graph.classes.filterMap graph.missingNote? else []) ++
      (if .withoutClass = topic then graph.homelessNotes else []) ++
      (if .superclassCycle = topic then graph.cycleNotes else []) ++
      (if .otherSize = topic then graph.sizeNotes.items else []) ++
      (if .finished = topic then [graph.totals] else []) := by
  obtain ⟨hnotes, hsizes⟩ := notes_of_read lawful hheader h hcensus
  obtain ⟨-, -, rfl⟩ := (read_eq_ok_iff lawful hheader).mp h
  have consistent := Census.ofEntries_consistent (Entry.list_inside lawful header)
  have hfiled := (Census.filed_ofEntries (Entry.list source header).items).1
  rw [hcensus] at hfiled
  have hunassigned : census.table.Unassigned := hfiled.unassigned fun entry hentry => by
    obtain ⟨subRecord, -, hobject⟩ := SubRecord.mem_objects hentry
    exact ⟨subRecord, hobject⟩
  have hreports := topic_of_mem_sizeNotes consistent.table.link hsizes
  have hgraph : (ofDump source header).toObjectTable = census.table.link := by
    rw [← hcensus]
    rfl
  have hopened : ∀ d ∈ [opened header.label header.idWidth], d.topic = .opened := by
    simp [Diagnostic.topic]
  have hfinished : ∀ d ∈ [(ofDump source header).totals], d.topic = .finished := by
    simp [Diagnostic.topic, totals]
  rw [hnotes, ← List.singleton_append, ObjectTable.linkNotes_eq hunassigned]
  simp only [about_append, about_of_topic hopened, about_of_topic Census.topic_of_mem_frameNotes,
    about_of_topic (ObjectTable.topic_of_mem_missing _),
    about_of_topic ObjectTable.topic_of_mem_homelessNotes,
    about_of_topic ObjectTable.topic_of_mem_cycleNotes, about_of_topic hreports,
    about_of_topic hfinished, List.append_assoc, hgraph]

/-- What a report says of the graph, and of the records and sub-records that it comes from. -/
structure Reported (graph : ObjectGraph) (records : List Record) (subRecords : List SubRecord)
    (notes : List Diagnostic) : Prop where
  unknown : about .unknownRecord notes = records.filterMap (·.unknownNote?) ∧
    (about .unknownRecord notes).length = graph.unknownRecords
  duplicates : about .duplicateObject notes =
    (SubRecord.repeatedIds subRecords).map .duplicateObject
  superclasses : about .missingSuperclass notes = graph.classes.filterMap graph.missingNote?
  cycles : about .superclassCycle notes = graph.classes.filterMap fun c =>
    (graph.chain c).2.map fun again => .superclassCycle again.name
  returns : ∀ c ∈ graph.classes, ∀ again, (graph.chain c).2 = some again ↔
    Returns ClassObject.id graph.superclass? [] c again
  homeless : about .withoutClass notes =
    let homeless := graph.instances.countP fun i => (graph.classOf? i).isNone
    if homeless = 0 then [] else [.withoutClass homeless]
  /-- One warning for each class, about the first of its instances that differ. -/
  sizes : ∃ reports : List (PlainInstance × ClassObject),
    about .otherSize notes = reports.map sizeNote ∧ (reports.map (·.2.id)).Nodup ∧
      ∀ i c, (i, c) ∈ reports ↔
        (graph.instances.filterMap (·.plain?)).find? (graph.Differs c ·) = some i
  totals : about .finished notes = [.finished graph.classes.length graph.instances.length
    graph.heaps.size graph.roots.length] ∧ notes.getLast? = some graph.totals

/-- The report on an accepted dump agrees with its graph. -/
theorem reported_of_accepted (file : ByteArray) (graph : ObjectGraph)
    (h : read (.ofBytes file) = .ok graph) :
    let records := (Record.list (.ofBytes file) graph.header).items
    graph.Reported records (records.flatMap (·.subRecords (.ofBytes file) graph.idWidth))
      (Reading.ofSource (.ofBytes file)).notes := by
  have lawful := ByteSource.lawful_ofBytes file
  obtain ⟨header, hheader, hentries, -, hgraph⟩ := exists_of_read lawful h
  have hheaderOf : graph.header = header := by rw [hgraph]; rfl
  have habout := about_notes_of_read lawful hheader h rfl
  obtain ⟨hnotes, hsizes⟩ := notes_of_read lawful hheader h rfl
  have consistent := (read_sound lawful h).table
  have hduplicates := (Census.noted_ofEntries (Entry.list (.ofBytes file) header).items).duplicates
  rw [(Entry.list_of_accepted hentries).2] at hduplicates
  intro records
  have hunknown : about .unknownRecord (Reading.ofSource (.ofBytes file)).notes =
      records.filterMap (·.unknownNote?) := by
    rw [habout, Census.about_notes_ofEntries (by decide), Entry.about_unknown_of_accepted hentries]
    simp [records, hheaderOf]
  refine ⟨⟨hunknown, ?_⟩, ?_, ?_, ?_, fun c hc => ObjectTable.chain_returns hc, ?_, ?_, ?_, ?_⟩
  · have hcount : graph.unknownRecords = records.countP (·.tag? = none) := by
      show _ = (Record.list _ graph.header).items.countP _
      rw [hheaderOf, hgraph, ← (Entry.list_of_accepted hentries).1, List.countP_map]
      exact Census.unknownRecords_ofEntries _
    rw [hunknown, hcount, List.length_filterMap_eq_countP]
    refine List.countP_congr fun record _ => ?_
    unfold Record.unknownNote?
    split <;> simp_all
  · rw [habout, hduplicates]
    simp [records, hheaderOf, idWidth]
  · rw [habout, Census.about_notes_eq_nil (by decide)]
    simp
  · rw [habout, Census.about_notes_eq_nil (by decide)]
    simp [ObjectTable.cycleNotes]
  · rw [habout, Census.about_notes_eq_nil (by decide)]
    simp [ObjectTable.homelessNotes]
  · obtain ⟨reports, hitems, hreports⟩ := exists_reports consistent hsizes
    refine ⟨reports, ?_, hreports.nodup, fun i c =>
      (hreports.mem_iff i c).trans (and_iff_right List.not_mem_nil)⟩
    rw [habout, Census.about_notes_eq_nil (by decide), ← hitems]
    simp [sizeNotes]
  · rw [habout, Census.about_notes_eq_nil (by decide)]
    simp [totals]
  · rw [hnotes, ← List.cons_append, List.getLast?_concat]

/-- A record of an unknown tag, a class without its superclass and with two instances that are too long,
two classes that are superclasses of each other, and an instance without a class, whose identifier is
also that of the one before it. -/
def untidy : ByteArray :=
  (Draft.toBytes ⟨"JAVA PROFILE 1.0.2", .four, 0,
    [.raw 0x77 [1, 2], .text ⟨100⟩ "Ring", .loadClass ⟨1, ⟨2⟩, 0, ⟨100⟩⟩,
      .loadClass ⟨2, ⟨3⟩, 0, ⟨100⟩⟩,
      .heapDump [.classDump ⟨1⟩ (some ⟨9⟩) 1 [] [] [], .classDump ⟨2⟩ (some ⟨3⟩) 0 [] [] [],
        .classDump ⟨3⟩ (some ⟨2⟩) 0 [] [] [], .instance ⟨20⟩ ⟨1⟩ [0, 0],
        .instance ⟨21⟩ ⟨1⟩ [0, 0, 0], .instance ⟨21⟩ ⟨5⟩ [],
        .root (.root .systemClass) ⟨2⟩]]⟩).toByteArray

def untidyNotes : List Diagnostic :=
  [.opened "JAVA PROFILE 1.0.2" .four, .unknownRecord 0x77 31 2, .duplicateObject ⟨21⟩,
    .missingSuperclass ⟨1⟩ ⟨9⟩, .withoutClass 1, .superclassCycle "Ring", .superclassCycle "Ring",
    .otherSize ⟨20⟩ "unknown-class-0x1" 2 1, .finished 3 3 1 1]

theorem reported_of_accepted_untidy :
    ∃ graph, read (.ofBytes untidy) = .ok graph ∧
      (Reading.ofSource (.ofBytes untidy)).notes = untidyNotes ∧
      let records := (Record.list (.ofBytes untidy) graph.header).items
      graph.Reported records (records.flatMap (·.subRecords (.ofBytes untidy) graph.idWidth))
        untidyNotes := by
  have hread : (read (.ofBytes untidy)).isOk = true ∧
      (Reading.ofSource (.ofBytes untidy)).notes = untidyNotes := by
    decide +kernel
  obtain ⟨hok, hnotes⟩ := hread
  obtain ⟨graph, hgraph⟩ := exists_of_isOk hok
  have hreported := reported_of_accepted untidy graph hgraph
  rw [hnotes] at hreported
  exact ⟨graph, hgraph, hnotes, hreported⟩

end ObjectGraph

end HeapDump

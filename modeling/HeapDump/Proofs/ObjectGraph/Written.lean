import HeapDump.Proofs.Draft
import HeapDump.Proofs.ObjectGraph.Decode
import HeapDump.Proofs.ObjectGraph.Lineage

/-! Contents read back.  A class of a draft and its superclasses in the draft are a class of the graph and
its superclasses there, so an instance whose values have the types of their fields is decoded to these
values, and arrays are decoded to their elements. -/

namespace HeapDump

/-! ### Classes -/

/-- A class as it is drafted. -/
structure ClassDraft where
  id : Ident
  superclass : Option Ident
  fields : List (Ident × FieldType)
deriving DecidableEq, Repr

def DraftItem.class? : DraftItem → Option ClassDraft
  | classDump id superclass _ _ _ fields => some ⟨id, superclass, fields⟩
  | _ => none

namespace Draft

def classes (draft : Draft) : List ClassDraft :=
  draft.items.filterMap (·.class?)

def class? (draft : Draft) (id : Ident) : Option ClassDraft :=
  draft.classes.find? (·.id = id)

/-- The superclass of a class, where the draft has it. -/
def superclass? (draft : Draft) (c : ClassDraft) : Option ClassDraft :=
  c.superclass.bind draft.class?

end Draft

/-- A field with the name that the graph knows. -/
def ObjectGraph.field (graph : ObjectGraph) (nameId : Ident) (type : FieldType) : Field :=
  ⟨(graph.string? nameId).getD ("unknown-field-" ++ Text.hexIdent nameId.val), type⟩

namespace ClassDraft

/-- What is read of a class that is drafted. -/
structure Gives (c : ClassDraft) (dump : ClassDump) : Prop where
  id : dump.id = c.id
  superclass : dump.superclass = c.superclass.bind Ident.nonNull?
  fields : dump.fields = c.fields.map fun f => ⟨f.1, f.2⟩

/-- A class of the graph is the one drafted. -/
structure Shows (graph : ObjectGraph) (c : ClassDraft) (shown : ClassObject) : Prop where
  id : c.id = shown.id
  superclass : shown.superclass = c.superclass.bind Ident.nonNull?
  fields : shown.fields = c.fields.map fun f => graph.field f.1 f.2

variable {source : ByteSource} {c : ClassDraft} {dump : ClassDump}

theorem exists_gives {width : IdWidth} {item : DraftItem} {subRecord : SubRecord}
    (hc : item.class? = some c) (h : item.ReadAs source width subRecord) :
    ∃ dump, subRecord = .classDump dump ∧ c.Gives dump := by
  obtain ⟨position, -, -, hread⟩ := h
  cases item with
  | classDump id superclass instanceSize constants statics fields =>
    cases hc
    cases hread
    exact ⟨_, rfl, rfl, rfl, rfl⟩
  | _ => cases hc

theorem exists_of_readAs {width : IdWidth} {item : DraftItem}
    (h : item.ReadAs source width (.classDump dump)) : ∃ c, item.class? = some c := by
  obtain ⟨position, -, -, hread⟩ := h
  cases item with
  | classDump id superclass instanceSize constants statics fields => exact ⟨_, rfl⟩
  | root tag object =>
    obtain ⟨origin, -, heq⟩ := Option.map_eq_some_iff.mp hread
    cases heq
  | _ => cases hread

theorem Shows.flatMap_fields {graph : ObjectGraph} {line : List ClassDraft} {shown : List ClassObject}
    (hshows : List.Forall₂ (·.Shows graph ·) line shown) :
    shown.flatMap (·.fields) = (line.flatMap (·.fields)).map fun f => graph.field f.1 f.2 := by
  induction hshows with
  | nil => rfl
  | cons hfirst _ ih =>
    rw [List.flatMap_cons, List.flatMap_cons, List.map_append, ih, hfirst.fields]

end ClassDraft

theorem exists_of_forall₂ {α β : Type} {R : α → β → Prop} {as : List α} {bs : List β}
    (h : List.Forall₂ R as bs) : (∀ a ∈ as, ∃ b ∈ bs, R a b) ∧ ∀ b ∈ bs, ∃ a ∈ as, R a b := by
  induction h with
  | nil => exact ⟨by simp, by simp⟩
  | cons hab _ ih =>
    constructor
    · refine List.forall_mem_cons.mpr ⟨⟨_, List.mem_cons_self, hab⟩, fun a ha => ?_⟩
      obtain ⟨b, hb, hab⟩ := ih.1 a ha
      exact ⟨b, List.mem_cons_of_mem _ hb, hab⟩
    · refine List.forall_mem_cons.mpr ⟨⟨_, List.mem_cons_self, hab⟩, fun b hb => ?_⟩
      obtain ⟨a, ha, hab⟩ := ih.2 b hb
      exact ⟨a, List.mem_cons_of_mem _ ha, hab⟩

/-! ### Contents -/

theorem DraftItem.nonNull?_reference {width : IdWidth} {target : Option Ident}
    (h : ∀ id ∈ target, id.Fits width) :
    (Ident.ofBytes (reference width target)).nonNull? = target.bind Ident.nonNull? := by
  cases target with
  | none => rw [reference, Option.getD_none, Ident.ofBytes_toBytes (Ident.null_fits width)]; rfl
  | some id => rw [reference, Option.getD_some, Ident.ofBytes_toBytes (h id rfl)]; rfl

/-- A value of a primitive type is read as it was. -/
theorem Value.ofBytes_primitive {width : IdWidth} {v : Value} {type : PrimitiveType}
    (h : v.type = .primitive type) : ofBytes (.primitive type) (v.toBytes width) = v := by
  cases v with
  | object target => cases h
  | _ => rw [← h]; exact ofBytes_toBytes trivial

namespace ObjectGraph

variable {graph : ObjectGraph}

theorem fieldValue_eq (i : PlainInstance) {f : LayoutField} {v : Value} (htype : v.type = f.field.type)
    (hfits : v.Fits graph.idWidth) {front : List UInt8} (hoffset : f.offset = front.length)
    (back : List UInt8) :
    graph.fieldValue i (front ++ (v.toBytes graph.idWidth ++ back)) f = .ok (f.field, v.asRead) := by
  have hlength : (v.toBytes graph.idWidth).length = f.field.type.size graph.idWidth := by
    rw [Value.length_toBytes, htype]
  rw [fieldValue, hoffset, List.drop_left, Slice.value_eq, if_pos (by rw [List.length_append]; omega),
    List.take_left' hlength, ← htype, Value.ofBytes_toBytes hfits]

/-- Fields behind one another are read as the values written behind one another. -/
theorem mapM_fieldValue (i : PlainInstance) {layout : List LayoutField} {values : List Value}
    (htypes : values.map (·.type) = layout.map (·.field.type))
    (hfits : ∀ v ∈ values, v.Fits graph.idWidth) {front : List UInt8}
    (hoffsets : ∀ before f after, layout = before ++ f :: after →
      f.offset = front.length + (before.map (·.field.type.size graph.idWidth)).sum) :
    layout.mapM (graph.fieldValue i (front ++ values.flatMap (·.toBytes graph.idWidth))) =
      .ok ((layout.map (·.field)).zip (values.map (·.asRead))) := by
  induction layout generalizing values front with
  | nil => rfl
  | cons f layout ih =>
    obtain ⟨v, values, rfl, htype, htypes⟩ := List.map_eq_cons_iff.mp htypes
    obtain ⟨hfirst, hrest⟩ := List.forall_mem_cons.mp hfits
    have hnext : layout.mapM (graph.fieldValue i (front ++ v.toBytes graph.idWidth ++
        values.flatMap (·.toBytes graph.idWidth))) = _ :=
      ih htypes hrest fun before g after hsplit => by
        rw [hoffsets (f :: before) g after (by rw [hsplit]; rfl), List.map_cons, List.sum_cons,
          List.length_append, Value.length_toBytes, htype, Nat.add_assoc]
    rw [List.append_assoc] at hnext
    rw [List.mapM_cons, List.flatMap_cons, fieldValue_eq i htype hfirst (hoffsets [] f layout rfl), hnext]
    rfl

theorem elementBytes_eq {a : ArrayInstance} {offset : Nat} (hoffset : a.offset = some offset)
    {γ : Type} {write : γ → List UInt8} {values : List γ} (hcount : a.count.toNat = values.length)
    (hsize : ∀ v ∈ values, (write v).length = a.elementType.size graph.idWidth)
    (hat : graph.source.HasAt offset (values.flatMap write)) :
    graph.elementBytes a = .ok (values.map write) := by
  have hslice := hat.slice
  rw [DraftItem.length_flatMap_eq hsize, ← hcount] at hslice
  rw [elementBytes, hoffset]
  show (graph.source.slice offset (a.count.toNat * a.elementType.size graph.idWidth)).bind _ = _
  rw [hslice]
  show Except.ok (Word.split _ _ _) = _
  rw [hcount, Word.split_flatMap hsize]

end ObjectGraph

namespace Draft.Listed

variable {draft : Draft} {graph : ObjectGraph} {entries : List Entry}
  (h : draft.Listed graph entries)
include h

theorem consistent_census : (Census.ofEntries entries).Consistent graph.source graph.idWidth :=
  Census.ofEntries_consistent h.inside

theorem consistent : graph.toObjectTable.Consistent graph.source graph.idWidth := by
  rw [h.table]
  exact h.consistent_census.table.link

theorem nodup_ids : ((Census.objectsOfEntries entries).map (·.2.id)).Nodup := by
  rw [Census.objectsOfEntries, DraftItem.map_id_objects h.readAs]
  exact h.fits.distinct

theorem item_fits {item : DraftItem} (hitem : item ∈ draft.items) :
    item.Fits graph.idWidth ∧ item.ContentFits graph.idWidth := by
  obtain ⟨record, hrecord, hitem⟩ := List.mem_flatMap.mp hitem
  rw [h.idWidth]
  exact (h.fits.records record hrecord).2.2 item hitem

/-- An item that is an object is among the objects read. -/
theorem exists_object {item : DraftItem} (hitem : item ∈ draft.items) :
    ∃ subRecord heapId, item.ReadAs graph.source graph.idWidth subRecord ∧
      ∀ object, subRecord.object? heapId = some object →
        (heapId, object) ∈ Census.objectsOfEntries entries := by
  obtain ⟨subRecord, hmem, hread⟩ := (exists_of_forall₂ h.readAs).1 item hitem
  obtain ⟨heapId, hobject⟩ := SubRecord.exists_mem_objects hmem
  exact ⟨subRecord, heapId, hread, hobject⟩

/-! ### Classes and their superclasses -/

theorem shows_of_gives {c : ClassDraft} {dump : ClassDump} {shown : ClassObject}
    (hgives : c.Gives dump) (hdescribes : (Census.ofEntries entries).Describes dump shown) :
    c.Shows graph shown where
  id := hgives.id.symm.trans hdescribes.id.symm
  superclass := hdescribes.superclass.trans hgives.superclass
  fields := by
    rw [hdescribes.fields, hgives.fields, List.map_map]
    refine List.map_congr_left fun f _ => ?_
    simp only [Function.comp_apply, Census.fieldName, ObjectGraph.field, ObjectGraph.string?,
      h.strings, Std.TreeMap.getD_eq_getD_getElem?]

theorem exists_dump {id : Ident} {c : ClassDraft} (hc : draft.class? id = some c) :
    c.id = id ∧ id ∈ draft.objectIds ∧ ∃ heapId dump,
      (heapId, .classDump dump) ∈ Census.objectsOfEntries entries ∧ c.Gives dump := by
  unfold class? at hc
  have hid := List.find?_some hc
  obtain ⟨item, hitem, hclass⟩ := List.mem_filterMap.mp (List.mem_of_find?_eq_some hc)
  obtain ⟨subRecord, heapId, hread, hobject⟩ := h.exists_object hitem
  obtain ⟨dump, rfl, hgives⟩ := ClassDraft.exists_gives hclass hread
  have hobjectId := hread.map_id_object? heapId
  replace hid : c.id = id := of_decide_eq_true hid
  refine ⟨hid, List.mem_filterMap.mpr ⟨item, hitem, ?_⟩, heapId, dump, hobject _ rfl, hgives⟩
  rw [← hobjectId, ← hid, ← hgives.id]
  rfl

/-- A class of the draft is found in the graph. -/
theorem exists_shown {id : Ident} {c : ClassDraft} (hc : draft.class? id = some c) :
    ∃ shown, graph.class? id = some shown ∧ c.Shows graph shown := by
  obtain ⟨rfl, -, heapId, dump, hmem, hgives⟩ := h.exists_dump hc
  obtain ⟨shown, hshown, hdescribes⟩ :=
    (Census.filed_ofEntries entries).1.class?_of_mem h.consistent_census h.nodup_ids hmem
  rw [hgives.id] at hshown
  rw [h.table]
  exact ⟨shown, hshown, h.shows_of_gives hgives hdescribes⟩

/-- Every class of the graph is drafted. -/
theorem exists_draft {shown : ClassObject} (hshown : shown ∈ graph.classes) :
    ∃ c, draft.class? shown.id = some c ∧ c.Shows graph shown := by
  rw [h.table] at hshown
  obtain ⟨heapId, dump, hmem, hdescribes⟩ := (Census.filed_ofEntries entries).1.exists_dump hshown
  obtain ⟨subRecord, hsub, hobject⟩ := SubRecord.mem_objects hmem
  obtain rfl : subRecord = .classDump dump := by
    cases subRecord <;> cases hobject
    rfl
  obtain ⟨item, hitem, hread⟩ := (exists_of_forall₂ h.readAs).2 _ hsub
  obtain ⟨c, hclass⟩ := ClassDraft.exists_of_readAs hread
  have hid : c.id = shown.id := by
    obtain ⟨_, heq, hgives⟩ := ClassDraft.exists_gives hclass hread
    cases heq
    exact hgives.id.symm.trans hdescribes.id.symm
  have hsome : (draft.class? shown.id).isSome := by
    rw [class?, List.find?_isSome]
    exact ⟨c, List.mem_filterMap.mpr ⟨item, hitem, hclass⟩, decide_eq_true hid⟩
  obtain ⟨found, hfound⟩ := Option.isSome_iff_exists.mp hsome
  obtain ⟨hfoundId, -, heapId', other, hmem', hgives⟩ := h.exists_dump hfound
  have hsame : other.id = dump.id := by rw [hgives.id, hfoundId, hdescribes.id]
  obtain ⟨-, heq⟩ := Prod.mk.inj (List.inj_on_of_nodup_map h.nodup_ids hmem' hmem hsame)
  cases heq
  exact ⟨found, hfound, h.shows_of_gives hgives hdescribes⟩

theorem superclass?_shown {c s : ClassDraft} {shown : ClassObject} (hshows : c.Shows graph shown)
    (hs : draft.superclass? c = some s) :
    ∃ t, graph.superclass? shown = some t ∧ s.Shows graph t := by
  obtain ⟨superId, hsuper, hs⟩ := Option.bind_eq_some_iff.mp hs
  obtain ⟨t, ht, hst⟩ := h.exists_shown hs
  obtain ⟨-, hmem, -⟩ := h.exists_dump hs
  have hnonNull : superId ≠ Ident.null := fun heq => h.fits.nonNull (heq ▸ hmem)
  refine ⟨t, ?_, hst⟩
  rw [ObjectTable.superclass?, hshows.superclass, hsuper, Option.bind_some, Ident.nonNull?,
    if_neg hnonNull]
  exact ht

theorem superclass?_draft {c : ClassDraft} {shown t : ClassObject} (hshows : c.Shows graph shown)
    (ht : graph.superclass? shown = some t) :
    ∃ s, draft.superclass? c = some s ∧ s.Shows graph t := by
  obtain ⟨superId, hsuper, ht⟩ := Option.bind_eq_some_iff.mp ht
  obtain ⟨s, hs, hst⟩ := h.exists_draft (ObjectTable.mem_classes_of_class? ht)
  rw [ObjectTable.id_of_class? h.consistent ht] at hs
  rw [hshows.superclass] at hsuper
  obtain ⟨written, hwritten, hnonNull⟩ := Option.bind_eq_some_iff.mp hsuper
  have hsame : written = superId := by
    unfold Ident.nonNull? at hnonNull
    split at hnonNull <;> cases hnonNull
    rfl
  exact ⟨s, by rw [superclass?, hwritten, hsame]; exact hs, hst⟩

/-- The layout found for a drafted class lists the fields of its lineage in the draft. -/
theorem exists_layout {id : Ident} {c : ClassDraft} (hc : draft.class? id = some c) :
    ∃ line layout, Lineage ClassDraft.id draft.superclass? [] c line ∧
      graph.layout? id = some layout ∧
      layout.map (·.field) = (line.flatMap (·.fields)).map (fun f => graph.field f.1 f.2) ∧
      ∀ before f after, layout = before ++ f :: after →
        f.offset = (before.map (·.field.type.size graph.idWidth)).sum := by
  obtain ⟨shown, hshown, -⟩ := h.exists_shown hc
  have hsome : ((graph.toObjectTable.layouts graph.idWidth)[id]?).isSome :=
    ObjectTable.isSome_getElem?_layouts.mpr
      ⟨shown, ObjectTable.mem_classes_of_class? hshown, ObjectTable.id_of_class? h.consistent hshown⟩
  obtain ⟨layout, hlayout⟩ := Option.isSome_iff_exists.mp hsome
  obtain ⟨last, shownLine, hlast, hline, hlists⟩ := ObjectTable.lists_of_getElem?_layouts hlayout
  obtain ⟨hmem, hid⟩ := ObjectTable.mem_classes_of_find?_reverse hlast
  obtain ⟨c', hc', hshows⟩ := h.exists_draft hmem
  rw [hid, hc] at hc'
  cases hc'
  obtain ⟨line, hdrafted, hall⟩ := Lineage.exists_forall₂ (fun _ _ hshows => hshows.id)
    (fun _ _ _ hshows => h.superclass?_shown hshows) (fun _ _ _ hshows => h.superclass?_draft hshows)
    hshows hline
  refine ⟨line, layout, hdrafted, ?_, ?_, hlists.offsets⟩
  · rw [ObjectGraph.layout?, h.layouts]
    exact hlayout
  · rw [hlists.map_field, ClassDraft.Shows.flatMap_fields hall]

/-! ### Objects -/

theorem exists_plain {id classId : Ident} {values : List Value}
    (hitem : .instanceValues id classId values ∈ draft.items) :
    ∃ i : PlainInstance, graph.instance? id = some (.plain i) ∧ i.classId = classId ∧
      graph.source.slice i.offset i.length.toNat =
        .ok (values.flatMap (·.toBytes graph.idWidth)) := by
  obtain ⟨subRecord, heapId, ⟨position, hat, hlength, hread⟩, hobject⟩ := h.exists_object hitem
  cases hread
  have hfound := (Census.filed_ofEntries entries).1.instance?_of_mem h.consistent_census h.nodup_ids
    (hobject _ rfl)
  rw [← h.table] at hfound
  refine ⟨_, hfound, rfl, ?_⟩
  rw [UInt32.toNat_ofNat_of_lt' (DraftItem.length_content_lt hlength)]
  exact (DraftItem.hasAt_content hat).slice

/-- An array of the graph is the one read, but for its class. -/
theorem exists_array {heapId : UInt32} {read : ArrayInstance}
    (hmem : (heapId, .instance (.array read)) ∈ Census.objectsOfEntries entries) :
    ∃ a : ArrayInstance, graph.instance? read.id = some (.array a) ∧
      a.elementType = read.elementType ∧ a.count = read.count ∧ a.offset = read.offset := by
  have hfound := (Census.filed_ofEntries entries).1.instance?_of_mem h.consistent_census h.nodup_ids hmem
  rw [← h.table] at hfound
  unfold ObjectTable.assignClass at hfound
  split at hfound
  · next heq _ =>
    cases heq
    exact ⟨_, hfound, rfl, rfl, rfl⟩
  · exact ⟨_, hfound, rfl, rfl, rfl⟩

/-- An item that is read as an array behind which its content stands has the pieces of it as elements. -/
theorem exists_elements {item : DraftItem} (hitem : item ∈ draft.items) {id : Ident} (type : FieldType)
    {γ : Type} {write : γ → List UInt8} {values : List γ}
    (harray : ∀ position subRecord, item.subRecord? graph.idWidth position = some subRecord →
      ∀ heapId, ∃ read : ArrayInstance, subRecord.object? heapId = some (.instance (.array read)) ∧
        read.id = id ∧ read.elementType = type ∧ read.count = .ofNat values.length ∧
        read.offset = some (item.contentOffset graph.idWidth position))
    (hcontent : item.content graph.idWidth = values.flatMap write)
    (hsize : ∀ v ∈ values, (write v).length = type.size graph.idWidth) :
    ∃ a, graph.instance? id = some (.array a) ∧ a.elementType = type ∧
      graph.elementBytes a = .ok (values.map write) := by
  obtain ⟨subRecord, heapId, ⟨position, hat, hlength, hread⟩, hobject⟩ := h.exists_object hitem
  obtain ⟨read, hread, rfl, rfl, hcount, hoffset⟩ := harray position subRecord hread heapId
  obtain ⟨a, hfound, htype, hsame, hplace⟩ := h.exists_array (hobject _ hread)
  have hfew := DraftItem.count_lt item hcontent (FieldType.size_pos _ _) hsize hlength
  have helements := DraftItem.hasAt_content hat
  rw [hcontent] at helements
  rw [← htype] at hsize
  refine ⟨a, hfound, htype, ObjectGraph.elementBytes_eq (hplace.trans hoffset) ?_ hsize helements⟩
  rw [hsame, hcount]
  exact UInt32.toNat_ofNat_of_lt' hfew

/-! ### Contents of objects -/

theorem fieldValues_of_mem {id classId : Ident} {values : List Value}
    (hitem : .instanceValues id classId values ∈ draft.items) {c : ClassDraft}
    (hc : draft.class? classId = some c) :
    ∃ line, Lineage ClassDraft.id draft.superclass? [] c line ∧
      (values.map (·.type) = (line.flatMap (·.fields)).map (·.2) →
        ∃ i, graph.instance? id = some (.plain i) ∧
          graph.fieldValues i = .ok (((line.flatMap (·.fields)).map fun f => graph.field f.1 f.2).zip
            (values.map (·.asRead)))) := by
  obtain ⟨line, layout, hline, hlayout, hfields, hoffsets⟩ := h.exists_layout hc
  refine ⟨line, hline, fun htypes => ?_⟩
  obtain ⟨i, hfound, rfl, hblob⟩ := h.exists_plain hitem
  have hlayoutTypes : layout.map (·.field.type) = (line.flatMap (·.fields)).map (·.2) := by
    have htypes := congrArg (List.map Field.type) hfields
    rwa [List.map_map, List.map_map] at htypes
  have hdecoded : layout.mapM (graph.fieldValue i ([] ++ values.flatMap (·.toBytes graph.idWidth))) = _ :=
    ObjectGraph.mapM_fieldValue i (htypes.trans hlayoutTypes.symm) (h.item_fits hitem).2
      fun before f after hsplit => (hoffsets before f after hsplit).trans (Nat.zero_add _).symm
  refine ⟨i, hfound, ?_⟩
  rw [ObjectGraph.fieldValues, hlayout]
  show (graph.source.slice i.offset i.length.toNat).bind _ = _
  rw [hblob, ← hfields, ← hdecoded]
  rfl

theorem arrayTargets_of_mem {id classId : Ident} {elements : List (Option Ident)}
    (hitem : .objectArray id classId elements ∈ draft.items) :
    ∃ a, graph.instance? id = some (.array a) ∧
      graph.arrayTargets a = .ok (elements.map (·.bind Ident.nonNull?)) := by
  obtain ⟨a, hfound, htype, helements⟩ := h.exists_elements hitem .object
    (fun position subRecord hread heapId => by cases hread; exact ⟨_, rfl, rfl, rfl, rfl, rfl⟩)
    rfl (fun target _ => DraftItem.length_reference graph.idWidth target)
  refine ⟨a, hfound, ?_⟩
  rw [ObjectGraph.arrayTargets, htype]
  show (graph.elementBytes a).map (List.map _) = _
  rw [helements]
  show Except.ok _ = _
  rw [List.map_map]
  refine congrArg Except.ok (List.map_congr_left fun target htarget => ?_)
  exact DraftItem.nonNull?_reference ((h.item_fits hitem).2 target htarget)

theorem arrayValues_of_mem {id : Ident} {type : PrimitiveType} {values : List Value}
    (hitem : .primitiveArray id type values ∈ draft.items) :
    ∃ a, graph.instance? id = some (.array a) ∧ graph.arrayValues a = .ok values := by
  have htypes := (h.item_fits hitem).1.2
  obtain ⟨a, hfound, htype, helements⟩ := h.exists_elements hitem (.primitive type)
    (fun position subRecord hread heapId => by cases hread; exact ⟨_, rfl, rfl, rfl, rfl, rfl⟩)
    rfl (fun v hv => by rw [Value.length_toBytes, htypes v hv])
  refine ⟨a, hfound, ?_⟩
  show (graph.elementBytes a).map (List.map _) = _
  rw [helements, htype]
  show Except.ok _ = _
  rw [List.map_map]
  refine congrArg Except.ok ((List.map_congr_left fun v hv => ?_).trans (List.map_id values))
  exact Value.ofBytes_primitive (htypes v hv)

theorem arrayValues_of_mem_noData {id : Ident} {type : PrimitiveType} {count : UInt32}
    (hitem : .primitiveArrayNoData id type count ∈ draft.items) :
    ∃ a, graph.instance? id = some (.array a) ∧ graph.arrayValues a = .ok [] := by
  obtain ⟨subRecord, heapId, ⟨position, hat, hlength, hread⟩, hobject⟩ := h.exists_object hitem
  cases hread
  obtain ⟨a, hfound, htype, hcount, hoffset⟩ := h.exists_array (hobject _ rfl)
  refine ⟨a, hfound, ?_⟩
  rw [ObjectGraph.arrayValues, ObjectGraph.elementBytes, hoffset]
  rfl

end Draft.Listed

namespace ObjectGraph

/-- What is written is read back, if the dump is accepted: the values of an instance with the fields of its
class and the superclasses of that, the elements of arrays, and no elements where a dump leaves them
out.  Identifier 0 is read as the null reference. -/
theorem contents_of_written (draft : Draft) (hfits : draft.Fits) (graph : ObjectGraph)
    (h : read (.ofBytes draft.toBytes.toByteArray) = .ok graph) :
    (∀ id classId values c, .instanceValues id classId values ∈ draft.items →
      draft.class? classId = some c → ∃ line, Lineage ClassDraft.id draft.superclass? [] c line ∧
        (values.map (·.type) = (line.flatMap (·.fields)).map (·.2) →
          ∃ i, graph.instance? id = some (.plain i) ∧
            graph.fieldValues i = .ok
              (((line.flatMap (·.fields)).map fun f => graph.field f.1 f.2).zip
                (values.map (·.asRead))))) ∧
    (∀ id classId elements, .objectArray id classId elements ∈ draft.items →
      ∃ a, graph.instance? id = some (.array a) ∧
        graph.arrayTargets a = .ok (elements.map (·.bind Ident.nonNull?))) ∧
    (∀ id type values, .primitiveArray id type values ∈ draft.items →
      ∃ a, graph.instance? id = some (.array a) ∧ graph.arrayValues a = .ok values) ∧
    (∀ id type count, .primitiveArrayNoData id type count ∈ draft.items →
      ∃ a, graph.instance? id = some (.array a) ∧ graph.arrayValues a = .ok []) := by
  obtain ⟨entries, hlisted⟩ := hfits.exists_listed h
  exact ⟨fun _ _ _ _ hitem hc => hlisted.fieldValues_of_mem hitem hc,
    fun _ _ _ hitem => hlisted.arrayTargets_of_mem hitem,
    fun _ _ _ hitem => hlisted.arrayValues_of_mem hitem,
    fun _ _ _ hitem => hlisted.arrayValues_of_mem_noData hitem⟩

/-- A class stands behind an instance of it, and its superclass in another heap. -/
def inherited : Draft :=
  ⟨"JAVA PROFILE 1.0.3", .four, 0,
    [.text ⟨100⟩ "next",
      .heapDump [.instanceValues ⟨16⟩ ⟨2⟩ [.object (some ⟨17⟩), .float 0x7FC00001, .long (-5)],
        .classDump ⟨2⟩ (some ⟨1⟩) 16 [] [] [(⟨100⟩, .object), (⟨101⟩, .primitive .float)]],
      .segment [.heapSwitch 65 ⟨102⟩, .classDump ⟨1⟩ none 8 [] [] [(⟨103⟩, .primitive .long)],
        .objectArray ⟨17⟩ ⟨1⟩ [some ⟨16⟩, none, some ⟨0⟩],
        .primitiveArray ⟨18⟩ .short [.short 1, .short (-2)], .primitiveArrayNoData ⟨19⟩ .long 4]]⟩

def derivedClass : ClassDraft := ⟨⟨2⟩, some ⟨1⟩, [(⟨100⟩, .object), (⟨101⟩, .primitive .float)]⟩

def baseClass : ClassDraft := ⟨⟨1⟩, none, [(⟨103⟩, .primitive .long)]⟩

theorem contents_of_written_inherited :
    inherited.Fits ∧ ∃ graph, read (.ofBytes inherited.toBytes.toByteArray) = .ok graph ∧
      (∃ i, graph.instance? ⟨16⟩ = some (.plain i) ∧
        graph.fieldValues i = .ok [(graph.field ⟨100⟩ .object, .object (some ⟨17⟩)),
          (graph.field ⟨101⟩ (.primitive .float), .float 0x7FC00001),
          (graph.field ⟨103⟩ (.primitive .long), .long (-5))]) ∧
      (∃ a, graph.instance? ⟨17⟩ = some (.array a) ∧
        graph.arrayTargets a = .ok [some ⟨16⟩, none, none]) ∧
      (∃ a, graph.instance? ⟨18⟩ = some (.array a) ∧
        graph.arrayValues a = .ok [.short 1, .short (-2)]) ∧
      ∃ a, graph.instance? ⟨19⟩ = some (.array a) ∧ graph.arrayValues a = .ok [] := by
  have hfits : inherited.Fits := ⟨by decide, by decide +kernel, by decide, by decide⟩
  obtain ⟨graph, hgraph⟩ := exists_of_isOk
    (show (read (.ofBytes inherited.toBytes.toByteArray)).isOk = true by decide +kernel)
  obtain ⟨hplain, htargets, hvalues, hnoData⟩ := contents_of_written inherited hfits graph hgraph
  obtain ⟨line, hline, hfields⟩ := hplain ⟨16⟩ ⟨2⟩
    [.object (some ⟨17⟩), .float 0x7FC00001, .long (-5)] derivedClass (by decide) (by decide)
  have hchain : Lineage ClassDraft.id inherited.superclass? [] derivedClass [derivedClass, baseClass] :=
    .step (by decide) (by decide) (.last (by decide) (by decide))
  obtain rfl := hchain.unique hline
  exact ⟨hfits, graph, hgraph, hfields (by decide),
    htargets ⟨17⟩ ⟨1⟩ [some ⟨16⟩, none, some ⟨0⟩] (by decide),
    hvalues ⟨18⟩ .short [.short 1, .short (-2)] (by decide), hnoData ⟨19⟩ .long 4 (by decide)⟩

/-- The tag of the root wants four bytes more than are written, so the instance is not read. -/
def mistagged : Draft :=
  ⟨"JAVA PROFILE 1.0.2", .four, 0,
    [.heapDump [.classDump ⟨1⟩ none 4 [] [] [(⟨2⟩, .primitive .int)],
      .root (.root .nativeStack) ⟨16⟩, .instanceValues ⟨33⟩ ⟨1⟩ [.int 0]]]⟩

/-- What stands behind the first NUL of the label is read as the width of identifiers and the time. -/
def overlong : Draft :=
  ⟨"JAVA PROFILE 1.0.2\x00\x00\x00\x00\x08\x00\x00\x00\x00\x00\x00\x00\x00", .four, 0x400000000,
    [.heapDump [.objectArray ⟨1⟩ ⟨1⟩ [none, none, none, none]]]⟩

/-- Neither the tag of a root nor the label of a dump may say what it does not hold. -/
theorem contents_of_written_misread :
    ('\x00' ∉ mistagged.label.toList ∧ mistagged.objectIds.Nodup ∧ Ident.null ∉ mistagged.objectIds ∧
      (∀ record ∈ mistagged.records, record.isComposed ∧ (record.body .four).length < 2 ^ 32) ∧
      (∀ item ∈ mistagged.items, item.ContentFits .four ∧
        (item.Fits .four ∨ item = .root (.root .nativeStack) ⟨16⟩)) ∧
      .instanceValues ⟨33⟩ ⟨1⟩ [.int 0] ∈ mistagged.items ∧
      ∃ graph, read (.ofBytes mistagged.toBytes.toByteArray) = .ok graph ∧
        graph.instance? ⟨33⟩ = none) ∧
    (overlong.objectIds.Nodup ∧ Ident.null ∉ overlong.objectIds ∧
      (∀ record ∈ overlong.records, record.Fits .four) ∧
      .objectArray ⟨1⟩ ⟨1⟩ [none, none, none, none] ∈ overlong.items ∧
      ∃ graph, read (.ofBytes overlong.toBytes.toByteArray) = .ok graph ∧
        graph.instance? ⟨1⟩ = none) := by
  have hmistagged : ((read (.ofBytes mistagged.toBytes.toByteArray)).toOption.any fun graph =>
      graph.instance? ⟨33⟩ = none) = true := by
    decide +kernel
  have hoverlong : ((read (.ofBytes overlong.toBytes.toByteArray)).toOption.any fun graph =>
      graph.instance? ⟨1⟩ = none) = true := by
    decide +kernel
  obtain ⟨graph, hgraph, hnone⟩ := exists_of_any hmistagged
  obtain ⟨graph', hgraph', hnone'⟩ := exists_of_any hoverlong
  exact ⟨⟨by decide, by decide, by decide, by decide +kernel, by decide, by decide, graph, hgraph,
    of_decide_eq_true hnone⟩, by decide, by decide, by decide +kernel, by decide, graph', hgraph',
    of_decide_eq_true hnone'⟩

end ObjectGraph

end HeapDump

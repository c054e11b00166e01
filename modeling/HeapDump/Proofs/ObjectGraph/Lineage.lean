import HeapDump.Proofs.ObjectGraph.Acceptance
import Mathlib.Algebra.Ring.Nat
import Mathlib.Data.List.Perm.Subperm

/-! Lineages and layouts.  The lineage of a class is it and its superclasses until there is none or one
has an identifier met before.  A layout lists the fields of a lineage, each behind all bytes of the
fields before it.  Layouts are kept by identifier, that of a later class in place of that of an earlier
one, while a lookup finds the object that has the identifier first.  So the layout found for an
identifier is that of the last class that has it, and where every class that has it is the one found,
it is the layout of that class. -/

namespace HeapDump

/-- Something and what comes next after it, as long as no key has been met before. -/
inductive Lineage {α : Type} (key : α → Ident) (next? : α → Option α) :
    List Ident → α → List α → Prop
  | again {met : List Ident} {a : α} (hmet : key a ∈ met) : Lineage key next? met a []
  | last {met : List Ident} {a : α} (hnew : key a ∉ met) (hnone : next? a = none) :
      Lineage key next? met a [a]
  | step {met : List Ident} {a b : α} {line : List α} (hnew : key a ∉ met) (hnext : next? a = some b)
      (hline : Lineage key next? (key a :: met) b line) : Lineage key next? met a (a :: line)

namespace Lineage

variable {α β : Type} {key : α → Ident} {next? : α → Option α} {met : List Ident} {a : α}
  {line : List α}

theorem unique (h : Lineage key next? met a line) {line' : List α}
    (h' : Lineage key next? met a line') : line' = line := by
  induction h generalizing line' with
  | again hmet =>
    cases h' with
    | again _ => rfl
    | last hnew _ => exact absurd hmet hnew
    | step hnew _ _ => exact absurd hmet hnew
  | last hnew hnone =>
    cases h' with
    | again hmet => exact absurd hmet hnew
    | last _ _ => rfl
    | step _ hnext _ =>
      rw [hnone] at hnext
      cases hnext
  | step hnew hnext _ ih =>
    cases h' with
    | again hmet => exact absurd hmet hnew
    | last _ hnone =>
      rw [hnone] at hnext
      cases hnext
    | step _ hnext' hline' =>
      rw [hnext] at hnext'
      cases hnext'
      rw [ih hline']

variable {key' : β → Ident} {next?' : β → Option β} {R : α → β → Prop} {b : β} {line' : List β}

/-- If one thing goes on wherever another one does, its lineage begins with that of the other. -/
theorem front (hkey : ∀ a b, R a b → key a = key' b)
    (hnext : ∀ a b s, R a b → next? a = some s → ∃ t, next?' b = some t ∧ R s t)
    (h : Lineage key next? met a line) (hab : R a b) (h' : Lineage key' next?' met b line') :
    ∃ front back, line' = front ++ back ∧ List.Forall₂ R line front := by
  induction h generalizing b line' with
  | again hmet => exact ⟨[], line', rfl, .nil⟩
  | last hnew hnone =>
    rw [hkey _ _ hab] at hnew
    cases h' with
    | again hmet => exact absurd hmet hnew
    | last _ _ => exact ⟨[b], [], rfl, .cons hab .nil⟩
    | @step _ _ t rest _ _ _ => exact ⟨[b], rest, rfl, .cons hab .nil⟩
  | step hnew hs _ ih =>
    obtain ⟨t, ht, hst⟩ := hnext _ _ _ hab hs
    rw [hkey _ _ hab] at hnew ih
    cases h' with
    | again hmet => exact absurd hmet hnew
    | last _ hnone =>
      rw [hnone] at ht
      cases ht
    | step _ hnext' hline' =>
      rw [hnext'] at ht
      cases ht
      obtain ⟨front, back, rfl, hfront⟩ := ih hst hline'
      exact ⟨b :: front, back, rfl, .cons hab hfront⟩

/-- If two things go on in the same way, one has a lineage where the other one has. -/
theorem exists_forall₂ (hkey : ∀ a b, R a b → key a = key' b)
    (hnext : ∀ a b s, R a b → next? a = some s → ∃ t, next?' b = some t ∧ R s t)
    (hnext' : ∀ a b t, R a b → next?' b = some t → ∃ s, next? a = some s ∧ R s t)
    (hab : R a b) (h' : Lineage key' next?' met b line') :
    ∃ line, Lineage key next? met a line ∧ List.Forall₂ R line line' := by
  induction h' generalizing a with
  | again hmet =>
    rw [← hkey _ _ hab] at hmet
    exact ⟨[], .again hmet, .nil⟩
  | last hnew hnone =>
    rw [← hkey _ _ hab] at hnew
    refine ⟨[a], .last hnew (Option.eq_none_iff_forall_ne_some.mpr fun s hs => ?_), .cons hab .nil⟩
    obtain ⟨t, ht, -⟩ := hnext _ _ _ hab hs
    rw [hnone] at ht
    cases ht
  | step hnew ht _ ih =>
    obtain ⟨s, hs, hst⟩ := hnext' _ _ _ hab ht
    obtain ⟨line, hline, hall⟩ := ih hst
    rw [← hkey _ _ hab] at hnew hline
    exact ⟨a :: line, .step hnew hs hline, .cons hab hall⟩

end Lineage

/-! ### Chains -/

namespace ObjectTable

variable {table : ObjectTable}

theorem mem_classes_of_superclass? {c s : ClassObject} (h : table.superclass? c = some s) :
    s ∈ table.classes := by
  obtain ⟨id, -, hclass⟩ := Option.bind_eq_some_iff.mp h
  exact mem_classes_of_class? hclass

/-- The identifiers that have been met are different ones of the table, so a chain returns before there is
no fuel left. -/
theorem lineage_chainFrom {fuel : Nat} {met : List Ident} {c : ClassObject}
    (hnodup : met.Nodup) (hmet : met ⊆ table.classes.map (·.id)) (hc : c ∈ table.classes)
    (hfuel : table.classes.length < fuel + met.length) :
    Lineage ClassObject.id table.superclass? met c (table.chainFrom fuel met c).1 := by
  induction fuel generalizing met c with
  | zero =>
    have hle := (List.subperm_of_subset hnodup hmet).length_le
    rw [List.length_map] at hle
    omega
  | succ fuel ih =>
    rw [chainFrom]
    split
    · next hagain => exact .again hagain
    · next hnew =>
      split
      · next hnone => exact .last hnew hnone
      · next s hs =>
        refine .step hnew hs (ih (List.nodup_cons.mpr ⟨hnew, hnodup⟩) ?_ (mem_classes_of_superclass? hs) ?_)
        · exact List.cons_subset.mpr ⟨List.mem_map_of_mem hc, hmet⟩
        · rw [List.length_cons]
          omega

theorem lineage_chain {c : ClassObject} (hc : c ∈ table.classes) :
    Lineage ClassObject.id table.superclass? [] c (table.chain c).1 :=
  lineage_chainFrom List.nodup_nil (List.nil_subset _) hc (Nat.lt_succ_self _)

end ObjectTable

/-! ### Layouts -/

namespace LayoutField

variable {width : IdWidth}

/-- A layout of the fields of some classes, in order. -/
structure Lists (width : IdWidth) (line : List ClassObject) (layout : List LayoutField) : Prop where
  fields : layout.map (fun f => (f.declaringClass, f.field)) =
    line.flatMap fun c => c.fields.map (c.id, ·)
  /-- A field lies behind the bytes of all fields before it. -/
  offsets : ∀ before f after, layout = before ++ f :: after →
    f.offset = (before.map (·.field.type.size width)).sum

theorem map_place (width : IdWidth) (offset : Nat) (fields : List (Ident × Field)) :
    (place width offset fields).map (fun f => (f.declaringClass, f.field)) = fields := by
  induction fields generalizing offset with
  | nil => rfl
  | cons entry fields ih => rw [place, List.map_cons, ih]

theorem offset_of_place {offset : Nat} {fields : List (Ident × Field)} {before after : List LayoutField}
    {f : LayoutField} (h : place width offset fields = before ++ f :: after) :
    f.offset = offset + (before.map (·.field.type.size width)).sum := by
  induction fields generalizing offset before with
  | nil => simp [place] at h
  | cons entry fields ih =>
    obtain ⟨declaringClass, field⟩ := entry
    rw [place] at h
    cases before with
    | nil =>
      obtain ⟨rfl, -⟩ := List.cons.inj h
      rfl
    | cons first before =>
      obtain ⟨rfl, hrest⟩ := List.cons.inj h
      rw [ih hrest, List.map_cons, List.sum_cons, Nat.add_assoc]

theorem Lists.map_field {line : List ClassObject} {layout : List LayoutField}
    (h : Lists width line layout) : layout.map (·.field) = line.flatMap (·.fields) := by
  have hsecond := congrArg (List.map Prod.snd) h.fields
  rw [List.map_map, List.map_flatMap] at hsecond
  simpa [Function.comp_def] using hsecond

/-- A layout needs as many bytes as its fields have together. -/
theorem Lists.total_eq {line : List ClassObject} {layout : List LayoutField}
    (h : Lists width line layout) :
    total width layout = ((line.flatMap (·.fields)).map (·.type.size width)).sum := by
  rw [← h.map_field, List.map_map]
  rcases List.eq_nil_or_concat layout with rfl | ⟨before, f, rfl⟩
  · rfl
  · rw [List.concat_eq_append] at h ⊢
    rw [total, List.getLast?_append, List.map_append, List.sum_append]
    show f.offset + f.field.type.size width = _
    rw [h.offsets before f [] rfl]
    simp [Function.comp_def]

end LayoutField

namespace ObjectTable

variable {table : ObjectTable}

theorem lists_layout (width : IdWidth) (table : ObjectTable) (c : ClassObject) :
    LayoutField.Lists width (table.chain c).1 (table.layout width c) where
  fields := LayoutField.map_place width 0 _
  offsets _ _ _ h := (LayoutField.offset_of_place h).trans (Nat.zero_add _)

/-- Every layout kept lists the lineage of the last class that has the identifier. -/
theorem lists_of_getElem?_layouts {width : IdWidth} {id : Ident} {layout : List LayoutField}
    (h : (table.layouts width)[id]? = some layout) : ∃ c line,
      table.classes.reverse.find? (·.id = id) = some c ∧
        Lineage ClassObject.id table.superclass? [] c line ∧
        LayoutField.Lists width line layout := by
  rw [getElem?_layouts_eq] at h
  obtain ⟨c, hlast, rfl⟩ := Option.map_eq_some_iff.mp h
  have hc : c ∈ table.classes := List.mem_reverse.mp (List.mem_of_find?_eq_some hlast)
  exact ⟨c, (table.chain c).1, hlast, lineage_chain hc, lists_layout width table c⟩

theorem mem_classes_of_find?_reverse {id : Ident} {c : ClassObject}
    (h : table.classes.reverse.find? (·.id = id) = some c) : c ∈ table.classes ∧ c.id = id := by
  have hid := List.find?_some h
  exact ⟨List.mem_reverse.mp (List.mem_of_find?_eq_some h), of_decide_eq_true hid⟩

theorem isSome_getElem?_layouts {width : IdWidth} {id : Ident} :
    ((table.layouts width)[id]?).isSome ↔ ∃ c ∈ table.classes, c.id = id := by
  rw [getElem?_layouts_eq, Option.isSome_map, List.find?_isSome]
  simp only [List.mem_reverse, decide_eq_true_eq]

/-- If no other class has its identifier, the layout kept for it is that of the class found. -/
theorem exists_layout_of_class? {source : ByteSource} {width : IdWidth}
    (consistent : table.Consistent source width) {id : Ident} {c : ClassObject}
    (honly : ∀ c ∈ table.classes, c.id = id → table.class? id = some c)
    (hc : table.class? id = some c) : ∃ line layout,
      (table.layouts width)[id]? = some layout ∧
        Lineage ClassObject.id table.superclass? [] c line ∧
        LayoutField.Lists width line layout := by
  have hsome : ((table.layouts width)[id]?).isSome :=
    isSome_getElem?_layouts.mpr ⟨c, mem_classes_of_class? hc, id_of_class? consistent hc⟩
  obtain ⟨layout, hlayout⟩ := Option.isSome_iff_exists.mp hsome
  obtain ⟨last, line, hlast, hline, hlists⟩ := lists_of_getElem?_layouts hlayout
  obtain ⟨hmem, hid⟩ := mem_classes_of_find?_reverse hlast
  have hsame := honly last hmem hid
  rw [hc] at hsame
  cases hsame
  exact ⟨line, layout, hlayout, hline, hlists⟩

end ObjectTable

namespace ObjectGraph

/-- The layout found for an identifier in an accepted dump lists the lineage of the last class that has the
identifier.  If no other object has it, that is the class found. -/
theorem layout?_lists (file : ByteArray) (graph : ObjectGraph) (h : read (.ofBytes file) = .ok graph)
    (id : Ident) :
    ((graph.layout? id).isSome ↔ ∃ c ∈ graph.classes, c.id = id) ∧
    (∀ layout, graph.layout? id = some layout → ∃ c line,
      graph.classes.reverse.find? (·.id = id) = some c ∧
        Lineage ClassObject.id graph.superclass? [] c line ∧
        LayoutField.Lists graph.idWidth line layout) ∧
    ((∀ c ∈ graph.classes, c.id = id → graph.class? id = some c) →
      ((graph.layout? id).isSome ↔ (graph.class? id).isSome) ∧
        ∀ c, graph.class? id = some c → ∃ line layout, graph.layout? id = some layout ∧
          Lineage ClassObject.id graph.superclass? [] c line ∧
          LayoutField.Lists graph.idWidth line layout) := by
  have sound : graph.Sound := read_sound (ByteSource.lawful_ofBytes file) h
  have hlayout : graph.layout? id = (graph.toObjectTable.layouts graph.idWidth)[id]? := by
    rw [layout?, sound.layouts]
  have hsome : (graph.layout? id).isSome ↔ ∃ c ∈ graph.classes, c.id = id := by
    rw [hlayout]
    exact ObjectTable.isSome_getElem?_layouts
  have hlists : ∀ layout, graph.layout? id = some layout → ∃ c line,
      graph.classes.reverse.find? (·.id = id) = some c ∧
        Lineage ClassObject.id graph.superclass? [] c line ∧
        LayoutField.Lists graph.idWidth line layout := by
    intro layout hfound
    rw [hlayout] at hfound
    exact ObjectTable.lists_of_getElem?_layouts hfound
  refine ⟨hsome, hlists, fun honly => ⟨⟨fun hfound => ?_, fun hfound => ?_⟩, fun c hc => ?_⟩⟩
  · obtain ⟨c, hc, hid⟩ := hsome.mp hfound
    exact Option.isSome_iff_exists.mpr ⟨c, honly c hc hid⟩
  · obtain ⟨c, hc⟩ := Option.isSome_iff_exists.mp hfound
    exact hsome.mpr
      ⟨c, ObjectTable.mem_classes_of_class? hc, ObjectTable.id_of_class? sound.table hc⟩
  · rw [hlayout]
    exact ObjectTable.exists_layout_of_class? sound.table honly hc

/-- Two classes that are superclasses of each other. -/
def looped : ByteArray :=
  (Draft.toBytes ⟨"JAVA PROFILE 1.0.2", .four, 0,
    [.heapDump [.classDump ⟨7⟩ (some ⟨8⟩) 14 [] [] [(⟨1⟩, .primitive .byte), (⟨2⟩, .object)],
      .classDump ⟨8⟩ (some ⟨7⟩) 13 [] [] [(⟨3⟩, .primitive .long)]]]⟩).toByteArray

theorem layout?_lists_looped :
    ∃ graph c line layout, read (.ofBytes looped) = .ok graph ∧ graph.class? ⟨7⟩ = some c ∧
      graph.layout? ⟨7⟩ = some layout ∧ Lineage ClassObject.id graph.superclass? [] c line ∧
      LayoutField.Lists graph.idWidth line layout := by
  have hread : ((read (.ofBytes looped)).toOption.any fun graph => (graph.class? ⟨7⟩).isSome &&
      graph.classes.all fun c => !(c.id = ⟨7⟩) || graph.class? ⟨7⟩ = some c) = true := by
    decide +kernel
  obtain ⟨graph, hgraph, hclasses⟩ := exists_of_any hread
  rw [Bool.and_eq_true, List.all_eq_true] at hclasses
  obtain ⟨hfound, honly⟩ := hclasses
  obtain ⟨c, hc⟩ := Option.isSome_iff_exists.mp hfound
  obtain ⟨-, -, hlists⟩ := layout?_lists looped graph hgraph ⟨7⟩
  obtain ⟨-, hlayout⟩ := hlists fun c hc hid => by simpa [hid] using honly c hc
  obtain ⟨line, layout, hlayout⟩ := hlayout c hc
  exact ⟨graph, c, line, layout, hgraph, hc, hlayout⟩

/-- Identifier 5 is that of an instance and, after it, of a class; 6 is that of two classes. -/
def shared : ByteArray :=
  (Draft.toBytes ⟨"JAVA PROFILE 1.0.2", .four, 0,
    [.heapDump [.instance ⟨5⟩ ⟨5⟩ [], .classDump ⟨5⟩ none 0 [] [] [(⟨1⟩, .primitive .int)],
      .classDump ⟨6⟩ none 0 [] [] [(⟨1⟩, .primitive .int)],
      .classDump ⟨6⟩ none 0 [] [] [(⟨1⟩, .primitive .long)]]]⟩).toByteArray

/-- A layout is found where no class is, and another one than that of the class found. -/
theorem layout?_shared :
    ∃ graph c f, read (.ofBytes shared) = .ok graph ∧
      graph.class? ⟨5⟩ = none ∧ (graph.layout? ⟨5⟩).isSome ∧
      graph.class? ⟨6⟩ = some c ∧ c.fields.map (·.type) = [.primitive .int] ∧
      graph.layout? ⟨6⟩ = some [f] ∧ f.field.type = .primitive .long := by
  have hread : ((read (.ofBytes shared)).toOption.any fun graph =>
      graph.class? ⟨5⟩ = none && (graph.layout? ⟨5⟩).isSome &&
      (graph.class? ⟨6⟩).any (·.fields.map (·.type) = [.primitive .int]) &&
      (graph.layout? ⟨6⟩).any (·.map (·.field.type) = [.primitive .long])) = true := by
    decide +kernel
  obtain ⟨graph, hgraph, hfacts⟩ := exists_of_any hread
  simp only [Bool.and_eq_true, decide_eq_true_eq, Option.any_eq_true] at hfacts
  obtain ⟨⟨⟨hnone, hfive⟩, c, hc, hint⟩, layout, hsix, hlong⟩ := hfacts
  obtain ⟨f, rfl, hf⟩ := List.map_eq_singleton_iff.mp hlong
  exact ⟨graph, c, f, hgraph, hnone, hfive, hc, hint, hsix, hf⟩

end ObjectGraph

end HeapDump

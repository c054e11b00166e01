import HeapDump.Proofs.ObjectGraph.Table
import Mathlib.Data.List.Induction

/-! Layouts and the sizes of instances.  Fields lie one after another, so an instance has room for all of
them if it has room for the last.  A dump is accepted only if each instance whose class can be looked
up has that room. -/

namespace HeapDump

namespace LayoutField

variable {width : IdWidth}

theorem total_cons_cons (f g : LayoutField) (layout : List LayoutField) :
    total width (f :: g :: layout) = total width (g :: layout) := by
  rw [total, total, List.getLast?_cons_cons]

theorem le_total_place {offset : Nat} {fields : List (Ident × Field)} (hne : fields ≠ []) :
    offset ≤ total width (place width offset fields) := by
  induction fields generalizing offset with
  | nil => exact absurd rfl hne
  | cons entry fields ih =>
    obtain ⟨declaringClass, field⟩ := entry
    cases fields with
    | nil => exact Nat.le_add_right _ _
    | cons next fields =>
      have hrest : offset + field.type.size width ≤
          total width (place width (offset + field.type.size width) (next :: fields)) :=
        ih (List.cons_ne_nil _ _)
      rw [place, place, total_cons_cons]
      rw [place] at hrest
      omega

theorem stop_le_total {offset : Nat} {fields : List (Ident × Field)} :
    ∀ f ∈ place width offset fields, f.stop width ≤ total width (place width offset fields) := by
  induction fields generalizing offset with
  | nil => simp [place]
  | cons entry fields ih =>
    obtain ⟨declaringClass, field⟩ := entry
    intro f hf
    cases fields with
    | nil =>
      rw [place, place, List.mem_singleton] at hf
      subst hf
      exact Nat.le_refl _
    | cons next fields =>
      have htotal : total width (place width offset ((declaringClass, field) :: next :: fields)) =
          total width (place width (offset + field.type.size width) (next :: fields)) := by
        obtain ⟨nextClass, nextField⟩ := next
        simp only [place, total_cons_cons]
      rw [htotal]
      rcases List.mem_cons.mp hf with rfl | hf
      · exact le_total_place (List.cons_ne_nil _ _)
      · exact ih f hf

theorem total_le_iff {offset n : Nat} {fields : List (Ident × Field)} :
    total width (place width offset fields) ≤ n ↔
      ∀ f ∈ place width offset fields, f.stop width ≤ n := by
  constructor
  · exact fun h f hf => Nat.le_trans (stop_le_total f hf) h
  · intro h
    cases hlast : (place width offset fields).getLast? with
    | none =>
      rw [total, hlast]
      exact Nat.zero_le n
    | some f =>
      rw [total, hlast]
      exact h f (List.mem_of_getLast? hlast)

end LayoutField

namespace ObjectTable

/-- The layout kept for an identifier is that of the last class that has it. -/
theorem getElem?_layouts_eq (width : IdWidth) (table : ObjectTable) (id : Ident) :
    (table.layouts width)[id]? =
      (table.classes.reverse.find? (·.id = id)).map (table.layout width) := by
  unfold layouts
  generalize table.classes = classes
  induction classes using List.reverseRecOn with
  | nil => simp
  | append_singleton classes c ih =>
    rw [List.foldl_append, List.foldl_cons, List.foldl_nil, Std.TreeMap.getElem?_insert,
      List.reverse_append, List.reverse_singleton, List.singleton_append, List.find?_cons, ih]
    by_cases hid : c.id = id
    · simp [hid]
    · simp [hid]

theorem getElem?_layouts {width : IdWidth} {table : ObjectTable} {id : Ident}
    {layout : List LayoutField} (h : (table.layouts width)[id]? = some layout) :
    ∃ c ∈ table.classes, c.id = id ∧ layout = table.layout width c := by
  rw [getElem?_layouts_eq] at h
  obtain ⟨c, hfind, rfl⟩ := Option.map_eq_some_iff.mp h
  have hmem : c ∈ table.classes := List.mem_reverse.mp (List.mem_of_find?_eq_some hfind)
  have hid := List.find?_some hfind
  exact ⟨c, hmem, of_decide_eq_true hid, rfl⟩

end ObjectTable

namespace ObjectGraph

/-- A dump in which an instance of a class is too short is not accepted. -/
theorem checkSizes_none {graph : ObjectGraph} {instances : List PlainInstance}
    {reported : List Ident} (h : (graph.checkSizes instances reported).failure = none) :
    ∀ i ∈ instances, ∀ c, graph.class? i.classId = some c →
      LayoutField.total graph.idWidth ((graph.layout? c.id).getD []) ≤ i.length.toNat := by
  induction instances generalizing reported with
  | nil => simp
  | cons i instances ih =>
    rw [checkSizes] at h
    have hsplit : (∀ c, graph.class? i.classId = some c →
        LayoutField.total graph.idWidth ((graph.layout? c.id).getD []) ≤ i.length.toNat) ∧
        ∃ reported, (graph.checkSizes instances reported).failure = none := by
      split at h
      · next hnone => exact ⟨fun c hc => absurd (hnone.symm.trans hc) (by simp), _, h⟩
      · next c hclass =>
        have hroom : ∀ c', graph.class? i.classId = some c' → c' = c := by
          intro c' hc'
          rw [hclass] at hc'
          exact (Option.some.inj hc').symm
        dsimp only at h
        split at h
        · cases h
        · next henough =>
          refine ⟨fun c' hc' => ?_, ?_⟩
          · rw [hroom c' hc']
            omega
          · split at h
            · exact ⟨_, h⟩
            · exact ⟨_, h⟩
    obtain ⟨hfirst, reported', hrest⟩ := hsplit
    intro j hj
    rcases List.mem_cons.mp hj with rfl | hj
    · exact hfirst
    · exact ih hrest j hj

/-- What is known of the graph of an accepted dump. -/
structure Sound (graph : ObjectGraph) : Prop where
  lawful : graph.source.Lawful
  table : graph.toObjectTable.Consistent graph.source graph.idWidth
  layouts : graph.layouts = graph.toObjectTable.layouts graph.idWidth
  sizes : ∀ i, Instance.plain i ∈ graph.instances → ∀ c, graph.class? i.classId = some c →
    LayoutField.total graph.idWidth ((graph.layout? c.id).getD []) ≤ i.length.toNat

theorem read_sound {source : ByteSource} (lawful : source.Lawful) {graph : ObjectGraph}
    (h : read source = .ok graph) : graph.Sound := by
  unfold read Reading.ofSource at h
  split at h
  · cases h
  · next header hheader =>
    dsimp only at h
    split at h
    · cases h
    · next hentries =>
      have hcensus : (Census.ofEntries (Entry.list source header).items).Consistent source
          header.idWidth :=
        Census.ofEntries_consistent (Entry.list_inside lawful header)
      unfold Reading.ofCensus at h
      dsimp only at h
      split at h
      · cases h
      · next hsizes =>
        cases h
        refine ⟨lawful, hcensus.table.link, rfl, fun i hi => ?_⟩
        exact checkSizes_none hsizes i (List.mem_filterMap.mpr ⟨_, hi, rfl⟩)

end ObjectGraph

end HeapDump

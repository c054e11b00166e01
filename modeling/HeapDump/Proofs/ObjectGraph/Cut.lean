import HeapDump.Proofs.Header
import HeapDump.Proofs.ObjectGraph.Lineage
import HeapDump.Proofs.ObjectGraph.Links
import HeapDump.Proofs.Record.Cut

/-! Dumps that are cut off.  If a dump is cut inside its header or inside a record, the rest is not accepted:
it is malformed from the start or read past its end.  If it is cut between two records and no two of its
objects share an identifier, the rest is accepted: fewer classes can only make the lineage of a class end
earlier, so no layout needs more bytes than before. -/

namespace HeapDump

/-! ### Fewer entries -/

/-- Two classes with the same identifier, the same superclass and fields of the same types. -/
structure SameShape (c d : ClassObject) : Prop where
  id : c.id = d.id
  superclass : c.superclass = d.superclass
  types : c.fields.map (·.type) = d.fields.map (·.type)

theorem Census.Describes.sameShape {census census' : Census} {dump : ClassDump} {c d : ClassObject}
    (h : census.Describes dump c) (h' : census'.Describes dump d) : SameShape c d where
  id := h.id.trans h'.id.symm
  superclass := h.superclass.trans h'.superclass.symm
  types := by
    rw [h.fields, h'.fields, List.map_map, List.map_map]
    rfl

/-- The sizes of all fields of some classes. -/
def fieldSizes (width : IdWidth) (line : List ClassObject) : List Nat :=
  (line.flatMap (·.fields)).map (·.type.size width)

theorem fieldSizes_append (width : IdWidth) (front back : List ClassObject) :
    fieldSizes width (front ++ back) = fieldSizes width front ++ fieldSizes width back := by
  rw [fieldSizes, List.flatMap_append, List.map_append]
  rfl

theorem fieldSizes_congr (width : IdWidth) {line line' : List ClassObject}
    (h : List.Forall₂ SameShape line line') : fieldSizes width line = fieldSizes width line' := by
  induction h with
  | nil => rfl
  | @cons c d line line' hshape _ ih =>
    have hfirst : c.fields.map (·.type.size width) = d.fields.map (·.type.size width) := by
      have hsizes := congrArg (List.map (FieldType.size width)) hshape.types
      rwa [List.map_map, List.map_map] at hsizes
    simp only [fieldSizes, List.flatMap_cons, List.map_append] at ih ⊢
    rw [hfirst, ih]

/-- Every class of one table is found in another one. -/
def ObjectTable.Covers (whole part : ObjectTable) : Prop :=
  ∀ c ∈ part.classes, ∃ d, whole.class? c.id = some d ∧ SameShape c d

namespace ObjectTable

variable {source : ByteSource} {width : IdWidth} {whole part : ObjectTable}

theorem Covers.superclass? (covers : whole.Covers part) (consistent : part.Consistent source width)
    {c d s : ClassObject} (hshape : SameShape c d) (hs : part.superclass? c = some s) :
    ∃ t, whole.superclass? d = some t ∧ SameShape s t := by
  obtain ⟨id, hid, hfound⟩ := Option.bind_eq_some_iff.mp hs
  obtain ⟨t, ht, hst⟩ := covers s (mem_classes_of_class? hfound)
  rw [id_of_class? consistent hfound] at ht
  refine ⟨t, ?_, hst⟩
  rw [ObjectTable.superclass?, ← hshape.superclass, hid]
  exact ht

/-- A lineage in the whole goes at least as far as in the part, so its layout needs no less. -/
theorem Covers.exists_layout (covers : whole.Covers part) (consistent : part.Consistent source width)
    (consistent' : whole.Consistent source width) (hdistinct : whole.ids.Nodup) {id : Ident}
    {layout : List LayoutField} (hlayout : (part.layouts width)[id]? = some layout) :
    ∃ wide, (whole.class? id).isSome ∧ (whole.layouts width)[id]? = some wide ∧
      LayoutField.total width layout ≤ LayoutField.total width wide := by
  obtain ⟨c, line, hlast, hline, hlists⟩ := lists_of_getElem?_layouts hlayout
  obtain ⟨hc, rfl⟩ := mem_classes_of_find?_reverse hlast
  obtain ⟨d, hd, hshape⟩ := covers c hc
  obtain ⟨line', wide, hwide, hline', hlists'⟩ := exists_layout_of_class? consistent'
    (fun e he hid => hid ▸ class?_of_mem consistent' hdistinct he) hd
  obtain ⟨inherited, further, rfl, hshapes⟩ := Lineage.front (fun _ _ hshape => hshape.id)
    (fun _ _ _ hshape hs => covers.superclass? consistent hshape hs) hline hshape hline'
  refine ⟨wide, by rw [hd]; rfl, hwide, ?_⟩
  rw [hlists.total_eq, hlists'.total_eq]
  show (fieldSizes width line).sum ≤ (fieldSizes width (inherited ++ further)).sum
  rw [fieldSizes_append, List.sum_append, fieldSizes_congr width hshapes]
  exact Nat.le_add_right _ _

end ObjectTable

namespace Census

variable {front back : List Entry}

theorem mem_objectsOfEntries {entry : UInt32 × CensusObject} (h : entry ∈ objectsOfEntries front) :
    entry ∈ objectsOfEntries (front ++ back) := by
  rw [objectsOfEntries, List.flatMap_append, SubRecord.objects_append]
  exact List.mem_append_left _ h

/-- The classes of the front are among those of all entries, if no two objects share an identifier. -/
theorem covers_front {source : ByteSource} {width : IdWidth}
    (consistent : (ofEntries (front ++ back)).table.link.Consistent source width)
    (hdistinct : (ofEntries (front ++ back)).table.link.ids.Nodup) :
    (ofEntries (front ++ back)).table.link.Covers (ofEntries front).table.link := by
  intro c hc
  obtain ⟨heapId, dump, hmem, hdescribes⟩ := (filed_ofEntries front).1.exists_dump hc
  obtain ⟨d, hd, hdescribes'⟩ :=
    (filed_ofEntries (front ++ back)).1.exists_class (mem_objectsOfEntries hmem)
  have hshape := hdescribes.sameShape hdescribes'
  exact ⟨d, hshape.id ▸ ObjectTable.class?_of_mem consistent hdistinct hd, hshape⟩

end Census

namespace ObjectGraph

variable {source : ByteSource} {header : Header} {front back : List Entry}

/-- Fewer entries need no more room, if no two objects share an identifier. -/
theorem sizesFit_front
    (hinside : ∀ entry ∈ front ++ back, ∀ subRecord ∈ entry.contents.subRecords,
      subRecord.Inside source header.idWidth)
    (hdistinct : (ofCensus source header (.ofEntries (front ++ back))).ids.Nodup)
    (hfit : (ofCensus source header (.ofEntries (front ++ back))).SizesFit) :
    (ofCensus source header (.ofEntries front)).SizesFit := by
  have hwhole := (Census.ofEntries_consistent hinside).table.link
  have hpart := (Census.ofEntries_consistent fun entry hentry =>
    hinside entry (List.mem_append_left back hentry)).table.link
  intro i hi _ layout hlayout
  obtain ⟨wide, hclass, hwide, hle⟩ :=
    (Census.covers_front hwhole hdistinct).exists_layout hpart hwhole hdistinct hlayout
  obtain ⟨heapId, hobject⟩ := (Census.filed_ofEntries front).1.mem_plain_iff.mp hi
  have hmem := (Census.filed_ofEntries (front ++ back)).1.mem_plain_iff.mpr
    ⟨heapId, Census.mem_objectsOfEntries hobject⟩
  exact Nat.le_trans hle (hfit i hmem hclass wide hwide)

end ObjectGraph

/-! ### Cuts -/

/-- What stands before a failure is collected as if there were none. -/
theorem Listing.collect_of_none {ε α β : Type} {f : α → Listing ε β} {items : List α}
    (h : (collect f items none).failure = none) (failure : Option ε) :
    collect f items failure = ⟨(collect f items none).items, failure⟩ := by
  induction items with
  | nil => rfl
  | cons a items ih =>
    by_cases hfirst : (f a).failure.isSome
    · simp only [collect, if_pos hfirst] at h
      rw [h] at hfirst
      cases hfirst
    · simp only [collect, if_neg hfirst] at h ⊢
      rw [ih h]

namespace Framed

open Grammar

variable {file : ByteArray} {header : Header} {frames front back : List Frame}

theorem length_frames (h : Framed file header frames) :
    header.recordsOffset + (frames.flatMap Frame.toBytes).length = (ByteSource.ofBytes file).size := by
  rw [← h.drop_header, Header.length_drop h.read_header]

/-- The records of a framed dump, each where the one before it ends. -/
theorem items_eq (h : Framed file header frames) :
    (Record.list (.ofBytes file) header).items = Frame.records header.recordsOffset frames := by
  have hlength := h.length_frames
  have hle := Frame.length_le_flatMap frames
  have hat := h.hasAt
  rw [← List.flatMap_def] at hat
  obtain ⟨rest, hrest⟩ : ∃ rest, (ByteSource.ofBytes file).size - header.recordsOffset =
      frames.length + rest :=
    ⟨(ByteSource.ofBytes file).size - header.recordsOffset - frames.length, by omega⟩
  rw [Record.list, Scan.list, hrest, Frame.listFrom_frames hat (Nat.le_of_eq hlength),
    Scan.listFrom_of_le (Nat.le_of_eq hlength.symm)]
  exact List.append_nil _

theorem read_header_extract (h : Framed file header frames) (n : Nat) :
    Header.read (.ofBytes (file.extract 0 (header.recordsOffset + n))) = .ok header := by
  refine Header.read_of_take h.read_header ?_
  rw [Header.data_extract, List.take_take, Nat.min_eq_left (Nat.le_add_right _ _)]

theorem drop_extract (h : Framed file header frames) (n : Nat) :
    (file.extract 0 (header.recordsOffset + n)).data.toList.drop header.recordsOffset =
      (frames.flatMap Frame.toBytes).take n := by
  rw [Header.data_extract, List.drop_take, h.drop_header, Nat.add_sub_cancel_left]

/-- The front of a framed dump is framed. -/
theorem extract (h : Framed file header (front ++ back)) :
    Framed (file.extract 0 (header.recordsOffset + (front.flatMap Frame.toBytes).length)) header
      front where
  read_header := h.read_header_extract _
  drop_header := by rw [h.drop_extract, List.flatMap_append, List.take_left]

/-- The front of an accepted dump is accepted, if no two objects share an identifier. -/
theorem read_extract (h : Framed file header (front ++ back))
    (hall : ∀ frame ∈ front ++ back, frame.Decodable header.idWidth)
    (hdistinct : (ObjectGraph.ofDump (.ofBytes file) header).ids.Nodup)
    (hfit : (ObjectGraph.ofDump (.ofBytes file) header).SizesFit) : ∃ graph, ObjectGraph.read
      (.ofBytes (file.extract 0 (header.recordsOffset + (front.flatMap Frame.toBytes).length))) =
        .ok graph := by
  have hfront := (List.forall_mem_append.mp hall).1
  refine h.extract.read_ok_iff.mpr ⟨hfront, ?_⟩
  have hinside := Entry.list_inside (ByteSource.lawful_ofBytes file) header
  have hof := Entry.list_of h hall
  unfold ObjectGraph.ofDump at hdistinct hfit
  generalize (Entry.list (.ofBytes file) header).items = entries at hof hinside hdistinct hfit
  rw [← List.take_append_drop front.length entries] at hinside hdistinct hfit
  have hpart := ObjectGraph.sizesFit_front hinside hdistinct hfit
  have halike := Entry.alike (List.forall₂_take_append entries front back hof)
    (Entry.list_of h.extract hfront) hfront hfront (fun _ _ => rfl) rfl
  exact hpart.of_alike (ObjectGraph.alike_ofCensus halike)

/-- A dump that is cut inside a record is read past its end. -/
theorem read_extract_of_cutsInside (h : Framed file header frames)
    (hall : ∀ frame ∈ frames, frame.Decodable header.idWidth) {n : Nat}
    (hcut : CutsInside (frames.map Frame.toBytes) n) : ∃ offset length,
      offset ≤ header.recordsOffset + n ∧
      ObjectGraph.read (.ofBytes (file.extract 0 (header.recordsOffset + n))) =
        .error (.outOfBounds offset length (header.recordsOffset + n)) := by
  obtain ⟨words, word, more, hwords, hlow, hhigh⟩ := hcut
  obtain ⟨before, rest, rfl, rfl, hrest⟩ := List.map_eq_append_iff.mp hwords
  obtain ⟨frame, after, rfl, rfl, -⟩ := List.map_eq_cons_iff.mp hrest
  rw [← List.flatMap_def] at hlow hhigh
  obtain ⟨m, rfl⟩ := Nat.exists_eq_add_of_lt hlow
  have hlength : header.recordsOffset + ((before ++ frame :: after).flatMap Frame.toBytes).length =
      file.size := h.length_frames
  rw [List.flatMap_append, List.flatMap_cons, List.length_append, List.length_append] at hlength
  generalize hfile : file.extract 0
    (header.recordsOffset + ((before.flatMap Frame.toBytes).length + m + 1)) = cut
  have hsize : header.recordsOffset + ((before.flatMap Frame.toBytes).length + m + 1) =
      (ByteSource.ofBytes cut).size := by
    show _ = cut.size
    rw [← hfile, ByteArray.size_extract]
    omega
  have hread : Header.read (.ofBytes cut) = .ok header := hfile ▸ h.read_header_extract _
  have hbytes : cut.data.toList.drop header.recordsOffset =
      before.flatMap Frame.toBytes ++ frame.toBytes.take (m + 1) := by
    rw [← hfile, h.drop_extract, List.flatMap_append, List.flatMap_cons, Nat.add_assoc,
      List.take_length_add_append, List.take_append_of_le_length (by omega)]
  have hat := Header.hasAt_drop hread
  have hend := Header.length_drop hread
  rw [hbytes] at hat hend
  have htake : (frame.toBytes.take (m + 1)).length = m + 1 := List.length_take_of_le (by omega)
  obtain ⟨offset, length, hoffset, hlist⟩ := Record.list_of_prefix hat hend (List.take_prefix _ _)
    (fun heq => by rw [heq] at htake; omega) (List.ne_nil_of_length_eq_add_one htake)
  have hitems := Entry.exists_entries header.idWidth (Frame.isAt_records hat.left)
  have hbefore := (List.forall_mem_append.mp hall).1
  have hnone := (hitems.resolve_right fun hfails => hfails.2 hbefore).1
  rw [hsize]
  refine ⟨offset, length, hoffset, ?_⟩
  rw [ObjectGraph.read_eq hread, Entry.list, Listing.flatMap, Record.list, hlist,
    Listing.collect_of_none hnone]
  rfl

end Framed

namespace ObjectGraph

open Grammar

/-- The first bytes of an accepted dump, up to any place inside it.  Its header ends at byte 31. -/
theorem read_cut (file : ByteArray) (graph : ObjectGraph) (h : read (.ofBytes file) = .ok graph)
    (k : Nat) (hk : k < file.size) :
    let cut := ByteSource.ofBytes (file.extract 0 k)
    let ends := 31 :: (Record.list (.ofBytes file) graph.header).items.map Record.stop
    (k ∉ ends →
      (k < 31 → ∃ fault, read cut = .error (.malformed 0 fault)) ∧
      (31 ≤ k → ∃ offset length, offset ≤ k ∧ read cut = .error (.outOfBounds offset length k))) ∧
    (k ∈ ends → graph.ids.Nodup → ∃ graph', read cut = .ok graph') := by
  have lawful := ByteSource.lawful_ofBytes file
  obtain ⟨header, hheader, hentries, hfit, rfl⟩ := exists_of_read lawful h
  obtain ⟨frames, hframed⟩ :=
    (Record.list_failure_iff hheader).mp (Listing.failure_of_collect hentries)
  have hall := (Entry.list_failure_iff hframed).mp hentries
  have hoffset := Header.recordsOffset_eq hheader
  have hends : ∀ n, n ∈ 31 :: (Record.list (.ofBytes file) header).items.map Record.stop ↔
      ∃ front back, frames = front ++ back ∧
        n = header.recordsOffset + (front.flatMap Frame.toBytes).length := by
    intro n
    rw [hframed.items_eq, ← hoffset]
    exact Frame.mem_stops_iff
  intro cut ends
  refine ⟨fun hnot => ⟨fun hshort => ?_, fun hlong => ?_⟩, fun hend hdistinct => ?_⟩
  · obtain ⟨fault, hfault⟩ := Header.read_of_lt hheader (hoffset ▸ hshort)
    exact ⟨fault, by rw [read, Reading.ofSource, hfault]⟩
  · obtain ⟨n, rfl⟩ : ∃ n, k = header.recordsOffset + n := ⟨k - 31, by omega⟩
    refine hframed.read_extract_of_cutsInside hall ?_
    by_contra hbetween
    have hlength : header.recordsOffset + (frames.flatMap Frame.toBytes).length = file.size :=
      hframed.length_frames
    rw [List.flatMap_def] at hlength
    obtain ⟨front, back, hwords, hfront⟩ := exists_append_of_not_cutsInside (by omega) hbetween
    obtain ⟨first, rest, hframes, rfl, -⟩ := List.map_eq_append_iff.mp hwords
    refine hnot ((hends _).mpr ⟨first, rest, hframes, ?_⟩)
    rw [List.flatMap_def, hfront]
  · obtain ⟨front, back, rfl, rfl⟩ := (hends k).mp hend
    exact hframed.read_extract hall hdistinct hfit

/-- The dump is cut inside its first record, and behind it. -/
theorem read_cut_spread :
    ∃ graph, read (.ofBytes spread) = .ok graph ∧ 46 < spread.size ∧
      (40 ∉ 31 :: (Record.list (.ofBytes spread) graph.header).items.map Record.stop ∧
        ∃ offset length, offset ≤ 40 ∧
          read (.ofBytes (spread.extract 0 40)) = .error (.outOfBounds offset length 40)) ∧
      (46 ∈ 31 :: (Record.list (.ofBytes spread) graph.header).items.map Record.stop ∧
        graph.ids.Nodup ∧ ∃ graph', read (.ofBytes (spread.extract 0 46)) = .ok graph') := by
  have hsize : 46 < spread.size := by decide +kernel
  have hread : ((read (.ofBytes spread)).toOption.any fun graph =>
      decide (40 ∉ 31 :: (Record.list (.ofBytes spread) graph.header).items.map Record.stop) &&
      decide (46 ∈ 31 :: (Record.list (.ofBytes spread) graph.header).items.map Record.stop) &&
      decide graph.ids.Nodup) = true := by
    decide +kernel
  obtain ⟨graph, hgraph, hfacts⟩ := exists_of_any hread
  simp only [Bool.and_eq_true, decide_eq_true_eq] at hfacts
  obtain ⟨⟨hinside, hend⟩, hdistinct⟩ := hfacts
  obtain ⟨hrejected, -⟩ := read_cut spread graph hgraph 40 (by omega)
  obtain ⟨-, haccepted⟩ := read_cut spread graph hgraph 46 hsize
  exact ⟨graph, hgraph, hsize, ⟨hinside, (hrejected hinside).2 (by decide)⟩, hend, hdistinct,
    haccepted hend hdistinct⟩

end ObjectGraph

end HeapDump

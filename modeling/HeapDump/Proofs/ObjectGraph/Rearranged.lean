import HeapDump.Proofs.ObjectGraph.Acceptance
import HeapDump.Proofs.ObjectGraph.Answers

/-! Rearranged dumps.  Records of different kinds may be mixed in any way, and a row of sub-records may be
cut into bodies between any two of them: the dump still comes to the same graph.  A body that ends
inside a sub-record makes a dump unreadable, whatever record comes next. -/

namespace HeapDump

open Grammar
open scoped Computability

namespace ObjectGraph

/-- Everything but the places of instances and the counts of records is the same, and whatever is asked
of the graphs has the same answers. -/
structure SameDump (graph graph' : ObjectGraph) : Prop where
  alike : graph.Alike graph'
  answers : graph.SameAnswers graph'

end ObjectGraph

/-! ### Counts -/

namespace Frame

theorem countP_select {tags : List RecordTag} {tag : RecordTag} (htag : tag ∈ tags)
    (frames : List Frame) :
    frames.countP (fun frame => frame.tag? = some tag) =
      (select tags frames).countP fun entry => RecordTag.ofByte? entry.1 = some tag := by
  rw [select, List.countP_map, List.countP_filter]
  refine List.countP_congr fun frame _ => ?_
  simp only [Function.comp_apply, Bool.and_eq_true, decide_eq_true_eq]
  refine ⟨fun h => ⟨h, ?_⟩, fun h => h.1⟩
  rw [h]
  exact decide_eq_true htag

end Frame

theorem Entry.countP_of {source : ByteSource} {width : IdWidth} {entries : List Entry}
    {frames : List Frame} (h : List.Forall₂ (Of source width) entries frames) (tag : RecordTag) :
    entries.countP (fun entry => entry.record.tag? = some tag) =
      frames.countP fun frame => frame.tag? = some tag := by
  induction h with
  | nil => rfl
  | cons hof _ ih => rw [List.countP_cons, List.countP_cons, ih, hof.isAt.tag?]

namespace Framed

variable {file file' : ByteArray} {header : Header} {frames frames' : List Frame}
  {graph graph' : ObjectGraph}

theorem eq_ofDump (h : Framed file header frames)
    (hread : ObjectGraph.read (.ofBytes file) = .ok graph) :
    (∀ frame ∈ frames, frame.Decodable header.idWidth) ∧
      graph = .ofDump (.ofBytes file) header := by
  obtain ⟨hentries, -, hgraph⟩ :=
    (ObjectGraph.read_eq_ok_iff (ByteSource.lawful_ofBytes file) h.read_header).mp hread
  exact ⟨(Entry.list_failure_iff h).mp hentries, hgraph⟩

/-- How often an accepted dump has a tag. -/
theorem recordCount_eq (h : Framed file header frames)
    (hread : ObjectGraph.read (.ofBytes file) = .ok graph) (tag : RecordTag) :
    graph.recordCount tag = frames.countP fun frame => frame.tag? = some tag := by
  obtain ⟨hall, rfl⟩ := h.eq_ofDump hread
  exact (Census.recordCounts_ofEntries _ tag).trans (Entry.countP_of (Entry.list_of h hall) tag)

/-- Accepted dumps with the same names and the same bytes of sub-records are the same. -/
theorem sameDump (h : Framed file header frames) (h' : Framed file' header frames')
    (hread : ObjectGraph.read (.ofBytes file) = .ok graph)
    (hread' : ObjectGraph.read (.ofBytes file') = .ok graph')
    (hselect : ∀ tags ∈ namingTags, Frame.select tags frames = Frame.select tags frames')
    (hbytes : Frame.heapBytes frames = Frame.heapBytes frames') : graph.SameDump graph' := by
  have sound := ObjectGraph.read_sound (ByteSource.lawful_ofBytes file) hread
  have sound' := ObjectGraph.read_sound (ByteSource.lawful_ofBytes file') hread'
  obtain ⟨hall, rfl⟩ := h.eq_ofDump hread
  obtain ⟨hall', rfl⟩ := h'.eq_ofDump hread'
  have halike := h.alike_ofDump h' hall hall' hselect hbytes
  exact ⟨halike, halike.sameAnswers sound sound'⟩

end Framed

namespace ObjectGraph

/-- Only the order of the records of each kind matters: dumps whose texts, changes of classes, frames,
traces and heap dumps are the same, each kind in its order, are both accepted and come to the same, or
both are not. -/
theorem sameDump_of_select {file file' : ByteArray} {header : Header} {frames frames' : List Frame}
    (h : Framed file header frames) (h' : Framed file' header frames')
    (hselect : ∀ tags ∈ Frame.keptTags, Frame.select tags frames = Frame.select tags frames') :
    ((∃ graph, read (.ofBytes file) = .ok graph) ↔ ∃ graph, read (.ofBytes file') = .ok graph) ∧
    ∀ graph graph', read (.ofBytes file) = .ok graph → read (.ofBytes file') = .ok graph' →
      graph.SameDump graph' ∧
        ∀ tags ∈ Frame.keptTags, ∀ tag ∈ tags, graph.recordCount tag = graph'.recordCount tag := by
  refine ⟨h.read_ok_congr h' hselect, fun graph graph' hread hread' => ⟨?_, ?_⟩⟩
  · exact h.sameDump h' hread hread'
      (fun tags htags => hselect tags (List.mem_append_left _ htags)) (Frame.heapBytes_congr hselect)
  · intro tags htags tag htag
    rw [h.recordCount_eq hread, h'.recordCount_eq hread', Frame.countP_select htag, hselect tags htags,
      ← Frame.countP_select htag]

/-- The records of `withUnknown` without the unknown one, and in another order. -/
def withoutUnknown : List Frame := [nameFrame, classFrame, instanceFrame]

theorem sameDump_of_select_withoutUnknown :
    Framed (withFrames bare bareHeader withUnknown) bareHeader withUnknown ∧
    Framed (withFrames bare bareHeader withoutUnknown) bareHeader withoutUnknown ∧
    (∀ tags ∈ Frame.keptTags, Frame.select tags withUnknown = Frame.select tags withoutUnknown) ∧
    ∃ graph graph', read (.ofBytes (withFrames bare bareHeader withUnknown)) = .ok graph ∧
      read (.ofBytes (withFrames bare bareHeader withoutUnknown)) = .ok graph' ∧
      graph.SameDump graph' ∧
        ∀ tags ∈ Frame.keptTags, ∀ tag ∈ tags, graph.recordCount tag = graph'.recordCount tag := by
  have h := framed_withFrames read_bare withUnknown
  have h' := framed_withFrames read_bare withoutUnknown
  have hselect : ∀ tags ∈ Frame.keptTags,
      Frame.select tags withUnknown = Frame.select tags withoutUnknown := by decide +kernel
  have hok : (read (.ofBytes (withFrames bare bareHeader withUnknown))).isOk = true := by
    decide +kernel
  obtain ⟨hiff, hsame⟩ := sameDump_of_select h h' hselect
  obtain ⟨graph, hread⟩ := exists_of_isOk hok
  obtain ⟨graph', hread'⟩ := hiff.mp ⟨graph, hread⟩
  exact ⟨h, h', hselect, graph, graph', hread, hread', hsame graph graph' hread hread'⟩

end ObjectGraph

/-! ### Parts -/

namespace Frame

variable {width : IdWidth} {frame : Frame} {before after parts : List Frame}

theorem IsHeap.decodable_iff (h : frame.IsHeap) :
    frame.Decodable width ↔ frame.body ∈ (subRecord width)∗ := by
  rcases h with htag | htag <;> rw [Decodable, htag]

theorem IsHeap.not_naming (h : frame.IsHeap) {tags : List RecordTag}
    (htags : tags ∈ Framed.namingTags) : ¬frame.tag?.any (· ∈ tags) := by
  have hnot : ∀ tag ∈ [RecordTag.heapDump, .heapDumpSegment], ∀ tags ∈ Framed.namingTags,
      ¬(some tag).any (· ∈ tags) := by decide
  rcases h with htag | htag <;> rw [htag]
  · exact hnot .heapDump (by decide) tags htags
  · exact hnot .heapDumpSegment (by decide) tags htags

/-- The sub-records in the body of a frame, one by one. -/
def IsRow (width : IdWidth) (frame : Frame) (subRecords : List (List UInt8)) : Prop :=
  subRecords.flatten = frame.body ∧ ∀ x ∈ subRecords, x ∈ subRecord width

theorem IsHeap.exists_isRow (h : frame.IsHeap) (hdecodable : frame.Decodable width) :
    ∃ subRecords, frame.IsRow width subRecords := by
  obtain ⟨subRecords, hbody, hmem⟩ := Language.mem_kstar.mp (h.decodable_iff.mp hdecodable)
  exact ⟨subRecords, hbody.symm, hmem⟩

theorem IsRow.unique {subRecords subRecords' : List (List UInt8)} (h : frame.IsRow width subRecords)
    (h' : frame.IsRow width subRecords') : subRecords' = subRecords :=
  (SubRecord.isPrefixCode width).flatten_inj h'.2 h.2 (h'.1.trans h.1.symm)

/-- Parts of a heap dump can be decoded just if no sub-record is cut. -/
theorem IsRow.decodable_iff {subRecords : List (List UInt8)} (h : frame.IsRow width subRecords)
    (hparts : ∀ part ∈ parts, part.IsHeap) (hbody : parts.flatMap body = frame.body) :
    (∀ part ∈ parts, part.Decodable width) ↔
      ∀ k, ¬CutsInside subRecords ((parts.take k).flatMap body).length := by
  have hflatten : (parts.map body).flatten = subRecords.flatten := by
    rw [← List.flatMap_def, hbody, h.1]
  have hiff := (SubRecord.isPrefixCode width).parts_iff h.2 hflatten
  simp only [List.forall_mem_map, ← List.map_take, ← List.flatMap_def] at hiff
  rw [← hiff]
  exact forall₂_congr fun part hpart => (hparts part hpart).decodable_iff

theorem heapBytes_of_isHeap (hparts : ∀ part ∈ parts, part.IsHeap) :
    heapBytes parts = parts.flatMap body := by
  refine List.flatMap_congr fun part hpart => ?_
  rw [heapBody, if_pos (hparts part hpart)]

theorem select_of_isHeap (hparts : ∀ part ∈ parts, part.IsHeap) {tags : List RecordTag}
    (htags : tags ∈ Framed.namingTags) : select tags parts = [] := by
  rw [select, List.filter_eq_nil_iff.mpr fun part hpart => (hparts part hpart).not_naming htags]
  rfl

section Replaced

variable (hheap : frame.IsHeap) (hparts : ∀ part ∈ parts, part.IsHeap)
include hheap hparts

/-- No name changes when a heap dump is replaced by parts. -/
theorem select_replaced {tags : List RecordTag} (htags : tags ∈ Framed.namingTags) :
    select tags (before ++ frame :: after) = select tags (before ++ parts ++ after) := by
  rw [select_append, select_append, select_append, select_cons, if_neg (hheap.not_naming htags),
    select_of_isHeap hparts htags, List.append_nil]

theorem heapBytes_replaced (hbody : parts.flatMap body = frame.body) :
    heapBytes (before ++ frame :: after) = heapBytes (before ++ parts ++ after) := by
  have hmiddle : heapBytes parts = heapBytes [frame] := by
    rw [heapBytes_of_isHeap hparts, hbody, heapBytes_of_isHeap (by simpa using hheap),
      List.flatMap_singleton]
  rw [← List.singleton_append, heapBytes_append, heapBytes_append, heapBytes_append,
    heapBytes_append, hmiddle, List.append_assoc]

end Replaced

end Frame

namespace ObjectGraph

/-- A heap dump record of an accepted dump may be replaced by records whose bodies come to the same bytes.
If they are cut between sub-records, the dump still comes to the same; if one of them ends inside a
sub-record, the dump is not accepted. -/
theorem sameDump_of_parts {file : ByteArray} {header : Header} {graph : ObjectGraph}
    {before after parts : List Frame} {frame : Frame}
    (hread : read (.ofBytes file) = .ok graph)
    (h : Framed file header (before ++ frame :: after)) (hheap : frame.IsHeap)
    (hparts : ∀ part ∈ parts, part.IsHeap) (hbody : parts.flatMap (·.body) = frame.body) :
    ∃ subRecords, frame.IsRow header.idWidth subRecords ∧
      (∀ other, frame.IsRow header.idWidth other → other = subRecords) ∧
      ((∀ k, ¬CutsInside subRecords ((parts.take k).flatMap (·.body)).length) →
        ∃ graph', read (.ofBytes (withFrames file header (before ++ parts ++ after))) = .ok graph' ∧
          graph.SameDump graph') ∧
      ((∃ k, CutsInside subRecords ((parts.take k).flatMap (·.body)).length) →
        ∃ e, read (.ofBytes (withFrames file header (before ++ parts ++ after))) = .error e) := by
  have h' := framed_withFrames h.read_header (before ++ parts ++ after)
  obtain ⟨hall, hfit⟩ := h.read_ok_iff.mp ⟨graph, hread⟩
  obtain ⟨hbefore, hframe, hafter⟩ : (∀ f ∈ before, f.Decodable header.idWidth) ∧
      frame.Decodable header.idWidth ∧ ∀ f ∈ after, f.Decodable header.idWidth := by
    rwa [List.forall_mem_append, List.forall_mem_cons] at hall
  obtain ⟨subRecords, hrow⟩ := hheap.exists_isRow hframe
  have hcuts := hrow.decodable_iff hparts hbody
  -- Names and the bytes of sub-records are the same, so the dumps differ in decoding or in nothing.
  have hselect : ∀ tags ∈ Framed.namingTags, Frame.select tags (before ++ frame :: after) =
      Frame.select tags (before ++ parts ++ after) :=
    fun tags htags => Frame.select_replaced hheap hparts htags
  have hbytes : Frame.heapBytes (before ++ frame :: after) =
      Frame.heapBytes (before ++ parts ++ after) :=
    Frame.heapBytes_replaced hheap hparts hbody
  refine ⟨subRecords, hrow, fun other => hrow.unique, fun hnocut => ?_, fun hcut => ?_⟩
  · have hall' : ∀ f ∈ before ++ parts ++ after, f.Decodable header.idWidth := by
      simp only [List.forall_mem_append]
      exact ⟨⟨hbefore, hcuts.mpr hnocut⟩, hafter⟩
    obtain ⟨graph', hread'⟩ := h'.read_ok_iff.mpr
      ⟨hall', hfit.of_alike (h.alike_ofDump h' hall hall' hselect hbytes)⟩
    exact ⟨graph', hread', h.sameDump h' hread hread' hselect hbytes⟩
  · cases hread' : read (.ofBytes (withFrames file header (before ++ parts ++ after))) with
    | error e => exact ⟨e, rfl⟩
    | ok graph' =>
      obtain ⟨k, hk⟩ := hcut
      have hall' := (h'.eq_ofDump hread').1
      simp only [List.forall_mem_append] at hall'
      exact absurd hk (hcuts.mp hall'.1.2 k)

/-- A class and an instance of it in one body. -/
def together : Frame :=
  drafted (.heapDump [.classDump ⟨1⟩ none 4 [] [] [(⟨2⟩, .object)], .instance ⟨16⟩ ⟨1⟩ [0, 0, 0, 16]])
    (by decide +kernel)

/-- The same sub-records in two bodies with an empty one between them. -/
def apart : List Frame := [classFrame, drafted (.heapDump []) (by decide), instanceFrame]

theorem sameDump_of_parts_apart :
    ∃ graph, read (.ofBytes (withFrames bare bareHeader [together])) = .ok graph ∧
      together.IsHeap ∧ (∀ part ∈ apart, part.IsHeap) ∧
      apart.flatMap (·.body) = together.body ∧
      ∃ graph', read (.ofBytes (withFrames (withFrames bare bareHeader [together]) bareHeader
        ([] ++ apart ++ []))) = .ok graph' ∧ graph.SameDump graph' := by
  have htogether : (read (.ofBytes (withFrames bare bareHeader [together]))).isOk = true := by
    decide +kernel
  have hapart : (read (.ofBytes (withFrames (withFrames bare bareHeader [together]) bareHeader
      ([] ++ apart ++ [])))).isOk = true := by decide +kernel
  have hheap : together.IsHeap := by decide +kernel
  have hparts : ∀ part ∈ apart, part.IsHeap := by decide +kernel
  have hbody : apart.flatMap (·.body) = together.body := by decide +kernel
  have hframed : Framed (withFrames bare bareHeader [together]) bareHeader ([] ++ together :: []) :=
    framed_withFrames read_bare [together]
  obtain ⟨graph, hread⟩ := exists_of_isOk htogether
  obtain ⟨subRecords, -, -, haccepted, hrejected⟩ :=
    sameDump_of_parts hread hframed hheap hparts hbody
  refine ⟨graph, hread, hheap, hparts, hbody, haccepted fun k hk => ?_⟩
  obtain ⟨e, he⟩ := hrejected ⟨k, hk⟩
  rw [he] at hapart
  cases hapart

end ObjectGraph

end HeapDump

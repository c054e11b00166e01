import HeapDump.Proofs.ObjectGraph.Detach
import HeapDump.Proofs.ObjectGraph.Entry

/-! Censuses of alike dumps.  A census files texts, changes of classes, frames, traces and sub-records away
apart from each other, so it does not matter how records of these five kinds are mixed, or what other
records stand between them.  Nor does it matter how the sub-records are cut into bodies. -/

namespace HeapDump

open Grammar
open scoped Computability

theorem RecordTag.ofByte?_byte (tag : RecordTag) : ofByte? tag.byte = some tag := by
  cases tag <;> rfl

instance : Std.LawfulEqOrd RecordTag where
  eq_of_compare {a b} h := by
    have hbyte : compare a.byte b.byte = .eq := h
    rw [Std.LawfulEqOrd.compare_eq_iff_eq] at hbyte
    rw [← Option.some.injEq, ← RecordTag.ofByte?_byte, hbyte, RecordTag.ofByte?_byte]

namespace EntryContents

def text? : EntryContents → Option NamedText
  | text named => some named
  | _ => none

/-- A class that is loaded or unloaded. -/
def change? : EntryContents → Option (ClassLoad ⊕ ClassUnload)
  | classLoad load => some (.inl load)
  | classUnload unload => some (.inr unload)
  | _ => none

def frame? : EntryContents → Option FrameRecord
  | frame entry => some entry
  | _ => none

def trace? : EntryContents → Option TraceRecord
  | trace entry => some entry
  | _ => none

/-- A part of contents that only records with the given tags have. -/
structure Part {γ : Type} (tags : List RecordTag) (part? : EntryContents → Option γ) : Prop where
  text : .utf8 ∈ tags ∨ ∀ named, part? (text named) = none
  classLoad : .loadClass ∈ tags ∨ ∀ load, part? (classLoad load) = none
  classUnload : .unloadClass ∈ tags ∨ ∀ unload, part? (classUnload unload) = none
  frame : .stackFrame ∈ tags ∨ ∀ entry, part? (frame entry) = none
  trace : .stackTrace ∈ tags ∨ ∀ entry, part? (trace entry) = none
  heapDump : ∀ subRecords, part? (heapDump subRecords) = none
  unused : ∀ tag, part? (unused tag) = none
  unknown : part? unknown = none

theorem part_text? : Part [.utf8] text? :=
  ⟨.inl (by decide), .inr fun _ => rfl, .inr fun _ => rfl, .inr fun _ => rfl, .inr fun _ => rfl,
    fun _ => rfl, fun _ => rfl, rfl⟩

theorem part_change? : Part [.loadClass, .unloadClass] change? :=
  ⟨.inr fun _ => rfl, .inl (by decide), .inl (by decide), .inr fun _ => rfl, .inr fun _ => rfl,
    fun _ => rfl, fun _ => rfl, rfl⟩

theorem part_frame? : Part [.stackFrame] frame? :=
  ⟨.inr fun _ => rfl, .inr fun _ => rfl, .inr fun _ => rfl, .inl (by decide), .inr fun _ => rfl,
    fun _ => rfl, fun _ => rfl, rfl⟩

theorem part_trace? : Part [.stackTrace] trace? :=
  ⟨.inr fun _ => rfl, .inr fun _ => rfl, .inr fun _ => rfl, .inr fun _ => rfl, .inl (by decide),
    fun _ => rfl, fun _ => rfl, rfl⟩

end EntryContents

namespace Census

/-- Everything in two censuses that is not a count of records or a note is the same up to the places of
instances. -/
structure Alike (source source' : ByteSource) (width : IdWidth) (census census' : Census) : Prop
    extends SameHeaps source source' width census census' where
  strings : census.strings = census'.strings
  classNames : census.classNames = census'.classNames
  classSerials : census.classSerials = census'.classSerials
  frames : census.frames = census'.frames
  traces : census.traces = census'.traces

/-- A part of a census that only one kind of contents adds to. -/
theorem part_ofEntries {σ γ : Type} (part : Census → σ) {part? : EntryContents → Option γ}
    {step : σ → γ → σ}
    (hadd : ∀ census entry, part (add census entry) =
      (part? entry.contents).elim (part census) (step (part census))) (entries : List Entry) :
    part (ofEntries entries) = (entries.filterMap (part? ·.contents)).foldl step (part empty) := by
  induction entries using List.reverseRecOn with
  | nil => rfl
  | append_singleton entries entry ih =>
    rw [ofEntries, List.foldl_append, List.filterMap_append, List.foldl_append, ← ih]
    refine (hadd _ _).trans ?_
    rw [List.filterMap_cons]
    cases part? entry.contents <;> rfl

theorem beside_heapDump (census : Census) (record : Record) (subRecords : List SubRecord) :
    Beside (census.addContents record (.heapDump subRecords)) census :=
  beside_foldl_addSubRecord subRecords census

theorem strings_ofEntries (entries : List Entry) :
    (ofEntries entries).strings = (entries.filterMap (·.contents.text?)).foldl
      (fun strings named => strings.insert named.id named.text) ∅ := by
  refine part_ofEntries Census.strings (fun census entry => ?_) entries
  have hcount : (census.countRecord entry.record).strings = census.strings := by
    unfold countRecord
    split <;> rfl
  unfold add
  cases entry.contents with
  | heapDump subRecords => exact (beside_heapDump _ _ _).strings.trans hcount
  | text named => exact congrArg (·.insert named.id named.text) hcount
  | _ => exact hcount

/-- The loaded classes and their names after one more change. -/
def change (classes : Std.TreeMap Serial Ident × Std.TreeMap Ident Ident) :
    ClassLoad ⊕ ClassUnload → Std.TreeMap Serial Ident × Std.TreeMap Ident Ident
  | .inl load =>
    (classes.1.insert load.serial load.classId, classes.2.insert load.classId load.nameId)
  | .inr unload => (classes.1.erase unload.serial, classes.2)

theorem classes_ofEntries (entries : List Entry) :
    ((ofEntries entries).classSerials, (ofEntries entries).classNames) =
      (entries.filterMap (·.contents.change?)).foldl change (∅, ∅) := by
  refine part_ofEntries (fun census => (census.classSerials, census.classNames))
    (fun census entry => ?_) entries
  have hcount : ((census.countRecord entry.record).classSerials,
      (census.countRecord entry.record).classNames) = (census.classSerials, census.classNames) := by
    unfold countRecord
    split <;> rfl
  unfold add
  cases entry.contents with
  | heapDump subRecords =>
    have hbeside := beside_heapDump (census.countRecord entry.record) entry.record subRecords
    exact (congrArg₂ Prod.mk hbeside.classSerials hbeside.classNames).trans hcount
  | classLoad load => exact congrArg (change · (.inl load)) hcount
  | classUnload unload => exact congrArg (change · (.inr unload)) hcount
  | _ => exact hcount

theorem frames_ofEntries (entries : List Entry) :
    (ofEntries entries).frames = (entries.filterMap (·.contents.frame?)).foldl
      (fun frames frame => frames.insert frame.id frame) ∅ := by
  refine part_ofEntries Census.frames (fun census entry => ?_) entries
  have hcount : (census.countRecord entry.record).frames = census.frames := by
    unfold countRecord
    split <;> rfl
  unfold add
  cases entry.contents with
  | heapDump subRecords => exact (beside_heapDump _ _ _).frames.trans hcount
  | frame frame => exact congrArg (·.insert frame.id frame) hcount
  | _ => exact hcount

theorem traces_ofEntries (entries : List Entry) :
    (ofEntries entries).traces = (entries.filterMap (·.contents.trace?)).foldl Array.push #[] := by
  refine part_ofEntries Census.traces (fun census entry => ?_) entries
  have hcount : (census.countRecord entry.record).traces = census.traces := by
    unfold countRecord
    split <;> rfl
  unfold add
  cases entry.contents with
  | heapDump subRecords => exact (beside_heapDump _ _ _).traces.trans hcount
  | trace trace => exact congrArg (·.push trace) hcount
  | _ => exact hcount

theorem getD_bump {α : Type} [Ord α] [Std.TransOrd α] [Std.LawfulEqOrd α] [DecidableEq α]
    (counts : Std.TreeMap α Nat) (key other : α) :
    (bump counts key).getD other 0 = counts.getD other 0 + if key = other then 1 else 0 := by
  rw [bump, Std.TreeMap.getD_insert]
  by_cases h : key = other
  · rw [if_pos (Std.LawfulEqOrd.compare_eq_iff_eq.mpr h), if_pos h, h]
  · rw [if_neg (mt Std.LawfulEqOrd.compare_eq_iff_eq.mp h), if_neg h, Nat.add_zero]

theorem recordCounts_add (census : Census) (entry : Entry) (tag : RecordTag) :
    (census.add entry).recordCounts.getD tag 0 =
      census.recordCounts.getD tag 0 + if entry.record.tag? = some tag then 1 else 0 := by
  have hadd : (census.add entry).recordCounts = (census.countRecord entry.record).recordCounts := by
    unfold add
    cases entry.contents with
    | heapDump subRecords => exact (beside_heapDump _ _ _).recordCounts
    | _ => rfl
  rw [hadd, countRecord]
  cases entry.record.tag? with
  | none => rfl
  | some key => simp only [getD_bump, Option.some.injEq]

/-- How often a tag has been met is how many records have it. -/
theorem recordCounts_ofEntries (entries : List Entry) (tag : RecordTag) :
    (ofEntries entries).recordCounts.getD tag 0 =
      entries.countP fun entry => entry.record.tag? = some tag := by
  induction entries using List.reverseRecOn with
  | nil => exact Std.TreeMap.getD_emptyc
  | append_singleton entries entry ih =>
    rw [ofEntries, List.foldl_append, List.countP_append, ← ih, List.countP_singleton]
    refine (recordCounts_add (ofEntries entries) entry tag).trans ?_
    simp only [decide_eq_true_eq]

theorem unknownRecords_add (census : Census) (entry : Entry) :
    (census.add entry).unknownRecords =
      census.unknownRecords + if entry.record.tag? = none then 1 else 0 := by
  have hadd : (census.add entry).unknownRecords =
      (census.countRecord entry.record).unknownRecords := by
    unfold add
    cases entry.contents with
    | heapDump subRecords => exact (beside_heapDump _ _ _).unknownRecords
    | _ => rfl
  rw [hadd, countRecord]
  cases entry.record.tag? <;> rfl

/-- The records that are counted apart are those without a known tag. -/
theorem unknownRecords_ofEntries (entries : List Entry) :
    (ofEntries entries).unknownRecords = entries.countP fun entry => entry.record.tag? = none := by
  induction entries using List.reverseRecOn with
  | nil => rfl
  | append_singleton entries entry ih =>
    rw [ofEntries, List.foldl_append, List.countP_append, ← ih, List.countP_singleton]
    refine (unknownRecords_add (ofEntries entries) entry).trans ?_
    simp only [decide_eq_true_eq]

/-- Entries that say the same, kind by kind, come to alike censuses. -/
theorem alike_ofEntries {source source' : ByteSource} {width : IdWidth} {entries entries' : List Entry}
    (htext : entries.filterMap (·.contents.text?) = entries'.filterMap (·.contents.text?))
    (hchange : entries.filterMap (·.contents.change?) = entries'.filterMap (·.contents.change?))
    (hframe : entries.filterMap (·.contents.frame?) = entries'.filterMap (·.contents.frame?))
    (htrace : entries.filterMap (·.contents.trace?) = entries'.filterMap (·.contents.trace?))
    (hsub : (entries.flatMap (·.contents.subRecords)).map (SubRecord.detach source width) =
      (entries'.flatMap (·.contents.subRecords)).map (SubRecord.detach source' width)) :
    Alike source source' width (ofEntries entries) (ofEntries entries') := by
  have hclasses := (classes_ofEntries entries).trans
    ((congrArg (List.foldl change (∅, ∅)) hchange).trans (classes_ofEntries entries').symm)
  obtain ⟨hserials, hnames⟩ := Prod.mk.inj hclasses
  have hempty : SameHeaps source source' width empty empty :=
    ⟨by simp [empty, HeapCensus.detach_empty], rfl, rfl, rfl, rfl⟩
  have hheaps := (sameHeaps_ofEntries entries).trans
    ((hempty.foldl_addSubRecord hsub).trans (sameHeaps_ofEntries entries').symm)
  refine ⟨hheaps, ?_, hnames, hserials, ?_, ?_⟩
  · rw [strings_ofEntries, htext, ← strings_ofEntries]
  · rw [frames_ofEntries, hframe, ← frames_ofEntries]
  · rw [traces_ofEntries, htrace, ← traces_ofEntries]

end Census

/-! ### Frames -/

namespace Frame

/-- The tag byte and the body of each frame that has one of the given tags. -/
def select (tags : List RecordTag) (frames : List Frame) : List (UInt8 × List UInt8) :=
  (frames.filter fun frame => frame.tag?.any (· ∈ tags)).map fun frame => (frame.tagByte, frame.body)

instance (frame : Frame) : Decidable frame.IsHeap :=
  inferInstanceAs (Decidable (_ ∨ _))

/-- The row of sub-records in a frame, which is empty if the frame is no heap dump. -/
def heapBody (frame : Frame) : List UInt8 :=
  if frame.IsHeap then frame.body else []

/-- The bodies of heap dumps, one after another. -/
def heapBytes (frames : List Frame) : List UInt8 :=
  frames.flatMap heapBody

variable {width : IdWidth} {f g : Frame}

theorem tag?_congr (h : (f.tagByte, f.body) = (g.tagByte, g.body)) : f.tag? = g.tag? :=
  congrArg RecordTag.ofByte? (Prod.mk.inj h).1

theorem contents?_congr (h : (f.tagByte, f.body) = (g.tagByte, g.body))
    (subRecords : List SubRecord) : f.contents? width subRecords = g.contents? width subRecords := by
  simp only [contents?, tag?_congr h, (Prod.mk.inj h).2]

theorem decodable_congr (h : (f.tagByte, f.body) = (g.tagByte, g.body)) :
    f.Decodable width ↔ g.Decodable width := by
  simp only [Decodable, tag?_congr h, (Prod.mk.inj h).2]

theorem subRecords_eq_nil (hheap : ¬f.IsHeap) {subRecords : List SubRecord}
    {contents : EntryContents} (h : f.contents? width subRecords = some contents) :
    contents.subRecords = [] := by
  have hfields : ∀ {α : Type} (answer : Except Shortfall (α × List UInt8))
      (say : α → EntryContents), (∀ a, (say a).subRecords = []) →
      answer.toOption.map (fun r => say r.1) = some contents → contents.subRecords = [] := by
    intro α answer say hsay h
    obtain ⟨r, -, rfl⟩ := Option.map_eq_some_iff.mp h
    exact hsay r.1
  unfold contents? at h
  unfold IsHeap at hheap
  dsimp only at h
  split at h
  all_goals first
    | exact hfields _ _ (fun _ => rfl) h
    | (cases h; rfl)
    | (next htag => simp [htag] at hheap)

theorem filterMap_eq_of_map_eq {α κ γ : Type} {key : α → κ} {part? : α → Option γ}
    (hpart : ∀ a b, key a = key b → part? a = part? b) {l l' : List α}
    (h : l.map key = l'.map key) : l.filterMap part? = l'.filterMap part? := by
  induction l generalizing l' with
  | nil =>
    obtain rfl := List.map_eq_nil_iff.mp h.symm
    rfl
  | cons a l ih =>
    cases l' with
    | nil => cases h
    | cons b l' =>
      obtain ⟨hab, hrest⟩ := List.cons.inj h
      rw [List.filterMap_cons, List.filterMap_cons, hpart a b hab, ih hrest]

theorem bind_eq_none {γ : Type} {tags : List RecordTag} {part? : EntryContents → Option γ}
    (part : EntryContents.Part tags part?) (h : ¬f.tag?.any (· ∈ tags)) :
    (f.contents? width []).bind part? = none := by
  have hfields : ∀ {α : Type} (tag : RecordTag) (answer : Except Shortfall (α × List UInt8))
      (say : α → EntryContents), f.tag? = some tag → (tag ∈ tags ∨ ∀ a, part? (say a) = none) →
      (answer.toOption.map fun r => say r.1).bind part? = none := by
    intro α tag answer say htag hsay
    have hnot : tag ∉ tags := by
      rw [htag] at h
      simpa using h
    rw [Option.bind_eq_none_iff]
    intro contents hcontents
    obtain ⟨r, -, rfl⟩ := Option.map_eq_some_iff.mp hcontents
    exact hsay.resolve_left hnot r.1
  unfold contents?
  dsimp only
  split
  · exact part.unknown
  · next htag => exact hfields .utf8 _ _ htag part.text
  · next htag => exact hfields .loadClass _ _ htag part.classLoad
  · next htag => exact hfields .unloadClass _ _ htag part.classUnload
  · next htag => exact hfields .stackFrame _ _ htag part.frame
  · next htag => exact hfields .stackTrace _ _ htag part.trace
  · exact part.heapDump []
  · exact part.heapDump []
  · exact part.unused _

/-- What only frames with the given tags say is the same where these frames are. -/
theorem filterMap_eq_of_select {γ : Type} {tags : List RecordTag} {part? : EntryContents → Option γ}
    (part : EntryContents.Part tags part?) {frames frames' : List Frame}
    (h : select tags frames = select tags frames') :
    (frames.filterMap fun frame => (frame.contents? width []).bind part?) =
      frames'.filterMap fun frame => (frame.contents? width []).bind part? := by
  have hfilter : ∀ frames : List Frame,
      (frames.filterMap fun frame => (frame.contents? width []).bind part?) =
        (frames.filter fun frame => frame.tag?.any (· ∈ tags)).filterMap
          fun frame => (frame.contents? width []).bind part? := by
    intro frames
    rw [List.filterMap_filter]
    refine List.filterMap_congr fun frame _ => ?_
    split
    · rfl
    · next hany => exact bind_eq_none part hany
  rw [hfilter frames, hfilter frames']
  exact filterMap_eq_of_map_eq
    (fun f g hfg => congrArg (Option.bind · part?) (contents?_congr hfg [])) h

end Frame

/-- The tags of the records in which a census finds texts, classes, frames and traces. -/
def Framed.namingTags : List (List RecordTag) :=
  [[.utf8], [.loadClass, .unloadClass], [.stackFrame], [.stackTrace]]

namespace Entry

variable {source source' : ByteSource} {width : IdWidth} {entries entries' : List Entry}
  {frames frames' : List Frame}

theorem filterMap_contents {γ : Type} {tags : List RecordTag} {part? : EntryContents → Option γ}
    (part : EntryContents.Part tags part?) (h : List.Forall₂ (Of source width) entries frames) :
    entries.filterMap (part? ·.contents) =
      frames.filterMap fun frame => (frame.contents? width []).bind part? := by
  induction h with
  | nil => rfl
  | @cons entry frame entries frames hof _ ih =>
    have hsame : (frame.contents? width entry.contents.subRecords).bind part? =
        (frame.contents? width []).bind part? := by
      unfold Frame.contents?
      dsimp only
      split <;> first | rfl | exact (part.heapDump _).trans (part.heapDump _).symm
    have hpart : (frame.contents? width []).bind part? = part? entry.contents := by
      rw [← hsame, hof.contents]
      rfl
    rw [List.filterMap_cons, List.filterMap_cons, ih, hpart]

theorem filterMap_eq {γ : Type} {tags : List RecordTag} {part? : EntryContents → Option γ}
    (part : EntryContents.Part tags part?) (h : List.Forall₂ (Of source width) entries frames)
    (h' : List.Forall₂ (Of source' width) entries' frames')
    (hselect : Frame.select tags frames = Frame.select tags frames') :
    entries.filterMap (part? ·.contents) = entries'.filterMap (part? ·.contents) := by
  rw [filterMap_contents part h, filterMap_contents part h', Frame.filterMap_eq_of_select part hselect]

/-- The sub-records of a frame, each read from its word. -/
theorem Of.exists_words {entry : Entry} {frame : Frame} (h : Of source width entry frame)
    (hdecodable : frame.Decodable width) :
    ∃ words, words.flatten = frame.heapBody ∧ (∀ x ∈ words, x ∈ subRecord width) ∧
      List.Forall₂ ((SubRecord.scan width).ReadFrom source) entry.contents.subRecords words := by
  by_cases hheap : frame.IsHeap
  · have hbody : frame.body ∈ (subRecord width)∗ := by
      rcases hheap with htag | htag <;> simpa only [Frame.Decodable, htag] using hdecodable
    obtain ⟨words, hwords, hmem⟩ := Language.mem_kstar.mp hbody
    have hat := h.isAt.hasAt_body
    have hstop := h.isAt.stop
    rw [hwords] at hat hstop
    have hitems := (SubRecord.within_scanWithin source width entry.record.stop).items hmem hat hstop
    refine ⟨words, by rw [Frame.heapBody, if_pos hheap, hwords], hmem, ?_⟩
    rw [h.subRecords hheap]
    refine hitems.imp fun subRecord x hread => ?_
    obtain ⟨position, hx, hscan⟩ := hread
    exact ⟨position, hx, (SubRecord.scanWithin_eq_ok_iff.mp hscan).1⟩
  · refine ⟨[], by rw [Frame.heapBody, if_neg hheap]; rfl, by simp, ?_⟩
    have hnil : entry.contents.subRecords = [] := Frame.subRecords_eq_nil hheap h.contents
    rw [hnil]
    exact .nil

theorem exists_words (h : List.Forall₂ (Of source width) entries frames)
    (hall : ∀ frame ∈ frames, frame.Decodable width) :
    ∃ words, words.flatten = Frame.heapBytes frames ∧ (∀ x ∈ words, x ∈ subRecord width) ∧
      List.Forall₂ ((SubRecord.scan width).ReadFrom source)
        (entries.flatMap (·.contents.subRecords)) words := by
  induction h with
  | nil => exact ⟨[], rfl, by simp, .nil⟩
  | @cons entry frame entries frames hof _ ih =>
    obtain ⟨hfirst, hrest⟩ := List.forall_mem_cons.mp hall
    obtain ⟨words, hwords, hmem, hread⟩ := hof.exists_words hfirst
    obtain ⟨more, hmore, hmem', hread'⟩ := ih hrest
    refine ⟨words ++ more, ?_, ?_, ?_⟩
    · rw [List.flatten_append, hwords, hmore]
      rfl
    · exact List.forall_mem_append.mpr ⟨hmem, hmem'⟩
    · rw [List.flatMap_cons]
      exact List.rel_append hread hread'

/-- Where the bodies of heap dumps come to the same bytes, the sub-records in them are the same when
detached. -/
theorem detach_subRecords (h : List.Forall₂ (Of source width) entries frames)
    (h' : List.Forall₂ (Of source' width) entries' frames')
    (hall : ∀ frame ∈ frames, frame.Decodable width)
    (hall' : ∀ frame ∈ frames', frame.Decodable width)
    (hbytes : Frame.heapBytes frames = Frame.heapBytes frames') :
    (entries.flatMap (·.contents.subRecords)).map (SubRecord.detach source width) =
      (entries'.flatMap (·.contents.subRecords)).map (SubRecord.detach source' width) := by
  obtain ⟨words, hwords, hmem, hread⟩ := exists_words h hall
  obtain ⟨words', hwords', hmem', hread'⟩ := exists_words h' hall'
  obtain rfl : words = words' := (SubRecord.isPrefixCode width).flatten_inj hmem hmem'
    (hwords.trans (hbytes.trans hwords'.symm))
  generalize entries.flatMap (·.contents.subRecords) = subRecords at hread
  generalize entries'.flatMap (·.contents.subRecords) = subRecords' at hread'
  clear hwords hwords' hmem hmem'
  induction hread generalizing subRecords' with
  | nil =>
    cases hread'
    rfl
  | @cons a x subRecords words hax _ ih =>
    cases hread' with
    | @cons a' _ subRecords' _ hax' hrest =>
      obtain ⟨position, hat, hscan⟩ := hax
      obtain ⟨position', hat', hscan'⟩ := hax'
      obtain ⟨b, hb, hlook⟩ := SubRecord.agrees_scan width hat hat' a hscan
      rw [hscan'] at hb
      cases hb
      have hfirst : a.detach source width = a'.detach source' width := hlook
      rw [List.map_cons, List.map_cons, hfirst, ih _ hrest]

/-- Entries with the same names and the same bytes of sub-records come to alike censuses. -/
theorem alike (h : List.Forall₂ (Of source width) entries frames)
    (h' : List.Forall₂ (Of source' width) entries' frames')
    (hall : ∀ frame ∈ frames, frame.Decodable width)
    (hall' : ∀ frame ∈ frames', frame.Decodable width)
    (hselect : ∀ tags ∈ Framed.namingTags, Frame.select tags frames = Frame.select tags frames')
    (hbytes : Frame.heapBytes frames = Frame.heapBytes frames') :
    Census.Alike source source' width (.ofEntries entries) (.ofEntries entries') :=
  Census.alike_ofEntries
    (filterMap_eq EntryContents.part_text? h h' (hselect _ (by decide)))
    (filterMap_eq EntryContents.part_change? h h' (hselect _ (by decide)))
    (filterMap_eq EntryContents.part_frame? h h' (hselect _ (by decide)))
    (filterMap_eq EntryContents.part_trace? h h' (hselect _ (by decide)))
    (detach_subRecords h h' hall hall' hbytes)

end Entry

/-! ### Dumps -/

namespace Framed

variable {file file' : ByteArray} {header : Header} {frames frames' : List Frame}

/-- Dumps with the same names and the same bytes of sub-records have alike censuses. -/
theorem alike (h : Framed file header frames) (h' : Framed file' header frames')
    (hall : ∀ frame ∈ frames, frame.Decodable header.idWidth)
    (hall' : ∀ frame ∈ frames', frame.Decodable header.idWidth)
    (hselect : ∀ tags ∈ namingTags, Frame.select tags frames = Frame.select tags frames')
    (hbytes : Frame.heapBytes frames = Frame.heapBytes frames') :
    Census.Alike (.ofBytes file) (.ofBytes file') header.idWidth
      (.ofEntries (Entry.list (.ofBytes file) header).items)
      (.ofEntries (Entry.list (.ofBytes file') header).items) :=
  Entry.alike (Entry.list_of h hall) (Entry.list_of h' hall') hall hall' hselect hbytes

end Framed

end HeapDump

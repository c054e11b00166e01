import HeapDump.Proofs.ObjectGraph.Heaps

/-! Lookups by key.  Of the records with a key the last one counts, wherever in the dump it stands: a later
text, load, frame, trace or thread takes the place of an earlier one, and an unloaded class loses its
serial number but keeps its name.  Nothing is looked up before the whole dump has been read, so a name
may stand behind everything that uses it. -/

namespace HeapDump

/-! ### The last item with a key -/

section Latest

variable {α β κ : Type} [DecidableEq κ] {key : α → κ}

/-- The last item with a key. -/
def latest (key : α → κ) (k : κ) (items : List α) : Option α :=
  (items.filter (key · = k)).getLast?

theorem latest_append_singleton (k : κ) (items : List α) (a : α) :
    latest key k (items ++ [a]) = if key a = k then some a else latest key k items := by
  rw [latest, List.filter_append, List.filter_singleton]
  by_cases h : key a = k
  · simp [h]
  · simp [h, latest]

theorem key_of_latest {k : κ} {items : List α} {a : α} (h : latest key k items = some a) : key a = k := by
  simpa using (List.mem_filter.mp (List.mem_of_getLast? h)).2

variable [Ord κ] [Std.TransOrd κ] [Std.LawfulEqOrd κ]

theorem getElem?_insert (values : Std.TreeMap κ β) (k other : κ) (value : β) :
    (values.insert k value)[other]? = if k = other then some value else values[other]? := by
  rw [Std.TreeMap.getElem?_insert]
  simp only [Std.LawfulEqOrd.compare_eq_iff_eq]

/-- Where each item is filed under its key, the last one with a key is found under it. -/
theorem getElem?_foldl_insert (value : α → β) (items : List α) (k : κ) :
    (items.foldl (fun values a => values.insert (key a) (value a)) (∅ : Std.TreeMap κ β))[k]? =
      (latest key k items).map value := by
  induction items using List.reverseRecOn with
  | nil => exact Std.TreeMap.getElem?_emptyc
  | append_singleton items a ih =>
    rw [List.foldl_append, latest_append_singleton]
    refine (getElem?_insert _ _ _ _).trans ?_
    rw [ih]
    split <;> rfl

end Latest

theorem filterMap_eq_of_forall₂ {α β γ : Type} {R : α → β → Prop} {f : α → Option γ} {g : β → Option γ}
    (hfg : ∀ a b, R a b → g b = f a) {items : List α} {others : List β}
    (h : List.Forall₂ R items others) : others.filterMap g = items.filterMap f := by
  induction h with
  | nil => rfl
  | cons hab _ ih => rw [List.filterMap_cons, List.filterMap_cons, hfg _ _ hab, ih]

/-! ### What records say -/

namespace Record

variable (source : ByteSource) (width : IdWidth) (record : Record)

/-- What the record says if it has the tag. -/
def said? {α : Type} (tag : RecordTag) (decode : Slice α) : Option α :=
  if record.tag? = some tag then (Entry.decodeBody source record tag decode).toOption else none

def text? : Option NamedText := record.said? source .utf8 (NamedText.decode width)

def load? : Option ClassLoad := record.said? source .loadClass (ClassLoad.decode width)

/-- The class that the record loads or unloads. -/
def change? : Option (ClassLoad ⊕ ClassUnload) :=
  match record.load? source width with
  | some load => some (.inl load)
  | none => (record.said? source .unloadClass ClassUnload.decode).map .inr

theorem getLeft?_change? :
    (record.change? source width).bind Sum.getLeft? = record.load? source width := by
  unfold change?
  cases record.load? source width with
  | some load => rfl
  | none => cases record.said? source .unloadClass ClassUnload.decode <;> rfl

def frame? : Option FrameRecord := record.said? source .stackFrame (FrameRecord.decode width)

def trace? : Option TraceRecord := record.said? source .stackTrace (TraceRecord.decode width)

end Record

def SubRecord.thread? : SubRecord → Option ThreadObject
  | .thread info => some info
  | _ => none

/-! ### Entries of records that can be read -/

namespace Entry

variable {source : ByteSource} {width : IdWidth}

/-- The contents are what the record says. -/
structure Says (source : ByteSource) (width : IdWidth) (record : Record) (contents : EntryContents) :
    Prop where
  text : contents.text? = record.text? source width
  change : contents.change? = record.change? source width
  frame : contents.frame? = record.frame? source width
  trace : contents.trace? = record.trace? source width

theorem exists_says {record : Record} (h : (read source width record).failure = none) :
    ∃ entry, (read source width record).items = [entry] ∧ Says source width record entry.contents := by
  unfold read at h ⊢
  dsimp only at h ⊢
  cases htag : record.tag? with
  | none =>
    refine ⟨_, rfl, ?_⟩
    constructor <;> simp [EntryContents.text?, EntryContents.change?, EntryContents.frame?,
      EntryContents.trace?, Record.text?, Record.change?, Record.load?, Record.frame?, Record.trace?,
      Record.said?, htag]
  | some tag =>
    rw [htag] at h
    cases tag with
    | utf8 | loadClass | unloadClass | stackFrame | stackTrace =>
      obtain ⟨a, ha, hitems⟩ := exists_ok_of_ofExcept h
      refine ⟨_, hitems, ?_⟩
      constructor <;> simp [EntryContents.text?, EntryContents.change?, EntryContents.frame?,
        EntryContents.trace?, Record.text?, Record.change?, Record.load?, Record.frame?, Record.trace?,
        Record.said?, htag, ha, Except.toOption]
    | _ =>
      refine ⟨_, rfl, ?_⟩
      constructor <;> simp [EntryContents.text?, EntryContents.change?, EntryContents.frame?,
        EntryContents.trace?, Record.text?, Record.change?, Record.load?, Record.frame?, Record.trace?,
        Record.said?, htag]

/-- The entries of a dump all of whose records can be read say what the records say. -/
theorem says_of_accepted {header : Header} (h : (list source header).failure = none) :
    List.Forall₂ (fun record entry => Says source header.idWidth record entry.contents)
      (Record.list source header).items (list source header).items :=
  Listing.forall₂_collect (fun _ => exists_says) h

end Entry

/-! ### What a census finds -/

namespace Census

theorem getElem?_strings (entries : List Entry) (id : Ident) :
    (ofEntries entries).strings[id]? =
      (latest NamedText.id id (entries.filterMap (·.contents.text?))).map NamedText.text := by
  rw [strings_ofEntries]
  exact getElem?_foldl_insert NamedText.text _ id

theorem getElem?_frames (entries : List Entry) (id : Ident) :
    (ofEntries entries).frames[id]? =
      latest FrameRecord.id id (entries.filterMap (·.contents.frame?)) := by
  rw [frames_ofEntries]
  exact (getElem?_foldl_insert (fun frame => frame) _ id).trans Option.map_id'

/-- A class has a serial number as long as the last change of this number is a load. -/
theorem getElem?_foldl_change (changes : List (ClassLoad ⊕ ClassUnload)) (serial : Serial) :
    (changes.foldl change (∅, ∅)).1[serial]? =
      ((latest (Sum.elim ClassLoad.serial ClassUnload.serial) serial changes).bind Sum.getLeft?).map
        ClassLoad.classId := by
  induction changes using List.reverseRecOn with
  | nil => exact Std.TreeMap.getElem?_emptyc
  | append_singleton changes last ih =>
    rw [List.foldl_append, latest_append_singleton]
    cases last with
    | inl load =>
      refine (getElem?_insert _ _ _ _).trans ?_
      rw [ih, Sum.elim_inl]
      split <;> rfl
    | inr unload =>
      refine Std.TreeMap.getElem?_erase.trans ?_
      rw [ih, Sum.elim_inr]
      simp only [Std.LawfulEqOrd.compare_eq_iff_eq]
      split <;> rfl

/-- The names of classes come from the loads alone. -/
theorem foldl_change_snd (changes : List (ClassLoad ⊕ ClassUnload)) :
    (changes.foldl change (∅, ∅)).2 = (changes.filterMap Sum.getLeft?).foldl
      (fun names load => names.insert load.classId load.nameId) ∅ := by
  induction changes using List.reverseRecOn with
  | nil => rfl
  | append_singleton changes last ih =>
    rw [List.foldl_append, List.filterMap_append, List.foldl_append, ← ih]
    cases last <;> rfl

theorem getElem?_classSerials (entries : List Entry) (serial : Serial) :
    (ofEntries entries).classSerials[serial]? =
      ((latest (Sum.elim ClassLoad.serial ClassUnload.serial) serial
        (entries.filterMap (·.contents.change?))).bind Sum.getLeft?).map ClassLoad.classId := by
  rw [← getElem?_foldl_change, ← classes_ofEntries]

theorem getElem?_classNames (entries : List Entry) (id : Ident) :
    (ofEntries entries).classNames[id]? =
      (latest ClassLoad.classId id
        ((entries.filterMap (·.contents.change?)).filterMap Sum.getLeft?)).map ClassLoad.nameId := by
  rw [← getElem?_foldl_insert, ← foldl_change_snd, ← classes_ofEntries]

theorem threads_addSubRecord (census : Census) (subRecord : SubRecord) :
    (census.addSubRecord subRecord).threads = subRecord.thread?.elim census.threads
      fun thread => census.threads.insert thread.thread thread := by
  have henter : ∀ (census : Census) id slot, (census.enter id slot).threads = census.threads := by
    intro census id slot
    unfold enter
    split <;> rfl
  cases subRecord with
  | thread thread =>
    show (census.addThread thread).threads = _
    unfold addThread
    dsimp only
    split <;> rfl
  | root root => rfl
  | heapSwitch info =>
    show (census.switchHeap info).threads = _
    unfold switchHeap
    dsimp only
    split <;> rfl
  | classDump dump => exact henter _ _ _
  | «instance» dump => exact henter _ _ _
  | objectArray dump => exact henter _ _ _
  | primitiveArray dump => exact henter _ _ _

theorem threads_foldl_addSubRecord (subRecords : List SubRecord) :
    (subRecords.foldl addSubRecord empty).threads = (subRecords.filterMap (·.thread?)).foldl
      (fun threads thread => threads.insert thread.thread thread) ∅ := by
  induction subRecords using List.reverseRecOn with
  | nil => rfl
  | append_singleton subRecords subRecord ih =>
    rw [List.foldl_append, List.filterMap_append, List.foldl_append, ← ih]
    refine (threads_addSubRecord _ subRecord).trans ?_
    rw [List.filterMap_cons]
    cases subRecord.thread? <;> rfl

theorem getElem?_threads (entries : List Entry) (serial : Serial) :
    (ofEntries entries).threads[serial]? = latest ThreadObject.thread serial
      ((entries.flatMap (·.contents.subRecords)).filterMap (·.thread?)) := by
  have hheaps : SameHeaps (.ofBytes .empty) (.ofBytes .empty) .four (ofEntries entries)
      ((entries.flatMap (·.contents.subRecords)).foldl addSubRecord empty) := sameHeaps_ofEntries entries
  rw [hheaps.threads, threads_foldl_addSubRecord]
  exact (getElem?_foldl_insert (fun thread => thread) _ serial).trans Option.map_id'

theorem frameText_eq (census : Census) (nameId : Ident) :
    census.frameText nameId = census.strings[nameId]?.getD "(unknown)" :=
  Std.TreeMap.getD_eq_getD_getElem?

theorem map_stackFrame (entries : List Entry) (id : Ident) :
    ((ofEntries entries).frames[id]?).map (ofEntries entries).stackFrame =
      (latest FrameRecord.id id (entries.filterMap (·.contents.frame?))).map fun frame =>
        let text (nameId : Ident) := (ofEntries entries).strings[nameId]?.getD "(unknown)"
        { id
          methodName := text frame.methodName
          signature := text frame.signature
          sourceFile := text frame.sourceFile
          classSerial := frame.classSerial
          line := frame.line } := by
  rw [getElem?_frames]
  refine Option.map_congr fun frame hframe => ?_
  simp only [stackFrame, frameText_eq, key_of_latest hframe]

theorem getElem?_stackTraces (entries : List Entry) (serial : Serial) :
    (ofEntries entries).stackTraces[serial]? =
      (latest TraceRecord.serial serial (entries.filterMap (·.contents.trace?))).map fun trace =>
        { serial
          thread := trace.thread
          frames := trace.frames.filterMap fun id =>
            ((ofEntries entries).frames[id]?).map (ofEntries entries).stackFrame } := by
  have htraces : (ofEntries entries).traces.toList = entries.filterMap (·.contents.trace?) := by
    simp only [traces_ofEntries, List.foldl_push_eq_append', List.append_toArray, List.nil_append]
  rw [stackTraces, ← Array.foldl_toList, htraces]
  refine (getElem?_foldl_insert (ofEntries entries).stackTrace _ serial).trans ?_
  refine Option.map_congr fun trace htrace => ?_
  rw [stackTrace, key_of_latest htrace]

/-- A class has the name that the census gives it. -/
theorem name_of_mem_link {census : Census} {c : ClassObject} (h : c ∈ census.table.link.classes) :
    c.name = census.className c.id := by
  obtain ⟨location, hat⟩ := ObjectTable.mem_classes.mp h
  rw [at?_linked] at hat
  obtain ⟨object, -, heq⟩ := Option.map_eq_some_iff.mp hat
  cases object with
  | «instance» i => cases heq
  | classDump dump =>
    cases heq
    unfold ObjectTable.linkClass
    split <;> rfl

end Census

namespace ObjectGraph

/-- Lookups in an accepted dump, all of whose records can be read.  Texts, serial numbers, names of classes,
threads and traces are those of the last record with the key. -/
theorem latest_of_accepted (file : ByteArray) (graph : ObjectGraph)
    (h : read (.ofBytes file) = .ok graph) :
    let source := ByteSource.ofBytes file
    let records := (Record.list source graph.header).items
    let texts := records.filterMap (·.text? source graph.idWidth)
    let loads := records.filterMap (·.load? source graph.idWidth)
    let changes := records.filterMap (·.change? source graph.idWidth)
    let frames := records.filterMap (·.frame? source graph.idWidth)
    let traces := records.filterMap (·.trace? source graph.idWidth)
    let threads := (records.flatMap (·.subRecords source graph.idWidth)).filterMap (·.thread?)
    let frameText (id : Ident) : String := (graph.string? id).getD "(unknown)"
    ((Record.list source graph.header).failure = none ∧
      ∀ record ∈ records, (Entry.read source graph.idWidth record).failure = none) ∧
    (∀ id, graph.string? id = (latest NamedText.id id texts).map NamedText.text) ∧
    (∀ serial, graph.classBySerial? serial =
      ((latest (Sum.elim ClassLoad.serial ClassUnload.serial) serial changes).bind Sum.getLeft?).bind
        fun load => graph.class? load.classId) ∧
    (∀ c ∈ graph.classes, c.name =
      ((latest ClassLoad.classId c.id loads).bind fun load => graph.string? load.nameId).getD
        ("unknown-class-" ++ Text.hexIdent c.id.val)) ∧
    (∀ serial, graph.thread? serial = latest ThreadObject.thread serial threads) ∧
    ∀ serial, graph.stackTrace? serial = (latest TraceRecord.serial serial traces).map fun trace =>
      { serial
        thread := trace.thread
        frames := trace.frames.filterMap fun id => (latest FrameRecord.id id frames).map fun frame =>
          { id
            methodName := frameText frame.methodName
            signature := frameText frame.signature
            sourceFile := frameText frame.sourceFile
            classSerial := frame.classSerial
            line := frame.line } } := by
  obtain ⟨header, -, hentries, -, rfl⟩ := exists_of_read (ByteSource.lawful_ofBytes file) h
  obtain ⟨-, hsubRecords⟩ := Entry.list_of_accepted hentries
  have hsays := Entry.says_of_accepted hentries
  intro source records texts loads changes frames traces threads frameText
  let entries := (Entry.list source header).items
  have htexts : entries.filterMap (·.contents.text?) = texts :=
    filterMap_eq_of_forall₂ (fun _ _ h => h.text) hsays
  have hchanges : entries.filterMap (·.contents.change?) = changes :=
    filterMap_eq_of_forall₂ (fun _ _ h => h.change) hsays
  have hframes : entries.filterMap (·.contents.frame?) = frames :=
    filterMap_eq_of_forall₂ (fun _ _ h => h.frame) hsays
  have htraces : entries.filterMap (·.contents.trace?) = traces :=
    filterMap_eq_of_forall₂ (fun _ _ h => h.trace) hsays
  have hthreads : (entries.flatMap (·.contents.subRecords)).filterMap (·.thread?) = threads :=
    congrArg (List.filterMap (·.thread?)) hsubRecords
  have hloads : changes.filterMap Sum.getLeft? = loads := by
    rw [List.filterMap_filterMap]
    exact List.filterMap_congr fun record _ => record.getLeft?_change? source header.idWidth
  refine ⟨⟨Listing.failure_of_collect hentries, fun record hrecord => ?_⟩, fun id => ?_,
    fun serial => ?_, fun c hc => ?_, fun serial => ?_, fun serial => ?_⟩
  · exact Listing.failure_of_mem_collect hentries hrecord
  · rw [← htexts]
    exact Census.getElem?_strings entries id
  · show ((Census.ofEntries entries).classSerials[serial]?).bind _ = _
    rw [Census.getElem?_classSerials, hchanges, Option.bind_map]
    rfl
  · rw [Census.name_of_mem_link hc, Census.className, Census.getElem?_classNames, hchanges, hloads,
      Option.bind_map]
    rfl
  · rw [← hthreads]
    exact Census.getElem?_threads entries serial
  · show (Census.ofEntries entries).stackTraces[serial]? = _
    simp only [Census.getElem?_stackTraces, Census.map_stackFrame, htraces, hframes]
    rfl

/-- Class 16 is loaded once more behind the heap dump, with another number and another name.  Text 100 and
thread 7 are given twice, and text 102, frame 51 and the name of class 17 are missing. -/
def restated : ByteArray :=
  (Draft.toBytes ⟨"JAVA PROFILE 1.0.2", .four, 0,
    [.loadClass ⟨1, ⟨16⟩, 0, ⟨101⟩⟩,
      .heapDump [.classDump ⟨16⟩ none 0 [] [] [], .threadObject ⟨16⟩ 7 8, .classDump ⟨17⟩ none 0 [] [] [],
        .threadObject ⟨17⟩ 7 9],
      .trace ⟨9, 7, [⟨50⟩, ⟨51⟩]⟩, .unloadClass 1, .loadClass ⟨2, ⟨16⟩, 0, ⟨100⟩⟩,
      .frame ⟨⟨50⟩, ⟨100⟩, ⟨102⟩, ⟨100⟩, 1, .line 5⟩, .text ⟨100⟩ "A", .text ⟨100⟩ "B"]⟩).toByteArray

theorem latest_of_accepted_restated :
    ∃ graph, read (.ofBytes restated) = .ok graph ∧
      let records := (Record.list (.ofBytes restated) graph.header).items
      let texts := records.filterMap (·.text? (.ofBytes restated) graph.idWidth)
      let threads := (records.flatMap (·.subRecords (.ofBytes restated) graph.idWidth)).filterMap
        (·.thread?)
      (graph.string? ⟨100⟩ = (latest NamedText.id ⟨100⟩ texts).map NamedText.text ∧
        graph.string? ⟨100⟩ = some "B") ∧
      ([1, 2].map fun serial => (graph.classBySerial? serial).map (·.id)) = [none, some ⟨16⟩] ∧
      graph.classes.map (·.name) = ["B", "unknown-class-0x11"] ∧
      (graph.thread? 7 = latest ThreadObject.thread 7 threads ∧
        graph.thread? 7 = some ⟨some ⟨17⟩, 7, 9⟩) ∧
      graph.stackTrace? 9 = some ⟨9, 7, [⟨⟨50⟩, "B", "(unknown)", "B", 1, .line 5⟩]⟩ := by
  have hread : ((read (.ofBytes restated)).toOption.any fun graph =>
      decide (graph.string? ⟨100⟩ = some "B") &&
      decide (([1, 2].map fun serial => (graph.classBySerial? serial).map (·.id)) =
        [none, some ⟨16⟩]) &&
      decide (graph.classes.map (·.name) = ["B", "unknown-class-0x11"]) &&
      decide (graph.thread? 7 = some ⟨some ⟨17⟩, 7, 9⟩) &&
      decide (graph.stackTrace? 9 =
        some ⟨9, 7, [⟨⟨50⟩, "B", "(unknown)", "B", 1, .line 5⟩]⟩)) = true := by
    decide +kernel
  obtain ⟨graph, hgraph, hfacts⟩ := exists_of_any hread
  simp only [Bool.and_eq_true, decide_eq_true_eq] at hfacts
  obtain ⟨⟨⟨⟨htext, hclasses⟩, hnames⟩, hthread⟩, htrace⟩ := hfacts
  obtain ⟨-, htexts, -, -, hthreads, -⟩ := latest_of_accepted restated graph hgraph
  exact ⟨graph, hgraph, ⟨htexts ⟨100⟩, htext⟩, hclasses, hnames, ⟨hthreads 7, hthread⟩, htrace⟩

end ObjectGraph

end HeapDump

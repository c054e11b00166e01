import HeapDump.Proofs.Scan

/-! Sub-records read where they were written.  An item of a draft comes back as the sub-record it stands
for if its identifiers and counts have room in their fields.  What follows an item is read from the
byte after it, so a body comes back item by item, wherever in a dump its record stands. -/

namespace HeapDump

open Scan

/-- The origin of a root that consists of a tag and an object. -/
def RootKind.plainOrigin? : RootKind → Option RootOrigin
  | .unknown => some .unknown
  | .systemClass => some .systemClass
  | .busyMonitor => some .busyMonitor
  | .internedString => some .internedString
  | .finalizing => some .finalizing
  | .debugger => some .debugger
  | .referenceCleanup => some .referenceCleanup
  | .vmInternal => some .vmInternal
  | .unreachable => some .unreachable
  | _ => none

/-- The origin that a tag gives to its object, if the object is all that follows it. -/
def SubRecordTag.plainOrigin? (tag : SubRecordTag) : Option RootOrigin :=
  tag.rootKind?.bind RootKind.plainOrigin?

namespace DraftItem

/-- The bytes of an instance or of the elements of an array. -/
def content (width : IdWidth) : DraftItem → List UInt8
  | .instance _ _ blob => blob
  | instanceValues _ _ values => values.flatMap (·.toBytes width)
  | objectArray _ _ elements => elements.flatMap (reference width)
  | primitiveArray _ _ values => values.flatMap (·.toBytes width)
  | _ => []

/-- Where the content of an item at `position` starts; it ends with the item. -/
def contentOffset (width : IdWidth) (position : Nat) (item : DraftItem) : Nat :=
  position + ((item.toBytes width).length - (item.content width).length)

/-- The sub-record that an item at `position` stands for.  Arbitrary bytes stand for none, and neither
does a tag that wants more than an object. -/
def subRecord? (width : IdWidth) (position : Nat) (item : DraftItem) : Option SubRecord :=
  let offset := item.contentOffset width position
  match item with
  | heapSwitch heap nameId => some (.heapSwitch { heap, nameId })
  | root tag object => tag.plainOrigin?.map fun origin => .root { object, origin }
  | nativeStatic object reference => some (.root ⟨object, .nativeStatic reference⟩)
  | nativeLocal object thread frame =>
    some (.root ⟨object, .nativeLocal thread (frameNumber? frame)⟩)
  | javaLocal object thread frame => some (.root ⟨object, .javaLocal thread (frameNumber? frame)⟩)
  | nativeMonitor object thread frame =>
    some (.root ⟨object, .nativeMonitor thread (frameNumber? frame)⟩)
  | nativeStack object thread => some (.root ⟨object, .nativeStack thread⟩)
  | threadBlock object thread => some (.root ⟨object, .threadBlock thread⟩)
  | threadObject object thread trace => some (.thread ⟨object.nonNull?, thread, trace⟩)
  | classDump id superclass instanceSize _ statics fields =>
    some (.classDump
      { id
        trace := 0
        superclass := superclass.bind Ident.nonNull?
        loader := none
        signers := none
        protectionDomain := none
        instanceSize
        statics := statics.map fun (nameId, value) => ⟨nameId, value.type, value.asRead⟩
        fields := fields.map fun (nameId, type) => ⟨nameId, type⟩ })
  | .instance id classId _ | instanceValues id classId _ =>
    some (.instance ⟨id, 0, classId, offset, .ofNat (item.content width).length⟩)
  | objectArray id classId elements =>
    some (.objectArray ⟨id, 0, classId, .ofNat elements.length, offset⟩)
  | primitiveArray id type values =>
    some (.primitiveArray ⟨id, 0, type, .ofNat values.length, some offset⟩)
  | primitiveArrayNoData id type count => some (.primitiveArray ⟨id, 0, type, count, none⟩)
  | raw _ => none

/-- What an item must be like to come back: its identifiers and the counts of a class have room, its tag
wants no more than it has, and its values have the type of their array. -/
def Fits (width : IdWidth) : DraftItem → Prop
  | heapSwitch _ nameId => nameId.Fits width
  | root tag object => tag.plainOrigin?.isSome ∧ object.Fits width
  | nativeStatic object reference => object.Fits width ∧ reference.Fits width
  | nativeLocal object _ _ | javaLocal object _ _ | nativeMonitor object _ _ => object.Fits width
  | nativeStack object _ | threadBlock object _ | threadObject object _ _ => object.Fits width
  | classDump id superclass _ constants statics fields =>
    id.Fits width ∧ (∀ s ∈ superclass, s.Fits width) ∧ constants.length ≤ 65535 ∧
      (statics.length ≤ 65535 ∧ ∀ s ∈ statics, s.1.Fits width ∧ s.2.Fits width) ∧
      fields.length ≤ 65535 ∧ ∀ f ∈ fields, f.1.Fits width
  | .instance id classId _ | instanceValues id classId _ => id.Fits width ∧ classId.Fits width
  | objectArray id classId _ => id.Fits width ∧ classId.Fits width
  | primitiveArray id type values => id.Fits width ∧ ∀ v ∈ values, v.type = .primitive type
  | primitiveArrayNoData id _ _ => id.Fits width
  | raw _ => False

instance (width : IdWidth) : (item : DraftItem) → Decidable (item.Fits width)
  | heapSwitch _ nameId => inferInstanceAs (Decidable (nameId.Fits width))
  | root tag object => inferInstanceAs (Decidable (tag.plainOrigin?.isSome ∧ object.Fits width))
  | nativeStatic object reference =>
    inferInstanceAs (Decidable (object.Fits width ∧ reference.Fits width))
  | nativeLocal object _ _ | javaLocal object _ _ | nativeMonitor object _ _
  | nativeStack object _ | threadBlock object _ | threadObject object _ _ =>
    inferInstanceAs (Decidable (object.Fits width))
  | classDump id superclass _ constants statics fields =>
    inferInstanceAs (Decidable (id.Fits width ∧ (∀ s ∈ superclass, s.Fits width) ∧
      constants.length ≤ 65535 ∧
      (statics.length ≤ 65535 ∧ ∀ s ∈ statics, s.1.Fits width ∧ s.2.Fits width) ∧
      fields.length ≤ 65535 ∧ ∀ f ∈ fields, f.1.Fits width))
  | .instance id classId _ | instanceValues id classId _ | objectArray id classId _ =>
    inferInstanceAs (Decidable (id.Fits width ∧ classId.Fits width))
  | primitiveArray id type values =>
    inferInstanceAs (Decidable (id.Fits width ∧ ∀ v ∈ values, v.type = .primitive type))
  | primitiveArrayNoData id _ _ => inferInstanceAs (Decidable (id.Fits width))
  | raw _ => .isFalse id

@[simp] theorem length_u16 (n : Nat) : (u16 n).length = 2 := Word.length_toBytes 2 n

@[simp] theorem length_u32 (n : Nat) : (u32 n).length = 4 := Word.length_toBytes 4 n

@[simp] theorem length_reference (width : IdWidth) (target : Option Ident) :
    (reference width target).length = width.bytes :=
  Ident.length_toBytes width _

/-! ### Fields of sub-records -/

section Fields

variable {source : ByteSource} {position : Nat} {width : IdWidth}

theorem reads_tag (tag : SubRecordTag) :
    SubRecord.scanTag.Reads source position [tag.byte] tag := by
  have hbyte : SubRecordTag.ofByte? tag.byte = some tag := by
    cases tag with
    | root kind => cases kind <;> rfl
    | _ => rfl
  apply Reads.place
  apply (reads_u8 tag.byte).last
  rw [hbyte]
  exact reads_pure rfl

theorem reads_tagged {tag : SubRecordTag} {next : SubRecordTag → Scan SubRecord}
    {fields : List UInt8} {answer : SubRecord}
    (h : (next tag).Reads source (position + 1) fields answer) :
    (SubRecord.scanTag >>= next).Reads source position (tagged tag fields) answer :=
  (reads_tag tag).bind_cons h

theorem reads_frame {object : Ident} (hobject : object.Fits width) (thread : Serial)
    (frame : UInt32) {kind : RootKind} {origin : RootOrigin}
    (h : (RootOrigin.scan width kind).Reads source (position + (object.toBytes width).length)
      (u32 thread.toNat ++ u32 frame.toNat) origin) :
    (Root.scan width kind).Reads source position (frameBytes width object thread frame)
      ⟨object, origin⟩ := by
  rw [frameBytes, List.append_assoc]
  apply (reads_ident hobject).bind
  exact h.map rfl

theorem reads_constant (constant : UInt16 × Value) :
    (ClassDump.scanConstant width).Reads source position
      (u16 constant.1.toNat ++ typed width constant.2) () := by
  apply (reads_u16 constant.1.toNat).bind
  apply (reads_fieldType constant.2.type).bind_cons
  exact reads_skip (constant.2.length_toBytes width)

theorem reads_static {nameId : Ident} {value : Value} (hname : nameId.Fits width)
    (hvalue : value.Fits width) :
    (StaticEntry.scan width).Reads source position (nameId.toBytes width ++ typed width value)
      ⟨nameId, value.type, value.asRead⟩ := by
  apply (reads_ident hname).bind
  apply (reads_fieldType value.type).bind_cons
  exact (reads_value hvalue).map rfl

theorem reads_field {nameId : Ident} (hname : nameId.Fits width) (type : FieldType) :
    (FieldEntry.scan width).Reads source position (nameId.toBytes width ++ [type.code])
      ⟨nameId, type⟩ := by
  apply (reads_ident hname).bind
  exact (reads_fieldType type).map rfl

/-- A list after its length in two bytes. -/
theorem reads_counted {α β γ : Type} {item : Scan α} {next : List α → Scan β}
    {write : γ → List UInt8} {answer : γ → α} {values : List γ} {more : List UInt8} {b : β}
    (hcount : values.length ≤ 65535)
    (hitem : ∀ v ∈ values, ∀ position, item.Reads source position (write v) (answer v))
    (hnext : (next (values.map answer)).Reads source
      (position + 2 + (values.flatMap write).length) more b) :
    (Scan.u16 >>= fun count => item.times count.toNat >>= next).Reads source position
      (u16 values.length ++ (values.flatMap write ++ more)) b := by
  apply (reads_u16 values.length).bind
  rw [UInt16.toNat_ofNat_of_lt' (by rw [UInt16.size]; omega), length_u16]
  exact (reads_times hitem).bind hnext

theorem reads_class {id : Ident} {superclass : Option Ident} (hid : id.Fits width)
    (hsuper : ∀ s ∈ superclass, s.Fits width) (instanceSize : UInt32)
    {constants : List (UInt16 × Value)} (hconstants : constants.length ≤ 65535)
    {statics : List (Ident × Value)} (hstatics : statics.length ≤ 65535)
    (hstatic : ∀ s ∈ statics, s.1.Fits width ∧ s.2.Fits width)
    {fields : List (Ident × FieldType)} (hfields : fields.length ≤ 65535)
    (hfield : ∀ f ∈ fields, f.1.Fits width) :
    (ClassDump.scan width).Reads source position
      (classBytes width id superclass instanceSize constants statics fields)
      { id
        trace := 0
        superclass := superclass.bind Ident.nonNull?
        loader := none
        signers := none
        protectionDomain := none
        instanceSize
        statics := statics.map fun (nameId, value) => ⟨nameId, value.type, value.asRead⟩
        fields := fields.map fun (nameId, type) => ⟨nameId, type⟩ } := by
  have hnull := Ident.null_fits width
  simp only [classBytes, List.append_assoc, List.replicate_succ, List.replicate_zero,
    List.flatMap_cons, List.flatMap_nil, List.nil_append]
  apply (reads_ident hid).bind
  apply (reads_u32 0).bind
  apply (reads_reference hsuper).bind
  apply (reads_null width).bind
  apply (reads_null width).bind
  apply (reads_null width).bind
  apply (reads_ident hnull).bind
  apply (reads_ident hnull).bind
  apply (reads_number instanceSize).bind
  apply reads_counted hconstants fun constant _ _ => reads_constant constant
  apply reads_counted hstatics fun s hs _ => reads_static (hstatic s hs).1 (hstatic s hs).2
  rw [← List.append_nil (fields.flatMap _)]
  apply reads_counted hfields fun f hf _ => reads_field (hfield f hf) f.2
  exact reads_pure rfl

theorem reads_instance {id classId : Ident} (hid : id.Fits width) (hclass : classId.Fits width)
    {blob : List UInt8} (hlength : blob.length < 2 ^ 32) :
    (InstanceDump.scan width).Reads source position (instanceBytes width id classId blob)
      ⟨id, 0, classId, position + (width.bytes + 4 + width.bytes + 4), .ofNat blob.length⟩ := by
  simp only [instanceBytes, List.append_assoc]
  apply (reads_ident hid).bind
  apply (reads_u32 0).bind
  apply (reads_ident hclass).bind
  apply (reads_u32 blob.length).bind
  apply Reads.place
  refine (reads_skip (UInt32.toNat_ofNat_of_lt' hlength).symm).map ?_
  simp [Nat.add_assoc]

theorem length_flatMap_eq {γ : Type} {write : γ → List UInt8} {n : Nat} {values : List γ}
    (h : ∀ v ∈ values, (write v).length = n) :
    (values.flatMap write).length = values.length * n := by
  rw [List.length_flatMap, List.map_congr_left h, List.map_const', List.sum_replicate_nat]

theorem reads_objectArray {id classId : Ident} (hid : id.Fits width) (hclass : classId.Fits width)
    {elements : List (Option Ident)} (hcount : elements.length < 2 ^ 32) :
    (ObjectArrayDump.scan width).Reads source position
      (id.toBytes width ++ u32 0 ++ u32 elements.length ++ classId.toBytes width ++
        elements.flatMap (reference width))
      ⟨id, 0, classId, .ofNat elements.length,
        position + (width.bytes + 4 + 4 + width.bytes)⟩ := by
  simp only [List.append_assoc]
  apply (reads_ident hid).bind
  apply (reads_u32 0).bind
  apply (reads_u32 elements.length).bind
  apply (reads_ident hclass).bind
  apply Reads.place
  refine (reads_skip ?_).map ?_
  · rw [UInt32.toNat_ofNat_of_lt' hcount]
    exact length_flatMap_eq fun target _ => length_reference width target
  · simp [Nat.add_assoc]

theorem reads_primitiveArray {id : Ident} (hid : id.Fits width) {type : PrimitiveType}
    {values : List Value} (hcount : values.length < 2 ^ 32)
    (htype : ∀ v ∈ values, v.type = .primitive type) :
    (PrimitiveArrayDump.scan width true).Reads source position
      (arrayBytes width id type values.length ++ values.flatMap (·.toBytes width))
      ⟨id, 0, type, .ofNat values.length, some (position + (width.bytes + 4 + 4 + 1))⟩ := by
  simp only [arrayBytes, List.append_assoc]
  apply (reads_ident hid).bind
  apply (reads_u32 0).bind
  apply (reads_u32 values.length).bind
  apply (reads_primitiveType type).bind_cons
  apply Reads.place
  refine (reads_skip ?_).map ?_
  · rw [UInt32.toNat_ofNat_of_lt' hcount]
    exact length_flatMap_eq fun v hv => by rw [Value.length_toBytes, htype v hv]; rfl
  · simp [Nat.add_assoc]

theorem reads_primitiveArrayNoData {id : Ident} (hid : id.Fits width) (type : PrimitiveType)
    (count : UInt32) :
    (PrimitiveArrayDump.scan width false).Reads source position
      (arrayBytes width id type count.toNat) ⟨id, 0, type, count, none⟩ := by
  simp only [arrayBytes, List.append_assoc]
  apply (reads_ident hid).bind
  apply (reads_u32 0).bind
  apply (reads_number count).bind
  exact (reads_primitiveType type).map rfl

end Fields

/-! ### Items -/

section Items

variable {source : ByteSource} {position : Nat} {width : IdWidth}

theorem reads_root {kind : RootKind} (hkind : kind ≠ .threadObject) {fields : List UInt8}
    {root : HeapDump.Root} (h : (Root.scan width kind).Reads source (position + 1) fields root) :
    (SubRecord.scan width).Reads source position (tagged (.root kind) fields) (.root root) := by
  apply reads_tagged
  cases kind with
  | threadObject => exact absurd rfl hkind
  | _ => exact h.map rfl

theorem reads_plainOrigin {kind : RootKind} {origin : RootOrigin}
    (h : kind.plainOrigin? = some origin) :
    (RootOrigin.scan width kind).Reads source position [] origin := by
  cases kind <;> cases h <;> exact reads_pure rfl

theorem reads_plainRoot {tag : SubRecordTag} {object : Ident} {origin : RootOrigin}
    (horigin : tag.plainOrigin? = some origin) (hobject : object.Fits width) :
    (SubRecord.scan width).Reads source position (tagged tag (object.toBytes width))
      (.root ⟨object, origin⟩) := by
  obtain ⟨kind, hkind, horigin⟩ := Option.bind_eq_some_iff.mp horigin
  cases tag with
  | root kind' =>
    cases hkind
    apply reads_root
    · rintro rfl
      cases horigin
    · exact (reads_ident hobject).last ((reads_plainOrigin horigin).map rfl)
  | _ => cases hkind

theorem reads_blob {id classId : Ident} (hid : id.Fits width) (hclass : classId.Fits width)
    {blob : List UInt8}
    (hlength : (tagged .instanceDump (instanceBytes width id classId blob)).length < 2 ^ 32) :
    (SubRecord.scan width).Reads source position
      (tagged .instanceDump (instanceBytes width id classId blob))
      (.instance ⟨id, 0, classId, contentOffset width position (.instance id classId blob),
        .ofNat blob.length⟩) := by
  have hblob : blob.length < 2 ^ 32 := by
    simp only [tagged, instanceBytes, List.length_cons, List.length_append] at hlength
    omega
  refine reads_tagged ((reads_instance hid hclass hblob).map ?_)
  congr 2
  simp only [contentOffset, toBytes, tagged, instanceBytes, content, List.length_cons,
    List.length_append, Ident.length_toBytes, length_u32]
  omega

theorem toBytes_eq_append (width : IdWidth) (item : DraftItem) :
    ∃ start, item.toBytes width = start ++ item.content width := by
  cases item with
  | «instance» id classId blob =>
    exact ⟨tagged .instanceDump (id.toBytes width ++ u32 0 ++ classId.toBytes width ++
      u32 blob.length), rfl⟩
  | instanceValues id classId values =>
    exact ⟨tagged .instanceDump (id.toBytes width ++ u32 0 ++ classId.toBytes width ++
      u32 (values.flatMap (·.toBytes width)).length), rfl⟩
  | objectArray id classId elements =>
    exact ⟨tagged .objectArrayDump (id.toBytes width ++ u32 0 ++ u32 elements.length ++
      classId.toBytes width), rfl⟩
  | primitiveArray id type values =>
    exact ⟨tagged .primitiveArrayDump (arrayBytes width id type values.length), rfl⟩
  | _ => exact ⟨_, (List.append_nil _).symm⟩

theorem length_content_lt {item : DraftItem} (h : (item.toBytes width).length < 2 ^ 32) :
    (item.content width).length < 2 ^ 32 := by
  obtain ⟨start, hbytes⟩ := toBytes_eq_append width item
  rw [hbytes, List.length_append] at h
  omega

/-- There are no more pieces of content than bytes of it. -/
theorem count_lt {γ : Type} {write : γ → List UInt8} {n : Nat} {values : List γ} (item : DraftItem)
    (hcontent : item.content width = values.flatMap write) (hpos : 0 < n)
    (hsize : ∀ v ∈ values, (write v).length = n) (h : (item.toBytes width).length < 2 ^ 32) :
    values.length < 2 ^ 32 := by
  have hlength := length_content_lt h
  rw [hcontent, length_flatMap_eq hsize] at hlength
  exact Nat.lt_of_le_of_lt (Nat.le_mul_of_pos_right _ hpos) hlength

theorem reads_toBytes {item : DraftItem} (h : item.Fits width)
    (hlength : (item.toBytes width).length < 2 ^ 32) :
    ∃ answer, item.subRecord? width position = some answer ∧
      (SubRecord.scan width).Reads source position (item.toBytes width) answer := by
  cases item with
  | heapSwitch heap nameId =>
    refine ⟨_, rfl, reads_tagged (Reads.map ?_ rfl)⟩
    exact (reads_number heap).bind ((reads_ident h).map rfl)
  | root tag object =>
    obtain ⟨horigin, hobject⟩ := h
    obtain ⟨origin, horigin⟩ := Option.isSome_iff_exists.mp horigin
    exact ⟨_, by rw [subRecord?, horigin]; rfl, reads_plainRoot horigin hobject⟩
  | nativeStatic object reference =>
    refine ⟨_, rfl, reads_root (by decide) ?_⟩
    exact (reads_ident h.1).bind (((reads_ident h.2).map rfl).map rfl)
  | nativeLocal object thread frame | javaLocal object thread frame
  | nativeMonitor object thread frame =>
    refine ⟨_, rfl, reads_root (by decide) (reads_frame h thread frame ?_)⟩
    exact (reads_number thread).bind ((reads_frameNumber frame).map rfl)
  | nativeStack object thread | threadBlock object thread =>
    refine ⟨_, rfl, reads_root (by decide) ?_⟩
    exact (reads_ident h).bind (((reads_number thread).map rfl).map rfl)
  | threadObject object thread trace =>
    refine ⟨_, rfl, reads_tagged (Reads.map ?_ rfl)⟩
    rw [List.append_assoc]
    apply ((reads_ident h).map rfl).bind
    exact (reads_number thread).bind ((reads_number trace).map rfl)
  | classDump id superclass instanceSize constants statics fields =>
    obtain ⟨hid, hsuper, hconstants, ⟨hstatics, hstatic⟩, hfields, hfield⟩ := h
    refine ⟨_, rfl, reads_tagged (Reads.map ?_ rfl)⟩
    exact reads_class hid hsuper instanceSize hconstants hstatics hstatic hfields hfield
  | «instance» id classId blob => exact ⟨_, rfl, reads_blob h.1 h.2 hlength⟩
  | instanceValues id classId values => exact ⟨_, rfl, reads_blob h.1 h.2 hlength⟩
  | objectArray id classId elements =>
    have hcount : elements.length < 2 ^ 32 :=
      count_lt (objectArray id classId elements) rfl (by cases width <;> decide)
        (fun target _ => length_reference width target) hlength
    refine ⟨_, rfl, reads_tagged ((reads_objectArray h.1 h.2 hcount).map ?_)⟩
    congr 2
    simp only [contentOffset, toBytes, tagged, content, List.length_cons, List.length_append,
      Ident.length_toBytes, length_u32]
    omega
  | primitiveArray id type values =>
    obtain ⟨hid, htype⟩ := h
    have hcount : values.length < 2 ^ 32 :=
      count_lt (primitiveArray id type values) rfl (show 0 < type.size by cases type <;> decide)
        (fun v hv => by rw [Value.length_toBytes, htype v hv]; rfl) hlength
    refine ⟨_, rfl, reads_tagged ((reads_primitiveArray hid hcount htype).map ?_)⟩
    congr 3
    simp only [contentOffset, toBytes, tagged, arrayBytes, content, List.length_cons,
      List.length_append, List.length_nil, Ident.length_toBytes, length_u32]
    omega
  | primitiveArrayNoData id type count =>
    refine ⟨_, rfl, reads_tagged (Reads.map ?_ rfl)⟩
    exact reads_primitiveArrayNoData h type count
  | raw bytes => exact h.elim

theorem reads_within {stop : Nat} {bytes : List UInt8} {answer : SubRecord}
    (h : (SubRecord.scan width).Reads source position bytes answer)
    (hstop : position + bytes.length ≤ stop) :
    (SubRecord.scanWithin width stop).Reads source position bytes answer := by
  apply Reads.place
  apply h.last
  apply Reads.place
  rw [if_neg (Nat.not_lt.mpr hstop)]
  exact reads_pure rfl

theorem length_toBytes_pos {item : DraftItem} (h : item.Fits width) :
    0 < (item.toBytes width).length := by
  cases item with
  | raw bytes => exact h.elim
  | _ => exact Nat.succ_pos _

theorem hasAt_content {item : DraftItem} (h : source.HasAt position (item.toBytes width)) :
    source.HasAt (item.contentOffset width position) (item.content width) := by
  obtain ⟨start, hbytes⟩ := toBytes_eq_append width item
  rw [contentOffset, hbytes, List.length_append, Nat.add_sub_cancel]
  rw [hbytes] at h
  exact h.right

end Items

end DraftItem

/-! ### Bodies -/

open DraftRecord

/-- Where the items of a body stand that starts at a position. -/
def placed (width : IdWidth) : Nat → List DraftItem → List (Nat × DraftItem)
  | _, [] => []
  | position, item :: items =>
    (position, item) :: placed width (position + (item.toBytes width).length) items

section Bodies

variable {source : ByteSource} {width : IdWidth}

theorem itemBytes_cons (item : DraftItem) (items : List DraftItem) :
    itemBytes width (item :: items) = item.toBytes width ++ itemBytes width items :=
  List.flatMap_cons

theorem hasAt_placed {items : List DraftItem} {position : Nat}
    (h : source.HasAt position (itemBytes width items)) :
    ∀ call ∈ placed width position items, source.HasAt call.1 (call.2.toBytes width) := by
  induction items generalizing position with
  | nil => simp [placed]
  | cons item items ih =>
    intro call hcall
    rw [itemBytes_cons] at h
    rcases List.mem_cons.mp hcall with rfl | hcall
    · exact h.left
    · exact ih h.right call hcall

/-- Each item is read at the byte after the one before it. -/
theorem listFrom_itemBytes {items : List DraftItem} (hfits : ∀ item ∈ items, item.Fits width)
    (hlength : (itemBytes width items).length < 2 ^ 32) {stop fuel position : Nat}
    (hat : source.HasAt position (itemBytes width items))
    (hstop : position + (itemBytes width items).length = stop)
    (hfuel : (itemBytes width items).length ≤ fuel) :
    let found := Scan.listFrom (SubRecord.scanWithin width stop) source stop fuel position
    found.failure = none ∧ found.items.map some =
      (placed width position items).map fun call => call.2.subRecord? width call.1 := by
  induction items generalizing position fuel with
  | nil =>
    have hend : ¬position < stop := Nat.not_lt.mpr (Nat.le_of_eq hstop.symm)
    cases fuel with
    | zero => exact ⟨rfl, rfl⟩
    | succ fuel =>
      rw [Scan.listFrom, if_neg hend]
      exact ⟨rfl, rfl⟩
  | cons item items ih =>
    have hitem := hfits item List.mem_cons_self
    have hpos := DraftItem.length_toBytes_pos hitem
    rw [itemBytes_cons] at hat hlength hstop hfuel
    rw [List.length_append] at hlength hstop hfuel
    obtain ⟨answer, hanswer, hreads⟩ : ∃ answer, item.subRecord? width position = some answer ∧
        (SubRecord.scan width).Reads source position (item.toBytes width) answer :=
      DraftItem.reads_toBytes hitem (by omega)
    have hwithin : (SubRecord.scanWithin width stop) source position =
        ⟨.ok answer, (item.toBytes width).length⟩ :=
      DraftItem.reads_within hreads (by omega) hat.left
    cases fuel with
    | zero => omega
    | succ fuel =>
      rw [Scan.listFrom, if_pos (by omega), hwithin]
      obtain ⟨hfailure, hitems⟩ := ih (fun i hi => hfits i (List.mem_cons_of_mem item hi))
        (by omega) hat.right (by omega) (show _ ≤ fuel by omega)
      refine ⟨hfailure, ?_⟩
      rw [placed, List.map_cons, hanswer, ← hitems]
      rfl

theorem reads_record {position : Nat} {tagByte : UInt8} {body : List UInt8}
    (hlength : body.length < 2 ^ 32) :
    Record.scan.Reads source position (Record.toBytes tagByte body)
      ⟨position, tagByte, 0, .ofNat body.length⟩ := by
  rw [Record.toBytes, List.append_assoc]
  apply Reads.place
  apply (reads_u8 tagByte).bind_cons
  apply (reads_u32 0).bind
  apply (reads_u32 body.length).bind
  exact (reads_skip (UInt32.toNat_ofNat_of_lt' hlength).symm).map rfl

end Bodies

/-- The sub-records of a written body are the items that were written, in order, none of them lost and
none added, each with what the item gave it, and its content where the item put it. -/
theorem list_of_written (width : IdWidth) (items : List DraftItem) (record : DraftRecord)
    (hrecord : record = .heapDump items ∨ record = .segment items)
    (hfits : ∀ item ∈ items, item.Fits width)
    (hlength : (itemBytes width items).length < 2 ^ 32) (before after : List UInt8) :
    let source := ByteSource.ofBytes (before ++ record.toBytes width ++ after).toByteArray
    let calls := placed width (before.length + Record.frameSize) items
    ∃ found : Record, (Record.scan source before.length).answer = .ok found ∧
      found.tagByte = record.tagByte ∧
      (SubRecord.list source width found).failure = none ∧
      (SubRecord.list source width found).items.map some =
        calls.map (fun call => call.2.subRecord? width call.1) ∧
      ∀ call ∈ calls, source.slice (call.2.contentOffset width call.1)
        (call.2.content width).length = .ok (call.2.content width) := by
  intro source calls
  have hbody : record.body width = itemBytes width items := by
    rcases hrecord with rfl | rfl <;> rfl
  have hat : source.HasAt before.length (record.toBytes width) :=
    ByteSource.hasAt_ofBytes before (record.toBytes width) after
  have hscan : Record.scan source before.length = ⟨.ok ⟨before.length, record.tagByte, 0,
      .ofNat (record.body width).length⟩, (record.toBytes width).length⟩ :=
    reads_record (by rwa [hbody]) hat
  have hitems : source.HasAt (before.length + Record.frameSize) (itemBytes width items) := by
    have hright := (show source.HasAt before.length ((record.tagByte :: (Word.toBytes 4 0 ++
      Word.toBytes 4 (record.body width).length)) ++ record.body width) from hat).right
    simpa [hbody, Record.frameSize] using hright
  have hstop : (Record.mk before.length record.tagByte 0 (.ofNat (record.body width).length)).stop =
      before.length + Record.frameSize + (itemBytes width items).length := by
    rw [Record.stop, Record.bodyOffset, hbody, UInt32.toNat_ofNat_of_lt' hlength]
  refine ⟨_, by rw [hscan], rfl, ?_⟩
  have hlist := listFrom_itemBytes hfits hlength hitems hstop.symm (Nat.le_refl _)
  rw [SubRecord.list, Scan.list, Record.bodyOffset, hstop, Nat.add_sub_cancel_left]
  rw [hstop] at hlist
  exact ⟨hlist.1, hlist.2,
    fun call hcall => (DraftItem.hasAt_content (hasAt_placed hitems call hcall)).slice⟩

/-- A body with an item of each kind that has a length of its own. -/
def sampleItems : List DraftItem :=
  [.heapSwitch 1 ⟨2⟩, .root (.root .systemClass) ⟨3⟩, .nativeLocal ⟨4⟩ 5 0xFFFFFFFF,
    .classDump ⟨3⟩ none 8 [(1, .int 7)] [(⟨6⟩, .object (some ⟨0⟩)), (⟨7⟩, .float 0x7FC00001)]
      [(⟨8⟩, .object), (⟨9⟩, .primitive .int)],
    .instanceValues ⟨4⟩ ⟨3⟩ [.object none, .int 9], .objectArray ⟨10⟩ ⟨11⟩ [some ⟨4⟩, none],
    .primitiveArray ⟨12⟩ .short [.short 1, .short 2], .primitiveArrayNoData ⟨13⟩ .long 4]

theorem list_of_written_sampleItems :
    (∀ item ∈ sampleItems, item.Fits .four) ∧ (itemBytes .four sampleItems).length < 2 ^ 32 ∧
      let source := ByteSource.ofBytes
        ([1, 2, 3] ++ (DraftRecord.segment sampleItems).toBytes .four ++ [4]).toByteArray
      let calls := placed .four ([1, 2, 3].length + Record.frameSize) sampleItems
      ∃ found : Record, (Record.scan source [1, 2, 3].length).answer = .ok found ∧
        found.tagByte = (DraftRecord.segment sampleItems).tagByte ∧
        (SubRecord.list source .four found).failure = none ∧
        (SubRecord.list source .four found).items.map some =
          calls.map (fun call => call.2.subRecord? .four call.1) ∧
        ∀ call ∈ calls, source.slice (call.2.contentOffset .four call.1)
          (call.2.content .four).length = .ok (call.2.content .four) :=
  have hfits : ∀ item ∈ sampleItems, item.Fits .four := by decide
  have hlength : (itemBytes .four sampleItems).length < 2 ^ 32 := by decide +kernel
  ⟨hfits, hlength, list_of_written .four sampleItems (.segment sampleItems) (.inr rfl) hfits hlength
    [1, 2, 3] [4]⟩

end HeapDump

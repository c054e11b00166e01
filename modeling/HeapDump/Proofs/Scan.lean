import HeapDump.Draft
import HeapDump.Proofs.Store.Sharded
import HeapDump.Proofs.Word

/-! Scans of bytes that are there.  A scan reads a byte string if it succeeds wherever these bytes
stand, and moves past just them.  What a scan reads is put together as the scan is, and each scan of one
field reads what the field is written as. -/

namespace HeapDump

/-- The bytes from `position` on are `bytes`. -/
def ByteSource.HasAt (source : ByteSource) (position : Nat) (bytes : List UInt8) : Prop :=
  position + bytes.length ≤ source.size ∧
    ∀ start length, start + length ≤ bytes.length →
      source.slice (position + start) length = .ok ((bytes.drop start).take length)

namespace ByteSource

variable {source : ByteSource} {position : Nat} {bytes more : List UInt8}

theorem HasAt.slice (h : source.HasAt position bytes) :
    source.slice position bytes.length = .ok bytes := by
  have := h.2 0 bytes.length (Nat.le_of_eq (Nat.zero_add _))
  rwa [Nat.add_zero, List.drop_zero, List.take_length] at this

theorem HasAt.left (h : source.HasAt position (bytes ++ more)) : source.HasAt position bytes := by
  obtain ⟨hsize, hslice⟩ := h
  rw [List.length_append] at hsize hslice
  refine ⟨by omega, fun start length hin => ?_⟩
  rw [hslice start length (by omega), List.drop_append_of_le_length (by omega),
    List.take_append_of_le_length (by rw [List.length_drop]; omega)]

theorem HasAt.right (h : source.HasAt position (bytes ++ more)) :
    source.HasAt (position + bytes.length) more := by
  obtain ⟨hsize, hslice⟩ := h
  rw [List.length_append] at hsize hslice
  refine ⟨by omega, fun start length hin => ?_⟩
  rw [Nat.add_assoc, hslice (bytes.length + start) length (by omega), List.drop_append,
    List.drop_eq_nil_of_le (Nat.le_add_right _ _), Nat.add_sub_cancel_left, List.nil_append]

theorem HasAt.take (h : source.HasAt position bytes) (n : Nat) :
    source.HasAt position (bytes.take n) := by
  rw [← List.take_append_drop n bytes] at h
  exact h.left

theorem HasAt.drop (h : source.HasAt position bytes) {n : Nat} (hn : n ≤ bytes.length) :
    source.HasAt (position + n) (bytes.drop n) := by
  rw [← List.take_append_drop n bytes] at h
  have hrest := h.right
  rwa [List.length_take_of_le hn] at hrest

theorem slice_ofBytes (bytes : ByteArray) (position length : Nat) :
    (ByteSource.ofBytes bytes).slice position length =
      if position + length ≤ bytes.size then
        .ok ((bytes.data.toList.drop position).take length)
      else .error (.outOfBounds position length bytes.size) := by
  have hbetween : bytesBetween bytes position (position + length) =
      (bytes.data.toList.drop position).take length := by
    rw [bytesBetween, ByteArray.data_extract, Array.toList_extract, List.extract_eq_take_drop,
      Nat.add_sub_cancel_left]
  rw [← hbetween]
  show ((ByteStore.whole bytes).stretch position length).bind (fun stretch => pure stretch.bytes) = _
  by_cases hin : position + length ≤ bytes.size
  · rw [if_pos hin, ByteStore.stretch_whole bytes hin]
    rfl
  · rw [if_neg hin, ByteStore.stretch_outside (.whole bytes) (Nat.not_le.mp hin)]
    rfl

theorem hasAt_ofBytes (before bytes after : List UInt8) :
    (ByteSource.ofBytes (before ++ bytes ++ after).toByteArray).HasAt before.length bytes := by
  have hsize : (before ++ bytes ++ after).toByteArray.size =
      before.length + bytes.length + after.length := by
    rw [List.size_toByteArray, List.length_append, List.length_append]
  refine ⟨?_, fun start length hin => ?_⟩
  · show before.length + bytes.length ≤ (before ++ bytes ++ after).toByteArray.size
    omega
  · rw [slice_ofBytes, if_pos (by omega), List.data_toByteArray, List.append_assoc,
      List.drop_length_add_append, List.drop_append_of_le_length (by omega),
      List.take_append_of_le_length (by rw [List.length_drop]; omega)]

end ByteSource

/-- The identifier has room in its width. -/
def Ident.Fits (width : IdWidth) (id : Ident) : Prop := id.val.toNat < 256 ^ width.bytes

instance (width : IdWidth) (id : Ident) : Decidable (id.Fits width) :=
  inferInstanceAs (Decidable (_ < _))

/-- A reference in a value has room in its width. -/
def Value.Fits (width : IdWidth) : Value → Prop
  | object target => ∀ id ∈ target, id.Fits width
  | _ => True

instance (width : IdWidth) (value : Value) : Decidable (value.Fits width) :=
  match value with
  | .object target => inferInstanceAs (Decidable (∀ id ∈ target, id.Fits width))
  | .boolean _ | .char _ | .float _ | .double _ | .byte _ | .short _ | .int _ | .long _ =>
    .isTrue trivial

/-- The value that is read where this one was written: identifier 0 is the null reference. -/
def Value.asRead : Value → Value
  | object target => object (target.bind Ident.nonNull?)
  | value => value

theorem Ident.ofBytes_toBytes {width : IdWidth} {id : Ident} (h : id.Fits width) :
    Ident.ofBytes (id.toBytes width) = id := by
  rw [ofBytes, toBytes, Word.ofBytes_toBytes, Nat.mod_eq_of_lt h, UInt64.ofNat_toNat]

theorem Ident.null_fits (width : IdWidth) : Ident.null.Fits width := by
  cases width <;> decide

theorem Value.ofBytes_toBytes {width : IdWidth} {v : Value} (h : v.Fits width) :
    Value.ofBytes v.type (v.toBytes width) = v.asRead := by
  cases v with
  | object target =>
    cases target with
    | none =>
      show object (Ident.ofBytes (Ident.null.toBytes width)).nonNull? = object none
      rw [Ident.ofBytes_toBytes (Ident.null_fits width)]
      rfl
    | some id =>
      show object (Ident.ofBytes (id.toBytes width)).nonNull? = object id.nonNull?
      rw [Ident.ofBytes_toBytes (h id rfl)]
  | boolean b => cases b <;> rfl
  | _ => simp [type, ofBytes, toBytes, asRead, Word.ofBytes_toBytes]

/-- A scan succeeds where `bytes` stand and moves past them. -/
def Scan.Reads {α : Type} (scan : Scan α) (source : ByteSource) (position : Nat)
    (bytes : List UInt8) (answer : α) : Prop :=
  source.HasAt position bytes → scan source position = ⟨.ok answer, bytes.length⟩

namespace Scan

variable {α β : Type} {source : ByteSource} {position : Nat} {bytes more : List UInt8}

/-! ### Scans put together -/

theorem reads_pure {a b : α} (h : a = b) :
    Reads (pure a : Scan α) source position [] b := by
  intro _
  rw [h]
  rfl

theorem bind_ok {scan : Scan α} {next : α → Scan β} {a : α} {used : Nat}
    (h : scan source position = ⟨.ok a, used⟩) :
    (scan >>= next) source position =
      ⟨(next a source (position + used)).answer,
        used + (next a source (position + used)).used⟩ := by
  simp only [bind, h]

theorem bind_error {scan : Scan α} {next : α → Scan β} {e : DumpError} {used : Nat}
    (h : scan source position = ⟨.error e, used⟩) :
    (scan >>= next) source position = ⟨.error e, used⟩ := by
  simp only [bind, h]

theorem bind_inv {scan : Scan α} {next : α → Scan β} {b : β} {used : Nat}
    (h : (scan >>= next) source position = ⟨.ok b, used⟩) :
    ∃ a first rest, scan source position = ⟨.ok a, first⟩ ∧
      next a source (position + first) = ⟨.ok b, rest⟩ ∧ used = first + rest := by
  rcases hfirst : scan source position with ⟨e | a, first⟩
  · rw [bind_error hfirst] at h
    cases h
  · rw [bind_ok hfirst] at h
    obtain ⟨hanswer, hused⟩ := Scanned.mk.inj h
    exact ⟨a, first, _, rfl, by rw [← hanswer], hused.symm⟩

/-- Asking for the position reads nothing. -/
theorem position_bind {next : Nat → Scan β} {source : ByteSource} {place : Nat} :
    (Scan.position >>= next) source place = next place source place := by
  rw [bind_ok (show Scan.position source place = ⟨.ok place, 0⟩ from rfl), Nat.add_zero, Nat.zero_add]

theorem Reads.bind {scan : Scan α} {next : α → Scan β} {a : α} {b : β}
    (h : scan.Reads source position bytes a)
    (hnext : (next a).Reads source (position + bytes.length) more b) :
    (scan >>= next).Reads source position (bytes ++ more) b := by
  intro hat
  rw [bind_ok (h hat.left), hnext hat.right, List.length_append]

theorem Reads.bind_cons {scan : Scan α} {next : α → Scan β} {first : UInt8} {a : α} {b : β}
    (h : scan.Reads source position [first] a)
    (hnext : (next a).Reads source (position + 1) more b) :
    (scan >>= next).Reads source position (first :: more) b :=
  h.bind hnext

theorem Reads.last {scan : Scan α} {next : α → Scan β} {a : α} {b : β}
    (h : scan.Reads source position bytes a)
    (hnext : (next a).Reads source (position + bytes.length) [] b) :
    (scan >>= next).Reads source position bytes b := by
  rw [← List.append_nil bytes]
  exact h.bind hnext

theorem Reads.map {scan : Scan α} {f : α → β} {a : α} {b : β}
    (h : scan.Reads source position bytes a) (hb : f a = b) :
    (scan >>= fun a => pure (f a)).Reads source position bytes b :=
  h.last (reads_pure hb)

theorem Reads.place {next : Nat → Scan β} {b : β}
    (h : (next position).Reads source position bytes b) :
    (Scan.position >>= next).Reads source position bytes b := by
  rw [← List.nil_append bytes]
  exact Reads.bind (fun _ => rfl) h

theorem reads_times {item : Scan α} {γ : Type} {write : γ → List UInt8} {answer : γ → α}
    {values : List γ}
    (h : ∀ v ∈ values, ∀ position, item.Reads source position (write v) (answer v)) :
    (item.times values.length).Reads source position (values.flatMap write)
      (values.map answer) := by
  induction values generalizing position with
  | nil => exact reads_pure rfl
  | cons v values ih =>
    rw [List.flatMap_cons, List.map_cons, List.length_cons, times]
    apply (h v List.mem_cons_self position).bind
    exact (ih fun w hw => h w (List.mem_cons_of_mem v hw)).map rfl

/-! ### Scans of fields -/

theorem reads_take {n : Nat} (h : bytes.length = n) :
    (take n).Reads source position bytes bytes := by
  intro hat
  rw [take, ← h, hat.slice]

theorem reads_skip {n : Nat} (h : bytes.length = n) :
    (skip n).Reads source position bytes () := by
  intro hat
  have := hat.1
  rw [skip, if_pos (by omega), h]

theorem reads_word (n v : Nat) :
    (word n).Reads source position (Word.toBytes n v) (v % 256 ^ n) :=
  (reads_take (Word.length_toBytes n v)).map (Word.ofBytes_toBytes n v)

theorem reads_u8 (b : UInt8) : u8.Reads source position [b] b :=
  Reads.map (a := b.toNat) ((reads_take rfl).map (by simp [Word.ofBytes])) UInt8.ofNat_toNat

theorem reads_u16 (n : Nat) :
    u16.Reads source position (DraftItem.u16 n) (UInt16.ofNat n) :=
  (reads_word 2 n).map UInt16.ofNat_mod_size

theorem reads_u32 (n : Nat) :
    u32.Reads source position (DraftItem.u32 n) (UInt32.ofNat n) :=
  (reads_word 4 n).map UInt32.ofNat_mod_size

theorem reads_number (n : UInt32) : u32.Reads source position (DraftItem.u32 n.toNat) n := by
  have h : u32.Reads source position (DraftItem.u32 n.toNat) (UInt32.ofNat n.toNat) :=
    reads_u32 n.toNat
  rwa [UInt32.ofNat_toNat] at h

theorem reads_ident {width : IdWidth} {id : Ident} (h : id.Fits width) :
    (ident width).Reads source position (id.toBytes width) id :=
  (reads_take (id.length_toBytes width)).map (Ident.ofBytes_toBytes h)

theorem reads_reference {width : IdWidth} {target : Option Ident}
    (h : ∀ id ∈ target, id.Fits width) :
    (reference width).Reads source position (DraftItem.reference width target)
      (target.bind Ident.nonNull?) := by
  cases target with
  | none => exact (reads_ident (Ident.null_fits width)).map rfl
  | some id => exact (reads_ident (h id rfl)).map rfl

theorem reads_null (width : IdWidth) :
    (reference width).Reads source position (Ident.null.toBytes width) none :=
  (reads_ident (Ident.null_fits width)).map rfl

theorem reads_frameNumber (frame : UInt32) :
    frameNumber.Reads source position (DraftItem.u32 frame.toNat) (frameNumber? frame) :=
  (reads_number frame).map rfl

theorem reads_fieldType (type : FieldType) :
    fieldType.Reads source position [type.code] type := by
  have hcode : FieldType.ofCode? type.code = some type := by
    rcases type with _ | type
    · rfl
    · cases type <;> rfl
  apply Reads.place
  apply (reads_u8 type.code).last
  rw [hcode]
  exact reads_pure rfl

theorem reads_primitiveType (type : PrimitiveType) :
    primitiveType.Reads source position [type.code] type := by
  have hcode : PrimitiveType.ofCode? type.code = some type := by cases type <;> rfl
  apply Reads.place
  apply (reads_u8 type.code).last
  rw [hcode]
  exact reads_pure rfl

theorem reads_value {width : IdWidth} {v : Value} (h : v.Fits width) :
    (value width v.type).Reads source position (v.toBytes width) v.asRead :=
  (reads_take (v.length_toBytes width)).map (Value.ofBytes_toBytes h)

end Scan

end HeapDump

import HeapDump.Proofs.Slice

/-! Field values, read and written.  A cursor reads a value at its position, by the read of a word that
the type calls for; a decoder takes it from the front of a byte list; a draft writes it.  However the
bytes are held, the first two succeed on the same input with the same value, and writing the value
gives the bytes back, except that true is one whatever byte it was. -/

namespace HeapDump

theorem FieldType.size_pos (width : IdWidth) (type : FieldType) : 0 < type.size width := by
  rcases type with _ | type
  · cases width <;> decide
  · show 0 < type.size
    cases type <;> decide

theorem Slice.value_eq (width : IdWidth) (type : FieldType) (input : List UInt8) :
    Slice.value width type input =
      if type.size width ≤ input.length then
        .ok (Value.ofBytes type (input.take (type.size width)), input.drop (type.size width))
      else .error ⟨input⟩ := by
  show (Slice.take (type.size width) input).bind _ = _
  rw [Slice.take]
  split <;> rfl

/-! ### What the bytes of a field spell -/

namespace FieldType

/-- The bytes that a field is written as once it has been read: true is one, whatever byte it was. -/
def written (bytes : List UInt8) : FieldType → List UInt8
  | .primitive .boolean => bytes.map fun b => if b = 0 then 0 else 1
  | _ => bytes

/-- The number in a field of an integral type: a character counts as its unit, and the others are in
two's complement. -/
def number? (bytes : List UInt8) : FieldType → Option Int
  | .primitive .char => some (Word.ofBytes bytes)
  | .primitive .byte | .primitive .short | .primitive .int | .primitive .long =>
    some ((Word.ofBytes bytes : Int).bmod (256 ^ bytes.length))
  | _ => none

end FieldType

theorem Ident.toBytes_ofBytes {width : IdWidth} {bytes : List UInt8}
    (h : bytes.length = width.bytes) : (Ident.ofBytes bytes).toBytes width = bytes := by
  have hle : bytes.length ≤ 8 := by cases width <;> simp [h, IdWidth.bytes]
  rw [Ident.toBytes, Ident.ofBytes, Word.toNat_ofBytes64 hle, Word.toBytes_ofBytes h]

/-- Null is written as the identifier that it was read from. -/
theorem Ident.getD_nonNull? (id : Ident) : id.nonNull?.getD Ident.null = id := by
  rw [nonNull?]
  split
  · next h => exact h.symm
  · rfl

namespace Value

variable {width : IdWidth} {bytes : List UInt8}

theorem type_ofBytes (type : FieldType) (bytes : List UInt8) : (ofBytes type bytes).type = type := by
  rcases type with _ | type
  · rfl
  · cases type <;> rfl

theorem target?_ofBytes_ne (type : FieldType) (bytes : List UInt8) :
    (ofBytes type bytes).target? ≠ some Ident.null := by
  rcases type with _ | type
  · show (Ident.ofBytes bytes).nonNull? ≠ some Ident.null
    rw [Ident.nonNull?]
    split
    · exact nofun
    · next h => exact fun heq => h (Option.some.inj heq)
  · cases type <;> exact nofun

theorem toBytes_ofBytes_boolean (b : UInt8) :
    (ofBytes (.primitive .boolean) [b]).toBytes width =
      FieldType.written [b] (.primitive .boolean) := by
  have hzero : Word.ofBytes [b] ≠ 0 ↔ b ≠ 0 := by
    rw [Word.ofBytes_singleton, Ne, Ne, ← UInt8.toNat_inj, UInt8.toNat_zero]
  show [if decide (Word.ofBytes [b] ≠ 0) = true then 1 else 0] = [if b = 0 then 0 else 1]
  simp only [hzero, decide_eq_true_eq, ite_not]

/-- Writing a value gives back the bytes that it was read from. -/
theorem toBytes_ofBytes {type : FieldType} (h : bytes.length = type.size width) :
    (ofBytes type bytes).toBytes width = type.written bytes := by
  rcases type with _ | type
  · show ((Ident.ofBytes bytes).nonNull?.getD Ident.null).toBytes width = bytes
    rw [Ident.getD_nonNull?, Ident.toBytes_ofBytes h]
  · cases type with
    | boolean =>
      obtain ⟨b, rfl⟩ := List.length_eq_one_iff.mp h
      exact toBytes_ofBytes_boolean b
    | char =>
      show Word.toBytes 2 _ = bytes
      rw [Word.toNat_ofBytes16 (Nat.le_of_eq h), Word.toBytes_ofBytes (n := 2) h]
    | float =>
      show Word.toBytes 4 _ = bytes
      rw [Word.toNat_ofBytes32 (Nat.le_of_eq h), Word.toBytes_ofBytes (n := 4) h]
    | double =>
      show Word.toBytes 8 _ = bytes
      rw [Word.toNat_ofBytes64 (Nat.le_of_eq h), Word.toBytes_ofBytes (n := 8) h]
    | byte =>
      show Word.toBytes 1 _ = bytes
      rw [UInt8.toUInt8_toInt8, Word.toNat_ofBytes8 (Nat.le_of_eq h), Word.toBytes_ofBytes (n := 1) h]
    | short =>
      show Word.toBytes 2 _ = bytes
      rw [UInt16.toUInt16_toInt16, Word.toNat_ofBytes16 (Nat.le_of_eq h), Word.toBytes_ofBytes (n := 2) h]
    | int =>
      show Word.toBytes 4 _ = bytes
      rw [UInt32.toUInt32_toInt32, Word.toNat_ofBytes32 (Nat.le_of_eq h), Word.toBytes_ofBytes (n := 4) h]
    | long =>
      show Word.toBytes 8 _ = bytes
      rw [UInt64.toUInt64_toInt64, Word.toNat_ofBytes64 (Nat.le_of_eq h), Word.toBytes_ofBytes (n := 8) h]

/-- An integral value is the number that its bytes spell, sign included. -/
theorem integer?_ofBytes {type : FieldType} (h : bytes.length = type.size width) :
    (ofBytes type bytes).integer? = type.number? bytes := by
  rcases type with _ | type
  · rfl
  · cases type with
    | boolean | float | double => rfl
    | char => exact congrArg (fun n : Nat => some (n : Int)) (Word.toNat_ofBytes16 (Nat.le_of_eq h))
    | byte =>
      show some (UInt8.ofNat (Word.ofBytes bytes)).toBitVec.toInt = some _
      rw [BitVec.toInt_eq_toNat_bmod, UInt8.toNat_toBitVec, Word.toNat_ofBytes8 (Nat.le_of_eq h), h]
      rfl
    | short =>
      show some (UInt16.ofNat (Word.ofBytes bytes)).toBitVec.toInt = some _
      rw [BitVec.toInt_eq_toNat_bmod, UInt16.toNat_toBitVec, Word.toNat_ofBytes16 (Nat.le_of_eq h), h]
      rfl
    | int =>
      show some (UInt32.ofNat (Word.ofBytes bytes)).toBitVec.toInt = some _
      rw [BitVec.toInt_eq_toNat_bmod, UInt32.toNat_toBitVec, Word.toNat_ofBytes32 (Nat.le_of_eq h), h]
      rfl
    | long =>
      show some (UInt64.ofNat (Word.ofBytes bytes)).toBitVec.toInt = some _
      rw [BitVec.toInt_eq_toNat_bmod, UInt64.toNat_toBitVec, Word.toNat_ofBytes64 (Nat.le_of_eq h), h]
      rfl

end Value

/-! ### Reads at a position -/

namespace Scan

variable {α β : Type} {file : ByteArray} {width : IdWidth} {n : Nat}

/-- The scan makes a value of the next `n` bytes of a file.  It fails, and stays, where there are fewer. -/
def Fixed (scan : Scan α) (file : ByteArray) (n : Nat) (value : List UInt8 → α) : Prop :=
  ∀ position, scan (.ofBytes file) position =
    if position + n ≤ file.size then ⟨.ok (value ((file.data.toList.drop position).take n)), n⟩
    else ⟨.error (.outOfBounds position n file.size), 0⟩

theorem fixed_take (n : Nat) : (take n).Fixed file n id := by
  intro position
  rw [take, ByteSource.slice_ofBytes]
  by_cases h : position + n ≤ file.size
  · rw [if_pos h, if_pos h]
    rfl
  · rw [if_neg h, if_neg h]

theorem Fixed.map {scan : Scan α} {value : List UInt8 → α} (h : scan.Fixed file n value) (f : α → β) :
    (scan >>= fun a => pure (f a)).Fixed file n (f ∘ value) := by
  intro position
  have hscan := h position
  split at hscan
  · next hin => rw [if_pos hin, bind_ok hscan]; rfl
  · next hout => rw [if_neg hout, bind_error hscan]

/-- What the scan would make of other numbers of bytes plays no part. -/
theorem Fixed.congr {scan : Scan α} {value value' : List UInt8 → α} (h : scan.Fixed file n value)
    (heq : ∀ bytes, bytes.length = n → value bytes = value' bytes) : scan.Fixed file n value' := by
  intro position
  rw [h position]
  split
  · next hin =>
    have hlength : file.data.toList.length = file.size := Array.length_toList
    rw [heq _ (List.length_take_of_le (by rw [List.length_drop]; omega))]
  · rfl

theorem fixed_word (n : Nat) : (word n).Fixed file n Word.ofBytes := (fixed_take n).map _

theorem fixed_u8 : u8.Fixed file 1 (UInt8.ofNat ∘ Word.ofBytes) := (fixed_word 1).map _

theorem fixed_u16 : u16.Fixed file 2 (UInt16.ofNat ∘ Word.ofBytes) := (fixed_word 2).map _

theorem fixed_u32 : u32.Fixed file 4 (UInt32.ofNat ∘ Word.ofBytes) := (fixed_word 4).map _

theorem fixed_u64 : u64.Fixed file 8 (UInt64.ofNat ∘ Word.ofBytes) := (fixed_word 8).map _

theorem fixed_ident (width : IdWidth) : (ident width).Fixed file width.bytes Ident.ofBytes :=
  (fixed_take _).map _

theorem fixed_value (width : IdWidth) (type : FieldType) :
    (value width type).Fixed file (type.size width) (Value.ofBytes type) :=
  (fixed_take _).map _

/-- The read of a value as the read of a word that its type calls for. -/
def byWords (width : IdWidth) : FieldType → Scan Value
  | .object => return .object (← ident width).nonNull?
  | .primitive .boolean => return .boolean ((← u8) ≠ 0)
  | .primitive .char => return .char (← u16)
  | .primitive .float => return .float (← u32)
  | .primitive .double => return .double (← u64)
  | .primitive .byte => return .byte (← u8).toInt8
  | .primitive .short => return .short (← u16).toInt16
  | .primitive .int => return .int (← u32).toInt32
  | .primitive .long => return .long (← u64).toInt64

theorem fixed_byWords (width : IdWidth) (type : FieldType) :
    (byWords width type).Fixed file (type.size width) (Value.ofBytes type) := by
  rcases type with _ | type
  · exact (fixed_ident width).map _
  · cases type with
    | boolean =>
      refine (fixed_u8.map fun b => Value.boolean (b ≠ 0)).congr fun bytes h => ?_
      obtain ⟨b, rfl⟩ := List.length_eq_one_iff.mp h
      have hzero : UInt8.ofNat (Word.ofBytes [b]) ≠ 0 ↔ Word.ofBytes [b] ≠ 0 := by
        rw [Ne, Ne, ← UInt8.toNat_inj, Word.toNat_ofBytes8 (Nat.le_of_eq h), UInt8.toNat_zero]
      exact congrArg Value.boolean (decide_eq_decide.mpr hzero)
    | char => exact fixed_u16.map _
    | float => exact fixed_u32.map _
    | double => exact fixed_u64.map _
    | byte => exact fixed_u8.map _
    | short => exact fixed_u16.map _
    | int => exact fixed_u32.map _
    | long => exact fixed_u64.map _

/-- A cursor after a read of `n` bytes: it has moved past them, or it is where it was. -/
theorem Fixed.run {scan : Scan α} {value : List UInt8 → α} (h : scan.Fixed file n value)
    (position : Nat) :
    (⟨.ofBytes file, position⟩ : Cursor).run scan =
      if position + n ≤ file.size then
        (.ok (value ((file.data.toList.drop position).take n)), ⟨.ofBytes file, position + n⟩)
      else (.error (.outOfBounds position n file.size), ⟨.ofBytes file, position⟩) := by
  rw [Cursor.run]
  dsimp only
  rw [h position]
  split <;> rfl

end Scan

/-- A value read at a position of a file and one taken from the bytes behind it, however the file is held.
Both are there if and only if their bytes are, and then they are the same; the cursor comes to where
the decoder stops.  The value is of the type, null if it is the identifier zero, the number that its
bytes spell if it is integral, and written as it was read.  Else the cursor stays where it is. -/
theorem value_read_alike (file : ByteArray) (store : ByteStore)
    (hstore : store = .whole file ∨ ∃ options, store = .shard options file) (position : Nat)
    (width : IdWidth) (type : FieldType) :
    let cursor : Cursor := ⟨store.source, position⟩
    let size := type.size width
    let behind := file.data.toList.drop position
    cursor.run (Scan.value width type) = cursor.run (Scan.byWords width type) ∧
    ((∃ v, (cursor.run (Scan.byWords width type)).1 = .ok v) ↔ size ≤ cursor.remaining) ∧
    ((∃ v rest, Slice.value width type behind = .ok (v, rest)) ↔ size ≤ cursor.remaining) ∧
    (size ≤ cursor.remaining → ∃ v,
      cursor.run (Scan.byWords width type) = (.ok v, cursor.seek (position + size)) ∧
      Slice.value width type behind = .ok (v, file.data.toList.drop (position + size)) ∧
      v.type = type ∧ v.target? ≠ some .null ∧ v.integer? = type.number? (behind.take size) ∧
      v.toBytes width = type.written (behind.take size)) ∧
    (cursor.remaining < size →
      cursor.run (Scan.byWords width type) =
        (.error (.outOfBounds position size file.size), cursor) ∧
      Slice.value width type behind = .error ⟨behind⟩) := by
  have hsource : store.source = .ofBytes file := by
    rcases hstore with rfl | ⟨options, rfl⟩
    · rfl
    · exact ByteStore.source_shard options file
  rw [hsource]
  intro cursor size behind
  have hpos : 0 < size := type.size_pos width
  have hin : size ≤ cursor.remaining ↔ position + size ≤ file.size := by
    show size ≤ file.size - position ↔ _
    omega
  have hlength : behind.length = cursor.remaining :=
    List.length_drop.trans (congrArg (· - position) Array.length_toList)
  have hwords : cursor.run (Scan.byWords width type) = _ :=
    (Scan.fixed_byWords width type).run position
  have hslice := Slice.value_eq width type behind
  rw [hlength] at hslice
  refine ⟨((Scan.fixed_value width type).run position).trans hwords.symm, ?_, ?_, fun h => ?_,
    fun h => ?_⟩
  · rw [hin, hwords]
    split
    · next h => exact ⟨fun _ => h, fun _ => ⟨_, rfl⟩⟩
    · next h => exact ⟨fun ⟨_, herror⟩ => (nomatch herror), fun hsize => absurd hsize h⟩
  · rw [hslice]
    split
    · next h => exact ⟨fun _ => h, fun _ => ⟨_, _, rfl⟩⟩
    · next h => exact ⟨fun ⟨_, _, herror⟩ => (nomatch herror), fun hsize => absurd hsize h⟩
  · have htake : (behind.take size).length = size := List.length_take_of_le (hlength.symm ▸ h)
    refine ⟨Value.ofBytes type (behind.take size), ?_, ?_, Value.type_ofBytes _ _,
      Value.target?_ofBytes_ne _ _, Value.integer?_ofBytes htake, Value.toBytes_ofBytes htake⟩
    · rw [hwords, if_pos (hin.mp h)]
      rfl
    · rw [hslice, if_pos h, List.drop_drop]
  · have hout : ¬size ≤ cursor.remaining := Nat.not_le.mpr h
    exact ⟨by rw [hwords, if_neg (mt hin.mpr hout)], by rw [hslice, if_neg hout]⟩

def sevenBytes : ByteArray := List.toByteArray [5, 0xFF, 0xFF, 0xFF, 0xFE, 0, 0]

/-- Seven bytes in shards of three, so that a number stands in two of them. -/
def cramped : ByteStore :=
  .shard ((ShardOptions.withShardSize default 3).withPadding 0) sevenBytes

theorem value_read_alike_cramped :
    (∃ options, cramped = .shard options sevenBytes) ∧
    (⟨cramped.source, 1⟩ : Cursor).run (Scan.byWords .four (.primitive .int)) =
      (.ok (.int (-2)), ⟨cramped.source, 5⟩) ∧
    (⟨cramped.source, 0⟩ : Cursor).run (Scan.byWords .four (.primitive .boolean)) =
      (.ok (.boolean true), ⟨cramped.source, 1⟩) ∧
    (⟨cramped.source, 4⟩ : Cursor).run (Scan.byWords .four .object) =
      (.error (.outOfBounds 4 4 7), ⟨cramped.source, 4⟩) := by
  have hread := value_read_alike sevenBytes cramped (.inr ⟨_, rfl⟩)
  obtain ⟨-, -, -, hint, -⟩ := hread 1 .four (.primitive .int)
  obtain ⟨v, hrun, hslice, -⟩ := hint (by decide)
  obtain ⟨-, -, -, hboolean, -⟩ := hread 0 .four (.primitive .boolean)
  obtain ⟨w, hrun', hslice', -⟩ := hboolean (by decide)
  obtain ⟨-, -, -, -, hshort⟩ := hread 4 .four .object
  refine ⟨⟨_, rfl⟩, ?_, ?_, (hshort (by decide)).1⟩
  · cases hslice
    exact hrun
  · cases hslice'
    exact hrun'

end HeapDump

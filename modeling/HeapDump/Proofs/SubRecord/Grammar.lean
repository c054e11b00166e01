import HeapDump.Proofs.Scan
import Mathlib.Computability.Language

/-! The grammar of heap dump bodies.  Each kind of sub-record is a language over bytes, put together from
runs of bytes of known length, counts with what they count, and type codes with values of the size that
they stand for.  Where bytes stand, a sub-record is read from just them if and only if they are a word
of the grammar. -/

namespace HeapDump

namespace Grammar

/-! ### Languages -/

/-- Any `n` bytes. -/
def bytes (n : Nat) : Language UInt8 := {x | x.length = n}

/-- A number of `k` bytes and what depends on it. -/
def after (k : Nat) (rest : Nat → Language UInt8) : Language UInt8 :=
  {x | ∃ n ∈ bytes k, ∃ y ∈ rest (Word.ofBytes n), n ++ y = x}

/-- A type code and what depends on the size of the values of that type. -/
def typed (size? : UInt8 → Option Nat) (rest : Nat → Language UInt8) : Language UInt8 :=
  {x | ∃ code size, size? code = some size ∧ ∃ y ∈ rest size, code :: y = x}

/-- Items after their number, which takes two bytes. -/
def counted (item : Language UInt8) : Language UInt8 :=
  after 2 (item ^ ·)

/-- The size of the values of each primitive type, by the code of the type. -/
def primitiveSize? : UInt8 → Option Nat
  | 4 | 8 => some 1
  | 5 | 9 => some 2
  | 6 | 10 => some 4
  | 7 | 11 => some 8
  | _ => none

/-- Two codes stand for references. -/
def fieldSize? (width : IdWidth) (code : UInt8) : Option Nat :=
  if code = 1 ∨ code = 2 then some width.bytes else primitiveSize? code

/-- The bytes that a root takes behind its tag. -/
def rootSize (width : IdWidth) : RootKind → Nat
  | .nativeStatic => width.bytes + width.bytes
  | .nativeLocal | .javaLocal | .nativeMonitor | .threadObject => width.bytes + (4 + 4)
  | .nativeStack | .threadBlock => width.bytes + 4
  | _ => width.bytes

/-- Identifier, trace, six references and the instance size, and then the three lists. -/
def classDump (width : IdWidth) : Language UInt8 :=
  bytes (width.bytes + 4 + 6 * width.bytes + 4) *
    (counted (bytes 2 * typed (fieldSize? width) bytes) *
      (counted (bytes width.bytes * typed (fieldSize? width) bytes) *
        counted (bytes width.bytes * typed (fieldSize? width) fun _ => 1)))

/-- What stands behind each tag. -/
def fields (width : IdWidth) : SubRecordTag → Language UInt8
  | .root kind => bytes (rootSize width kind)
  | .heapInfo => bytes (4 + width.bytes)
  | .classDump => classDump width
  | .instanceDump => bytes (width.bytes + 4 + width.bytes) * after 4 bytes
  | .objectArrayDump =>
    bytes (width.bytes + 4) * after 4 fun count => bytes (width.bytes + count * width.bytes)
  | .primitiveArrayDump =>
    bytes (width.bytes + 4) *
      after 4 fun count => typed primitiveSize? fun size => bytes (count * size)
  | .primitiveArrayNoData => bytes (width.bytes + 4 + 4) * typed primitiveSize? fun _ => 1

/-- A tag and its fields. -/
def subRecord (width : IdWidth) : Language UInt8 :=
  {x | ∃ tag : SubRecordTag, ∃ y ∈ fields width tag, tag.byte :: y = x}

theorem bytes_add (m n : Nat) : bytes (m + n) = bytes m * bytes n := by
  ext x
  rw [Language.mem_mul]
  constructor
  · intro hx
    have hx : x.length = m + n := hx
    refine ⟨x.take m, ?_, x.drop m, ?_, List.take_append_drop m x⟩
    · exact List.length_take_of_le (by omega)
    · exact (List.length_drop).trans (by omega)
  · rintro ⟨y, hy, z, hz, rfl⟩
    exact (List.length_append).trans (congrArg₂ (· + ·) hy hz)

theorem bytes_zero : bytes 0 = 1 := by
  ext x
  exact List.length_eq_zero_iff.trans (Language.mem_one x).symm

theorem after_mul (k : Nat) (rest : Nat → Language UInt8) (more : Language UInt8) :
    after k rest * more = after k fun n => rest n * more := by
  ext x
  simp only [Language.mem_mul]
  constructor
  · rintro ⟨_, ⟨n, hn, y, hy, rfl⟩, z, hz, rfl⟩
    exact ⟨n, hn, y ++ z, Language.mem_mul.mpr ⟨y, hy, z, hz, rfl⟩, (List.append_assoc n y z).symm⟩
  · rintro ⟨n, hn, _, hyz, rfl⟩
    obtain ⟨y, hy, z, hz, rfl⟩ := Language.mem_mul.mp hyz
    exact ⟨n ++ y, ⟨n, hn, y, hy, rfl⟩, z, hz, List.append_assoc n y z⟩

theorem size_ofCode? (code : UInt8) :
    (PrimitiveType.ofCode? code).map (·.size) = primitiveSize? code := by
  unfold primitiveSize?
  split
  case h_9 h4 h8 h5 h9 h6 h10 h7 h11 =>
    have hnone : PrimitiveType.ofCode? code = none := by
      rw [PrimitiveType.ofCode?, List.find?_eq_none]
      rintro type - htype
      have hcode : type.code = code := of_decide_eq_true htype
      cases type <;> simp_all [PrimitiveType.code]
    rw [hnone, Option.map_none]
  all_goals rfl

theorem size_fieldType_ofCode? (width : IdWidth) (code : UInt8) :
    (FieldType.ofCode? code).map (·.size width) = fieldSize? width code := by
  rw [FieldType.ofCode?, fieldSize?]
  split
  · rfl
  · rw [Option.map_map, ← size_ofCode?]
    rfl

end Grammar

/-- A scan succeeds on just the words of a language, wherever they stand. -/
def Scan.Accepts {α : Type} (scan : Scan α) (language : Language UInt8) : Prop :=
  ∀ ⦃source position x⦄, source.HasAt position x →
    ((∃ a, scan source position = ⟨.ok a, x.length⟩) ↔ x ∈ language)

/-- A scan gives each answer on just the words that spell it. -/
def Scan.Spells {α : Type} (scan : Scan α) (words : α → Language UInt8) : Prop :=
  ∀ ⦃source position x⦄, source.HasAt position x →
    ∀ a, scan source position = ⟨.ok a, x.length⟩ ↔ x ∈ words a

namespace Scan

open Grammar

variable {α β : Type}

/-! ### Scans put together -/

/-- A scan in two steps reads some bytes first and then the rest. -/
theorem bind_eq_ok_iff {source : ByteSource} {position : Nat} {x : List UInt8}
    {scan : Scan α} {next : α → Scan β} {b : β} :
    (scan >>= next) source position = ⟨.ok b, x.length⟩ ↔
      ∃ a y z, y ++ z = x ∧ scan source position = ⟨.ok a, y.length⟩ ∧
        next a source (position + y.length) = ⟨.ok b, z.length⟩ := by
  constructor
  · intro h
    obtain ⟨a, first, rest, hfirst, hrest, hlength⟩ := bind_inv h
    have hy : (x.take first).length = first := List.length_take_of_le (by omega)
    have hz : (x.drop first).length = rest := by rw [List.length_drop]; omega
    exact ⟨a, x.take first, x.drop first, List.take_append_drop first x, by rw [hy, hfirst],
      by rw [hy, hz, hrest]⟩
  · rintro ⟨a, y, z, rfl, hy, hz⟩
    rw [bind_ok hy, hz, List.length_append]

/-- The words of the second step may depend on the answer of the first. -/
theorem Spells.bind_accepts {scan : Scan α} {next : α → Scan β} {words : α → Language UInt8}
    (h : scan.Spells words) (more : α → Language UInt8) (hnext : ∀ a, (next a).Accepts (more a)) :
    (scan >>= next).Accepts {x | ∃ a, x ∈ words a * more a} := by
  intro source position x hat
  simp only [bind_eq_ok_iff, Language.mem_mul]
  constructor
  · rintro ⟨b, a, y, z, rfl, hy, hz⟩
    exact ⟨a, y, (h hat.left a).mp hy, z, (hnext a hat.right).mp ⟨b, hz⟩, rfl⟩
  · rintro ⟨a, y, hy, z, hz, rfl⟩
    obtain ⟨b, hb⟩ := (hnext a hat.right).mpr hz
    exact ⟨b, a, y, z, rfl, (h hat.left a).mpr hy, hb⟩

theorem Accepts.mul {scan : Scan α} {next : α → Scan β} {first rest : Language UInt8}
    (h : scan.Accepts first) (hnext : ∀ a, (next a).Accepts rest) :
    (scan >>= next).Accepts (first * rest) := by
  intro source position x hat
  simp only [bind_eq_ok_iff, Language.mem_mul]
  constructor
  · rintro ⟨b, a, y, z, rfl, hy, hz⟩
    exact ⟨y, (h hat.left).mp ⟨a, hy⟩, z, (hnext a hat.right).mp ⟨b, hz⟩, rfl⟩
  · rintro ⟨y, hy, z, hz, rfl⟩
    obtain ⟨a, ha⟩ := (h hat.left).mpr hy
    obtain ⟨b, hb⟩ := (hnext a hat.right).mpr hz
    exact ⟨b, a, y, z, rfl, ha, hb⟩

theorem accepts_pure (a : α) : Accepts (pure a) 1 := by
  intro source position x _
  rw [Language.mem_one]
  constructor
  · rintro ⟨b, hb⟩
    exact List.length_eq_zero_iff.mp (Scanned.mk.inj hb).2.symm
  · rintro rfl
    exact ⟨a, rfl⟩

theorem Accepts.map {scan : Scan α} {language : Language UInt8} (h : scan.Accepts language)
    (f : α → β) : (scan >>= fun a => pure (f a)).Accepts language := by
  rw [← mul_one language]
  exact h.mul fun a => accepts_pure (f a)

theorem Spells.map {scan : Scan α} {words : α → Language UInt8} (h : scan.Spells words)
    (f : α → β) : (scan >>= fun a => pure (f a)).Spells fun b => {x | ∃ a, x ∈ words a ∧ f a = b} := by
  intro source position x hat b
  rw [bind_eq_ok_iff]
  refine exists_congr fun a => ?_
  constructor
  · rintro ⟨y, z, rfl, hy, hz⟩
    obtain ⟨hb, hlength⟩ := Scanned.mk.inj hz
    obtain rfl := List.length_eq_zero_iff.mp hlength.symm
    rw [List.append_nil]
    exact ⟨(h hat.left a).mp hy, Except.ok.inj hb⟩
  · rintro ⟨hx, rfl⟩
    exact ⟨x, [], List.append_nil x, (h hat a).mpr hx, rfl⟩

theorem Accepts.place {next : Nat → Scan β} {language : Language UInt8}
    (h : ∀ position, (next position).Accepts language) :
    (position >>= next).Accepts language := by
  intro source place x hat
  rw [position_bind]
  exact h place hat

theorem accepts_times {item : Scan α} {language : Language UInt8} (h : item.Accepts language)
    (n : Nat) : (item.times n).Accepts (language ^ n) := by
  induction n with
  | zero => exact accepts_pure []
  | succ n ih =>
    rw [pow_succ']
    exact h.mul fun first => ih.map (first :: ·)

/-! ### Scans of fields -/

theorem spells_take (n : Nat) : (take n).Spells fun y => {x | x ∈ bytes n ∧ x = y} := by
  intro source position x hat y
  constructor
  · intro h
    rw [take] at h
    split at h
    · next slice hslice =>
      obtain ⟨hy, hn⟩ := Scanned.mk.inj h
      rw [hn, hat.slice] at hslice
      exact ⟨hn.symm, (Except.ok.inj hslice).trans (Except.ok.inj hy)⟩
    · cases h
  · rintro ⟨hn, rfl⟩
    exact reads_take hn hat

theorem accepts_take (n : Nat) : (take n).Accepts (bytes n) := by
  intro source position x hat
  refine (exists_congr (spells_take n hat)).trans ?_
  exact ⟨fun ⟨_, hx, _⟩ => hx, fun hx => ⟨x, hx, rfl⟩⟩

theorem accepts_skip (n : Nat) : (skip n).Accepts (bytes n) := by
  intro source position x hat
  constructor
  · rintro ⟨_, h⟩
    rw [skip] at h
    split at h
    · exact (Scanned.mk.inj h).2.symm
    · cases h
  · exact fun hx => ⟨(), reads_skip hx hat⟩

theorem spells_word (n : Nat) :
    (word n).Spells fun v => {x | x ∈ bytes n ∧ Word.ofBytes x = v} := by
  intro source position x hat v
  refine ((spells_take n).map Word.ofBytes hat v).trans ?_
  exact ⟨fun ⟨_, ⟨hx, rfl⟩, hv⟩ => ⟨hx, hv⟩, fun ⟨hx, hv⟩ => ⟨x, ⟨hx, rfl⟩, hv⟩⟩

/-- A scan of a number of `n` bytes that keeps it as `f` says. -/
theorem spells_number (n : Nat) (f : Nat → α) :
    (word n >>= fun v => pure (f v)).Spells fun a => {x | x ∈ bytes n ∧ f (Word.ofBytes x) = a} := by
  intro source position x hat a
  refine ((spells_word n).map f hat a).trans ?_
  exact ⟨fun ⟨_, ⟨hx, rfl⟩, hv⟩ => ⟨hx, hv⟩, fun ⟨hx, hv⟩ => ⟨_, ⟨hx, rfl⟩, hv⟩⟩

theorem accepts_number (n : Nat) (f : Nat → α) :
    (word n >>= fun v => pure (f v)).Accepts (bytes n) :=
  ((accepts_take n).map Word.ofBytes).map f

theorem accepts_u16 : u16.Accepts (bytes 2) := accepts_number 2 _

theorem accepts_u32 : u32.Accepts (bytes 4) := accepts_number 4 _

theorem accepts_ident (width : IdWidth) : (ident width).Accepts (bytes width.bytes) :=
  (accepts_take width.bytes).map _

theorem accepts_reference (width : IdWidth) : (reference width).Accepts (bytes width.bytes) :=
  (accepts_ident width).map _

theorem accepts_value (width : IdWidth) (type : FieldType) :
    (value width type).Accepts (bytes (type.size width)) :=
  (accepts_take _).map _

/-- What follows a number depends on it, and not on the type in which it is kept. -/
theorem accepts_after {n : Nat} {f : Nat → α} {toNat : α → Nat} (hf : ∀ v < 256 ^ n, toNat (f v) = v)
    {next : α → Scan β} {rest : Nat → Language UInt8}
    (h : ∀ a, (next a).Accepts (rest (toNat a))) :
    ((word n >>= fun v => pure (f v)) >>= next).Accepts (after n rest) := by
  intro source position x hat
  refine ((spells_number n f).bind_accepts _ h hat).trans ?_
  constructor
  · rintro ⟨a, ha⟩
    obtain ⟨y, ⟨hy, rfl⟩, z, hz, rfl⟩ := Language.mem_mul.mp ha
    have hlt : Word.ofBytes y < 256 ^ n := Word.ofBytes_lt_of_length_le (Nat.le_of_eq hy)
    rw [hf _ hlt] at hz
    exact ⟨y, hy, z, hz, rfl⟩
  · rintro ⟨y, hy, z, hz, rfl⟩
    have hlt : Word.ofBytes y < 256 ^ n := Word.ofBytes_lt_of_length_le (Nat.le_of_eq hy)
    refine ⟨_, Language.mem_mul.mpr ⟨y, ⟨hy, rfl⟩, z, ?_, rfl⟩⟩
    rwa [hf _ hlt]

theorem accepts_after_u16 {next : UInt16 → Scan β} {rest : Nat → Language UInt8}
    (h : ∀ n, (next n).Accepts (rest n.toNat)) : (u16 >>= next).Accepts (after 2 rest) :=
  accepts_after (fun _ hv => UInt16.toNat_ofNat_of_lt' hv) h

theorem accepts_after_u32 {next : UInt32 → Scan β} {rest : Nat → Language UInt8}
    (h : ∀ n, (next n).Accepts (rest n.toNat)) : (u32 >>= next).Accepts (after 4 rest) :=
  accepts_after (fun _ hv => UInt32.toNat_ofNat_of_lt' hv) h

/-- A list after its length. -/
theorem accepts_counted {item : Scan α} {next : List α → Scan β} {language rest : Language UInt8}
    (hitem : item.Accepts language) (hnext : ∀ items, (next items).Accepts rest) :
    (u16 >>= fun count => item.times count.toNat >>= next).Accepts (counted language * rest) := by
  rw [counted, after_mul]
  exact accepts_after_u16 fun count => (accepts_times hitem count.toNat).mul hnext

theorem spells_u8 : u8.Spells fun b => {x | x = [b]} := by
  intro source position x hat b
  refine (spells_number 1 UInt8.ofNat hat b).trans ?_
  constructor
  · rintro ⟨hx, rfl⟩
    obtain ⟨c, rfl⟩ := List.length_eq_one_iff.mp hx
    exact congrArg (fun c => [c]) (by simp [Word.ofBytes])
  · rintro rfl
    exact ⟨rfl, by simp [Word.ofBytes]⟩

/-- A scan of a code that fails on bytes that are no code. -/
theorem spells_code {ofCode? : UInt8 → Option α} {next : Nat → UInt8 → Scan α}
    (hsome : ∀ offset code a, ofCode? code = some a → next offset code = pure a)
    (hnone : ∀ offset code, ofCode? code = none → ∃ e, next offset code = fail e) :
    (position >>= fun offset => u8 >>= next offset).Spells
      fun a => {x | ∃ code, x = [code] ∧ ofCode? code = some a} := by
  intro source place x hat a
  rw [position_bind, bind_eq_ok_iff]
  constructor
  · rintro ⟨code, y, z, rfl, hy, hz⟩
    obtain rfl : y = [code] := (spells_u8 hat.left code).mp hy
    cases hcode : ofCode? code with
    | none =>
      obtain ⟨e, hfail⟩ := hnone place code hcode
      rw [hfail] at hz
      cases hz
    | some b =>
      rw [hsome place code b hcode] at hz
      obtain ⟨hb, hlength⟩ := Scanned.mk.inj hz
      obtain rfl := List.length_eq_zero_iff.mp hlength.symm
      exact ⟨code, rfl, hcode.trans (congrArg some (Except.ok.inj hb))⟩
  · rintro ⟨code, rfl, hcode⟩
    refine ⟨code, [code], [], rfl, (spells_u8 hat code).mpr rfl, ?_⟩
    rw [hsome place code a hcode]
    rfl

/-- What follows a code of a type depends on the size of the values of that type. -/
theorem accepts_typed {scan : Scan α} {ofCode? : UInt8 → Option α} {size : α → Nat}
    {size? : UInt8 → Option Nat} (hsize : ∀ code, (ofCode? code).map size = size? code)
    (hscan : scan.Spells fun a => {x | ∃ code, x = [code] ∧ ofCode? code = some a})
    {next : α → Scan β} {rest : Nat → Language UInt8} (h : ∀ a, (next a).Accepts (rest (size a))) :
    (scan >>= next).Accepts (typed size? rest) := by
  intro source position x hat
  refine (hscan.bind_accepts _ h hat).trans ?_
  constructor
  · rintro ⟨a, ha⟩
    obtain ⟨_, ⟨code, rfl, hcode⟩, z, hz, rfl⟩ := Language.mem_mul.mp ha
    exact ⟨code, size a, by rw [← hsize, hcode, Option.map_some], z, hz, rfl⟩
  · rintro ⟨code, n, hn, z, hz, rfl⟩
    rw [← hsize, Option.map_eq_some_iff] at hn
    obtain ⟨a, ha, rfl⟩ := hn
    exact ⟨a, Language.mem_mul.mpr ⟨[code], ⟨code, rfl, ha⟩, z, hz, rfl⟩⟩

theorem spells_fieldType :
    fieldType.Spells fun type => {x | ∃ code, x = [code] ∧ FieldType.ofCode? code = some type} :=
  spells_code (fun _ _ _ hsome => by rw [hsome]) fun _ _ hnone => ⟨_, by rw [hnone]; rfl⟩

theorem spells_primitiveType :
    primitiveType.Spells
      fun type => {x | ∃ code, x = [code] ∧ PrimitiveType.ofCode? code = some type} :=
  spells_code (fun _ _ _ hsome => by rw [hsome]) fun _ _ hnone => ⟨_, by rw [hnone]; rfl⟩

theorem accepts_fieldType (width : IdWidth) {next : FieldType → Scan β}
    {rest : Nat → Language UInt8} (h : ∀ type, (next type).Accepts (rest (type.size width))) :
    (fieldType >>= next).Accepts (typed (fieldSize? width) rest) :=
  accepts_typed (size_fieldType_ofCode? width) spells_fieldType h

theorem accepts_primitiveType {next : PrimitiveType → Scan β} {rest : Nat → Language UInt8}
    (h : ∀ type, (next type).Accepts (rest type.size)) :
    (primitiveType >>= next).Accepts (typed primitiveSize? rest) :=
  accepts_typed size_ofCode? spells_primitiveType h

end Scan

/-! ### Sub-records -/

open Scan Grammar

section SubRecord

variable (width : IdWidth)

theorem Root.accepts_scan (kind : RootKind) (hkind : kind ≠ .threadObject) :
    (Root.scan width kind).Accepts (bytes (rootSize width kind)) := by
  have hid := accepts_ident width
  have hframe : frameNumber.Accepts (bytes 4) := accepts_u32.map _
  have horigin : ∃ n, rootSize width kind = width.bytes + n ∧
      (RootOrigin.scan width kind).Accepts (bytes n) := by
    cases kind with
    | threadObject => exact absurd rfl hkind
    | nativeStatic => exact ⟨_, rfl, hid.map _⟩
    | nativeLocal | javaLocal | nativeMonitor =>
      refine ⟨_, rfl, ?_⟩
      rw [bytes_add]
      exact accepts_u32.mul fun _ => hframe.map _
    | nativeStack | threadBlock => exact ⟨_, rfl, accepts_u32.map _⟩
    | _ => exact ⟨0, rfl, bytes_zero ▸ accepts_pure _⟩
  obtain ⟨n, hn, horigin⟩ := horigin
  rw [hn, bytes_add]
  exact hid.mul fun _ => horigin.map _

theorem ThreadObject.accepts_scan :
    (ThreadObject.scan width).Accepts (bytes (rootSize width .threadObject)) := by
  rw [rootSize, bytes_add, bytes_add]
  exact (accepts_reference width).mul fun _ => accepts_u32.mul fun _ => accepts_u32.map _

theorem HeapSwitch.accepts_scan : (HeapSwitch.scan width).Accepts (bytes (4 + width.bytes)) := by
  rw [bytes_add]
  exact accepts_u32.mul fun _ => (accepts_ident width).map _

theorem ClassDump.accepts_scan : (ClassDump.scan width).Accepts (classDump width) := by
  have hid := accepts_ident width
  have href := accepts_reference width
  have hconstant : (scanConstant width).Accepts (bytes 2 * typed (fieldSize? width) bytes) :=
    accepts_u16.mul fun _ => accepts_fieldType width fun type => accepts_skip (type.size width)
  have hstatic : (StaticEntry.scan width).Accepts
      (bytes width.bytes * typed (fieldSize? width) bytes) :=
    hid.mul fun _ => accepts_fieldType width fun type => (accepts_value width type).map _
  have hfield : (FieldEntry.scan width).Accepts
      (bytes width.bytes * typed (fieldSize? width) fun _ => 1) :=
    hid.mul fun _ => accepts_fieldType width fun type => accepts_pure _
  have hsize : width.bytes + 4 + 6 * width.bytes + 4 = width.bytes + (4 + (width.bytes +
      (width.bytes + (width.bytes + (width.bytes + (width.bytes + (width.bytes + 4))))))) := by
    omega
  rw [classDump, hsize]
  simp only [bytes_add, mul_assoc]
  refine hid.mul fun _ => accepts_u32.mul fun _ => href.mul fun _ => href.mul fun _ =>
    href.mul fun _ => href.mul fun _ => hid.mul fun _ => hid.mul fun _ => accepts_u32.mul fun _ => ?_
  refine accepts_counted hconstant fun _ => accepts_counted hstatic fun _ => ?_
  rw [← mul_one (counted _)]
  exact accepts_counted hfield fun _ => accepts_pure _

/-- The bytes that a scan passes over, which start where it stands. -/
theorem Scan.accepts_place_skip {α : Type} (n : Nat) (f : Nat → α) :
    (do
      let offset ← position
      skip n
      return f offset).Accepts (bytes n) :=
  Accepts.place fun _ => (accepts_skip n).map _

theorem InstanceDump.accepts_scan :
    (InstanceDump.scan width).Accepts (fields width .instanceDump) := by
  have hid := accepts_ident width
  rw [fields, bytes_add, bytes_add, mul_assoc, mul_assoc]
  exact hid.mul fun _ => accepts_u32.mul fun _ => hid.mul fun _ => accepts_after_u32 fun length =>
    accepts_place_skip length.toNat _

theorem ObjectArrayDump.accepts_scan :
    (ObjectArrayDump.scan width).Accepts (fields width .objectArrayDump) := by
  have hid := accepts_ident width
  simp only [fields, bytes_add, mul_assoc]
  exact hid.mul fun _ => accepts_u32.mul fun _ => accepts_after_u32 fun count => hid.mul fun _ =>
    accepts_place_skip (count.toNat * width.bytes) _

theorem PrimitiveArrayDump.accepts_scan (withContents : Bool) :
    (PrimitiveArrayDump.scan width withContents).Accepts
      (fields width (if withContents then .primitiveArrayDump else .primitiveArrayNoData)) := by
  have hid := accepts_ident width
  cases withContents with
  | true =>
    rw [if_pos rfl, fields, bytes_add, mul_assoc]
    exact hid.mul fun _ => accepts_u32.mul fun _ => accepts_after_u32 fun count =>
      accepts_primitiveType fun type => accepts_place_skip (count.toNat * type.size) _
  | false =>
    rw [if_neg Bool.false_ne_true, fields, bytes_add, bytes_add, mul_assoc, mul_assoc]
    exact hid.mul fun _ => accepts_u32.mul fun _ => accepts_u32.mul fun _ =>
      accepts_primitiveType fun _ => accepts_pure _

theorem SubRecordTag.ofByte?_eq_some {byte : UInt8} {tag : SubRecordTag} :
    ofByte? byte = some tag ↔ byte = tag.byte := by
  constructor
  · intro h
    have hbyte := List.find?_some (show all.find? (·.byte = byte) = some tag from h)
    exact (of_decide_eq_true hbyte).symm
  · rintro rfl
    cases tag with
    | root kind => cases kind <;> rfl
    | _ => rfl

theorem SubRecord.spells_scanTag :
    scanTag.Spells fun tag => {x | ∃ byte, x = [byte] ∧ SubRecordTag.ofByte? byte = some tag} :=
  spells_code (fun _ _ _ hsome => by rw [hsome]) fun _ _ hnone => ⟨_, by rw [hnone]; rfl⟩

/-- A sub-record is read from just the words of the grammar. -/
theorem SubRecord.accepts_scan : (SubRecord.scan width).Accepts (subRecord width) := by
  intro source position x hat
  refine (spells_scanTag.bind_accepts (fields width) (fun tag => ?_) hat).trans ?_
  · cases tag with
    | root kind =>
      by_cases hkind : kind = .threadObject
      · subst hkind
        exact (ThreadObject.accepts_scan width).map _
      · have hroot := (Root.accepts_scan width kind hkind).map SubRecord.root
        cases kind with
        | threadObject => exact absurd rfl hkind
        | _ => exact hroot
    | heapInfo => exact (HeapSwitch.accepts_scan width).map _
    | classDump => exact (ClassDump.accepts_scan width).map _
    | instanceDump => exact (InstanceDump.accepts_scan width).map _
    | objectArrayDump => exact (ObjectArrayDump.accepts_scan width).map _
    | primitiveArrayDump => exact (PrimitiveArrayDump.accepts_scan width true).map _
    | primitiveArrayNoData => exact (PrimitiveArrayDump.accepts_scan width false).map _
  · refine exists_congr fun tag => ?_
    constructor
    · intro hx
      obtain ⟨_, ⟨byte, rfl, hbyte⟩, y, hy, rfl⟩ := Language.mem_mul.mp hx
      rw [SubRecordTag.ofByte?_eq_some] at hbyte
      exact ⟨y, hy, hbyte ▸ rfl⟩
    · rintro ⟨y, hy, rfl⟩
      have htagged : [tag.byte] ∈ ({x | ∃ byte, x = [byte] ∧
          SubRecordTag.ofByte? byte = some tag} : Language UInt8) :=
        ⟨tag.byte, rfl, SubRecordTag.ofByte?_eq_some.mpr rfl⟩
      exact Language.mem_mul.mpr ⟨[tag.byte], htagged, y, hy, rfl⟩

end SubRecord

end HeapDump

import HeapDump.Proofs.Row

/-! Sub-records without their places.  A sub-record says where in the dump the bytes of an instance or the
elements of an array start; detached, it has these bytes themselves.  Wherever the bytes of a sub-record
stand, it comes out the same when detached. -/

namespace HeapDump

open Grammar

/-- What a sub-record says except for its place, and the bytes that it points to. -/
def SubRecord.detach (source : ByteSource) (width : IdWidth) :
    SubRecord → SubRecord × Option (List UInt8)
  | .instance dump =>
    (.instance { dump with offset := 0 }, (source.slice dump.offset dump.length.toNat).toOption)
  | objectArray dump =>
    (objectArray { dump with offset := 0 },
      (source.slice dump.offset (dump.count.toNat * width.bytes)).toOption)
  | primitiveArray dump =>
    (primitiveArray { dump with offset := dump.offset.map fun _ => 0 },
      dump.offset.bind fun offset => (source.slice offset dump.contentsLength).toOption)
  | subRecord => (subRecord, none)

/-- Where the same bytes stand, a scan that succeeds on them in one place succeeds in the other, and the
answers look the same from their sources. -/
def Scan.Agrees {α β : Type} (scan : Scan α) (look : ByteSource → α → β) : Prop :=
  ∀ ⦃source position source' position' x⦄, source.HasAt position x → source'.HasAt position' x →
    ∀ a, scan source position = ⟨.ok a, x.length⟩ →
      ∃ a', scan source' position' = ⟨.ok a', x.length⟩ ∧ look source a = look source' a'

namespace Scan

variable {α β γ : Type}

/-- A scan whose answers do not depend on the place. -/
abbrev Settled (scan : Scan α) : Prop := scan.Agrees fun _ a => a

theorem agrees_pure {look : ByteSource → α → β} {a : α}
    (h : ∀ source source', look source a = look source' a) : Agrees (pure a) look := by
  intro source position source' position' x _ _ b hb
  obtain ⟨hb, hlength⟩ := Scanned.mk.inj hb
  cases hb
  exact ⟨a, by rw [← hlength]; rfl, h source source'⟩

theorem settled_pure (a : α) : Settled (pure a) := agrees_pure fun _ _ => rfl

theorem Settled.bind {scan : Scan α} {next : α → Scan β} {look : ByteSource → β → γ}
    (h : scan.Settled) (hnext : ∀ a, (next a).Agrees look) : (scan >>= next).Agrees look := by
  intro source position source' position' x hat hat' b hb
  obtain ⟨a, y, z, rfl, hy, hz⟩ := bind_eq_ok_iff.mp hb
  obtain ⟨_, hy', rfl⟩ := h hat.left hat'.left a hy
  obtain ⟨b', hz', hlook⟩ := hnext a hat.right hat'.right b hz
  exact ⟨b', bind_eq_ok_iff.mpr ⟨a, y, z, rfl, hy', hz'⟩, hlook⟩

theorem Agrees.map {scan : Scan α} {f : α → β} {look : ByteSource → β → γ}
    (h : scan.Agrees fun source a => look source (f a)) :
    (scan >>= fun a => pure (f a)).Agrees look := by
  intro source position source' position' x hat hat' b hb
  obtain ⟨a, y, z, rfl, hy, hz⟩ := bind_eq_ok_iff.mp hb
  obtain ⟨hb, hlength⟩ := Scanned.mk.inj hz
  cases hb
  obtain rfl := List.length_eq_zero_iff.mp hlength.symm
  obtain ⟨a', hy', hlook⟩ := h hat.left hat'.left a hy
  exact ⟨f a', bind_eq_ok_iff.mpr ⟨a', y, [], rfl, hy', rfl⟩, hlook⟩

theorem Settled.map {scan : Scan α} (h : scan.Settled) (f : α → β) :
    (scan >>= fun a => pure (f a)).Settled :=
  Settled.bind h fun a => settled_pure (f a)

/-- What does not depend on the place can be looked at in any way that does not either. -/
theorem Settled.look {scan : Scan α} (h : scan.Settled) {look : α → β} :
    scan.Agrees fun _ a => look a := by
  intro source position source' position' x hat hat' a ha
  obtain ⟨_, ha', rfl⟩ := h hat hat' a ha
  exact ⟨a, ha', rfl⟩

theorem settled_times {item : Scan α} (h : item.Settled) (n : Nat) : (item.times n).Settled := by
  induction n with
  | zero => exact settled_pure []
  | succ n ih => exact Settled.bind h fun first => Settled.map ih (first :: ·)

theorem settled_take (n : Nat) : (take n).Settled := by
  intro source position source' position' x hat hat' y hy
  exact ⟨y, (spells_take n hat' y).mpr ((spells_take n hat y).mp hy), rfl⟩

theorem settled_skip (n : Nat) : (skip n).Settled := by
  intro source position source' position' x hat hat' a ha
  obtain ⟨b, hb⟩ := (accepts_skip n hat').mpr ((accepts_skip n hat).mp ⟨a, ha⟩)
  exact ⟨b, hb, rfl⟩

/-- Of a place that is passed over, only the bytes there are looked at. -/
theorem agrees_place_skip {n : Nat} {f : Nat → α} {look : ByteSource → α → β}
    (h : ∀ source source' offset offset' bytes, source.slice offset n = .ok bytes →
      source'.slice offset' n = .ok bytes → look source (f offset) = look source' (f offset')) :
    (do
      let offset ← position
      skip n
      return f offset).Agrees look := by
  intro source place source' place' x hat hat' a ha
  have hn : x ∈ bytes n := (accepts_place_skip n f hat).mp ⟨a, ha⟩
  have hn : x.length = n := hn
  have hskip : ∀ {source : ByteSource} {place : Nat}, source.HasAt place x →
      (do
        let offset ← position
        skip n
        return f offset) source place = ⟨.ok (f place), x.length⟩ := by
    intro source place hat
    rw [position_bind, bind_ok (reads_skip hn hat)]
    rfl
  rw [hskip hat] at ha
  cases ha
  have hslice := hat.slice
  have hslice' := hat'.slice
  rw [hn] at hslice hslice'
  exact ⟨_, hskip hat', h source source' place place' x hslice hslice'⟩

theorem settled_word (n : Nat) : (word n).Settled := Settled.map (settled_take n) _

theorem settled_u16 : u16.Settled := Settled.map (settled_word 2) _

theorem settled_u32 : u32.Settled := Settled.map (settled_word 4) _

theorem settled_ident (width : IdWidth) : (ident width).Settled := Settled.map (settled_take _) _

theorem settled_reference (width : IdWidth) : (reference width).Settled :=
  Settled.map (settled_ident width) _

theorem settled_value (width : IdWidth) (type : FieldType) : (value width type).Settled :=
  Settled.map (settled_take _) _

theorem settled_of_spells {scan : Scan α} {words : α → Language UInt8} (h : scan.Spells words) :
    scan.Settled := by
  intro source position source' position' x hat hat' a ha
  exact ⟨a, (h hat' a).mpr ((h hat a).mp ha), rfl⟩

theorem settled_fieldType : fieldType.Settled := settled_of_spells spells_fieldType

theorem settled_primitiveType : primitiveType.Settled := settled_of_spells spells_primitiveType

end Scan

/-! ### Sub-records -/

open Scan

section SubRecord

variable (width : IdWidth)

theorem Root.settled_scan (kind : RootKind) : (Root.scan width kind).Settled := by
  have hid := settled_ident width
  have hframe : frameNumber.Settled := Settled.map settled_u32 _
  refine Settled.bind hid fun _ => Settled.map ?_ _
  cases kind with
  | nativeStatic => exact Settled.map hid _
  | nativeLocal | javaLocal | nativeMonitor =>
    exact Settled.bind settled_u32 fun _ => Settled.map hframe _
  | nativeStack | threadBlock | threadObject => exact Settled.map settled_u32 _
  | _ => exact settled_pure _

theorem ThreadObject.settled_scan : (ThreadObject.scan width).Settled :=
  Settled.bind (settled_reference width) fun _ => Settled.bind settled_u32 fun _ =>
    Settled.map settled_u32 _

theorem HeapSwitch.settled_scan : (HeapSwitch.scan width).Settled :=
  Settled.bind settled_u32 fun _ => Settled.map (settled_ident width) _

theorem ClassDump.settled_scan : (ClassDump.scan width).Settled := by
  have hid := settled_ident width
  have href := settled_reference width
  have hconstant : (scanConstant width).Settled :=
    Settled.bind settled_u16 fun _ => Settled.bind settled_fieldType fun _ => settled_skip _
  have hstatic : (StaticEntry.scan width).Settled :=
    Settled.bind hid fun _ => Settled.bind settled_fieldType fun type =>
      Settled.map (settled_value width type) _
  have hfield : (FieldEntry.scan width).Settled :=
    Settled.bind hid fun _ => Settled.map settled_fieldType _
  refine Settled.bind hid fun _ => Settled.bind settled_u32 fun _ => Settled.bind href fun _ =>
    Settled.bind href fun _ => Settled.bind href fun _ => Settled.bind href fun _ =>
    Settled.bind hid fun _ => Settled.bind hid fun _ => Settled.bind settled_u32 fun _ => ?_
  refine Settled.bind settled_u16 fun _ => Settled.bind (settled_times hconstant _) fun _ => ?_
  refine Settled.bind settled_u16 fun _ => Settled.bind (settled_times hstatic _) fun _ => ?_
  exact Settled.bind settled_u16 fun _ => Settled.map (settled_times hfield _) _

theorem InstanceDump.agrees_scan :
    (InstanceDump.scan width).Agrees fun source dump =>
      (SubRecord.instance dump).detach source width := by
  have hid := settled_ident width
  refine Settled.bind hid fun _ => Settled.bind settled_u32 fun _ => Settled.bind hid fun _ =>
    Settled.bind settled_u32 fun _ => agrees_place_skip ?_
  intro source source' offset offset' bytes h h'
  simp only [SubRecord.detach, h, h']

theorem ObjectArrayDump.agrees_scan :
    (ObjectArrayDump.scan width).Agrees fun source dump =>
      (SubRecord.objectArray dump).detach source width := by
  have hid := settled_ident width
  refine Settled.bind hid fun _ => Settled.bind settled_u32 fun _ => Settled.bind settled_u32 fun _ =>
    Settled.bind hid fun _ => agrees_place_skip ?_
  intro source source' offset offset' bytes h h'
  simp only [SubRecord.detach, h, h']

theorem PrimitiveArrayDump.agrees_scan (withContents : Bool) :
    (PrimitiveArrayDump.scan width withContents).Agrees fun source dump =>
      (SubRecord.primitiveArray dump).detach source width := by
  refine Settled.bind (settled_ident width) fun _ => Settled.bind settled_u32 fun _ =>
    Settled.bind settled_u32 fun _ => Settled.bind settled_primitiveType fun _ => ?_
  cases withContents with
  | false => exact agrees_pure fun _ _ => rfl
  | true =>
    refine agrees_place_skip ?_
    intro source source' offset offset' bytes h h'
    simp only [SubRecord.detach, PrimitiveArrayDump.contentsLength, Option.bind_some, h, h',
      Option.map_some]

/-- Detached, a sub-record depends on its bytes only. -/
theorem SubRecord.agrees_scan :
    (SubRecord.scan width).Agrees fun source subRecord => subRecord.detach source width := by
  have htag : scanTag.Settled := settled_of_spells spells_scanTag
  refine Settled.bind htag fun tag => ?_
  cases tag with
  | root kind =>
    have hroot := Root.settled_scan width kind
    cases kind with
    | threadObject => exact Agrees.map (ThreadObject.settled_scan width).look
    | _ => exact Agrees.map hroot.look
  | heapInfo => exact Agrees.map (HeapSwitch.settled_scan width).look
  | classDump => exact Agrees.map (ClassDump.settled_scan width).look
  | instanceDump => exact Agrees.map (InstanceDump.agrees_scan width)
  | objectArrayDump => exact Agrees.map (ObjectArrayDump.agrees_scan width)
  | primitiveArrayDump => exact Agrees.map (PrimitiveArrayDump.agrees_scan width true)
  | primitiveArrayNoData => exact Agrees.map (PrimitiveArrayDump.agrees_scan width false)

end SubRecord

end HeapDump

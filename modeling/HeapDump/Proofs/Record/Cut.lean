import HeapDump.Proofs.Record.Frame

/-! Rows of records that are cut off.  The records of a row stand one behind another, each where the one
before it ends.  If the bytes end inside a record, those before it are listed as in the whole row, and
then the list fails with a read past the end. -/

namespace HeapDump

open Grammar Scan

theorem Scan.listFrom_of_le {α : Type} {item : Scan α} {source : ByteSource} {stop position : Nat}
    (h : stop ≤ position) (fuel : Nat) : listFrom item source stop fuel position = ⟨[], none⟩ := by
  cases fuel with
  | zero => rfl
  | succ fuel => rw [listFrom, if_neg (Nat.not_lt.mpr h)]

namespace Frame

/-- The records that frames one after another are, from a place on. -/
def records : (offset : Nat) → List Frame → List Record
  | _, [] => []
  | offset, frame :: frames =>
    frame.record offset :: records (offset + frame.toBytes.length) frames

theorem length_toBytes (frame : Frame) : frame.toBytes.length = Record.frameSize + frame.body.length := by
  simp only [toBytes, List.length_cons, List.length_append, Word.length_toBytes, Record.frameSize]
  omega

theorem stop_record (frame : Frame) (offset : Nat) :
    (frame.record offset).stop = offset + frame.toBytes.length := by
  rw [length_toBytes, ← Nat.add_assoc]
  exact congrArg (offset + Record.frameSize + ·) (UInt32.toNat_ofNat_of_lt' frame.length_lt)

/-- A row ends where it starts or behind one of its records, wherever it is cut between two frames. -/
theorem mem_stops_iff {offset k : Nat} {frames : List Frame} :
    k ∈ offset :: (records offset frames).map Record.stop ↔
      ∃ front back, frames = front ++ back ∧ k = offset + (front.flatMap toBytes).length := by
  induction frames generalizing offset with
  | nil =>
    simp only [records, List.map_nil, List.mem_singleton]
    constructor
    · rintro rfl
      exact ⟨[], [], rfl, rfl⟩
    · rintro ⟨front, back, hnil, rfl⟩
      obtain ⟨rfl, -⟩ := List.append_eq_nil_iff.mp hnil.symm
      rfl
  | cons frame frames ih =>
    rw [records, List.map_cons, stop_record, List.mem_cons, ih]
    constructor
    · rintro (rfl | ⟨front, back, rfl, rfl⟩)
      · exact ⟨[], _, rfl, rfl⟩
      · refine ⟨frame :: front, back, rfl, ?_⟩
        rw [List.flatMap_cons, List.length_append, Nat.add_assoc]
    · rintro ⟨front, back, hframes, rfl⟩
      cases front with
      | nil => exact .inl rfl
      | cons first front =>
        obtain ⟨rfl, rfl⟩ := List.cons.inj hframes
        refine .inr ⟨front, back, rfl, ?_⟩
        rw [List.flatMap_cons, List.length_append, Nat.add_assoc]

theorem length_le_flatMap (frames : List Frame) :
    frames.length ≤ (frames.flatMap toBytes).length := by
  induction frames with
  | nil => exact Nat.le_refl 0
  | cons frame frames ih =>
    have hpos : 9 ≤ frame.toBytes.length := by
      rw [length_toBytes]
      exact Nat.le_add_right _ _
    rw [List.flatMap_cons, List.length_append, List.length_cons]
    omega

variable {source : ByteSource} {offset : Nat} {frames : List Frame}

theorem isAt_records (h : source.HasAt offset (frames.flatMap toBytes)) :
    List.Forall₂ (IsAt source) (records offset frames) frames := by
  induction frames generalizing offset with
  | nil => exact .nil
  | cons frame frames ih => exact .cons ⟨h.left, rfl⟩ (ih h.right)

/-- The frames of a row are listed before what follows them. -/
theorem listFrom_frames {stop rest : Nat} (h : source.HasAt offset (frames.flatMap toBytes))
    (hstop : offset + (frames.flatMap toBytes).length ≤ stop) :
    let after := listFrom Record.scan source stop rest (offset + (frames.flatMap toBytes).length)
    listFrom Record.scan source stop (frames.length + rest) offset =
      ⟨records offset frames ++ after.items, after.failure⟩ := by
  induction frames generalizing offset with
  | nil => rw [List.length_nil, Nat.zero_add]; rfl
  | cons frame frames ih =>
    rw [List.flatMap_cons] at h hstop ⊢
    rw [List.length_append] at hstop ⊢
    have hpos : 9 ≤ frame.toBytes.length := by
      rw [length_toBytes]
      exact Nat.le_add_right _ _
    rw [List.length_cons, Nat.succ_add, listFrom, if_pos (by omega),
      frame.reads_toBytes source offset h.left]
    dsimp only
    rw [ih h.right (by omega), ← Nat.add_assoc]
    rfl

end Frame

/-! ### Running out -/

/-- A scan that fails only with a read past the end. -/
def Scan.RunsOut {α : Type} (scan : Scan α) (source : ByteSource) : Prop :=
  ∀ position ≤ source.size, ∀ e used, scan source position = ⟨.error e, used⟩ →
    ∃ offset length, offset ≤ source.size ∧ e = .outOfBounds offset length source.size

namespace Scan

variable {α β : Type} {source : ByteSource} {file : ByteArray}

theorem RunsOut.bind {scan : Scan α} {next : α → Scan β} {P : α → Prop} (h : scan.RunsOut source)
    (hstays : scan.Stays source P) (hnext : ∀ a, (next a).RunsOut source) :
    (scan >>= next).RunsOut source := by
  intro position hposition e used herror
  rcases hfirst : scan source position with ⟨e' | a, first⟩
  · rw [bind_error hfirst] at herror
    cases herror
    exact h position hposition e used hfirst
  · rw [bind_ok hfirst] at herror
    have hin := (hstays position hposition a first hfirst).1
    refine hnext a (position + first) hin e (next a source (position + first)).used ?_
    rw [← (Scanned.mk.inj herror).1]

theorem runsOut_pure (a : α) : (pure a : Scan α).RunsOut source := by
  intro position _ e used h
  cases h

theorem RunsOut.map {scan : Scan α} {P : α → Prop} (h : scan.RunsOut source)
    (hstays : scan.Stays source P) (f : α → β) :
    (scan >>= fun a => pure (f a)).RunsOut source :=
  h.bind hstays fun a => runsOut_pure (f a)

theorem runsOut_position : position.RunsOut source := by
  intro position _ e used h
  cases h

theorem runsOut_skip (n : Nat) : (skip n).RunsOut source := by
  intro position hposition e used h
  rw [skip] at h
  split at h
  · cases h
  · cases h
    exact ⟨position, n, hposition, rfl⟩

theorem runsOut_take (n : Nat) : (take n).RunsOut (.ofBytes file) := by
  intro position hposition e used h
  rw [take, ByteSource.slice_ofBytes] at h
  split at h
  · next hslice =>
    split at hslice
    · cases h
    · cases hslice
  · next hslice =>
    split at hslice
    · cases hslice
    · cases hslice
      cases h
      exact ⟨position, n, hposition, rfl⟩

theorem runsOut_u8 : u8.RunsOut (.ofBytes file) :=
  ((runsOut_take 1).map (stays_take (ByteSource.lawful_ofBytes file) 1) _).map
    (stays_word (ByteSource.lawful_ofBytes file) 1) _

theorem runsOut_u32 : u32.RunsOut (.ofBytes file) :=
  ((runsOut_take 4).map (stays_take (ByteSource.lawful_ofBytes file) 4) _).map
    (stays_word (ByteSource.lawful_ofBytes file) 4) _

end Scan

namespace Record

variable {file : ByteArray} {position : Nat} {frame : Frame} {x : List UInt8}

theorem runsOut_scan : scan.RunsOut (.ofBytes file) := by
  have lawful := ByteSource.lawful_ofBytes file
  refine runsOut_position.bind stays_position fun _ => ?_
  refine runsOut_u8.bind (stays_u8 lawful) fun _ => ?_
  refine runsOut_u32.bind (stays_u32 lawful) fun _ => ?_
  refine runsOut_u32.bind (stays_u32 lawful) fun _ => ?_
  exact (runsOut_skip _).map (stays_skip _) _

/-- A frame whose end is missing cannot be read. -/
theorem scan_of_prefix (hat : (ByteSource.ofBytes file).HasAt position x)
    (hend : position + x.length = (ByteSource.ofBytes file).size) (hpart : x <+: frame.toBytes)
    (hne : x ≠ frame.toBytes) : ∃ offset length used, offset ≤ (ByteSource.ofBytes file).size ∧
      scan (.ofBytes file) position =
        ⟨.error (.outOfBounds offset length (ByteSource.ofBytes file).size), used⟩ := by
  have lawful := ByteSource.lawful_ofBytes file
  have hposition : position ≤ (ByteSource.ofBytes file).size := by omega
  rcases hscan : scan (.ofBytes file) position with ⟨e | record, used⟩
  · obtain ⟨offset, length, hoffset, rfl⟩ := runsOut_scan position hposition e used hscan
    exact ⟨offset, length, used, hoffset, rfl⟩
  · -- Else the bytes that were read are a frame, and the whole frame begins with it.
    have hin := (stays_scan lawful position hposition record used hscan).1
    have hlength : (x.take used).length = used := List.length_take_of_le (by omega)
    have hword : x.take used ∈ Grammar.record :=
      (accepts_scan (hat.take used)).mp ⟨record, by rw [hlength, hscan]⟩
    have hsame : x.take used = frame.toBytes :=
      (within_scan lawful).code.eq_of_prefix hword ⟨frame, rfl⟩
        ((List.take_prefix used x).trans hpart)
    have hle : frame.toBytes <+: x := hsame ▸ List.take_prefix used x
    exact absurd (hpart.eq_of_length_le hle.length_le) hne

/-- The list of a row that is cut off. -/
theorem list_of_prefix {before : List Frame} {start : Nat}
    (hat : (ByteSource.ofBytes file).HasAt start (before.flatMap Frame.toBytes ++ x))
    (hend : start + (before.flatMap Frame.toBytes ++ x).length = (ByteSource.ofBytes file).size)
    (hpart : x <+: frame.toBytes) (hne : x ≠ frame.toBytes) (hnil : x ≠ []) :
    ∃ offset length, offset ≤ (ByteSource.ofBytes file).size ∧
      Scan.list scan (.ofBytes file) start (ByteSource.ofBytes file).size =
        ⟨Frame.records start before,
          some (.outOfBounds offset length (ByteSource.ofBytes file).size)⟩ := by
  rw [List.length_append] at hend
  have hpos := List.length_pos_iff.mpr hnil
  have hbefore := Frame.length_le_flatMap before
  obtain ⟨offset, length, used, hoffset, hscan⟩ := scan_of_prefix hat.right (by omega) hpart hne
  refine ⟨offset, length, hoffset, ?_⟩
  obtain ⟨rest, hfuel⟩ : ∃ rest, (ByteSource.ofBytes file).size - start =
      before.length + (rest + 1) := ⟨(ByteSource.ofBytes file).size - start - before.length - 1,
    by omega⟩
  rw [Scan.list, hfuel, Frame.listFrom_frames hat.left (by omega)]
  rw [listFrom, if_pos (by omega), hscan]
  dsimp only
  rw [List.append_nil]

end Record

end HeapDump

import HeapDump.Proofs.SubRecord.Detach

/-! Bodies on their own.  A sub-record is read against the end of the dump and not of its body, so the bytes
behind a body do get looked at.  What a body lists is settled by its own bytes all the same, because the
contents that a sub-record points to come last in it: a sub-record that stays inside the body points into
the body, and one that does not is a failure whatever stands behind. -/

namespace HeapDump

/-- Where the contents of an instance or an array start, and how many bytes they take. -/
def SubRecord.contents? (width : IdWidth) : SubRecord → Option (Nat × Nat)
  | .instance dump => some (dump.offset, dump.length.toNat)
  | objectArray dump => some (dump.offset, dump.count.toNat * width.bytes)
  | primitiveArray dump => dump.offset.map (·, dump.contentsLength)
  | _ => none

namespace Scan

variable {α β : Type}

/-! ### Contents come last -/

/-- What an answer points to is the last part of what was read. -/
def EndsIn (scan : Scan α) (contents? : α → Option (Nat × Nat)) : Prop :=
  ∀ ⦃source position a used⦄, scan source position = ⟨.ok a, used⟩ →
    ∀ range ∈ contents? a, position ≤ range.1 ∧ range.1 + range.2 = position + used

theorem endsIn_of_none {scan : Scan α} {contents? : α → Option (Nat × Nat)}
    (h : ∀ a, contents? a = none) : scan.EndsIn contents? := by
  intro source position a used _ range hrange
  rw [h a] at hrange
  cases hrange

/-- What was read before does not matter. -/
theorem EndsIn.bind {scan : Scan α} {next : α → Scan β} {contents? : β → Option (Nat × Nat)}
    (h : ∀ a, (next a).EndsIn contents?) : (scan >>= next).EndsIn contents? := by
  intro source position b used hb range hrange
  obtain ⟨a, first, rest, -, hrest, rfl⟩ := bind_inv hb
  obtain ⟨hstart, hend⟩ := h a hrest range hrange
  exact ⟨by omega, by omega⟩

theorem EndsIn.map {scan : Scan α} {f : α → β} {contents? : β → Option (Nat × Nat)}
    (h : scan.EndsIn fun a => contents? (f a)) :
    (scan >>= fun a => pure (f a)).EndsIn contents? := by
  intro source position b used hb range hrange
  obtain ⟨a, first, rest, hfirst, hpure, rfl⟩ := bind_inv hb
  cases hpure
  exact h hfirst range hrange

theorem endsIn_place_skip {n : Nat} {f : Nat → α} {contents? : α → Option (Nat × Nat)}
    (h : ∀ offset, contents? (f offset) = some (offset, n)) :
    (do
      let offset ← position
      skip n
      return f offset).EndsIn contents? := by
  intro source place a used ha range hrange
  obtain ⟨_, _, _, hplace, hrest, rfl⟩ := bind_inv ha
  cases hplace
  obtain ⟨_, first, _, hskip, hpure, rfl⟩ := bind_inv hrest
  cases hpure
  rw [h] at hrange
  cases hrange
  rw [skip] at hskip
  split at hskip
  · cases hskip
    exact ⟨Nat.le_refl _, by omega⟩
  · cases hskip

/-! ### Answers that depend on what is read only -/

/-- Where a scan succeeds, it does so with the same answer in every source that has the bytes it moved past
at the same place. -/
def Confined (scan : Scan α) : Prop :=
  ∀ ⦃source source' position x a⦄, source.HasAt position x → source'.HasAt position x →
    scan source position = ⟨.ok a, x.length⟩ → scan source' position = ⟨.ok a, x.length⟩

/-- Items that stand one after another. -/
inductive Adjacent (item : Scan α) (source : ByteSource) : (start : Nat) → List α → (stop : Nat) → Prop
  | nil (start : Nat) : Adjacent item source start [] start
  | cons {start used stop : Nat} {a : α} {items : List α} :
    item source start = ⟨.ok a, used⟩ → Adjacent item source (start + used) items stop →
      Adjacent item source start (a :: items) stop

theorem Adjacent.le {item : Scan α} {source : ByteSource} {start stop : Nat} {items : List α}
    (h : item.Adjacent source start items stop) : start ≤ stop := by
  induction h with
  | nil => exact Nat.le_refl _
  | cons _ _ ih => omega

/-- Each item is read from a range of its own between the two ends. -/
theorem Adjacent.exists_range {item : Scan α} {source : ByteSource} {start stop : Nat} {items : List α}
    (h : item.Adjacent source start items stop) {a : α} (ha : a ∈ items) :
    ∃ position used, item source position = ⟨.ok a, used⟩ ∧ start ≤ position ∧
      position + used ≤ stop := by
  induction h with
  | nil => cases ha
  | @cons start used stop b items hitem hrest ih =>
    rcases List.mem_cons.mp ha with rfl | ha
    · exact ⟨start, used, hitem, Nat.le_refl _, hrest.le⟩
    · obtain ⟨position, count, hread, hstart, hend⟩ := ih ha
      exact ⟨position, count, hread, by omega, hend⟩

section Row

variable {item bounded : Scan α} {stop : Nat}
  (hbounded : ∀ {source position a used}, bounded source position = ⟨.ok a, used⟩ ↔
    item source position = ⟨.ok a, used⟩ ∧ position + used ≤ stop)
include hbounded

theorem adjacent_listFrom (source : ByteSource) (fuel : Nat) {position : Nat} (h : position ≤ stop) :
    ∃ reached, reached ≤ stop ∧
      item.Adjacent source position (listFrom bounded source stop fuel position).items reached := by
  induction fuel generalizing position with
  | zero => exact ⟨position, h, .nil position⟩
  | succ fuel ih =>
    rw [listFrom]
    split
    · split
      · next a used hread =>
        obtain ⟨hitem, hle⟩ := hbounded.mp hread
        obtain ⟨reached, hreached, hrest⟩ := ih hle
        exact ⟨reached, hreached, .cons hitem hrest⟩
      · exact ⟨position, h, .nil position⟩
    · exact ⟨position, h, .nil position⟩

/-- One step of a row: an item is read from both sources or from neither. -/
theorem Confined.bounded_eq_ok_iff (h : item.Confined) {source source' : ByteSource} {position : Nat}
    {row : List UInt8} (hat : source.HasAt position row) (hat' : source'.HasAt position row)
    (hstop : position + row.length = stop) {a : α} {used : Nat} :
    bounded source position = ⟨.ok a, used⟩ ↔ bounded source' position = ⟨.ok a, used⟩ := by
  simp only [hbounded]
  refine and_congr_left fun hle => ?_
  have hlength : (row.take used).length = used := List.length_take_of_le (by omega)
  have hforth := h (a := a) (hat.take used) (hat'.take used)
  have hback := h (a := a) (hat'.take used) (hat.take used)
  rw [hlength] at hforth hback
  exact ⟨hforth, hback⟩

/-- A row lists the same items in every source that has its bytes at the same place, and fails in all of
them or in none. -/
theorem Confined.listFrom_congr (h : item.Confined) {source source' : ByteSource} (fuel : Nat)
    {position : Nat} {row : List UInt8} (hat : source.HasAt position row)
    (hat' : source'.HasAt position row) (hstop : position + row.length = stop) :
    (listFrom bounded source stop fuel position).items =
        (listFrom bounded source' stop fuel position).items ∧
      (listFrom bounded source stop fuel position).failure.isSome =
        (listFrom bounded source' stop fuel position).failure.isSome := by
  induction fuel generalizing position row with
  | zero => exact ⟨rfl, rfl⟩
  | succ fuel ih =>
    have hstep : ∀ a used, bounded source position = ⟨.ok a, used⟩ ↔
        bounded source' position = ⟨.ok a, used⟩ :=
      fun _ _ => h.bounded_eq_ok_iff hbounded hat hat' hstop
    rw [listFrom, listFrom]
    split
    · rcases hread : bounded source position with ⟨e | a, used⟩
      · rcases hread' : bounded source' position with ⟨e' | a, used'⟩
        · exact ⟨rfl, rfl⟩
        · have := (hstep a used').mpr hread'
          rw [hread] at this
          cases this
      · rw [(hstep a used).mp hread]
        have hle := (hbounded.mp hread).2
        have hused : used ≤ row.length := by omega
        obtain ⟨hitems, hfailure⟩ :=
          ih (hat.drop hused) (hat'.drop hused) (by rw [List.length_drop]; omega)
        exact ⟨congrArg (a :: ·) hitems, hfailure⟩
    · exact ⟨rfl, rfl⟩

end Row

end Scan

/-! ### Sub-records -/

open Scan

namespace SubRecord

theorem endsIn_scan (width : IdWidth) : (scan width).EndsIn (contents? width) := by
  refine EndsIn.bind fun tag => ?_
  cases tag with
  | root kind =>
    cases kind with
    | _ => exact EndsIn.map (endsIn_of_none fun _ => rfl)
  | heapInfo => exact EndsIn.map (endsIn_of_none fun _ => rfl)
  | classDump => exact EndsIn.map (endsIn_of_none fun _ => rfl)
  | instanceDump =>
    refine EndsIn.map (EndsIn.bind fun _ => EndsIn.bind fun _ => EndsIn.bind fun _ =>
      EndsIn.bind fun _ => ?_)
    exact endsIn_place_skip fun offset => rfl
  | objectArrayDump =>
    refine EndsIn.map (EndsIn.bind fun _ => EndsIn.bind fun _ => EndsIn.bind fun _ =>
      EndsIn.bind fun _ => ?_)
    exact endsIn_place_skip fun offset => rfl
  | primitiveArrayDump =>
    refine EndsIn.map (EndsIn.bind fun _ => EndsIn.bind fun _ => EndsIn.bind fun _ =>
      EndsIn.bind fun _ => ?_)
    exact endsIn_place_skip fun offset => rfl
  | primitiveArrayNoData =>
    refine EndsIn.map (EndsIn.bind fun _ => EndsIn.bind fun _ => EndsIn.bind fun _ =>
      EndsIn.bind fun _ => ?_)
    intro source position array used harray range hrange
    cases harray
    cases hrange

/-- The sub-record with its contents at another place. -/
def moveTo (start : Nat) : SubRecord → SubRecord
  | .instance dump => .instance { dump with offset := start }
  | objectArray dump => objectArray { dump with offset := start }
  | primitiveArray dump => primitiveArray { dump with offset := dump.offset.map fun _ => start }
  | subRecord => subRecord

section Place

variable {source source' : ByteSource} {width : IdWidth} {a a' : SubRecord} {start stop : Nat}

theorem detach_fst (source : ByteSource) (width : IdWidth) (a : SubRecord) :
    (a.detach source width).1 = a.moveTo 0 := by
  cases a <;> rfl

theorem moveTo_moveTo (start stop : Nat) (a : SubRecord) :
    (a.moveTo start).moveTo stop = a.moveTo stop := by
  cases a with
  | primitiveArray dump => simp only [moveTo, Option.map_map, Function.comp_def]
  | _ => rfl

theorem contents?_moveTo (width : IdWidth) (start : Nat) (a : SubRecord) :
    (a.moveTo start).contents? width = (a.contents? width).map fun range => (start, range.2) := by
  cases a with
  | primitiveArray dump =>
    obtain ⟨id, trace, type, count, offset⟩ := dump
    cases offset <;> rfl
  | _ => rfl

theorem moveTo_eq_self (h : ∀ range ∈ a.contents? width, range.1 = start) : a.moveTo start = a := by
  cases a with
  | «instance» dump =>
    cases h _ rfl
    rfl
  | objectArray dump =>
    cases h _ rfl
    rfl
  | primitiveArray dump =>
    obtain ⟨id, trace, type, count, offset⟩ := dump
    cases offset with
    | none => rfl
    | some offset =>
      cases h _ rfl
      rfl
  | _ => rfl

/-- Only the place is lost when a sub-record is detached, and where the contents end gives it back. -/
theorem eq_of_detach_eq (h : (a.detach source width).1 = (a'.detach source' width).1)
    (ha : ∀ range ∈ a.contents? width, range.1 + range.2 = stop)
    (ha' : ∀ range ∈ a'.contents? width, range.1 + range.2 = stop) : a = a' := by
  rw [detach_fst, detach_fst] at h
  have hlengths := congrArg (contents? width) h
  rw [contents?_moveTo, contents?_moveTo] at hlengths
  have hsame : a.contents? width = a'.contents? width := by
    cases hcontents : a.contents? width with
    | none =>
      rw [hcontents] at hlengths
      exact (Option.map_eq_none_iff.mp hlengths.symm).symm
    | some range =>
      rw [hcontents] at hlengths
      obtain ⟨range', hcontents', hlength⟩ := Option.map_eq_some_iff.mp hlengths.symm
      have hend := ha range hcontents
      have hend' := ha' range' hcontents'
      have hlength : range'.2 = range.2 := (Prod.mk.inj hlength).2
      rw [hcontents', Prod.ext (show range.1 = range'.1 by omega) hlength.symm]
  obtain ⟨start, hstart⟩ : ∃ start, ∀ range ∈ a.contents? width, range.1 = start := by
    cases a.contents? width with
    | none => exact ⟨0, nofun⟩
    | some range => exact ⟨range.1, by rintro _ ⟨⟩; rfl⟩
  rw [← moveTo_eq_self hstart, ← moveTo_moveTo 0, h, moveTo_moveTo, moveTo_eq_self (hsame ▸ hstart)]

end Place

theorem confined_scan (width : IdWidth) : (scan width).Confined := by
  intro source source' position x a hat hat' ha
  obtain ⟨a', ha', hsame⟩ := agrees_scan width hat hat' a ha
  have hends := fun range hrange => (endsIn_scan width ha range hrange).2
  have hends' := fun range hrange => (endsIn_scan width ha' range hrange).2
  rwa [eq_of_detach_eq (congrArg Prod.fst hsame) hends hends']

/-- Two sources with the same body at the same place list the same sub-records for it, and fail in it or
do not alike.  The sub-records stand one after another in the body, and point into it. -/
theorem list_of_body {source source' : ByteSource} (width : IdWidth) (record : Record)
    {body : List UInt8} (hlength : body.length = record.bodyLength.toNat)
    (hat : source.HasAt record.bodyOffset body) (hat' : source'.HasAt record.bodyOffset body) :
    let listing := list source width record
    let listing' := list source' width record
    listing.items = listing'.items ∧ listing.failure.isSome = listing'.failure.isSome ∧
      (∃ reached, reached ≤ record.stop ∧
        (scan width).Adjacent source record.bodyOffset listing.items reached) ∧
      ∀ subRecord ∈ listing.items, ∀ range ∈ subRecord.contents? width,
        record.bodyOffset ≤ range.1 ∧ range.1 + range.2 ≤ record.stop := by
  have hstop : record.bodyOffset + body.length = record.stop := by rw [hlength, Record.stop]
  have hstart : record.bodyOffset ≤ record.stop := by omega
  obtain ⟨hitems, hfailure⟩ := (confined_scan width).listFrom_congr scanWithin_eq_ok_iff
    (record.stop - record.bodyOffset) hat hat' hstop
  obtain ⟨reached, hreached, hadjacent⟩ :=
    adjacent_listFrom scanWithin_eq_ok_iff source (record.stop - record.bodyOffset) hstart
  refine ⟨hitems, hfailure, ⟨reached, hreached, hadjacent⟩, ?_⟩
  intro subRecord hmem range hrange
  obtain ⟨position, used, hread, hstart, hend⟩ := hadjacent.exists_range hmem
  have hcontents := endsIn_scan width hread range hrange
  exact ⟨by omega, by omega⟩

/-- An instance with two bytes, and behind it an array of four bytes, of which two are there. -/
def overrun : List UInt8 :=
  [0x21, 0, 0, 0, 5, 0, 0, 0, 0, 0, 0, 0, 6, 0, 0, 0, 2, 1, 2,
    0x23, 0, 0, 0, 7, 0, 0, 0, 0, 0, 0, 0, 4, 8, 1, 2]

/-- The dump that goes on behind the body has bytes for the whole array; the other one ends in it. -/
theorem list_of_body_overrun :
    let record : Record := ⟨0, 12, 0, 35⟩
    let short := ByteSource.ofBytes (List.replicate 9 0 ++ overrun ++ []).toByteArray
    let long := ByteSource.ofBytes (List.replicate 9 255 ++ overrun ++ [3, 4, 5]).toByteArray
    (overrun.length = record.bodyLength.toNat ∧ short.HasAt record.bodyOffset overrun ∧
        long.HasAt record.bodyOffset overrun) ∧
      (list short .four record).items = (list long .four record).items ∧
      (list short .four record).items.map (·.contents? .four) = [some (26, 2)] ∧
      (list short .four record).failure = some (.outOfBounds 42 4 44) ∧
      (list long .four record).failure = some (.malformed 28 (.pastSegment 2)) := by
  intro record short long
  have hshort : short.HasAt record.bodyOffset overrun := ByteSource.hasAt_ofBytes (List.replicate 9 0) _ _
  have hlong : long.HasAt record.bodyOffset overrun :=
    ByteSource.hasAt_ofBytes (List.replicate 9 255) _ _
  obtain ⟨hitems, -⟩ := list_of_body .four record rfl hshort hlong
  refine ⟨⟨rfl, hshort, hlong⟩, hitems, ?_⟩
  decide +kernel

end SubRecord

end HeapDump

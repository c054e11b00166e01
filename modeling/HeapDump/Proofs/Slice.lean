import HeapDump.Record.Body
import HeapDump.Header
import HeapDump.Proofs.Scan
import Mathlib.Data.List.TakeDrop
import Mathlib.Data.List.TakeWhile

/-! What decoders take from the front of their input.  A decoder of fields of known length succeeds if its
input is as long as they are together, and leaves the bytes behind them, which it has not looked at.  And
each decoder of one field reads what the field is written as. -/

namespace HeapDump

namespace Slice

variable {α β : Type}

/-- The decoder fails on fewer than `n` bytes.  Else its answer is that of the first `n` bytes, and it
leaves the others. -/
structure Needs (decode : Slice α) (n : Nat) : Prop where
  error : ∀ input, input.length < n → ∃ e, decode input = .error e
  ok : ∀ input, input.length = n → ∃ a, ∀ rest, decode (input ++ rest) = .ok (a, rest)

theorem bind_eq {decode : Slice α} {next : α → Slice β} {input rest : List UInt8} {a : α}
    (h : decode input = .ok (a, rest)) : (decode >>= next) input = next a rest := by
  show (decode input >>= fun (a, rest) => next a rest) = next a rest
  rw [h]
  rfl

theorem bind_eq_error {decode : Slice α} {next : α → Slice β} {input : List UInt8} {e : Shortfall}
    (h : decode input = .error e) : (decode >>= next) input = .error e := by
  show (decode input >>= fun (a, rest) => next a rest) = .error e
  rw [h]
  rfl

theorem take_eq {n : Nat} {input : List UInt8} (h : n ≤ input.length) :
    take n input = .ok (input.take n, input.drop n) := by
  rw [take, if_pos h]

theorem u32_eq {input : List UInt8} (h : 4 ≤ input.length) :
    u32 input = .ok (.ofNat (Word.ofBytes (input.take 4)), input.drop 4) :=
  bind_eq (bind_eq (take_eq h))

theorem needs_pure (a : α) : Needs (pure a) 0 where
  error input h := absurd h (Nat.not_lt_zero _)
  ok input h := by
    obtain rfl := List.length_eq_zero_iff.mp h
    exact ⟨a, fun rest => rfl⟩

theorem Needs.bind {decode : Slice α} {next : α → Slice β} {m n : Nat} (h : decode.Needs m)
    (hnext : ∀ a, (next a).Needs n) : (decode >>= next).Needs (m + n) where
  error input hlt := by
    rcases Nat.lt_or_ge input.length m with hm | hm
    · obtain ⟨e, he⟩ := h.error input hm
      exact ⟨e, bind_eq_error he⟩
    · obtain ⟨a, ha⟩ := h.ok (input.take m) (List.length_take_of_le hm)
      obtain ⟨e, he⟩ := (hnext a).error (input.drop m) (by rw [List.length_drop]; omega)
      refine ⟨e, ?_⟩
      have hinput := ha (input.drop m)
      rw [List.take_append_drop] at hinput
      rw [bind_eq hinput, he]
  ok input hlength := by
    obtain ⟨a, ha⟩ := h.ok (input.take m) (List.length_take_of_le (by omega))
    obtain ⟨b, hb⟩ := (hnext a).ok (input.drop m) (by rw [List.length_drop]; omega)
    refine ⟨b, fun rest => ?_⟩
    have hinput := ha (input.drop m ++ rest)
    rw [← List.append_assoc, List.take_append_drop] at hinput
    rw [bind_eq hinput, hb]

theorem Needs.map {decode : Slice α} {n : Nat} (h : decode.Needs n) (f : α → β) :
    (decode >>= fun a => pure (f a)).Needs n :=
  h.bind fun a => needs_pure (f a)

theorem needs_take (n : Nat) : (take n).Needs n where
  error input h := ⟨⟨input⟩, by rw [take, if_neg (by omega)]⟩
  ok input h := by
    refine ⟨input, fun rest => ?_⟩
    rw [take, if_pos (by rw [List.length_append]; omega), ← h, List.take_left, List.drop_left]

theorem needs_word (n : Nat) : (word n).Needs n := (needs_take n).map _

theorem needs_u32 : u32.Needs 4 := (needs_word 4).map _

theorem needs_ident (width : IdWidth) : (ident width).Needs width.bytes := (needs_take _).map _

/-- A decoder succeeds just if there are as many bytes as it needs. -/
theorem Needs.ok_iff {decode : Slice α} {n : Nat} (h : decode.Needs n) (input : List UInt8) :
    (∃ a rest, decode input = .ok (a, rest)) ↔ n ≤ input.length := by
  constructor
  · rintro ⟨a, rest, ha⟩
    by_contra hlt
    obtain ⟨e, he⟩ := h.error input (Nat.not_le.mp hlt)
    rw [he] at ha
    cases ha
  · intro hle
    obtain ⟨a, ha⟩ := h.ok (input.take n) (List.length_take_of_le hle)
    have hinput := ha (input.drop n)
    rw [List.take_append_drop] at hinput
    exact ⟨a, _, hinput⟩

/-! ### Written fields -/

/-- The decoder takes `bytes` from the front of any input that begins with them. -/
def Reads (decode : Slice α) (bytes : List UInt8) (answer : α) : Prop :=
  ∀ rest, decode (bytes ++ rest) = .ok (answer, rest)

section Reads

variable {decode : Slice α} {next : α → Slice β} {bytes more : List UInt8} {a : α} {b : β}

theorem Reads.bind (h : decode.Reads bytes a) (hnext : (next a).Reads more b) :
    (decode >>= next).Reads (bytes ++ more) b := by
  intro rest
  rw [List.append_assoc, bind_eq (h _), hnext]

theorem Reads.map {f : α → β} (h : decode.Reads bytes a) (hb : f a = b) :
    (decode >>= fun a => pure (f a)).Reads bytes b := by
  intro rest
  rw [bind_eq (h rest), hb]
  rfl

/-- There need not be anything behind the bytes. -/
theorem Reads.all (h : decode.Reads bytes a) : decode bytes = .ok (a, []) := by
  have hnone := h []
  rwa [List.append_nil] at hnone

theorem reads_take {n : Nat} (h : bytes.length = n) : (take n).Reads bytes bytes := by
  intro rest
  rw [take_eq (by rw [List.length_append]; omega), ← h, List.take_left, List.drop_left]

theorem reads_word (n v : Nat) : (word n).Reads (Word.toBytes n v) (v % 256 ^ n) :=
  (reads_take (Word.length_toBytes n v)).map (Word.ofBytes_toBytes n v)

theorem reads_u32 (n : Nat) : u32.Reads (DraftItem.u32 n) (UInt32.ofNat n) :=
  (reads_word 4 n).map UInt32.ofNat_mod_size

theorem reads_number (n : UInt32) : u32.Reads (DraftItem.u32 n.toNat) n := by
  have h : u32.Reads (DraftItem.u32 n.toNat) (UInt32.ofNat n.toNat) := reads_u32 n.toNat
  rwa [UInt32.ofNat_toNat] at h

theorem reads_ident {width : IdWidth} {id : Ident} (h : id.Fits width) :
    (ident width).Reads (id.toBytes width) id :=
  (reads_take (id.length_toBytes width)).map (Ident.ofBytes_toBytes h)

end Reads

end Slice

/-- Values packed one after another are all listed, and nothing fails. -/
theorem Packed.listFrom_flatMap {α : Type} {decode : Slice α} {write : α → List UInt8} {items : List α}
    (h : ∀ a ∈ items, decode.Reads (write a) a) (rest : List UInt8) :
    listFrom decode items.length (items.flatMap write ++ rest) = ⟨items, none⟩ := by
  induction items with
  | nil => rfl
  | cons a items ih =>
    obtain ⟨hfirst, hrest⟩ := List.forall_mem_cons.mp h
    rw [List.length_cons, List.flatMap_cons, List.append_assoc, listFrom, hfirst]
    dsimp only
    rw [ih hrest]
    rfl

open Slice

/-- The width of identifiers is found in the number that is written for it. -/
@[simp] theorem IdWidth.ofBytes?_bytes (width : IdWidth) : ofBytes? (.ofNat width.bytes) = some width := by
  cases width <;> rfl

theorem IdWidth.toNat_ofNat_bytes (width : IdWidth) : (UInt32.ofNat width.bytes).toNat = width.bytes := by
  cases width <;> rfl

theorem IdWidth.ofNat_bytes_inj {width other : IdWidth}
    (h : UInt32.ofNat width.bytes = UInt32.ofNat other.bytes) : width = other := by
  rw [← Option.some_inj, ← ofBytes?_bytes width, h, ofBytes?_bytes]

theorem IdWidth.ofBytes?_eq_none_iff {n : UInt32} : ofBytes? n = none ↔ n ≠ 4 ∧ n ≠ 8 := by
  unfold ofBytes?
  split <;> simp_all

theorem IdWidth.ofBytes?_eq_some_iff {n : UInt32} {width : IdWidth} :
    ofBytes? n = some width ↔ n = .ofNat width.bytes := by
  constructor
  · unfold ofBytes?
    split
    · rintro ⟨⟩
      assumption
    · split
      · rintro ⟨⟩
        assumption
      · rintro ⟨⟩
  · rintro rfl
    exact ofBytes?_bytes width

/-! ### Headers -/

namespace Header

theorem needs_numbers : numbers.Needs 12 :=
  needs_u32.bind fun _ => (needs_word 8).map _

/-- The width and the time, as they are written. -/
def fields (width : IdWidth) (timestamp : UInt64) : List UInt8 :=
  Word.toBytes 4 width.bytes ++ Word.toBytes 8 timestamp.toNat

@[simp] theorem length_fields (width : IdWidth) (timestamp : UInt64) :
    (fields width timestamp).length = 12 := by
  rw [fields, List.length_append, Word.length_toBytes, Word.length_toBytes]

theorem toBytes_eq (label : String) (width : IdWidth) (timestamp : UInt64) :
    toBytes label width timestamp = Text.Utf8.encode label ++ 0 :: fields width timestamp := by
  rw [toBytes, fields, List.append_assoc, List.append_assoc]
  rfl

theorem reads_numbers (idBytes : UInt32) (timestamp : UInt64) :
    numbers.Reads (Word.toBytes 4 idBytes.toNat ++ Word.toBytes 8 timestamp.toNat)
      (idBytes, timestamp) := by
  apply (reads_number idBytes).bind
  have hlt : timestamp.toNat < 256 ^ 8 := timestamp.toNat_lt
  refine (reads_word 8 timestamp.toNat).map ?_
  rw [Nat.mod_eq_of_lt hlt, UInt64.ofNat_toNat]

theorem reads_fields (width : IdWidth) (timestamp : UInt64) :
    numbers.Reads (fields width timestamp) (.ofNat width.bytes, timestamp) := by
  have hreads := reads_numbers (.ofNat width.bytes) timestamp
  rwa [IdWidth.toNat_ofNat_bytes] at hreads

theorem span_label {label : List UInt8} (hlabel : ∀ b ∈ label, b ≠ 0) (rest : List UInt8) :
    (label ++ 0 :: rest).span (· ≠ 0) = (label, 0 :: rest) := by
  rw [List.span_eq_takeWhile_dropWhile]
  have hall : ∀ b ∈ label, decide (b ≠ 0) = true := fun b hb => decide_eq_true (hlabel b hb)
  rw [List.takeWhile_append_of_pos hall, List.dropWhile_append_of_pos hall]
  simp

/-- What stands behind the numbers plays no part. -/
theorem ofBytes_append {label front : List UInt8} (hlabel : ∀ b ∈ label, b ≠ 0)
    (hfront : front.length = 12) (rest : List UInt8) :
    ofBytes (label ++ 0 :: (front ++ rest)) = ofBytes (label ++ 0 :: front) := by
  obtain ⟨answer, hanswer⟩ := needs_numbers.ok front hfront
  have hnone := hanswer []
  rw [List.append_nil] at hnone
  have hlength : (label ++ 0 :: (front ++ rest)).length - rest.length =
      (label ++ 0 :: front).length - ([] : List UInt8).length := by
    simp only [List.length_append, List.length_cons, List.length_nil]
    omega
  unfold ofBytes
  rw [span_label hlabel, span_label hlabel]
  dsimp only
  rw [hanswer rest, hnone]
  dsimp only
  rw [hlength]

theorem span_nonzero {start : List UInt8} (h : ∀ b ∈ start, b ≠ 0) :
    start.span (· ≠ 0) = (start, []) := by
  rw [List.span_eq_takeWhile_dropWhile, List.takeWhile_eq_self_iff.mpr, List.dropWhile_eq_nil_iff.mpr]
  · exact fun b hb => decide_eq_true (h b hb)
  · exact fun b hb => decide_eq_true (h b hb)

/-- Either no byte is zero, or there is a first one that is. -/
theorem span_cases (start : List UInt8) :
    start.span (· ≠ 0) = (start, []) ∨
      ∃ label tail, start = label ++ 0 :: tail ∧ ∀ b ∈ label, b ≠ 0 := by
  by_cases hzero : 0 ∈ start
  · obtain ⟨label, tail, rfl, hlabel⟩ := List.eq_append_cons_of_mem hzero
    exact .inr ⟨label, tail, rfl, fun b hb heq => hlabel (heq ▸ hb)⟩
  · exact .inl (span_nonzero fun b hb heq => hzero (heq ▸ hb))

theorem exists_parts {start : List UInt8} {header : Header} (h : ofBytes start = .ok header) :
    ∃ label front rest, start = label ++ 0 :: (front ++ rest) ∧ (∀ b ∈ label, b ≠ 0) ∧
      front.length = 12 ∧ header.recordsOffset = label.length + 13 := by
  unfold ofBytes at h
  rcases span_cases start with hspan | ⟨label, tail, rfl, hlabel⟩
  · rw [hspan] at h
    cases h
  · rw [span_label hlabel] at h
    dsimp only at h
    have hlength : 12 ≤ tail.length := by
      by_contra hlt
      obtain ⟨e, he⟩ := needs_numbers.error tail (Nat.not_le.mp hlt)
      rw [he] at h
      cases h
    obtain ⟨⟨ids, time⟩, hnumbers⟩ := needs_numbers.ok _ (List.length_take_of_le hlength)
    have htail := hnumbers (tail.drop 12)
    rw [List.take_append_drop] at htail
    rw [htail] at h
    refine ⟨label, tail.take 12, tail.drop 12, ?_, hlabel, List.length_take_of_le hlength, ?_⟩
    · rw [List.take_append_drop]
    · dsimp only at h
      split at h
      · cases h
      · split at h
        · cases h
        · cases h
          simp only [List.length_append, List.length_cons, List.length_drop]
          omega

end Header

end HeapDump

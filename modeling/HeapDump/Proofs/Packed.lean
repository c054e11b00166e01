import HeapDump.Proofs.Slice

/-! Packed values one by one.  Asking for the next value again and again gives the values that a listing
has, then its failure if there is one, and then nothing more.  Values of a fixed width are as many as
are due and fit into the input, and a failure keeps the bytes behind them. -/

namespace HeapDump

namespace Slice

variable {α : Type}

/-- The decoder makes a value of `width` bytes. -/
structure Fixed (decode : Slice α) (width : Nat) (value : List UInt8 → α) : Prop where
  pos : 0 < width
  ok : ∀ input, width ≤ input.length →
    decode input = .ok (value (input.take width), input.drop width)
  error : ∀ input, input.length < width → decode input = .error ⟨input⟩

theorem fixed_take {n : Nat} (hpos : 0 < n) (f : List UInt8 → α) :
    (take n >>= fun bytes => pure (f bytes)).Fixed n f where
  pos := hpos
  ok _ h := bind_eq (take_eq h)
  error input h := bind_eq_error (by rw [take, if_neg (Nat.not_le.mpr h)])

theorem fixed_ident (width : IdWidth) : (ident width).Fixed width.bytes Ident.ofBytes :=
  fixed_take (by cases width <;> decide) _

end Slice

/-- What a reading answers, item by item. -/
def Listing.answers {ε α : Type} (listing : Listing ε α) : List (Except ε α) :=
  listing.items.map .ok ++ listing.failure.toList.map .error

theorem Word.getElem?_split {width count i : Nat} {bytes : List UInt8} (h : i < count) :
    (split width count bytes)[i]? = some ((bytes.drop (i * width)).take width) := by
  induction count generalizing bytes i with
  | zero => exact absurd h (Nat.not_lt_zero _)
  | succ count ih =>
    cases i with
    | zero => simp [split]
    | succ i =>
      rw [split, List.getElem?_cons_succ, ih (Nat.lt_of_succ_lt_succ h), List.drop_drop,
        Nat.succ_mul, Nat.add_comm]

namespace Packed

variable {α : Type} {packed : Packed α}

/-- What is left when the next value has been asked for. -/
def step (packed : Packed α) : Packed α :=
  packed.next?.elim packed (·.2)

/-- What is left when `n` values have been asked for. -/
def after (packed : Packed α) : Nat → Packed α
  | 0 => packed
  | n + 1 => packed.step.after n

/-- The answer when the next value is asked for and `n` were asked for before. -/
def item? (packed : Packed α) (n : Nat) : Option (Except Shortfall α) :=
  (packed.after n).next?.map (·.1)

/-- The answers to come. -/
def toCome (packed : Packed α) : List (Except Shortfall α) :=
  packed.toListing.answers

/-! ### Answers to come -/

theorem head?_toCome (packed : Packed α) : packed.toCome.head? = packed.next?.map (·.1) := by
  obtain ⟨decode, input, due⟩ := packed
  cases due with
  | zero => rfl
  | succ due =>
    rw [toCome, toListing, listFrom, next?]
    dsimp only
    cases decode input <;> rfl

theorem toCome_step (packed : Packed α) : packed.step.toCome = packed.toCome.tail := by
  obtain ⟨decode, input, due⟩ := packed
  cases due with
  | zero => rfl
  | succ due =>
    rw [toCome, toCome, toListing, toListing, listFrom, step, next?]
    dsimp only
    cases decode input <;> rfl

theorem toCome_after (packed : Packed α) (n : Nat) :
    (packed.after n).toCome = packed.toCome.drop n := by
  induction n generalizing packed with
  | zero => rfl
  | succ n ih => rw [after, ih, toCome_step, List.drop_tail]

/-- Asking one by one gives the answers of the listing, and nothing behind them. -/
theorem item?_eq (packed : Packed α) (n : Nat) : packed.item? n = packed.toCome[n]? := by
  rw [item?, ← head?_toCome, toCome_after, List.head?_drop]

theorem decode_step (packed : Packed α) : packed.step.decode = packed.decode := by
  obtain ⟨decode, input, due⟩ := packed
  cases due with
  | zero => rfl
  | succ due =>
    rw [step, next?]
    dsimp only
    cases decode input <;> rfl

theorem decode_after (packed : Packed α) (n : Nat) : (packed.after n).decode = packed.decode := by
  induction n generalizing packed with
  | zero => rfl
  | succ n ih => rw [after, ih, decode_step]

/-- No more answers come than values are due. -/
theorem length_toCome_le (packed : Packed α) : packed.toCome.length ≤ packed.due := by
  obtain ⟨decode, input, due⟩ := packed
  induction due generalizing input with
  | zero => exact Nat.le_refl 0
  | succ due ih =>
    rw [toCome, toListing, listFrom]
    dsimp only
    cases decode input with
    | error e => exact Nat.succ_le_succ (Nat.zero_le due)
    | ok answer => exact Nat.succ_le_succ (ih answer.2)

/-! ### Values of a fixed width -/

section Fixed

variable {width : Nat} {value : List UInt8 → α}

/-- The number of values that are due and fit into the input. -/
def whole (packed : Packed α) (width : Nat) : Nat :=
  min packed.due (packed.input.length / width)

theorem listFrom_eq {decode : Slice α} (fixed : decode.Fixed width value) (due : Nat)
    (input : List UInt8) :
    listFrom decode due input =
      ⟨(Word.split width (min due (input.length / width)) input).map value,
        if input.length / width < due then some ⟨input.drop (input.length / width * width)⟩
        else none⟩ := by
  induction due generalizing input with
  | zero => simp [listFrom, Word.split]
  | succ due ih =>
    rw [listFrom]
    rcases Nat.lt_or_ge input.length width with hlt | hle
    · rw [fixed.error input hlt, Nat.div_eq_of_lt hlt]
      simp [Word.split]
    · have hdiv : input.length / width = (input.drop width).length / width + 1 := by
        rw [List.length_drop, Nat.div_eq_sub_div fixed.pos hle]
      rw [fixed.ok input hle]
      dsimp only
      rw [ih, hdiv, Nat.add_min_add_right, Word.split, List.map_cons, Nat.succ_mul,
        Nat.add_comm _ width, ← List.drop_drop]
      simp only [Nat.add_lt_add_iff_right]
      rfl

/-- If there is room for all values that are due, they are listed. -/
theorem toListing_of_room (fixed : packed.decode.Fixed width value)
    (hroom : packed.due * width ≤ packed.input.length) :
    packed.toListing = ⟨(Word.split width packed.due packed.input).map value, none⟩ := by
  have hle : packed.due ≤ packed.input.length / width :=
    (Nat.le_div_iff_mul_le fixed.pos).mpr hroom
  rw [toListing, listFrom_eq fixed, Nat.min_eq_left hle, if_neg (Nat.not_lt.mpr hle)]

/-- What packed values of a fixed width answer when they are asked for one by one. -/
structure Yields (packed : Packed α) (width : Nat) (value : List UInt8 → α) : Prop where
  item : ∀ i, packed.item? i =
    if i < packed.whole width then some (.ok (value ((packed.input.drop (i * width)).take width)))
    else if i = packed.whole width ∧ packed.whole width < packed.due then
      some (.error ⟨packed.input.drop (packed.whole width * width)⟩)
    else none
  /-- The hint before each step, and the number of answers that are still to come. -/
  hint : ∀ n, ∃ upper left, (packed.after n).sizeHint = (0, some upper) ∧
    (∀ i, (packed.item? (n + i)).isSome ↔ i < left) ∧ left ≤ upper ∧
    (upper * width ≤ (packed.after n).input.length → left = upper)

theorem yields_of_fixed (fixed : packed.decode.Fixed width value) : packed.Yields width value where
  item i := by
    have hlength : (((Word.split width (packed.whole width) packed.input).map value).map
        (Except.ok : α → Except Shortfall α)).length = packed.whole width := by simp
    rw [item?_eq, toCome, toListing, listFrom_eq fixed, Listing.answers, ← whole]
    rcases Nat.lt_or_ge i (packed.whole width) with hlt | hge
    · rw [if_pos hlt, List.getElem?_append_left (hlength.symm ▸ hlt), List.getElem?_map,
        List.getElem?_map, Word.getElem?_split hlt]
      rfl
    · rw [if_neg (Nat.not_lt.mpr hge), List.getElem?_append_right (hlength.symm ▸ hge), hlength]
      by_cases hshort : packed.input.length / width < packed.due
      · have hwhole : packed.whole width = packed.input.length / width :=
          Nat.min_eq_right (Nat.le_of_lt hshort)
        rw [hwhole] at hge ⊢
        rw [if_pos hshort]
        rcases Nat.lt_or_eq_of_le hge with hlt | rfl
        · rw [if_neg fun h => Nat.ne_of_gt hlt h.1]
          exact List.getElem?_eq_none (by simp; omega)
        · rw [if_pos ⟨rfl, hshort⟩, Nat.sub_self]
          rfl
      · rw [if_neg hshort, if_neg fun h => hshort (by rw [whole] at h; omega)]
        rfl
  hint n := by
    refine ⟨_, (packed.after n).toCome.length, rfl, fun i => ?_, length_toCome_le _, fun hroom => ?_⟩
    · rw [item?_eq, toCome_after, List.length_drop, isSome_getElem?]
      omega
    · have hfixed : (packed.after n).decode.Fixed width value := by rwa [decode_after]
      rw [toCome, toListing_of_room hfixed hroom]
      simp [Listing.answers]

end Fixed

end Packed

end HeapDump

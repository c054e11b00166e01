import HeapDump.Proofs.SubRecord.Grammar

/-! Rows of items, such as the records of a dump or the sub-records of a body.  No word of their grammar is
the start of another, so a row of bytes falls into words in one way at most, and the list of a row has
no failure if and only if the row falls into words. -/

namespace HeapDump

open scoped Computability

namespace Grammar

/-- No word is empty, and none is the start of another. -/
structure IsPrefixCode (language : Language UInt8) : Prop where
  nonempty : [] ∉ language
  eq_of_prefix : ∀ {x y}, x ∈ language → y ∈ language → x <+: y → x = y

section PrefixCode

variable {language : Language UInt8} (code : IsPrefixCode language)
include code

theorem IsPrefixCode.ne_nil {x : List UInt8} (h : x ∈ language) : x ≠ [] := by
  rintro rfl
  exact code.nonempty h

theorem IsPrefixCode.append_inj {x y r s : List UInt8} (hx : x ∈ language) (hy : y ∈ language)
    (h : x ++ r = y ++ s) : x = y ∧ r = s := by
  have hword : x = y := by
    rcases List.prefix_or_prefix_of_prefix (List.prefix_append x r) (h ▸ List.prefix_append y s) with
      hxy | hyx
    · exact code.eq_of_prefix hx hy hxy
    · exact (code.eq_of_prefix hy hx hyx).symm
  subst hword
  exact ⟨rfl, List.append_cancel_left h⟩

/-- Bytes fall into words in one way at most. -/
theorem IsPrefixCode.flatten_inj {words words' : List (List UInt8)} (hwords : ∀ x ∈ words, x ∈ language)
    (hwords' : ∀ x ∈ words', x ∈ language) (h : words.flatten = words'.flatten) : words = words' := by
  induction words generalizing words' with
  | nil =>
    cases words' with
    | nil => rfl
    | cons y words' =>
      have hnil : y = [] := (List.append_eq_nil_iff.mp h.symm).1
      exact absurd hnil (code.ne_nil (hwords' y List.mem_cons_self))
  | cons x words ih =>
    cases words' with
    | nil =>
      have hnil : x = [] := (List.append_eq_nil_iff.mp h).1
      exact absurd hnil (code.ne_nil (hwords x List.mem_cons_self))
    | cons y words' =>
      obtain ⟨rfl, hrest⟩ := code.append_inj (hwords x List.mem_cons_self)
        (hwords' y List.mem_cons_self) h
      rw [ih (fun z hz => hwords z (List.mem_cons_of_mem x hz))
        (fun z hz => hwords' z (List.mem_cons_of_mem x hz)) hrest]

end PrefixCode

/-! ### Cuts -/

/-- The place behind the first `n` bytes is strictly inside one of the words. -/
def CutsInside (words : List (List UInt8)) (n : Nat) : Prop :=
  ∃ before word after, words = before ++ word :: after ∧
    before.flatten.length < n ∧ n < before.flatten.length + word.length

theorem CutsInside.append {words : List (List UInt8)} {n : Nat} (h : CutsInside words n)
    (front : List (List UInt8)) : CutsInside (front ++ words) (front.flatten.length + n) := by
  obtain ⟨before, word, after, rfl, hlow, hhigh⟩ := h
  refine ⟨front ++ before, word, after, (List.append_assoc _ _ _).symm, ?_⟩
  rw [List.flatten_append, List.length_append]
  omega

/-- Between two words, nothing is cut. -/
theorem not_cutsInside_append (front back : List (List UInt8)) :
    ¬CutsInside (front ++ back) front.flatten.length := by
  rintro ⟨before, word, after, hwords, hlow, hhigh⟩
  rcases List.append_eq_append_iff.mp hwords with ⟨rest, rfl, -⟩ | ⟨rest, rfl, hrest⟩
  · rw [List.flatten_append, List.length_append] at hlow
    omega
  · cases rest with
    | nil =>
      rw [List.append_nil] at hlow
      omega
    | cons first rest =>
      obtain ⟨rfl, -⟩ := List.cons.inj hrest
      rw [List.flatten_append, List.flatten_cons, List.length_append, List.length_append] at hhigh
      omega

/-- A place that is not inside a word is between two words. -/
theorem exists_append_of_not_cutsInside {words : List (List UInt8)} {n : Nat}
    (hn : n ≤ words.flatten.length) (h : ¬CutsInside words n) :
    ∃ front back, words = front ++ back ∧ front.flatten.length = n := by
  induction words generalizing n with
  | nil => exact ⟨[], [], rfl, (Nat.le_zero.mp hn).symm⟩
  | cons word words ih =>
    rw [List.flatten_cons, List.length_append] at hn
    by_cases hword : word.length ≤ n
    · obtain ⟨rest, rfl⟩ := Nat.exists_eq_add_of_le hword
      have hrest : ¬CutsInside words rest := by
        intro hcut
        have hmoved := hcut.append [word]
        rw [List.flatten_singleton] at hmoved
        exact h hmoved
      obtain ⟨front, back, rfl, hlength⟩ := ih (by omega) hrest
      refine ⟨word :: front, back, rfl, ?_⟩
      rw [List.flatten_cons, List.length_append, hlength]
    · cases n with
      | zero => exact ⟨[], _, rfl, rfl⟩
      | succ n =>
        refine absurd ⟨[], word, words, rfl, Nat.succ_pos n, ?_⟩ h
        rw [List.flatten_nil, List.length_nil]
        omega

/-- Rows one after another are a row. -/
theorem exists_words {language : Language UInt8} {parts : List (List UInt8)}
    (hparts : ∀ part ∈ parts, part ∈ language∗) :
    ∃ words : List (List UInt8), (∀ x ∈ words, x ∈ language) ∧ words.flatten = parts.flatten := by
  induction parts with
  | nil => exact ⟨[], by simp, rfl⟩
  | cons part parts ih =>
    obtain ⟨hfirst, hrest⟩ := List.forall_mem_cons.mp hparts
    obtain ⟨first, rfl, hmem⟩ := Language.mem_kstar.mp hfirst
    obtain ⟨words, hwords, hflatten⟩ := ih hrest
    refine ⟨first ++ words, List.forall_mem_append.mpr ⟨hmem, hwords⟩, ?_⟩
    rw [List.flatten_append, List.flatten_cons, hflatten]

/-- A row of words cut into parts: every part is a row of words just if no word is cut. -/
theorem IsPrefixCode.parts_iff {language : Language UInt8} (code : IsPrefixCode language)
    {words parts : List (List UInt8)} (hwords : ∀ x ∈ words, x ∈ language)
    (h : parts.flatten = words.flatten) :
    (∀ part ∈ parts, part ∈ language∗) ↔ ∀ k, ¬CutsInside words (parts.take k).flatten.length := by
  constructor
  · intro hparts k
    -- The words of the parts before the cut and of those after it are the words of the whole, since
    -- the whole falls into words in one way only.
    obtain ⟨front, hfront, hfrontFlatten⟩ :=
      exists_words fun part hpart => hparts part (List.mem_of_mem_take (i := k) hpart)
    obtain ⟨back, hback, hbackFlatten⟩ :=
      exists_words fun part hpart => hparts part (List.mem_of_mem_drop (i := k) hpart)
    obtain rfl : words = front ++ back := by
      refine code.flatten_inj hwords (List.forall_mem_append.mpr ⟨hfront, hback⟩) ?_
      rw [← h, List.flatten_append, hfrontFlatten, hbackFlatten, ← List.flatten_append,
        List.take_append_drop]
    rw [← hfrontFlatten]
    exact not_cutsInside_append front back
  · intro hcuts
    induction parts generalizing words with
    | nil => simp
    | cons part parts ih =>
      have hfirst := hcuts 1
      rw [List.take_succ_cons, List.take_zero, List.flatten_singleton] at hfirst
      have hle : part.length ≤ words.flatten.length := by
        rw [← h, List.flatten_cons, List.length_append]
        omega
      obtain ⟨front, back, rfl, hlength⟩ := exists_append_of_not_cutsInside hle hfirst
      obtain ⟨hfront, hback⟩ := List.forall_mem_append.mp hwords
      rw [List.flatten_cons, List.flatten_append] at h
      obtain ⟨rfl, hrest⟩ := List.append_inj h hlength.symm
      refine List.forall_mem_cons.mpr ⟨Language.mem_kstar.mpr ⟨front, rfl, hfront⟩, ?_⟩
      refine ih hback hrest fun k hcut => hcuts (k + 1) ?_
      rw [List.take_succ_cons, List.flatten_cons, List.length_append]
      exact hcut.append front

end Grammar

open Grammar

/-- A scan stops where the bytes of its word end, so none of its words is the start of another. -/
theorem Scan.Accepts.isPrefixCode {α : Type} {scan : Scan α} {language : Language UInt8}
    (h : scan.Accepts language) (hne : [] ∉ language) : IsPrefixCode language where
  nonempty := hne
  eq_of_prefix {x y} hx hy hprefix := by
    obtain ⟨rest, rfl⟩ := hprefix
    have hat : (ByteSource.ofBytes ([] ++ (x ++ rest) ++ []).toByteArray).HasAt 0 (x ++ rest) :=
      ByteSource.hasAt_ofBytes [] (x ++ rest) []
    obtain ⟨a, ha⟩ := (h hat.left).mpr hx
    obtain ⟨b, hb⟩ := (h hat).mpr hy
    rw [ha] at hb
    have hlength := (Scanned.mk.inj hb).2
    rw [List.length_append] at hlength
    rw [List.length_eq_zero_iff.mp (show rest.length = 0 by omega), List.append_nil]

namespace Scan

variable {α : Type}

/-- A scan of items that end no later than `stop`, each of them a word of the language. -/
structure Within (item : Scan α) (source : ByteSource) (stop : Nat) (language : Language UInt8) :
    Prop where
  code : IsPrefixCode language
  le_stop : ∀ {position a used}, position < stop → item source position = ⟨.ok a, used⟩ →
    position + used ≤ stop
  accepts : ∀ {position x}, source.HasAt position x → position + x.length ≤ stop →
    ((∃ a, item source position = ⟨.ok a, x.length⟩) ↔ x ∈ language)

/-- An item of a row and the word from which it was read. -/
def ReadFrom (item : Scan α) (source : ByteSource) (a : α) (x : List UInt8) : Prop :=
  ∃ position, source.HasAt position x ∧ item source position = ⟨.ok a, x.length⟩

variable {item : Scan α} {source : ByteSource} {stop : Nat} {language : Language UInt8}

theorem Within.listFrom_flatten (h : item.Within source stop language)
    {words : List (List UInt8)} (hwords : ∀ x ∈ words, x ∈ language) {fuel position : Nat}
    (hat : source.HasAt position words.flatten) (hstop : position + words.flatten.length = stop)
    (hfuel : words.flatten.length ≤ fuel) :
    (listFrom item source stop fuel position).failure = none ∧
      List.Forall₂ (item.ReadFrom source) (listFrom item source stop fuel position).items words := by
  induction words generalizing fuel position with
  | nil =>
    have hend : ¬position < stop := Nat.not_lt.mpr (Nat.le_of_eq hstop.symm)
    cases fuel with
    | zero => exact ⟨rfl, .nil⟩
    | succ fuel =>
      rw [listFrom, if_neg hend]
      exact ⟨rfl, .nil⟩
  | cons x words ih =>
    have hx := hwords x List.mem_cons_self
    have hpos := List.length_pos_iff.mpr (h.code.ne_nil hx)
    rw [List.flatten_cons] at hat hstop hfuel
    rw [List.length_append] at hstop hfuel
    obtain ⟨a, ha⟩ := (h.accepts hat.left (by omega)).mpr hx
    cases fuel with
    | zero => omega
    | succ fuel =>
      rw [listFrom, if_pos (by omega), ha]
      obtain ⟨hfailure, hitems⟩ := ih (fun y hy => hwords y (List.mem_cons_of_mem x hy)) hat.right
        (by omega) (show _ ≤ fuel by omega)
      exact ⟨hfailure, .cons ⟨position, hat.left, ha⟩ hitems⟩

theorem Within.exists_words (h : item.Within source stop language) {fuel position : Nat}
    {row : List UInt8} (hat : source.HasAt position row) (hstop : position + row.length = stop)
    (hfuel : row.length ≤ fuel)
    (hfailure : (listFrom item source stop fuel position).failure = none) : row ∈ language∗ := by
  induction fuel generalizing position row with
  | zero =>
    rw [List.length_eq_zero_iff.mp (Nat.le_zero.mp hfuel)]
    exact Language.nil_mem_kstar language
  | succ fuel ih =>
    by_cases hend : position < stop
    · rw [listFrom, if_pos hend] at hfailure
      rcases hitem : item source position with ⟨e | a, used⟩
      · rw [hitem] at hfailure
        cases hfailure
      · rw [hitem] at hfailure
        have hle := h.le_stop hend hitem
        have hlength : (row.take used).length = used := List.length_take_of_le (by omega)
        have hword : row.take used ∈ language :=
          (h.accepts (hat.take used) (by omega)).mp ⟨a, by rw [hlength, hitem]⟩
        have hpos := List.length_pos_iff.mpr (h.code.ne_nil hword)
        rw [hlength] at hpos
        have hdrop : (row.drop used).length = row.length - used := List.length_drop
        have hrest := ih (hat.drop (by omega)) (by omega) (by omega) hfailure
        obtain ⟨words, hwords, hmem⟩ := Language.mem_kstar.mp hrest
        refine Language.mem_kstar.mpr ⟨row.take used :: words, ?_, ?_⟩
        · rw [List.flatten_cons, ← hwords, List.take_append_drop]
        · exact List.forall_mem_cons.mpr ⟨hword, hmem⟩
    · rw [List.length_eq_zero_iff.mp (show row.length = 0 by omega)]
      exact Language.nil_mem_kstar language

/-- The list of a row has no failure just if the row falls into words. -/
theorem Within.failure_eq_none_iff (h : item.Within source stop language) {start : Nat}
    {row : List UInt8} (hat : source.HasAt start row) (hstop : start + row.length = stop) :
    (list item source start stop).failure = none ↔ row ∈ language∗ := by
  have hfuel : row.length ≤ stop - start := by omega
  constructor
  · exact h.exists_words hat hstop hfuel
  · intro hrow
    obtain ⟨words, rfl, hwords⟩ := Language.mem_kstar.mp hrow
    exact (h.listFrom_flatten hwords hat hstop hfuel).1

theorem Within.items (h : item.Within source stop language) {start : Nat}
    {words : List (List UInt8)} (hwords : ∀ x ∈ words, x ∈ language)
    (hat : source.HasAt start words.flatten) (hstop : start + words.flatten.length = stop) :
    List.Forall₂ (item.ReadFrom source) (list item source start stop).items words :=
  (h.listFrom_flatten hwords hat hstop (by omega)).2

end Scan

/-! ### Sub-records in a body -/

namespace SubRecord

variable {source : ByteSource} {width : IdWidth} {stop : Nat}

theorem scanWithin_eq_ok_iff {position used : Nat} {a : SubRecord} :
    scanWithin width stop source position = ⟨.ok a, used⟩ ↔
      scan width source position = ⟨.ok a, used⟩ ∧ position + used ≤ stop := by
  rw [scanWithin, Scan.position_bind]
  rcases hscan : scan width source position with ⟨e | b, n⟩
  · rw [Scan.bind_error hscan]
    simp
  · rw [Scan.bind_ok hscan, Scan.position_bind]
    split
    · next hlt =>
      simp only [Scan.malformed, Scan.fail, Nat.add_zero]
      constructor
      · rintro ⟨⟩
      · rintro ⟨⟨⟩, hle⟩
        omega
    · next hle =>
      constructor
      · rintro ⟨⟩
        exact ⟨rfl, Nat.not_lt.mp hle⟩
      · rintro ⟨⟨⟩, -⟩
        rfl

theorem isPrefixCode (width : IdWidth) : IsPrefixCode (subRecord width) := by
  refine (accepts_scan width).isPrefixCode ?_
  rintro ⟨tag, y, -, h⟩
  cases h

theorem within_scanWithin (source : ByteSource) (width : IdWidth) (stop : Nat) :
    (scanWithin width stop).Within source stop (subRecord width) where
  code := isPrefixCode width
  le_stop _ h := (scanWithin_eq_ok_iff.mp h).2
  accepts hat hle := by
    rw [← accepts_scan width hat]
    exact exists_congr fun a => scanWithin_eq_ok_iff.trans (and_iff_left hle)

end SubRecord

end HeapDump

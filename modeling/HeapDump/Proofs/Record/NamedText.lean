import HeapDump.Proofs.Text.Utf8
import HeapDump.Record.Body

/-! Texts as they are read.  A text may spell any of its NULs in one byte or in two, and is read as the same
text in every spelling.  And bytes that a decoder without leniency accepts are read as it reads them, since
none of them is `C0`. -/

namespace HeapDump

namespace Text.Utf8

/-! ### Spellings of NUL -/

/-- The bytes of a text, with the two byte spelling for the NULs at the chosen places. -/
def encodeWith (chosen : Nat → Bool) (text : String) : List UInt8 :=
  text.toList.zipIdx.flatMap fun (c, place) =>
    if c = '\x00' ∧ chosen place then [0xC0, 0x80] else String.utf8EncodeChar c

theorem utf8EncodeChar_ne_C0 (c : Char) : ∀ b ∈ String.utf8EncodeChar c, b ≠ 0xC0 := by
  intro b hb
  refine encode_ne_C0 (.ofList [c]) b ?_
  rwa [encode, String.toList_ofList, List.flatMap_singleton]

/-- Each two byte NUL is one byte again, and nothing else changes. -/
theorem restoreNul_encodeWith (chosen : Nat → Bool) (text : String) :
    restoreNul (encodeWith chosen text) = encode text := by
  unfold encodeWith encode
  generalize text.toList = chars
  generalize 0 = start
  induction chars generalizing start with
  | nil => rfl
  | cons c chars ih =>
    rw [List.zipIdx_cons, List.flatMap_cons, List.flatMap_cons]
    dsimp only
    split
    · next hnul =>
      rw [hnul.1]
      exact congrArg (0 :: ·) (ih (start + 1))
    · rw [restoreNul_append (utf8EncodeChar_ne_C0 c), ih]

/-! ### Strict decoding -/

/-- Only characters can be decoded. -/
theorem eq_map_of_charsOfChunks {index : Nat} {chunks : List Chunk} {chars : List Char}
    (h : charsOfChunks index chunks = .ok chars) : chunks = chars.map .scalar := by
  induction chunks generalizing index chars with
  | nil =>
    cases h
    rfl
  | cons chunk chunks ih =>
    cases chunk with
    | scalar c =>
      rw [charsOfChunks] at h
      cases hrest : charsOfChunks (index + c.utf8Size) chunks with
      | error fault =>
        rw [hrest] at h
        cases h
      | ok rest =>
        rw [hrest] at h
        cases h
        rw [ih hrest, List.map_cons]
    | broken length => cases h
    | cut length => cases h

theorem chunks_of_decode {bytes : List UInt8} {text : String} (h : decode bytes = .ok text) :
    chunks bytes = text.toList.map .scalar := by
  rw [decode] at h
  cases hchars : charsOfChunks 0 (chunks bytes) with
  | error fault =>
    rw [hchars] at h
    cases h
  | ok chars =>
    rw [hchars] at h
    cases h
    rw [eq_map_of_charsOfChunks hchars, String.toList_ofList]

theorem high_of_lead {b : UInt8} {p : Partial} (h : lead b = .inr p) : p.high ≤ 0xBF := by
  have hall : ∀ n < 256, ∀ p ∈ (lead (.ofNat n)).getRight?, p.high ≤ 0xBF := by decide +kernel
  refine hall b.toNat b.toNat_lt p ?_
  rw [UInt8.ofNat_toNat, h]
  rfl

theorem high_of_push {p q : Partial} {b : UInt8} (h : p.push b = .inr q) : q.high = 0xBF := by
  unfold Partial.push at h
  dsimp only at h
  split at h
  · cases h
  · rw [← Sum.inr.inj h]

/-- Where all chunks are characters there is no `C0`, which neither begins nor continues one. -/
theorem ne_C0_of_chunksFrom {read : Option Partial} (hhigh : ∀ p ∈ read, p.high ≤ 0xBF)
    {bytes : List UInt8} {chars : List Char} (h : chunksFrom read bytes = chars.map .scalar) :
    ∀ b ∈ bytes, b ≠ 0xC0 := by
  induction bytes generalizing read chars with
  | nil => exact fun b hb => absurd hb List.not_mem_nil
  | cons b bytes ih =>
    have hnone : ∀ p ∈ (none : Option Partial), p.high ≤ 0xBF := fun p hp => nomatch hp
    cases read with
    | none =>
      rw [chunksFrom] at h
      cases hlead : lead b with
      | inl chunk =>
        rw [hlead] at h
        obtain ⟨c, rest, rfl, rfl, hrest⟩ := List.map_eq_cons_iff.mp h.symm
        refine List.forall_mem_cons.mpr ⟨?_, ih hnone hrest.symm⟩
        rintro rfl
        cases hlead
      | inr p =>
        rw [hlead] at h
        refine List.forall_mem_cons.mpr ⟨?_, ih (fun q hq => ?_) h⟩
        · rintro rfl
          cases hlead
        · cases hq
          exact high_of_lead hlead
    | some p =>
      rw [chunksFrom] at h
      split at h
      · next hrange =>
        have hb : b ≠ 0xC0 := by
          rintro rfl
          exact absurd (UInt8.le_trans hrange.2 (hhigh p rfl)) (by decide)
        cases hpush : p.push b with
        | inl chunk =>
          rw [hpush] at h
          obtain ⟨c, rest, rfl, -, hrest⟩ := List.map_eq_cons_iff.mp h.symm
          exact List.forall_mem_cons.mpr ⟨hb, ih hnone hrest.symm⟩
        | inr q =>
          rw [hpush] at h
          refine List.forall_mem_cons.mpr ⟨hb, ih (fun r hr => ?_) h⟩
          cases hr
          exact UInt8.le_of_eq (high_of_push hpush)
      · obtain ⟨c, rest, -, hbroken, -⟩ := List.map_eq_cons_iff.mp h.symm
        cases hbroken

theorem restoreNul_of_decode {bytes : List UInt8} {text : String} (h : decode bytes = .ok text) :
    restoreNul bytes = bytes := by
  have hstart : ∀ p ∈ (none : Option Partial), p.high ≤ 0xBF := fun p hp => nomatch hp
  exact restoreNul_eq_self (ne_C0_of_chunksFrom hstart (chunks_of_decode h))

theorem decodeLossy_of_decode {bytes : List UInt8} {text : String} (h : decode bytes = .ok text) :
    decodeLossy bytes = text := by
  rw [decodeLossy, chunks_of_decode h, List.map_map]
  exact (congrArg String.ofList (List.map_id' _)).trans String.ofList_toList

end Text.Utf8

namespace NamedText

open Text Text.Utf8

/-- A text is read back from each of its spellings, and from bytes that are UTF-8 as they are. -/
theorem text_of_spelling (id : Ident) :
    (∀ (chosen : Nat → Bool) (text : String),
      (⟨id, encodeWith chosen text⟩ : NamedText).text = text) ∧
    ∀ (bytes : List UInt8) (text : String), Utf8.decode bytes = .ok text →
      (⟨id, bytes⟩ : NamedText).text = text := by
  refine ⟨fun chosen text => ?_, fun bytes text h => ?_⟩
  · show decodeLossy (restoreNul (encodeWith chosen text)) = text
    rw [restoreNul_encodeWith, decodeLossy_encode]
  · show decodeLossy (restoreNul bytes) = text
    rw [restoreNul_of_decode h, decodeLossy_of_decode h]

/-- Of two NULs the second one is spelled in two bytes, so a decoder without leniency refuses the bytes; it
accepts those that have only the other spelling. -/
theorem text_of_spelling_mixed :
    encodeWith (· = 3) "\x00aé\x00" = [0x00, 0x61, 0xC3, 0xA9, 0xC0, 0x80] ∧
      Utf8.decode [0x00, 0x61, 0xC3, 0xA9, 0xC0, 0x80] = .error ⟨4, some 1⟩ ∧
      (⟨⟨9⟩, encodeWith (· = 3) "\x00aé\x00"⟩ : NamedText).text = "\x00aé\x00" ∧
      Utf8.decode [0x00, 0x61, 0xC3, 0xA9, 0x00] = .ok "\x00aé\x00" ∧
      (⟨⟨9⟩, [0x00, 0x61, 0xC3, 0xA9, 0x00]⟩ : NamedText).text = "\x00aé\x00" := by
  have hstrict : Utf8.decode [0x00, 0x61, 0xC3, 0xA9, 0x00] = .ok "\x00aé\x00" := by decide +kernel
  exact ⟨by decide +kernel, by decide +kernel, (text_of_spelling ⟨9⟩).1 _ _, hstrict,
    (text_of_spelling ⟨9⟩).2 _ _ hstrict⟩

end NamedText

end HeapDump

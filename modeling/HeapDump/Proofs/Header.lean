import HeapDump.Proofs.Record.Frame
import HeapDump.Proofs.Text.Utf8

/-! Headers.  A label that is accepted is written in ASCII, and nothing but an ASCII byte is decoded as an
ASCII character, so what a header says depends on its first 31 bytes only, and any other start is no
header.  Fewer bytes of a header are none, and more of the dump do not change it.  A header that is written
comes back if its label holds no NUL. -/

namespace HeapDump

/-! ### Text -/

namespace Text.Utf8

/-- An ASCII character that is not NUL. -/
def IsPlain (c : Char) : Prop := 0 < c.toNat ∧ c.toNat < 0x80

instance (c : Char) : Decidable (IsPlain c) :=
  inferInstanceAs (Decidable (_ ∧ _))

theorem not_isPlain_ofNat {n : Nat} (h : 0x80 ≤ n) : ¬IsPlain (Char.ofNat n) := by
  unfold IsPlain Char.ofNat
  by_cases hvalid : n.isValidChar
  · rw [dif_pos hvalid]
    intro hplain
    have hn : (Char.ofNatAux n hvalid).toNat = n := rfl
    omega
  · rw [dif_neg hvalid]
    decide

/-- The bytes read so far can only be the start of a character past ASCII. -/
def Partial.Long (p : Partial) : Prop :=
  1 ≤ p.missing ∧ 0x80 ≤ p.low.toNat ∧
    0x80 ≤ (64 * p.value + (p.low.toNat - 0x80)) * 64 ^ (p.missing - 1)

instance (p : Partial) : Decidable p.Long :=
  inferInstanceAs (Decidable (_ ∧ _ ∧ _))

theorem long_of_lead {b : UInt8} {p : Partial} (h : lead b = .inr p) : p.Long := by
  have hall : ∀ n < 256, ∀ p ∈ (lead (.ofNat n)).getRight?, p.Long := by decide +kernel
  refine hall b.toNat b.toNat_lt p ?_
  rw [UInt8.ofNat_toNat, h]
  rfl

/-- A character that ends here is past ASCII, and the start of one that does not is still long. -/
theorem Partial.Long.push {p : Partial} (h : p.Long) {b : UInt8} (hlow : p.low ≤ b) :
    (∃ n, p.push b = .inl (.scalar (Char.ofNat n)) ∧ 0x80 ≤ n) ∨
      ∃ q, p.push b = .inr q ∧ q.Long := by
  obtain ⟨hmissing, hfirst, hleast⟩ := h
  rw [UInt8.le_iff_toNat_le] at hlow
  have hvalue : 64 * p.value + (p.low.toNat - 0x80) ≤ 64 * p.value + (b.toNat - 0x80) := by omega
  unfold Partial.push
  dsimp only
  by_cases hone : p.missing = 1
  · rw [if_pos hone]
    rw [hone, Nat.sub_self, Nat.pow_zero, Nat.mul_one] at hleast
    exact .inl ⟨_, rfl, by omega⟩
  · rw [if_neg hone]
    obtain ⟨missing, hmissing⟩ : ∃ n, p.missing = n + 2 := ⟨p.missing - 2, by omega⟩
    have hstart : (0x80 : UInt8).toNat = 0x80 := by decide
    rw [hmissing, show missing + 2 - 1 = missing + 1 from rfl, Nat.pow_succ] at hleast
    refine .inr ⟨_, rfl, ?_⟩
    unfold Long
    dsimp only
    rw [hmissing, hstart, Nat.sub_self, show missing + 2 - 1 - 1 = missing from rfl]
    refine ⟨by omega, Nat.le_refl _, ?_⟩
    have hgrown := Nat.le_trans hleast (Nat.mul_le_mul_right (64 ^ missing * 64) hvalue)
    generalize 64 * p.value + (b.toNat - 0x80) = value at hgrown ⊢
    rwa [Nat.add_zero, Nat.mul_comm 64 value, Nat.mul_assoc, Nat.mul_comm 64]

theorem not_isPlain_broken (length : Nat) : ¬IsPlain (Chunk.broken length).char := by
  have hreplacement : ¬IsPlain '\uFFFD' := by decide
  exact hreplacement

/-- No start of a character past ASCII is decoded as plain text. -/
theorem exists_not_isPlain {p : Partial} (h : p.Long) (bytes : List UInt8) :
    ∃ chunk ∈ chunksFrom (some p) bytes, ¬IsPlain chunk.char := by
  induction bytes generalizing p with
  | nil => exact ⟨_, List.mem_cons_self, not_isPlain_broken p.taken⟩
  | cons b bytes ih =>
    rw [chunksFrom]
    by_cases hrange : p.low ≤ b ∧ b ≤ p.high
    · rw [if_pos hrange]
      rcases h.push hrange.1 with ⟨n, hpush, hn⟩ | ⟨q, hpush, hq⟩
      · rw [hpush]
        exact ⟨_, List.mem_cons_self, not_isPlain_ofNat hn⟩
      · rw [hpush]
        exact ih hq
    · rw [if_neg hrange]
      exact ⟨_, List.mem_cons_self, not_isPlain_broken p.taken⟩

/-- A byte that is decoded as plain text is the code of its character. -/
theorem utf8EncodeChar_of_lead {b : UInt8} {chunk : Chunk} (h : lead b = .inl chunk)
    (hplain : IsPlain chunk.char) : String.utf8EncodeChar chunk.char = [b] := by
  have hall : ∀ n < 256, ∀ chunk ∈ (lead (.ofNat n)).getLeft?, IsPlain chunk.char →
      String.utf8EncodeChar chunk.char = [.ofNat n] := by decide +kernel
  have hthis := hall b.toNat b.toNat_lt chunk
  rw [UInt8.ofNat_toNat, h] at hthis
  exact hthis rfl hplain

/-- Only the bytes that a plain text is written in are decoded as it. -/
theorem encode_decodeLossy {bytes : List UInt8} (h : ∀ c ∈ (decodeLossy bytes).toList, IsPlain c) :
    encode (decodeLossy bytes) = bytes := by
  rw [decodeLossy, String.toList_ofList, chunks] at h
  rw [decodeLossy, encode, String.toList_ofList, chunks]
  induction bytes with
  | nil => rfl
  | cons b bytes ih =>
    rw [chunksFrom] at h ⊢
    cases hlead : lead b with
    | inl chunk =>
      rw [hlead, List.map_cons] at h
      obtain ⟨hfirst, hrest⟩ := List.forall_mem_cons.mp h
      rw [List.map_cons, List.flatMap_cons, ih hrest, utf8EncodeChar_of_lead hlead hfirst]
      rfl
    | inr p =>
      rw [hlead] at h
      obtain ⟨chunk, hchunk, hnot⟩ := exists_not_isPlain (long_of_lead hlead) bytes
      exact absurd (h _ (List.mem_map_of_mem hchunk)) hnot

/-- Plain text is written as the codes of its characters. -/
theorem encode_of_plain {text : String} (h : ∀ c ∈ text.toList, IsPlain c) :
    encode text = text.toList.map fun c => .ofNat c.toNat := by
  unfold encode
  generalize text.toList = chars at h
  induction chars with
  | nil => rfl
  | cons c chars ih =>
    obtain ⟨hc, hchars⟩ := List.forall_mem_cons.mp h
    have hsize : c.utf8Size = 1 := Char.utf8Size_eq_one_iff.mpr
      (UInt32.le_iff_toNat_le.mpr (Nat.le_of_lt_succ hc.2))
    rw [List.flatMap_cons, ih hchars, String.utf8EncodeChar_eq_singleton hsize]
    rfl

end Text.Utf8

namespace Header

open Text.Utf8

/-! ### Labels -/

/-- The labels that are known. -/
def labels : List String := versions.map (format ++ ·)

theorem checkLabel_of_mem {label : String} (h : label ∈ labels) : checkLabel label = .ok () := by
  have hall : ∀ label ∈ labels, checkLabel label = .ok () := by decide
  exact hall label h

/-- Any other label is malformed. -/
theorem checkLabel_cases (label : String) :
    label ∈ labels ∨ ∃ fault, checkLabel label = .error fault := by
  unfold checkLabel
  cases hprefix : format.toList.isPrefixOf? label.toList with
  | none => exact .inr ⟨_, rfl⟩
  | some version =>
    dsimp only
    split
    · next hversion =>
      have hlabel := List.isPrefixOf?_eq_some_iff_append_eq.mp hprefix
      refine .inl (List.mem_map.mpr ⟨_, hversion, String.toList_injective ?_⟩)
      rw [String.toList_append, String.toList_ofList, hlabel]
    · exact .inr ⟨_, rfl⟩

/-- A known label is 18 characters long, and all of them are plain. -/
theorem plain_of_mem {label : String} (h : label ∈ labels) :
    label.toList.length = 18 ∧ ∀ c ∈ label.toList, IsPlain c := by
  have hall : ∀ label ∈ labels, label.toList.length = 18 ∧ label.toList.all fun c => IsPlain c := by
    decide
  obtain ⟨hlength, hplain⟩ := hall label h
  exact ⟨hlength, fun c hc => of_decide_eq_true (List.all_eq_true.mp hplain c hc)⟩

/-- A known label is written in as many bytes as it has characters, and none of them is NUL. -/
theorem encode_of_mem {label : String} (h : label ∈ labels) :
    (encode label).length = 18 ∧ ∀ b ∈ encode label, b ≠ 0 := by
  obtain ⟨hlength, hplain⟩ := plain_of_mem h
  constructor
  · rw [encode_of_plain hplain, List.length_map, hlength]
  · exact encode_ne_zero fun hnul => absurd (hplain '\x00' hnul) (by decide)

/-! ### The bytes of a header -/

/-- A label with its NUL, the number of bytes of an identifier, and the time. -/
def opening (label : String) (idBytes : UInt32) (timestamp : UInt64) : List UInt8 :=
  encode label ++ 0 :: (Word.toBytes 4 idBytes.toNat ++ Word.toBytes 8 timestamp.toNat)

/-- What is read of bytes that begin so. -/
def opened (label : String) (idBytes : UInt32) (timestamp : UInt64) : Except DumpError Header :=
  match IdWidth.ofBytes? idBytes with
  | none => .error (.unsupportedIdWidth idBytes)
  | some idWidth => .ok ⟨label, idWidth, timestamp, 31⟩

theorem toBytes_eq_opening (label : String) (width : IdWidth) (timestamp : UInt64) :
    toBytes label width timestamp = opening label (.ofNat width.bytes) timestamp := by
  rw [toBytes_eq, opening, IdWidth.toNat_ofNat_bytes]
  rfl

section Opening

variable {label : String} (hlabel : label ∈ labels) (idBytes : UInt32) (timestamp : UInt64)
include hlabel

theorem length_opening : (opening label idBytes timestamp).length = 31 := by
  rw [opening, List.length_append, List.length_cons, List.length_append, Word.length_toBytes,
    Word.length_toBytes, (encode_of_mem hlabel).1]

theorem ofBytes_opening (rest : List UInt8) :
    ofBytes (opening label idBytes timestamp ++ rest) = opened label idBytes timestamp := by
  have hstart : opening label idBytes timestamp ++ rest =
      encode label ++ 0 :: (Word.toBytes 4 idBytes.toNat ++ Word.toBytes 8 timestamp.toNat ++ rest) := by
    rw [opening, List.append_assoc]
    rfl
  have hoffset : (encode label ++ 0 :: (Word.toBytes 4 idBytes.toNat ++ Word.toBytes 8 timestamp.toNat ++
      rest)).length - rest.length = 31 := by
    rw [← hstart, List.length_append, Nat.add_sub_cancel, length_opening hlabel]
  rw [hstart, ofBytes, span_label (encode_of_mem hlabel).2]
  dsimp only
  rw [reads_numbers]
  dsimp only
  rw [decodeLossy_encode, checkLabel_of_mem hlabel, hoffset]
  rfl

/-- Bytes that begin so are looked at no further. -/
theorem read_of_opening {file : ByteArray} {rest : List UInt8}
    (hfile : file.data.toList = opening label idBytes timestamp ++ rest) :
    read (.ofBytes file) = opened label idBytes timestamp := by
  have hopening := length_opening hlabel idBytes timestamp
  have hsize : file.size = 31 + rest.length := by
    rw [← hopening, ← List.length_append, ← hfile, Array.length_toList]
    rfl
  rw [read_eq, hfile, List.take_append, List.take_of_length_le, ofBytes_opening hlabel]
  rw [hopening, hsize, maxSize]
  omega

end Opening

/-- Twelve bytes and more begin with two numbers. -/
theorem exists_numbers {input : List UInt8} (h : 12 ≤ input.length) :
    ∃ (idBytes : UInt32) (timestamp : UInt64) (rest : List UInt8),
      input = Word.toBytes 4 idBytes.toNat ++ Word.toBytes 8 timestamp.toNat ++ rest := by
  have hids : (input.take 4).length = 4 := List.length_take_of_le (by omega)
  have htime : ((input.drop 4).take 8).length = 8 := List.length_take_of_le (by rw [List.length_drop]; omega)
  refine ⟨.ofNat (Word.ofBytes (input.take 4)), .ofNat (Word.ofBytes ((input.drop 4).take 8)),
    input.drop 12, ?_⟩
  rw [Word.toNat_ofBytes32 (Nat.le_of_eq hids), Word.toNat_ofBytes64 (Nat.le_of_eq htime),
    Word.toBytes_ofBytes hids, Word.toBytes_ofBytes htime, ← List.take_add, List.take_append_drop]

/-- Bytes either begin with a header, whatever width it names, or are malformed from the start. -/
theorem ofBytes_cases (start : List UInt8) :
    (∃ label ∈ labels, ∃ idBytes timestamp, opening label idBytes timestamp <+: start) ∨
      ∃ fault, ofBytes start = .error (.malformed 0 fault) := by
  rcases span_cases start with hspan | ⟨found, tail, rfl, hfound⟩
  · exact .inr ⟨.headerLabelOpen, by rw [ofBytes, hspan]⟩
  · rcases Nat.lt_or_ge tail.length 12 with hlt | hge
    · obtain ⟨e, he⟩ := needs_numbers.error tail hlt
      refine .inr ⟨.headerCut, ?_⟩
      rw [ofBytes, span_label hfound]
      dsimp only
      rw [he]
    · obtain ⟨idBytes, timestamp, rest, rfl⟩ := exists_numbers hge
      rcases checkLabel_cases (decodeLossy found) with hknown | ⟨fault, hfault⟩
      · refine .inl ⟨_, hknown, idBytes, timestamp, rest, ?_⟩
        rw [opening, encode_decodeLossy (plain_of_mem hknown).2, List.append_assoc, List.cons_append]
      · refine .inr ⟨fault, ?_⟩
        rw [ofBytes, span_label hfound]
        dsimp only
        rw [reads_numbers]
        dsimp only
        rw [hfault]

variable {file : ByteArray} {header : Header}

theorem read_cases (file : ByteArray) :
    (∃ label ∈ labels, ∃ idBytes timestamp, opening label idBytes timestamp <+: file.data.toList) ∨
      ∃ fault, read (.ofBytes file) = .error (.malformed 0 fault) := by
  rw [read_eq]
  refine (ofBytes_cases _).imp_left ?_
  rintro ⟨label, hlabel, idBytes, timestamp, hstart⟩
  exact ⟨label, hlabel, idBytes, timestamp, hstart.trans (List.take_prefix _ _)⟩

/-- Every header of an accepted dump ends at the same place. -/
theorem recordsOffset_eq (h : read (.ofBytes file) = .ok header) : header.recordsOffset = 31 := by
  rcases read_cases file with ⟨label, hlabel, idBytes, timestamp, rest, hfile⟩ | ⟨fault, hfault⟩
  · rw [read_of_opening hlabel idBytes timestamp hfile.symm, opened] at h
    split at h
    · cases h
    · cases h
      rfl
  · rw [hfault] at h
    cases h

theorem data_extract (file : ByteArray) (k : Nat) :
    (file.extract 0 k).data.toList = file.data.toList.take k := by
  rw [ByteArray.data_extract, Array.toList_extract, List.extract_eq_take_drop, List.drop_zero,
    Nat.sub_zero]

/-- Fewer bytes than those of the header are malformed from the start. -/
theorem read_of_lt (h : read (.ofBytes file) = .ok header) {k : Nat} (hk : k < header.recordsOffset) :
    ∃ fault, read (.ofBytes (file.extract 0 k)) = .error (.malformed 0 fault) := by
  have hle := recordsOffset_le h
  rw [read_eq] at h
  obtain ⟨label, front, rest, hstart, hlabel, hfront, hoffset⟩ := exists_parts h
  have hsize : (file.extract 0 k).size = k := by
    rw [ByteArray.size_extract]
    omega
  have hstartCut : file.data.toList.take k = (label ++ 0 :: front).take k := by
    have hwhole : (file.data.toList.take (min file.size maxSize)).take k = file.data.toList.take k := by
      rw [List.take_take, Nat.min_eq_left (by omega)]
    rw [← hwhole, hstart, ← List.cons_append, ← List.append_assoc, List.take_append_of_le_length]
    rw [List.length_append, List.length_cons]
    omega
  have hcut : (file.extract 0 k).data.toList.take (min (file.extract 0 k).size maxSize) =
      (label ++ 0 :: front).take k := by
    rw [hsize, data_extract, List.take_take, Nat.min_eq_left (by omega),
      Nat.min_eq_left (by omega), hstartCut]
  rw [read_eq, hcut]
  by_cases hlabelCut : k ≤ label.length
  · rw [List.take_append_of_le_length hlabelCut]
    refine ⟨.headerLabelOpen, ?_⟩
    rw [ofBytes, span_nonzero fun b hb => hlabel b (List.mem_of_mem_take hb)]
  · obtain ⟨n, rfl⟩ : ∃ n, k = label.length + (n + 1) := ⟨k - label.length - 1, by omega⟩
    rw [List.take_length_add_append, List.take_succ_cons]
    have hlength : (front.take n).length < 12 := by
      rw [List.length_take]
      omega
    obtain ⟨e, he⟩ := needs_numbers.error _ hlength
    refine ⟨.headerCut, ?_⟩
    rw [ofBytes, span_label hlabel]
    dsimp only
    rw [he]

/-! ### Which bytes are a header -/

/-- The bytes begin with a known label in ASCII and its NUL, the number of bytes of an identifier, and the time. -/
structure Opens (bytes : List UInt8) (label : String) (idBytes : UInt32) (timestamp : UInt64) : Prop where
  known : label ∈ ["JAVA PROFILE 1.0.1", "JAVA PROFILE 1.0.2", "JAVA PROFILE 1.0.3"]
  whole : 31 ≤ bytes.length
  ascii : bytes.take 19 = label.toList.map (fun c => .ofNat c.toNat) ++ [0]
  idBytes : Word.ofBytes ((bytes.drop 19).take 4) = idBytes.toNat
  timestamp : Word.ofBytes ((bytes.drop 23).take 8) = timestamp.toNat

theorem labels_eq : labels = ["JAVA PROFILE 1.0.1", "JAVA PROFILE 1.0.2", "JAVA PROFILE 1.0.3"] := by
  decide

/-- The label fixes the first 19 bytes, and a number of known length the bytes that spell it. -/
theorem opens_iff {bytes : List UInt8} {label : String} {idBytes : UInt32} {timestamp : UInt64} :
    Opens bytes label idBytes timestamp ↔
      label ∈ labels ∧ opening label idBytes timestamp <+: bytes := by
  constructor
  · intro h
    have hlabel : label ∈ labels := labels_eq ▸ h.known
    have hwhole := h.whole
    have hids : ((bytes.drop 19).take 4).length = 4 :=
      List.length_take_of_le (by rw [List.length_drop]; omega)
    have htime : ((bytes.drop 23).take 8).length = 8 :=
      List.length_take_of_le (by rw [List.length_drop]; omega)
    refine ⟨hlabel, List.prefix_iff_eq_take.mpr ?_⟩
    rw [length_opening hlabel, show 31 = 19 + (4 + 8) from rfl, List.take_add, List.take_add,
      List.drop_drop, h.ascii, ← encode_of_plain (plain_of_mem hlabel).2, List.append_assoc, opening,
      ← h.idBytes, ← h.timestamp, Word.toBytes_ofBytes hids, Word.toBytes_ofBytes htime]
    rfl
  · rintro ⟨hlabel, rest, rfl⟩
    have hlength := length_opening hlabel idBytes timestamp
    have hascii : (encode label ++ [0]).length = 19 := by
      rw [List.length_append, (encode_of_mem hlabel).1]
      rfl
    have hparts : opening label idBytes timestamp ++ rest = (encode label ++ [0]) ++
        (Word.toBytes 4 idBytes.toNat ++ (Word.toBytes 8 timestamp.toNat ++ rest)) := by
      simp only [opening, List.append_assoc, List.cons_append, List.nil_append]
    have hids : (opening label idBytes timestamp ++ rest).drop 19 =
        Word.toBytes 4 idBytes.toNat ++ (Word.toBytes 8 timestamp.toNat ++ rest) := by
      rw [hparts, List.drop_left' hascii]
    have htime : (opening label idBytes timestamp ++ rest).drop 23 =
        Word.toBytes 8 timestamp.toNat ++ rest := by
      rw [show 23 = 19 + 4 from rfl, ← List.drop_drop, hids, List.drop_left' (Word.length_toBytes 4 _)]
    refine ⟨labels_eq ▸ hlabel, ?_, ?_, ?_, ?_⟩
    · rw [List.length_append, hlength]
      omega
    · rw [hparts, List.take_left' hascii, encode_of_plain (plain_of_mem hlabel).2]
    · rw [hids, List.take_left' (Word.length_toBytes 4 _), Word.ofBytes_toBytes]
      exact Nat.mod_eq_of_lt idBytes.toNat_lt
    · rw [htime, List.take_left' (Word.length_toBytes 8 _), Word.ofBytes_toBytes]
      exact Nat.mod_eq_of_lt timestamp.toNat_lt

theorem opened_eq_ok_iff {label : String} {idBytes : UInt32} {timestamp : UInt64} :
    opened label idBytes timestamp = .ok header ↔
      label = header.label ∧ idBytes = .ofNat header.idWidth.bytes ∧ timestamp = header.timestamp ∧
        header.recordsOffset = 31 := by
  unfold opened
  cases hwidth : IdWidth.ofBytes? idBytes with
  | none =>
    refine iff_of_false nofun ?_
    rintro ⟨-, rfl, -⟩
    rw [IdWidth.ofBytes?_bytes] at hwidth
    cases hwidth
  | some width =>
    obtain rfl := IdWidth.ofBytes?_eq_some_iff.mp hwidth
    constructor
    · intro h
      cases h
      exact ⟨rfl, rfl, rfl, rfl⟩
    · obtain ⟨found, foundWidth, time, offset⟩ := header
      rintro ⟨rfl, hids, rfl, rfl⟩
      obtain rfl := IdWidth.ofNat_bytes_inj hids
      rfl

theorem opened_eq_unsupported_iff {label : String} {idBytes : UInt32} {timestamp : UInt64} {n : UInt32} :
    opened label idBytes timestamp = .error (.unsupportedIdWidth n) ↔ idBytes = n ∧ n ≠ 4 ∧ n ≠ 8 := by
  unfold opened
  cases hwidth : IdWidth.ofBytes? idBytes with
  | none =>
    rw [Except.error.injEq, DumpError.unsupportedIdWidth.injEq]
    exact ⟨fun h => ⟨h, h ▸ IdWidth.ofBytes?_eq_none_iff.mp hwidth⟩, And.left⟩
  | some width =>
    refine iff_of_false nofun ?_
    rintro ⟨rfl, hother⟩
    rw [IdWidth.ofBytes?_eq_none_iff.mpr hother] at hwidth
    cases hwidth

theorem opened_ne_malformed {label : String} {idBytes : UInt32} {timestamp : UInt64} {fault : Fault} :
    opened label idBytes timestamp ≠ .error (.malformed 0 fault) := by
  unfold opened
  cases IdWidth.ofBytes? idBytes <;> simp

theorem read_of_opens {label : String} {idBytes : UInt32} {timestamp : UInt64}
    (h : Opens file.data.toList label idBytes timestamp) :
    read (.ofBytes file) = opened label idBytes timestamp := by
  obtain ⟨hlabel, rest, hfile⟩ := opens_iff.mp h
  exact read_of_opening hlabel idBytes timestamp hfile.symm

/-- Bytes that are not malformed begin so. -/
theorem exists_opens (h : ∀ fault, read (.ofBytes file) ≠ .error (.malformed 0 fault)) :
    ∃ label idBytes timestamp, Opens file.data.toList label idBytes timestamp := by
  rcases read_cases file with ⟨label, hlabel, idBytes, timestamp, hstart⟩ | ⟨fault, hfault⟩
  · exact ⟨label, idBytes, timestamp, opens_iff.mpr ⟨hlabel, hstart⟩⟩
  · exact absurd hfault (h fault)

/-- A header is read just if a known label opens the bytes with an identifier width of four or eight, and
is what the bytes say, whatever follows them.  Any other width is reported, and all other bytes are
malformed from the start. -/
theorem read_iff_opens (file : ByteArray) :
    (∀ header, read (.ofBytes file) = .ok header ↔
      Opens file.data.toList header.label (.ofNat header.idWidth.bytes) header.timestamp ∧
        header.recordsOffset = 31) ∧
    (∀ n, read (.ofBytes file) = .error (.unsupportedIdWidth n) ↔
      n ≠ 4 ∧ n ≠ 8 ∧ ∃ label timestamp, Opens file.data.toList label n timestamp) ∧
    ((∃ fault, read (.ofBytes file) = .error (.malformed 0 fault)) ↔
      ¬∃ label idBytes timestamp, Opens file.data.toList label idBytes timestamp) := by
  refine ⟨fun header => ⟨fun h => ?_, fun h => ?_⟩, fun n => ⟨fun h => ?_, ?_⟩, ?_, fun hnone => ?_⟩
  · obtain ⟨label, idBytes, timestamp, hopens⟩ := exists_opens fun fault => by rw [h]; nofun
    rw [read_of_opens hopens, opened_eq_ok_iff] at h
    obtain ⟨rfl, rfl, rfl, hoffset⟩ := h
    exact ⟨hopens, hoffset⟩
  · rw [read_of_opens h.1, opened_eq_ok_iff]
    exact ⟨rfl, rfl, rfl, h.2⟩
  · obtain ⟨label, idBytes, timestamp, hopens⟩ := exists_opens fun fault => by rw [h]; nofun
    rw [read_of_opens hopens, opened_eq_unsupported_iff] at h
    obtain ⟨rfl, hfour, height⟩ := h
    exact ⟨hfour, height, label, timestamp, hopens⟩
  · rintro ⟨hfour, height, label, timestamp, hopens⟩
    rw [read_of_opens hopens, opened_eq_unsupported_iff]
    exact ⟨rfl, hfour, height⟩
  · rintro ⟨fault, hfault⟩ ⟨label, idBytes, timestamp, hopens⟩
    exact opened_ne_malformed ((read_of_opens hopens).symm.trans hfault)
  · by_contra hread
    exact hnone (exists_opens fun fault hfault => hread ⟨fault, hfault⟩)

/-! ### Written headers -/

/-- A written header is read with the width that was written, and what follows it are the records, if its
label holds no NUL. -/
theorem read_toBytes {label : String} (hlabel : '\x00' ∉ label.toList) {width : IdWidth}
    {timestamp : UInt64} {rest : List UInt8} {header : Header}
    (h : read (.ofBytes (toBytes label width timestamp ++ rest).toByteArray) = .ok header) :
    header.idWidth = width ∧ header.recordsOffset = (toBytes label width timestamp).length := by
  have hnonzero : ∀ b ∈ encode label, b ≠ 0 := encode_ne_zero hlabel
  rw [toBytes_eq] at h ⊢
  rw [read_eq, List.data_toByteArray, List.append_assoc, List.cons_append] at h
  obtain ⟨found, front, more, hstart, hfound, hfront, hoffset⟩ := exists_parts h
  obtain ⟨tail, htail⟩ := hstart ▸ List.take_prefix _ (encode label ++ 0 :: (fields width timestamp ++ rest))
  rw [List.append_assoc, List.cons_append, List.append_assoc] at htail
  -- The label ends at the first zero byte, so it is found where it was written.
  have hspan : (found, 0 :: (front ++ (more ++ tail))) =
      (encode label, 0 :: (fields width timestamp ++ rest)) := by
    rw [← span_label hfound, htail, span_label hnonzero]
  obtain ⟨rfl, hbehind⟩ := Prod.mk.inj hspan
  obtain ⟨rfl, -⟩ := List.append_inj (List.cons.inj hbehind).2 (hfront.trans (length_fields _ _).symm)
  refine ⟨?_, by rw [hoffset, List.length_append, List.length_cons, hfront]⟩
  rw [hstart, ofBytes, span_label hfound] at h
  dsimp only at h
  rw [reads_fields] at h
  dsimp only at h
  split at h
  · cases h
  · split at h
    · cases h
    · next found hwidth =>
      cases h
      rw [IdWidth.ofBytes?_bytes] at hwidth
      exact (Option.some.inj hwidth).symm

theorem length_toBytes_of_mem {label : String} (h : label ∈ labels) (width : IdWidth)
    (timestamp : UInt64) : (toBytes label width timestamp).length = 31 := by
  rw [toBytes_eq_opening, length_opening h]

/-- A header written with a known label is read as it was written, whatever follows it. -/
theorem read_toBytes_of_mem {label : String} (hlabel : label ∈ labels) (width : IdWidth)
    (timestamp : UInt64) (rest : List UInt8) :
    read (.ofBytes (toBytes label width timestamp ++ rest).toByteArray) =
      .ok ⟨label, width, timestamp, 31⟩ := by
  have hfile : (toBytes label width timestamp ++ rest).toByteArray.data.toList =
      opening label (.ofNat width.bytes) timestamp ++ rest := by
    rw [List.data_toByteArray, toBytes_eq_opening]
  rw [read_of_opening hlabel _ timestamp hfile, opened, IdWidth.ofBytes?_bytes]

end Header

end HeapDump

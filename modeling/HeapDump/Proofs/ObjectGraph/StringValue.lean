import HeapDump.Proofs.ObjectGraph.Acceptance
import HeapDump.Proofs.ObjectGraph.Answers
import HeapDump.Proofs.Text.Utf16
import HeapDump.Proofs.Word

/-! The texts of strings in an accepted dump.  `Holds` says which UTF-16 units the elements of an array
hold, and `Stores` in which three forms they hold a text.  Whatever a string says about its offset and
its count, its text is that of the units between two places inside the array, so nothing fails; and a
string that says nothing about them has the text that its array stores. -/

namespace HeapDump

namespace StringValue

open Text

/-- The bytes of UTF-16 units, low byte first. -/
def littleBytes (units : List UInt16) : List UInt8 :=
  units.flatMap fun u => (Word.toBytes 2 u.toNat).reverse

/-- The elements of an array that holds UTF-16 units: each is a character, or two bytes with the low one
first, or one byte that stands for a unit below 256. -/
inductive Holds (coder : Option Int) : PrimitiveType → List Value → List UInt16 → Prop
  | chars (units : List UInt16) : Holds coder .char (units.map .char) units
  | little (h : coder = some 1) (units : List UInt16) :
    Holds coder .byte ((littleBytes units).map fun b => .byte b.toInt8) units
  | latin (h : coder ≠ some 1) (bytes : List UInt8) :
    Holds coder .byte (bytes.map fun b => .byte b.toInt8) (bytes.map (·.toUInt16))

/-- The elements of an array that holds a text: its UTF-16 units in characters or in bytes with the low one
first, or its characters if none of them is above U+00FF. -/
inductive Stores (coder : Option Int) : PrimitiveType → List Value → String → Prop
  | chars (text : String) : Stores coder .char ((Utf16.encode text).map .char) text
  | little (h : coder = some 1) (text : String) :
    Stores coder .byte ((littleBytes (Utf16.encode text)).map fun b => .byte b.toInt8) text
  | latin (h : coder ≠ some 1) (text : String) (hlatin : ∀ c ∈ text.toList, c.toNat ≤ 0xFF) :
    Stores coder .byte (text.toList.map fun c => .byte (UInt8.ofNat c.toNat).toInt8) text

variable {coder : Option Int} {type : PrimitiveType} {contents : List Value}

theorem Stores.holds {text : String} (h : Stores coder type contents text) :
    Holds coder type contents (Utf16.encode text) := by
  cases h with
  | chars => exact .chars _
  | little h => exact .little h _
  | latin h _ hlatin =>
    have hunits := Holds.latin h (text.toList.map fun c => UInt8.ofNat c.toNat)
    rwa [List.map_map, List.map_map, ← show _ = text.toList.map (UInt8.toUInt16 ∘ _) from
      Utf16.encode_latin hlatin] at hunits

/-! ### Units -/

theorem littleUnits_littleBytes (units : List UInt16) : littleUnits (littleBytes units) = units := by
  have hsize : ∀ u ∈ units, ((Word.toBytes 2 u.toNat).reverse).length = 2 := by simp
  have hlength : (littleBytes units).length / 2 = units.length := by
    simp [littleBytes, List.length_flatMap]
  have hunit : ∀ u : UInt16,
      UInt16.ofNat (Word.ofBytes (Word.toBytes 2 u.toNat).reverse.reverse) = u := by
    intro u
    rw [List.reverse_reverse, Word.ofBytes_toBytes, Nat.mod_eq_of_lt (show _ < 256 ^ 2 from
      u.toNat_lt_size), UInt16.ofNat_toNat]
  rw [littleUnits, hlength, littleBytes, Word.split_flatMap hsize, List.map_map]
  exact (List.map_congr_left fun u _ => hunit u).trans (List.map_id' units)

theorem map_split_one (bytes : List UInt8) :
    (Word.split 1 bytes.length bytes).map (Value.ofBytes (.primitive .byte)) =
      bytes.map fun b => .byte b.toInt8 := by
  have hsplit : Word.split 1 bytes.length (bytes.flatMap ([·])) = bytes.map ([·]) :=
    Word.split_flatMap fun _ _ => rfl
  have hvalue : ∀ b : UInt8, Value.ofBytes (.primitive .byte) [b] = .byte b.toInt8 := by
    intro b
    rw [Value.ofBytes, Word.ofBytes_cons]
    simp [Word.ofBytes]
  rw [List.flatMap_singleton'] at hsplit
  rw [hsplit, List.map_map]
  exact List.map_congr_left fun b _ => hvalue b

theorem byte_injective : Function.Injective fun b : UInt8 => Value.byte b.toInt8 := by
  intro b b' h
  exact congrArg Int8.toUInt8 (Value.byte.inj h)

/-- The units that an array holds are found in its bytes. -/
theorem units?_of_holds {count : Nat} {bytes : List UInt8} {units : List UInt16}
    (hlength : bytes.length = count * type.size)
    (h : Holds coder type ((Word.split type.size count bytes).map (Value.ofBytes (.primitive type)))
      units) :
    units? (.primitive type) coder count bytes = some units := by
  generalize hcontents : (Word.split type.size count bytes).map (Value.ofBytes (.primitive type)) =
    contents at h
  have hbytes : ∀ bytes', type = .byte → contents = bytes'.map (fun b => .byte b.toInt8) →
      bytes = bytes' := by
    rintro bytes' rfl hsame
    rw [show count = bytes.length from (hlength.trans (Nat.mul_one count)).symm] at hcontents
    rw [show PrimitiveType.byte.size = 1 from rfl, map_split_one, hsame] at hcontents
    exact List.map_injective_iff.mpr byte_injective hcontents
  cases h with
  | chars =>
    have hwide : (wideUnits count bytes).map Value.char = units.map .char := by
      rw [← hcontents, wideUnits, List.map_map]
      rfl
    exact congrArg some (List.map_injective_iff.mpr (fun _ _ => Value.char.inj) hwide)
  | little h =>
    rw [hbytes _ rfl rfl, units?, if_pos h, littleUnits_littleBytes]
  | latin h =>
    rw [hbytes _ rfl rfl, units?, if_neg h, latinUnits]

/-! ### Parts -/

theorem part_eq_extract (offset count : Int) (units : List UInt16) :
    part (some offset) (some count) units =
      units.extract (min (max offset 0).toNat units.length)
        (min (min (max offset 0).toNat units.length + (max count 0).toNat) units.length) := by
  have hoffset : (max offset 0).toNat = offset.toNat := by omega
  have hcount : (max count 0).toNat = count.toNat := by omega
  have hdrop : units.drop (min offset.toNat units.length) = units.drop offset.toNat := by
    rcases Nat.le_total offset.toNat units.length with hle | hle
    · rw [Nat.min_eq_left hle]
    · rw [Nat.min_eq_right hle, List.drop_eq_nil_of_le hle, List.drop_length]
  rw [hoffset, hcount, part, List.extract_eq_take_drop, hdrop, Option.getD_some]
  refine List.take_eq_take_iff.mpr ?_
  rw [List.length_drop]
  omega

end StringValue

namespace ObjectGraph

open StringValue Text

variable {graph : ObjectGraph}

/-- The number in the field called `name`, if there is such a field and it has an integral type. -/
def numberNamed? (values : List (Field × Value)) (name : String) : Option Int :=
  (valueNamed? values name).bind (·.integer?)

/-- The bytes of an array that has contents are all there, and they are what its elements are read from. -/
theorem Sound.exists_contents (sound : graph.Sound) {a : ArrayInstance}
    (ha : Instance.array a ∈ graph.instances) {offset : Nat} (hoffset : a.offset = some offset) :
    ∃ bytes, graph.source.slice offset (a.contentsLength graph.idWidth) = .ok bytes ∧
      bytes.length = a.count.toNat * a.elementType.size graph.idWidth ∧
      graph.arrayValues a = .ok ((Word.split (a.elementType.size graph.idWidth) a.count.toNat
        bytes).map (Value.ofBytes a.elementType)) := by
  obtain ⟨bytes, hbytes, hlength⟩ := sound.lawful.slice_ok (sound.inside ha offset hoffset)
  refine ⟨bytes, hbytes, hlength, ?_⟩
  rw [arrayValues, elementBytes, hoffset]
  dsimp only
  rw [hbytes]
  rfl

theorem mem_instances_of_arrayOf? {value : Value} {a : ArrayInstance}
    (h : graph.arrayOf? value = some a) : Instance.array a ∈ graph.instances := by
  obtain ⟨target, -, h⟩ := Option.bind_eq_some_iff.mp h
  obtain ⟨i, hi, h⟩ := Option.bind_eq_some_iff.mp h
  cases i with
  | plain i => cases h
  | array a' =>
    cases h
    exact mem_instances_of_instance? hi

theorem stringValue_of_textIn {i : PlainInstance} {c : ClassObject}
    (hc : graph.class? i.classId = some c) (hname : c.name ∈ classNames)
    {values : List (Field × Value)} (hvalues : graph.fieldValues i = .ok values) :
    graph.stringValue (.plain i) =
      graph.textIn values ((valueNamed? values "value").bind graph.arrayOf?) := by
  rw [stringValue_eq, hc, if_neg, hvalues]
  · rfl
  · simpa using hname

theorem textIn_of_units {values : List (Field × Value)} {a : ArrayInstance} {type : PrimitiveType}
    (htype : a.elementType = .primitive type) {offset : Nat} (hoffset : a.offset = some offset)
    {bytes : List UInt8}
    (hbytes : graph.source.slice offset (a.contentsLength graph.idWidth) = .ok bytes)
    {units : List UInt16}
    (hunits : units? (.primitive type) (numberNamed? values "coder") a.count.toNat bytes =
      some units) :
    graph.textIn values (some a) = .ok (some (Utf16.decodeLossy
      (part (numberNamed? values "offset") (numberNamed? values "count") units))) := by
  rw [textIn, htype, hoffset]
  dsimp only
  rw [hbytes]
  show Except.ok (textOf values a bytes) = _
  rw [textOf, htype]
  exact congrArg (fun units => Except.ok (Option.map _ units)) hunits

/-- The text of a string in an accepted dump, when the array that its value refers to has contents.
Without an offset and a count it is the text that the array stores.  With both, whatever their sizes, it
is decoded from the units between two places inside the array. -/
theorem stringValue_of_accepted (file : ByteArray) (graph : ObjectGraph)
    (h : read (.ofBytes file) = .ok graph) (i : PlainInstance)
    (hi : Instance.plain i ∈ graph.instances)
    (hstring : ∃ c, graph.class? i.classId = some c ∧ c.name ∈ classNames) :
    ∃ values, graph.fieldValues i = .ok values ∧
      ∀ (a : ArrayInstance) (type : PrimitiveType) (place : Nat),
        (valueNamed? values "value").bind graph.arrayOf? = some a →
        a.elementType = .primitive type → a.offset = some place →
        ∃ contents, graph.arrayValues a = .ok contents ∧
          (∀ text, Stores (numberNamed? values "coder") type contents text →
            numberNamed? values "offset" = none → numberNamed? values "count" = none →
            graph.stringValue (.plain i) = .ok (some text)) ∧
          ∀ (units : List UInt16) (offset count : Int),
            Holds (numberNamed? values "coder") type contents units →
            numberNamed? values "offset" = some offset → numberNamed? values "count" = some count →
            let start := min (max offset 0).toNat units.length
            let stop := min (start + (max count 0).toNat) units.length
            start ≤ stop ∧ stop ≤ units.length ∧
              graph.stringValue (.plain i) =
                .ok (some (Utf16.decodeLossy (units.extract start stop))) := by
  have sound : graph.Sound := read_sound (ByteSource.lawful_ofBytes file) h
  obtain ⟨c, hc, hname⟩ := hstring
  obtain ⟨values, hvalues⟩ := sound.fieldValues_of_class? hi hc
  refine ⟨values, hvalues, fun a type place harray htype hplace => ?_⟩
  obtain ⟨value, -, hvalue⟩ := Option.bind_eq_some_iff.mp harray
  obtain ⟨bytes, hbytes, hlength, hcontents⟩ :=
    sound.exists_contents (mem_instances_of_arrayOf? hvalue) hplace
  rw [htype] at hlength hcontents
  have htext : ∀ units, Holds (numberNamed? values "coder") type
      ((Word.split type.size a.count.toNat bytes).map (Value.ofBytes (.primitive type))) units →
      graph.stringValue (.plain i) = .ok (some (Utf16.decodeLossy
        (part (numberNamed? values "offset") (numberNamed? values "count") units))) := by
    intro units hunits
    rw [stringValue_of_textIn hc hname hvalues, harray]
    exact textIn_of_units htype hplace hbytes (units?_of_holds hlength hunits)
  refine ⟨_, hcontents, ?_, ?_⟩
  · intro text hstores hoffset hcount
    rw [htext _ hstores.holds, hoffset, hcount]
    show Except.ok (some (Utf16.decodeLossy (Utf16.encode text))) = _
    rw [Utf16.decodeLossy_encode]
  · intro units offset count hunits hoffset hcount
    refine ⟨by omega, by omega, ?_⟩
    rw [htext units hunits, hoffset, hcount, part_eq_extract]

/-- Two strings that share an array of characters.  The first one has neither offset nor count; the second
one starts before the array and takes the letter and the two surrogates. -/
def sharedText : ByteArray :=
  ⟨(Draft.toBytes ⟨"JAVA PROFILE 1.0.2", .four, 0,
    [.text ⟨1⟩ "java/lang/String", .text ⟨2⟩ "value", .text ⟨3⟩ "offset", .text ⟨4⟩ "count",
      .loadClass ⟨1, ⟨10⟩, 0, ⟨1⟩⟩, .loadClass ⟨2, ⟨11⟩, 0, ⟨1⟩⟩,
      .heapDump [.classDump ⟨10⟩ none 4 [] [] [(⟨2⟩, .object)],
        .classDump ⟨11⟩ none 12 [] []
          [(⟨2⟩, .object), (⟨3⟩, .primitive .int), (⟨4⟩, .primitive .int)],
        .instanceValues ⟨20⟩ ⟨10⟩ [.object (some ⟨30⟩)],
        .instanceValues ⟨21⟩ ⟨11⟩ [.object (some ⟨30⟩), .int (-1), .int 3],
        .primitiveArray ⟨30⟩ .char [.char 0x61, .char 0xD834, .char 0xDD1E, .char 0x62]]]⟩).toArray⟩

def sharedChars : ArrayInstance := ⟨⟨30⟩, .primitive .char, none, 0, 0, 4, some 344⟩

def wholeString : PlainInstance := ⟨⟨20⟩, ⟨10⟩, 0, 0, 297, 4⟩

def partString : PlainInstance := ⟨⟨21⟩, ⟨11⟩, 0, 0, 318, 12⟩

/-- The instance is a string over the shared characters with the given offset and count. -/
def isShared (graph : ObjectGraph) (i : PlainInstance) (offset count : Option Int) : Bool :=
  (graph.class? i.classId).any (·.name ∈ classNames) &&
    (graph.fieldValues i).toOption.any fun values =>
      (valueNamed? values "value").bind graph.arrayOf? = some sharedChars ∧
        numberNamed? values "offset" = offset ∧ numberNamed? values "count" = count

theorem of_isShared {i : PlainInstance} {offset count : Option Int}
    (h : graph.isShared i offset count = true) :
    (∃ c, graph.class? i.classId = some c ∧ c.name ∈ classNames) ∧
      ∀ values, graph.fieldValues i = .ok values →
        (valueNamed? values "value").bind graph.arrayOf? = some sharedChars ∧
          numberNamed? values "offset" = offset ∧ numberNamed? values "count" = count := by
  rw [isShared, Bool.and_eq_true, Option.any_eq_true] at h
  obtain ⟨⟨c, hc, hname⟩, hvalues⟩ := h
  refine ⟨⟨c, hc, of_decide_eq_true hname⟩, fun values hok => ?_⟩
  rw [hok] at hvalues
  exact of_decide_eq_true hvalues

/-- Both texts have the character beyond the basic plane. -/
theorem stringValue_of_accepted_shared :
    ∃ graph, read (.ofBytes sharedText) = .ok graph ∧
      graph.instances = [.plain wholeString, .plain partString, .array sharedChars] ∧
      graph.stringValue (.plain wholeString) = .ok (some "a𝄞b") ∧
      graph.stringValue (.plain partString) = .ok (some "a𝄞") := by
  have hread : ((read (.ofBytes sharedText)).toOption.any fun graph =>
      graph.instances = [.plain wholeString, .plain partString, .array sharedChars] ∧
        (graph.arrayValues sharedChars).toOption = some ((Utf16.encode "a𝄞b").map .char) ∧
        graph.isShared wholeString none none = true ∧
        graph.isShared partString (some (-1)) (some 3) = true) = true := by
    decide +kernel
  obtain ⟨graph, hgraph, hchecked⟩ := exists_of_any hread
  obtain ⟨hinstances, hchars, hwhole, hpart⟩ := of_decide_eq_true hchecked
  obtain ⟨hwholeString, hwhole⟩ := of_isShared hwhole
  obtain ⟨hpartString, hpart⟩ := of_isShared hpart
  refine ⟨graph, hgraph, hinstances, ?_, ?_⟩
  · obtain ⟨values, hvalues, htext⟩ :=
      stringValue_of_accepted sharedText graph hgraph wholeString (by simp [hinstances]) hwholeString
    obtain ⟨harray, hoffset, hcount⟩ := hwhole values hvalues
    obtain ⟨contents, hcontents, hstored, -⟩ := htext sharedChars .char 344 harray rfl rfl
    rw [hcontents] at hchars
    cases hchars
    exact hstored _ (.chars _) hoffset hcount
  · obtain ⟨values, hvalues, htext⟩ :=
      stringValue_of_accepted sharedText graph hgraph partString (by simp [hinstances]) hpartString
    obtain ⟨harray, hoffset, hcount⟩ := hpart values hvalues
    obtain ⟨contents, hcontents, -, hheld⟩ := htext sharedChars .char 344 harray rfl rfl
    rw [hcontents] at hchars
    cases hchars
    obtain ⟨-, -, hvalue⟩ := hheld _ _ _ (.chars _) hoffset hcount
    rw [hvalue]
    decide +kernel

end ObjectGraph

end HeapDump

/-! UTF-8 text.  A byte string is cut into chunks: characters, and the longest starts of characters
that do not continue as they should.  Lossy decoding writes one replacement character for each
broken chunk; strict decoding refuses the first one and says where it is.  Dumps may spell the
character NUL as the two bytes `C0 80`; `restoreNul` undoes that spelling. -/

namespace HeapDump.Text.Utf8

/-- A stretch of bytes as the decoder meets it. -/
inductive Chunk
  | scalar (c : Char)
  /-- A start of a character, or a byte that starts none, before a byte that does not continue it. -/
  | broken (length : Nat)
  /-- A start of a character at the end of the bytes. -/
  | cut (length : Nat)
deriving DecidableEq, Repr

/-- A character whose first bytes have been read. -/
structure Partial where
  value : Nat
  taken : Nat
  missing : Nat
  /-- The least byte that may come next. -/
  low : UInt8
  /-- The greatest byte that may come next. -/
  high : UInt8
deriving DecidableEq, Repr

/-- What the first byte of a character says.  The narrower ranges of the second byte rule out
overlong forms, surrogates and values past the last character. -/
def lead (b : UInt8) : Chunk ⊕ Partial :=
  if b < 0x80 then .inl (.scalar (Char.ofNat b.toNat))
  else if b < 0xC2 then .inl (.broken 1)
  else if b < 0xE0 then .inr ⟨b.toNat - 0xC0, 1, 1, 0x80, 0xBF⟩
  else if b < 0xF0 then
    .inr ⟨b.toNat - 0xE0, 1, 2, if b = 0xE0 then 0xA0 else 0x80, if b = 0xED then 0x9F else 0xBF⟩
  else if b < 0xF5 then
    .inr ⟨b.toNat - 0xF0, 1, 3, if b = 0xF0 then 0x90 else 0x80, if b = 0xF4 then 0x8F else 0xBF⟩
  else .inl (.broken 1)

/-- What one more byte in range says. -/
def Partial.push (p : Partial) (b : UInt8) : Chunk ⊕ Partial :=
  let value := 64 * p.value + (b.toNat - 0x80)
  if p.missing = 1 then .inl (.scalar (Char.ofNat value))
  else .inr ⟨value, p.taken + 1, p.missing - 1, 0x80, 0xBF⟩

/-- The chunks of `bytes`, the first of which may have begun earlier. -/
def chunksFrom : Option Partial → List UInt8 → List Chunk
  | none, [] => []
  | some p, [] => [.cut p.taken]
  | none, b :: bytes =>
    match lead b with
    | .inl chunk => chunk :: chunksFrom none bytes
    | .inr p => chunksFrom (some p) bytes
  | some p, b :: bytes =>
    if p.low ≤ b ∧ b ≤ p.high then
      match p.push b with
      | .inl chunk => chunk :: chunksFrom none bytes
      | .inr p => chunksFrom (some p) bytes
    else
      .broken p.taken ::
        match lead b with
        | .inl chunk => chunk :: chunksFrom none bytes
        | .inr p => chunksFrom (some p) bytes

def chunks (bytes : List UInt8) : List Chunk :=
  chunksFrom none bytes

/-- The character written for a chunk by a decoder that refuses nothing. -/
def Chunk.char : Chunk → Char
  | scalar c => c
  | broken _ | cut _ => '\uFFFD'

/-- The text of `bytes`, with one replacement character for each broken chunk. -/
def decodeLossy (bytes : List UInt8) : String :=
  String.ofList ((chunks bytes).map Chunk.char)

/-! ### Strict decoding -/

/-- Where a byte string stops being UTF-8; `length` is absent when the bytes end too early. -/
structure Fault where
  index : Nat
  length : Option Nat
deriving DecidableEq, Repr

def Fault.message (fault : Fault) : String :=
  match fault.length with
  | some length => s!"invalid utf-8 sequence of {length} bytes from index {fault.index}"
  | none => s!"incomplete utf-8 byte sequence from index {fault.index}"

/-- The characters of chunks that begin at byte `index`, unless one of them is broken. -/
def charsOfChunks : Nat → List Chunk → Except Fault (List Char)
  | _, [] => .ok []
  | index, .scalar c :: chunks => (charsOfChunks (index + c.utf8Size) chunks).map (c :: ·)
  | index, .broken length :: _ => .error ⟨index, some length⟩
  | index, .cut _ :: _ => .error ⟨index, none⟩

def decode (bytes : List UInt8) : Except Fault String :=
  (charsOfChunks 0 (chunks bytes)).map String.ofList

def encode (text : String) : List UInt8 :=
  text.toList.flatMap String.utf8EncodeChar

/-! ### The two byte NUL -/

/-- Each `C0 80`, from the left, as a zero byte. -/
def restoreNul : List UInt8 → List UInt8
  | a :: b :: bytes =>
    if a = 0xC0 ∧ b = 0x80 then 0 :: restoreNul bytes else a :: restoreNul (b :: bytes)
  | bytes => bytes

end HeapDump.Text.Utf8

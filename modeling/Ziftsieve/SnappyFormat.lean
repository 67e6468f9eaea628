import Ziftsieve.Snappy

/-!
# The Snappy framing format

A stream is chunks: a type, the length in three bytes, and the chunk's body. A
plain walk reads them one after the other and keeps what each carries.
-/

namespace Ziftsieve.Snappy

/-! ## The plain walk -/

/-- What a chunk carries: its body after the checksum, decompressed where the type
says so, or nothing. -/
def payload (ext : External) (chunkType : UInt8) (body : Bytes) : Option Bytes :=
  if chunkType = 0x00 then ext.decompressVec (body.drop 4)
  else if chunkType = 0x01 then some (body.drop 4)
  else if chunkType = 0xfe ∨ chunkType = 0xff then some []
  else none

def payloads (ext : External) (data : Bytes) : Option (List Bytes) :=
  match data with
  | [] => some []
  | chunkType :: b0 :: b1 :: b2 :: rest =>
    if rest.length < fromLe [b0, b1, b2] then none
    else
      (payload ext chunkType (rest.take (fromLe [b0, b1, b2]))).bind fun p =>
        (payloads ext (rest.drop (fromLe [b0, b1, b2]))).map (p :: ·)
  | _ => none
termination_by data.length
decreasing_by simp only [List.length_drop, List.length_cons]; omega

theorem payloads_nil (ext : External) : payloads ext [] = some [] := by rw [payloads]

theorem payloads_chunk {ext : External} {chunkType : UInt8} {body rest p : Bytes} (hlen : body.length < 2 ^ 24)
    (hp : payload ext chunkType body = some p) :
    payloads ext (chunkType :: (toLe 3 body.length ++ (body ++ rest))) = (payloads ext rest).map (p :: ·) := by
  have hle : fromLe (toLe 3 body.length) = body.length := fromLe_toLe 3 _ (by simpa using hlen)
  simp only [toLe, List.cons_append, List.nil_append] at hle ⊢
  rw [payloads, hle, if_neg (by rw [List.length_append]; omega), List.take_left, List.drop_left, hp, Option.bind_some]

/-! ## Chunks -/

structure Chunk where
  chunkType : UInt8
  body : Bytes
  length_lt : body.length < 2 ^ 24

namespace Chunk

def encode (c : Chunk) : Bytes := c.chunkType :: (toLe 3 c.body.length ++ c.body)

theorem encode_append (c : Chunk) (rest : Bytes) :
    c.encode ++ rest = c.chunkType :: (toLe 3 c.body.length ++ (c.body ++ rest)) := by
  rw [encode, List.cons_append, List.append_assoc]

theorem length_encode (c : Chunk) : c.encode.length = 4 + c.body.length := by
  rw [encode, List.length_cons, List.length_append, length_toLe]; omega

/-- Bytes start with one chunk at most. -/
theorem encode_unique {c d : Chunk} {xs ys : Bytes} (h : c.encode ++ xs = d.encode ++ ys) :
    c.chunkType = d.chunkType ∧ c.body = d.body ∧ xs = ys := by
  rw [encode_append, encode_append] at h
  obtain ⟨htype, h⟩ := List.cons.inj h
  obtain ⟨hlens, h⟩ := List.append_inj h (by rw [length_toLe, length_toLe])
  have hlen : c.body.length = d.body.length := by
    have hfrom := congrArg fromLe hlens
    rwa [fromLe_toLe 3 _ c.length_lt, fromLe_toLe 3 _ d.length_lt] at hfrom
  exact ⟨htype, List.append_inj h hlen⟩

end Chunk

/-! ## Streams of uncompressed chunks -/

/-- A chunk of uncompressed data. The format allows 65536 bytes of it, the checksum not
counted. -/
structure RawChunk where
  crc : UInt32
  data : Bytes
  data_pos : 0 < data.length
  data_le : data.length ≤ 65536

def RawChunk.body (c : RawChunk) : Bytes := toLe 4 c.crc.toNat ++ c.data

def RawChunk.encode (c : RawChunk) : Bytes := 0x01 :: (toLe 3 (c.data.length + 4) ++ c.body)

def encodeChunks (cs : List RawChunk) : Bytes := cs.flatMap RawChunk.encode

def encodeStream (cs : List RawChunk) : Bytes := streamIdentifier ++ encodeChunks cs

theorem RawChunk.length_body (c : RawChunk) : c.body.length = c.data.length + 4 := by
  rw [body, List.length_append, length_toLe, Nat.add_comm]

theorem RawChunk.encode_append (c : RawChunk) (rest : Bytes) :
    c.encode ++ rest = 0x01 :: (toLe 3 c.body.length ++ (c.body ++ rest)) := by
  rw [encode, List.cons_append, List.append_assoc, c.length_body]

def RawChunk.chunk (c : RawChunk) : Chunk :=
  ⟨0x01, c.body, by have := c.data_le; rw [c.length_body]; omega⟩

theorem RawChunk.encode_chunk (c : RawChunk) : c.chunk.encode = c.encode := by
  rw [Chunk.encode, encode, ← c.length_body]
  rfl

theorem RawChunk.payload_body (ext : External) (c : RawChunk) : payload ext 0x01 c.body = some c.data := by
  have hdrop : c.body.drop 4 = c.data := List.drop_left' (length_toLe 4 _)
  unfold payload
  rw [if_neg (by decide), if_pos rfl, hdrop]

theorem RawChunk.length_encode (c : RawChunk) : c.encode.length = c.data.length + 8 := by
  rw [encode, List.length_cons, List.length_append, length_toLe, c.length_body]; omega

theorem payloads_encodeChunks (ext : External) : ∀ cs : List RawChunk,
    payloads ext (encodeChunks cs) = some (cs.map (·.data))
  | [] => payloads_nil ext
  | c :: cs => by
    have hle := c.data_le
    have hlen := c.length_body
    unfold encodeChunks
    rw [List.flatMap_cons, c.encode_append, payloads_chunk (by omega) (c.payload_body ext)]
    rw [show List.flatMap RawChunk.encode cs = encodeChunks cs from rfl, payloads_encodeChunks ext cs]
    rfl

/-- The body of the stream identifier. -/
def sNaPpY : Bytes := [0x73, 0x4e, 0x61, 0x50, 0x70, 0x59]

theorem payloads_encodeStream (ext : External) (cs : List RawChunk) :
    payloads ext (encodeStream cs) = some ([] :: cs.map (·.data)) := by
  have hid : encodeStream cs = 0xff :: (toLe 3 sNaPpY.length ++ (sNaPpY ++ encodeChunks cs)) := rfl
  rw [hid, payloads_chunk (p := []) (by decide) rfl, payloads_encodeChunks]
  rfl

end Ziftsieve.Snappy

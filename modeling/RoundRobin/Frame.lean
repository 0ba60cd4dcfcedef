import RoundRobin.Lib.BigEndian

/-!
# RoundRobin.Frame — wire frames, their encoding and the streaming decoder

`src/frame.rs`.  A frame is a 15-byte big-endian header (conn id, sequence, flags, payload length)
followed by the payload.  `Frame.encodeInto` appends one frame to a buffer, `FrameDecoder.tryNext`
reads a byte stream and yields one frame at a time.
-/

namespace RoundRobin

open BigEndian

abbrev Bytes := List UInt8

abbrev ConnId := UInt32

/-! ## Wire constants -/

def flagSyn : UInt8 := 0x01
def flagData : UInt8 := 0x02
def flagFin : UInt8 := 0x04
def flagRst : UInt8 := 0x08

def headerLen : ℕ := 4 + 8 + 1 + 2
def maxPayload : ℕ := 65535
def minChunk : ℕ := 512
def maxChunk : ℕ := 65535

/-- Floor for the out-of-order entry cap of a reorder buffer. -/
def maxReorderWindow : ℕ := 512
/-- Default byte budget of a reorder window. -/
def maxReorderBytes : ℕ := 64 * 1024 * 1024
/-- Max number of conn ids with frames buffered before their SYN. -/
def maxPendingCids : ℕ := 256
/-- Global byte budget for frames buffered before their SYN. -/
def maxPendingBytes : ℕ := 64 * 1024 * 1024

/-! ## Frames -/

structure Frame where
  connId : UInt32
  seq : UInt64
  flags : UInt8
  payload : Bytes
  deriving DecidableEq, Repr

/-- The errors of the codec; `message` gives the source's texts. -/
inductive FrameError where
  | encodeTooLarge (len : ℕ)
  | payloadTooLarge (len : ℕ)
  | bufferOverflow
  | eofMidFrame (buffered : ℕ)
  deriving DecidableEq, Repr

namespace Frame

def data (connId : UInt32) (seq : UInt64) (payload : Bytes) : Frame := ⟨connId, seq, flagData, payload⟩

def syn (connId : UInt32) (payload : Bytes) : Frame := ⟨connId, 0, flagSyn, payload⟩

def fin (connId : UInt32) (seq : UInt64) : Frame := ⟨connId, seq, flagFin, []⟩

def rst (connId : UInt32) : Frame := ⟨connId, 0, flagRst, []⟩

/-- `flags & mask != 0`. -/
def has (f : Frame) (mask : UInt8) : Bool := f.flags &&& mask != 0

/-- The header and payload as written by `encodeInto`, without its length check. -/
def wire (f : Frame) : Bytes :=
  beBytes 4 f.connId.toNat ++ beBytes 8 f.seq.toNat ++ [f.flags] ++ beBytes 2 f.payload.length ++
    f.payload

/-- Encode into a reusable buffer: an oversized payload is an error, never truncated. -/
def encodeInto (f : Frame) (buf : Bytes) : Except FrameError Bytes :=
  if f.payload.length > maxPayload then .error (.encodeTooLarge f.payload.length)
  else .ok (buf ++ f.wire)

/-- Encode the frame to a fresh buffer. -/
def encode (f : Frame) : Except FrameError Bytes := f.encodeInto []

/-- The encodings of a list of frames, one after the other in one buffer. -/
def encodeAll (fs : List Frame) : Except FrameError Bytes :=
  fs.foldlM (fun buf f => f.encodeInto buf) []

/-- The DATA frames of a list of chunks, from seq 1 on. -/
def dataFrames (c : ConnId) (chunks : List Bytes) : List Frame :=
  chunks.mapIdx fun i p => data c (UInt64.ofNat (i + 1)) p

theorem dataFrames_concat (c : ConnId) (chunks : List Bytes) (p : Bytes) :
    dataFrames c (chunks ++ [p]) = dataFrames c chunks ++ [data c (UInt64.ofNat (chunks.length + 1)) p] := by
  simp [dataFrames, List.mapIdx_append]

theorem payload_mem {c : ConnId} {chunks : List Bytes} {f : Frame} (h : f ∈ dataFrames c chunks) :
    f.payload ∈ chunks := by
  obtain ⟨i, hi, rfl⟩ := List.mem_mapIdx.mp h
  exact List.getElem_mem hi

end Frame

/-! ## SYN payload -/

def protoTcp : UInt8 := 0x06
def protoUdp : UInt8 := 0x11

structure SynTarget where
  proto : UInt8
  address : String
  port : UInt16
  deriving DecidableEq, Repr

inductive SynError where
  | addressTooLong (len : ℕ)
  | tooShort
  | truncated
  | utf8
  deriving DecidableEq, Repr

namespace SynTarget

def encode (t : SynTarget) : Except SynError Bytes :=
  let addr := t.address.toUTF8.data.toList
  if addr.length > 65535 then .error (.addressTooLong addr.length)
  else .ok ([t.proto] ++ beBytes 2 addr.length ++ addr ++ beBytes 2 t.port.toNat)

def decode (payload : Bytes) : Except SynError SynTarget :=
  if payload.length < 5 then .error .tooShort
  else
    let addrLen := ofBe ((payload.drop 1).take 2)
    if payload.length < 5 + addrLen then .error .truncated
    else
      match String.fromUTF8? ⟨((payload.drop 3).take addrLen).toArray⟩ with
      | none => .error .utf8
      | some address =>
        .ok ⟨payload.getD 0 0, address, UInt16.ofNat (ofBe ((payload.drop (3 + addrLen)).take 2))⟩

end SynTarget

/-! ## Streaming decoder -/

/-- One full frame plus two read blocks of headroom. -/
def maxDecoderBuf : ℕ := headerLen + maxPayload + 16384

def FrameError.message : FrameError → String
  | .encodeTooLarge len => s!"frame payload too large: {len} > {maxPayload}"
  | .payloadTooLarge len => s!"frame payload too large: {len}"
  | .bufferOverflow => s!"frame decoder buffer overflow (> {maxDecoderBuf} bytes)"
  | .eofMidFrame n => s!"EOF mid-frame ({n} buffered bytes)"

structure FrameDecoder where
  buf : Bytes
  deriving DecidableEq, Repr

namespace FrameDecoder

def new : FrameDecoder := ⟨[]⟩

/-- The parse attempt at the top of the loop of `try_next`: a complete frame and the rest of the
buffer, or `none` if more bytes are needed. -/
def parse (buf : Bytes) : Except FrameError (Option (Frame × Bytes)) :=
  if headerLen ≤ buf.length then
    let payloadLen := ofBe ((buf.drop 13).take 2)
    if payloadLen > maxPayload then .error (.payloadTooLarge payloadLen)
    else if headerLen + payloadLen ≤ buf.length then
      let connId := UInt32.ofNat (ofBe (buf.take 4))
      let seq := UInt64.ofNat (ofBe ((buf.drop 4).take 8))
      let flags := buf.getD 12 0
      let rest := buf.drop headerLen
      .ok (some (⟨connId, seq, flags, rest.take payloadLen⟩, rest.drop payloadLen))
    else .ok none
  else .ok none

/-- The result of one call of `try_next`, with the decoder and the reads left for the next one. -/
structure Outcome where
  result : Except FrameError (Option Frame)
  dec : FrameDecoder
  reads : List Bytes

/-- A read of 0 bytes: clean EOF, or an error if a frame was cut. -/
def atEof (d : FrameDecoder) : Except FrameError (Option Frame) :=
  if d.buf.isEmpty then .ok none else .error (.eofMidFrame d.buf.length)

/-- `try_next`: parse, else read more.  The reader is the list of what its reads return; when it is
used up, or returns no bytes, `read_buf` returns 0. -/
def tryNext (d : FrameDecoder) : List Bytes → Outcome
  | [] =>
    match parse d.buf with
    | .error e => ⟨.error e, d, []⟩
    | .ok (some (f, rest)) => ⟨.ok (some f), ⟨rest⟩, []⟩
    | .ok none =>
      if maxDecoderBuf - d.buf.length = 0 then ⟨.error .bufferOverflow, d, []⟩
      else ⟨d.atEof, d, []⟩
  | r :: rs =>
    match parse d.buf with
    | .error e => ⟨.error e, d, r :: rs⟩
    | .ok (some (f, rest)) => ⟨.ok (some f), ⟨rest⟩, r :: rs⟩
    | .ok none =>
      if maxDecoderBuf - d.buf.length = 0 then ⟨.error .bufferOverflow, d, r :: rs⟩
      else if r.length = 0 then ⟨d.atEof, d, rs⟩
      else tryNext ⟨d.buf ++ r⟩ rs

end FrameDecoder

end RoundRobin

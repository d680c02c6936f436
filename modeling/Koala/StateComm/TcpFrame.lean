import Koala.Lib.Wire

/-!
# TCP frames of the state service

Workers fetch state from each other over TCP (`state/lazyBykeyTcpUtil.go`, `worker/stateCommUtil`).  Requests and
responses are frames: a magic word, the length of what follows, a body, a closing magic word.  Both sides build a
frame in a preallocated buffer of `TcpMaxMessageSize` bytes and fill in the header last, and both read a frame by
its header first.

`finishFrame_frame` and `readFrame_frame` are the two lemmas about frames everything else uses: a body that fits
is framed, and a frame is read off the stream exactly.
-/

namespace Koala
namespace StateComm

open Lib Lib.Outcome

/-- `constant.MagicStart`. -/
def magicStart : Nat := 0xABCDEF01

/-- `constant.MagicEnd`. -/
def magicEnd : Nat := 0x10FEDCBA

/-- `constant.TcpMaxMessageSize`. -/
def tcpMaxMessageSize : Nat := 50 * 1024 * 1024

/-- `constant.TcpMsgTypeKeyedFetch`. -/
def tcpMsgTypeKeyedFetch : UInt8 := 0x01

/-- `constant.TcpMsgTypeAdditionalFetch`. -/
def tcpMsgTypeAdditionalFetch : UInt8 := 0x02

/-- Whose frame is being read: the server reads requests, the client responses of either kind. -/
inductive FrameKind where
  | request
  | response (remoteWorkerId : Nat)
  | additionalResponse (remoteWorkerId : Nat)
  deriving DecidableEq, Repr

/-- The ways an exchange kills the process: Go's bounds checks and the `log.Fatalf` calls of both sides. -/
inductive TcpAbort where
  | outOfRange
  | invalidMagicStart (kind : FrameKind)
  | lengthExceedsMax (kind : FrameKind) (len : Nat)
  | invalidMagicEnd (kind : FrameKind)
  | invalidNumberOfKeys (numKeys : Nat) (stateID : UInt16)
  | unknownMessageType (msgType : UInt8)
  | valueExceedsMax (valLen : Nat)
  deriving DecidableEq, Repr

/-- The text each abort logs. -/
def TcpAbort.message : TcpAbort → String
  | outOfRange => "runtime error: slice bounds out of range"
  | invalidMagicStart .request => "Invalid MAGIC_START in TCP request"
  | invalidMagicStart (.response w) => s!"Invalid MAGIC_START in TCP response from worker {w}\n"
  | invalidMagicStart (.additionalResponse w) =>
    s!"Invalid MAGIC_START in additional key TCP response from worker {w}\n"
  | lengthExceedsMax .request len => s!"TCP request length {len} exceeds max message size\n"
  | lengthExceedsMax (.response _) len => s!"TCP response length {len} exceeds max message size\n"
  | lengthExceedsMax (.additionalResponse _) len =>
    s!"Additional key TCP response length {len} exceeds max message size\n"
  | invalidMagicEnd .request => "Invalid MAGIC_END in TCP request"
  | invalidMagicEnd (.response w) => s!"Invalid MAGIC_END in TCP response from worker {w}\n"
  | invalidMagicEnd (.additionalResponse w) =>
    s!"Invalid MAGIC_END in additional key TCP response from worker {w}\n"
  | invalidNumberOfKeys numKeys stateID =>
    s!"Invalid number of keys {numKeys} for state {stateID} in TCP request\n"
  | unknownMessageType msgType => s!"Unknown TCP message type: {msgType}\n"
  | valueExceedsMax valLen => s!"Single value size {valLen} exceeds max TCP message payload\n"

/-! ## Writing a frame -/

/-- `binary.BigEndian.Put…(buf[bufOffset:], …)`. -/
def put (bytes buf : Bytes) : Outcome TcpAbort Bytes := Wire.put tcpMaxMessageSize .outOfRange bytes buf

/-- A key or value behind its length.  The `copy` of the bytes checks nothing: past the end of the buffer it
drops bytes, and the next `put` panics. -/
def putItem (buf item : Bytes) : Outcome TcpAbort Bytes := do
  let buf ← put (putUint32 item.length) buf
  pure (buf ++ item)

/-- Room for MAGIC_START and the length. -/
def reserveHeader : Bytes := List.replicate 8 0

/-- MAGIC_END, and the header at last. -/
def finishFrame (buf : Bytes) : Outcome TcpAbort Bytes := do
  let buf ← put (putUint32 magicEnd) buf
  let buf := Wire.patch 0 (putUint32 magicStart) buf
  pure (Wire.patch 4 (putUint32 (buf.length - 8)) buf)

/-- The frame of a body. -/
def frame (body : Bytes) : Bytes :=
  putUint32 magicStart ++ putUint32 (body.length + 4) ++ body ++ putUint32 magicEnd

@[simp] theorem length_frame (body : Bytes) : (frame body).length = body.length + 12 := by
  simp only [frame, List.length_append, Wire.length_putUint32]
  omega

variable {body : Bytes}

/-- **A body that fits is framed.** -/
theorem finishFrame_frame (h : (frame body).length ≤ tcpMaxMessageSize) :
    finishFrame (reserveHeader ++ body) = .ok (frame body) := by
  rw [length_frame] at h
  have hput : put (putUint32 magicEnd) (reserveHeader ++ body) = .ok (reserveHeader ++ body ++ putUint32 magicEnd) := by
    refine Wire.put_ok _ ?_
    simp only [reserveHeader, List.length_append, List.length_replicate, Wire.length_putUint32]
    omega
  have hstart : Wire.patch 0 (putUint32 magicStart) (reserveHeader ++ body ++ putUint32 magicEnd)
      = putUint32 magicStart ++ List.replicate 4 0 ++ (body ++ putUint32 magicEnd) := by
    have hsplit : reserveHeader ++ body ++ putUint32 magicEnd
        = [] ++ List.replicate 4 0 ++ (List.replicate 4 0 ++ (body ++ putUint32 magicEnd)) := by
      simp [reserveHeader]
    have hempty : ([] : Bytes).length = 0 := rfl
    have hword : (List.replicate 4 0 : Bytes).length = (putUint32 magicStart).length := rfl
    rw [hsplit, Wire.patch_append hempty hword, List.nil_append, List.append_assoc]
  have hlen : (putUint32 magicStart ++ List.replicate 4 0 ++ (body ++ putUint32 magicEnd)).length - 8
      = body.length + 4 := by
    simp only [List.length_append, List.length_replicate, Wire.length_putUint32]
    omega
  unfold finishFrame
  rw [hput, ok_bind]
  dsimp only
  rw [hstart, hlen, Wire.patch_append (by simp) (by simp), pure_eq_ok, frame]
  simp only [List.append_assoc]

theorem finishFrame_appends {writer : Bytes → Outcome TcpAbort Bytes}
    (hwriter : Wire.Appends tcpMaxMessageSize writer body) (h : (frame body).length ≤ tcpMaxMessageSize) :
    (writer reserveHeader >>= finishFrame) = .ok (frame body) := by
  have hroom := h
  rw [length_frame] at hroom
  rw [hwriter reserveHeader (by simp only [reserveHeader, List.length_replicate]; omega), ok_bind,
    finishFrame_frame h]

theorem putItem_appends (item : Bytes) :
    Wire.Appends tcpMaxMessageSize (fun buf => putItem buf item) (Wire.putSized item) :=
  Wire.Appends.bind (Wire.Appends.put _ _) (Wire.Appends.copy item)

/-! ## Reading a frame -/

/-- Read one frame off the connection: the body with its MAGIC_END.  The header stays in front of the body in the
read buffer, and the closing word is looked up from the end of the frame. -/
def readFrame (kind : FrameKind) (stream : Bytes) : Outcome TcpAbort (Bytes × Bytes) := do
  let (header, stream) ← Wire.recv 8 stream
  check (Wire.bigEndian (header.take 4) ≠ magicStart) (.invalidMagicStart kind)
  let len := Wire.bigEndian (header.drop 4)
  check (tcpMaxMessageSize - 8 < len) (.lengthExceedsMax kind len)
  let (body, stream) ← Wire.recv len stream
  check (Wire.bigEndian ((header ++ body).drop (4 + len)) ≠ magicEnd) (.invalidMagicEnd kind)
  pure (body, stream)

/-- **A frame is read exactly**, whatever follows it on the connection. -/
theorem readFrame_frame (kind : FrameKind) (h : (frame body).length ≤ tcpMaxMessageSize)
    (rest : Bytes) : readFrame kind (frame body ++ rest) = .ok (body ++ putUint32 magicEnd, rest) := by
  rw [length_frame] at h
  have hmax : tcpMaxMessageSize < 4294967296 := by decide
  have hsplit : frame body ++ rest
      = (putUint32 magicStart ++ putUint32 (body.length + 4)) ++ ((body ++ putUint32 magicEnd) ++ rest) := by
    simp only [frame, List.append_assoc]
  have hstart : ¬ Wire.bigEndian ((putUint32 magicStart ++ putUint32 (body.length + 4)).take 4) ≠ magicStart := by
    rw [List.take_left' (Wire.length_putUint32 _), Wire.bigEndian_putUint32]
    decide
  have hlen : Wire.bigEndian ((putUint32 magicStart ++ putUint32 (body.length + 4)).drop 4) = body.length + 4 := by
    rw [List.drop_left' (Wire.length_putUint32 _), Wire.bigEndian_putUint32, Nat.mod_eq_of_lt (by omega)]
  have hend : ¬ Wire.bigEndian ((putUint32 magicStart ++ putUint32 (body.length + 4)
      ++ (body ++ putUint32 magicEnd)).drop (4 + (body.length + 4))) ≠ magicEnd := by
    rw [← List.append_assoc, List.drop_left' (by simp; omega), Wire.bigEndian_putUint32]
    decide
  unfold readFrame
  rw [hsplit, Wire.recv_append (by simp), ok_bind]
  dsimp only
  rw [check_eq_ok hstart, ok_bind, hlen, check_eq_ok (by omega), ok_bind, Wire.recv_append (by simp), ok_bind]
  dsimp only
  rw [check_eq_ok hend, ok_bind]
  rfl

end StateComm
end Koala

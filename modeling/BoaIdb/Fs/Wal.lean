import BoaIdb.Core.Crc32c
import BoaIdb.Lib.ByteCodec

/-!
The write-ahead log of the filesystem backend, byte for byte: variable-length
integers, operations, frames, the packing of a transaction into frames, and the
recovery scan.
-/

namespace BoaIdb.Fs

open ByteCodec

/-- `CodecError`, without the numbers it only displays. -/
inductive CodecError
  | torn
  | badMagic
  | badCrc
  | payloadTooLarge (len : ℕ)
  | malformed (msg : String)
  deriving DecidableEq, Repr

/-- WAL operation kinds inside a frame payload. -/
inductive WalOp
  | put (store : StoreId) (key value : Bytes)
  | delete (store : StoreId) (key : Bytes)
  | clear (store : StoreId)
  | indexPut (index : IndexId) (idxKey primaryKey : Bytes)
  | indexDelete (index : IndexId) (idxKey primaryKey : Bytes)
  | keyGenSet (store : StoreId) (valueBits : F64Bits)
  | metaReplace (bytes : Bytes)
  deriving DecidableEq, Repr

structure WalFrame where
  txnSeq : UInt64
  flags : UInt8
  ops : List WalOp
  deriving DecidableEq, Repr

/-- Magic bytes `IWAL` as little-endian u32. -/
def walMagic : ℕ := 0x4C415749

/-- Frame continues a multi-frame transaction. -/
def flagContinues : UInt8 := 0x01

/-- Frame commits a transaction, alone or as the last of a chain. -/
def flagCommit : UInt8 := 0x02

/-- Maximum accepted frame payload length (64 MiB). -/
def maxFramePayloadLimit : ℕ := 64 * 1024 * 1024

/-! ### Variable-length integers -/

/-- Low groups of seven bits first, the high bit set on all but the last byte; a
64-bit value has at most ten groups. -/
def writeVarintLoop : ℕ → ℕ → Bytes
  | 0, _ => []
  | passes + 1, v =>
      if v / 128 ≠ 0 then UInt8.ofNat (v % 128 + 128) :: writeVarintLoop passes (v / 128)
      else [UInt8.ofNat (v % 128)]

def writeVarint (v : UInt64) : Bytes := writeVarintLoop 10 v.toNat

/-- The shifted group is a `u64`: bits pushed past the top are lost. -/
def readVarintLoop (shift result : ℕ) : Bytes → Except CodecError (ℕ × Bytes)
  | [] => .error (.malformed "truncated varint")
  | b :: rest =>
      if 64 ≤ shift then .error (.malformed "varint overflow")
      else
        let result := result ||| (((b.toNat % 128) <<< shift) % 2 ^ 64)
        if b.toNat < 128 then .ok (result, rest)
        else readVarintLoop (shift + 7) result rest

def readVarint : Parser CodecError UInt64 := fun input =>
  (readVarintLoop 0 0 input).map (fun r => (UInt64.ofNat r.1, r.2))

def writeBytes (bytes : Bytes) : Bytes :=
  writeVarint (UInt64.ofNat bytes.length) ++ bytes

def readBytes : Parser CodecError Bytes := do
  let len ← readVarint
  take len.toNat (.malformed "truncated bytes")

/-! ### Operations -/

def encodeOp : WalOp → Bytes
  | .put store key value => 1 :: (writeVarint store ++ (writeBytes key ++ writeBytes value))
  | .delete store key => 2 :: (writeVarint store ++ writeBytes key)
  | .clear store => 3 :: writeVarint store
  | .indexPut index idxKey primaryKey =>
      4 :: (writeVarint index ++ (writeBytes idxKey ++ writeBytes primaryKey))
  | .indexDelete index idxKey primaryKey =>
      5 :: (writeVarint index ++ (writeBytes idxKey ++ writeBytes primaryKey))
  | .keyGenSet store valueBits => 6 :: (writeVarint store ++ littleEndian 8 valueBits.toNat)
  | .metaReplace bytes => 7 :: writeBytes bytes

/-- The body of one operation, by its kind byte. -/
def decodeOpBody (kind : UInt8) : Parser CodecError WalOp :=
  match kind.toNat with
  | 1 => do
      let store ← readVarint
      let key ← readBytes
      let value ← readBytes
      pure (.put store key value)
  | 2 => do
      let store ← readVarint
      let key ← readBytes
      pure (.delete store key)
  | 3 => do
      let store ← readVarint
      pure (.clear store)
  | 4 => do
      let index ← readVarint
      let idxKey ← readBytes
      let primaryKey ← readBytes
      pure (.indexPut index idxKey primaryKey)
  | 5 => do
      let index ← readVarint
      let idxKey ← readBytes
      let primaryKey ← readBytes
      pure (.indexDelete index idxKey primaryKey)
  | 6 => do
      let store ← readVarint
      let bits ← take 8 (.malformed "keygen bits")
      pure (.keyGenSet store (UInt64.ofNat (ofLittleEndian bits)))
  | 7 => do
      let bytes ← readBytes
      pure (.metaReplace bytes)
  | _ => throw (.malformed "unknown op kind")

def decodeOp : Parser CodecError WalOp := do
  let kind ← take 1 (.malformed "truncated ops")
  decodeOpBody (kind.headD 0)

/-- The operations of a payload; all of it must be used. -/
def decodeOps (payload : Bytes) : Except CodecError (List WalOp) := do
  let (ops, rest) ← (do
    let count ← readVarint
    times decodeOp count.toNat).run payload
  if rest.isEmpty then .ok ops else .error (.malformed "trailing payload bytes")

/-- The payload of a frame: the operation count, then the operations. -/
def encodeOps (ops : List WalOp) : Bytes :=
  writeVarint (UInt64.ofNat ops.length) ++ ops.flatMap encodeOp

/-! ### Frames -/

/-- Magic, payload length, sequence, flags and payload: what the checksum covers. -/
def frameBody (frame : WalFrame) : Bytes :=
  littleEndian 4 walMagic ++ littleEndian 4 (encodeOps frame.ops).length ++
    littleEndian 8 frame.txnSeq.toNat ++ [frame.flags] ++ encodeOps frame.ops

def encodeFrameLimited (frame : WalFrame) (maxPayload : ℕ) : Except CodecError Bytes :=
  if maxPayload < (encodeOps frame.ops).length then
    .error (.payloadTooLarge (encodeOps frame.ops).length)
  else .ok (frameBody frame ++ littleEndian 4 (crc32c (frameBody frame)).toNat)

/-- Decodes the next frame, with the bytes it used; `none` on a clean end. -/
def decodeFrame (input : Bytes) : Except CodecError (Option (WalFrame × ℕ)) :=
  if input.isEmpty then .ok none
  else if input.length < 4 + 4 + 8 + 1 + 4 then .error .torn
  else if ofLittleEndian (input.take 4) ≠ walMagic then .error .badMagic
  else
    let len := ofLittleEndian ((input.drop 4).take 4)
    if maxFramePayloadLimit < len then .error (.payloadTooLarge len)
    else
      let headerAndPayload := 4 + 4 + 8 + 1 + len
      let total := headerAndPayload + 4
      if input.length < total then .error .torn
      else
        let body := input.take headerAndPayload
        let expected := ofLittleEndian ((input.drop headerAndPayload).take 4)
        if expected ≠ (crc32c body).toNat then .error .badCrc
        else
          let txnSeq := UInt64.ofNat (ofLittleEndian ((input.drop 8).take 8))
          let flags := ((input.drop 16).take 1).headD 0
          match decodeOps ((input.drop 17).take len) with
          | .error e => .error e
          | .ok ops => .ok (some (⟨txnSeq, flags, ops⟩, total))

/-! ### Packing a transaction

An operation joins the current group when the payload with it still fits; one that
does not fit alone fails the whole transaction. -/

/-- LEB128 length of `write_varint(v)`. -/
def varintLenLoop : ℕ → ℕ → ℕ
  | 0, _ => 1
  | passes + 1, v => if 128 ≤ v then varintLenLoop passes (v / 128) + 1 else 1

def varintLen (v : UInt64) : ℕ := varintLenLoop 9 v.toNat

def bytesLen (bytes : Bytes) : ℕ :=
  varintLen (UInt64.ofNat bytes.length) + bytes.length

/-- Exact encoded length of one op. -/
def opEncodedLen : WalOp → ℕ
  | .put store key value => 1 + varintLen store + bytesLen key + bytesLen value
  | .delete store key => 1 + varintLen store + bytesLen key
  | .clear store => 1 + varintLen store
  | .indexPut index idxKey primaryKey | .indexDelete index idxKey primaryKey =>
      1 + varintLen index + bytesLen idxKey + bytesLen primaryKey
  | .keyGenSet store _ => 1 + varintLen store + 8
  | .metaReplace bytes => 1 + bytesLen bytes

/-- The groups so far, the current group and its encoded length. -/
def packOps (max : ℕ) : List WalOp → List (List WalOp) → List WalOp → ℕ →
    Except CodecError (List (List WalOp))
  | [], groups, current, _ => .ok (if current.isEmpty then groups else groups ++ [current])
  | op :: ops, groups, current, currentLen =>
      let opLen := opEncodedLen op
      if current.isEmpty then
        if max < opLen + 1 then .error (.payloadTooLarge (opLen + 1))
        else packOps max ops groups [op] opLen
      else if currentLen + opLen + varintLen (UInt64.ofNat (current.length + 1)) ≤ max then
        packOps max ops groups (current ++ [op]) (currentLen + opLen)
      else if max < opLen + 1 then .error (.payloadTooLarge (opLen + 1))
      else packOps max ops (groups ++ [current]) [op] opLen

/-- The frames of a transaction: all but the last continue, the last commits. -/
def chainFrames (txnSeq : UInt64) : List (List WalOp) → List WalFrame
  | [] => []
  | [group] => [⟨txnSeq, flagCommit, group⟩]
  | group :: groups => ⟨txnSeq, flagContinues, group⟩ :: chainFrames txnSeq groups

def encodeFrames (maxPayload : ℕ) : List WalFrame → Except CodecError (List Bytes)
  | [] => .ok []
  | frame :: frames => do
      let bytes ← encodeFrameLimited frame maxPayload
      let rest ← encodeFrames maxPayload frames
      .ok (bytes :: rest)

def encodeTxnFramesLimited (txnSeq : UInt64) (ops : List WalOp) (maxPayload : ℕ) :
    Except CodecError (List Bytes) :=
  if ops.isEmpty then .ok []
  else do
    let groups ← packOps maxPayload ops [] [] 0
    encodeFrames maxPayload (chainFrames txnSeq groups)

/-! ### Recovery -/

/-- Result of WAL prefix recovery. -/
structure RecoveredWal where
  frames : List WalFrame
  validPrefixLen : ℕ
  deriving DecidableEq, Repr

/-- The scan's variables: the offset, the committed frames, and the open chain with
its sequence number. -/
structure Scan where
  offset : ℕ
  committed : List WalFrame
  pending : List WalFrame
  pendingSeq : Option UInt64
  validPrefix : ℕ

def Scan.start : Scan := ⟨0, [], [], none, 0⟩

def Scan.result (s : Scan) : RecoveredWal := ⟨s.committed, s.validPrefix⟩

/-- One decoded frame; `none` stops the scan. -/
def Scan.frame (s : Scan) (frame : WalFrame) (consumed : ℕ) : Option Scan :=
  let next := s.offset + consumed
  if frame.flags ≠ flagCommit ∧ frame.flags ≠ flagContinues then none
  else match s.pendingSeq with
    | none =>
        if frame.flags = flagCommit then
          some { s with offset := next, committed := s.committed ++ [frame], validPrefix := next }
        else
          some { s with
            offset := next, pendingSeq := some frame.txnSeq, pending := s.pending ++ [frame] }
    | some seq =>
        if frame.txnSeq ≠ seq then none
        else if frame.flags = flagContinues then
          some { s with offset := next, pending := s.pending ++ [frame] }
        else
          some ⟨next, s.committed ++ (s.pending ++ [frame]), [], none, next⟩

/-- The scan over the bytes from the offset on; every frame uses some. -/
def recoverLoop : ℕ → Bytes → Scan → RecoveredWal
  | 0, _, s => s.result
  | fuel + 1, input, s =>
      match decodeFrame input with
      | .ok (some (frame, consumed)) =>
          match s.frame frame consumed with
          | some s => recoverLoop fuel (input.drop consumed) s
          | none => s.result
      | .ok none => s.result
      | .error _ => s.result

/-- Only complete committed transactions; defective bytes are never skipped. -/
def recoverCommittedFrames (buf : Bytes) : RecoveredWal :=
  recoverLoop buf.length buf .start

end BoaIdb.Fs

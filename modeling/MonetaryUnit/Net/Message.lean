/-
# MonetaryUnit.Net.Message — messages between nodes

A message is a header of 24 bytes, with the size and a checksum of the payload, and then the
payload (`protocol.h`). `CNode::BeginMessage` and `EndMessage` build it in the send buffer of
a connection; `CNode::ReceiveMsgBytes` takes the bytes of a connection apart as they come in,
in pieces of any length (`net.cpp`).

The time stamps, the logging and the debugging options of `EndMessage` are left out.
-/

import MonetaryUnit.Serialize.Wire

namespace MonetaryUnit

open Lib List

/-- The longest message a node accepts. -/
def maxProtocolMessageLength : Nat := 4 * 1024 * 1024

/-- `memcpy` into a buffer at a position. -/
def memcpyAt (buf : Bytes) (pos : Nat) (src : Bytes) : Bytes :=
  buf.take pos ++ src ++ buf.drop (pos + src.length)

/-! ## Headers -/

/-- The four bytes a network starts its messages with. -/
abbrev MessageStart := { b : Bytes // b.length = 4 }

/-- The main network's. -/
def mainMessageStart : MessageStart := ⟨[0x04, 0x05, 0x05, 0x04], rfl⟩

structure CMessageHeader where
  pchMessageStart : Bytes
  pchCommand : Bytes
  nMessageSize : UInt32
  nChecksum : UInt32
deriving DecidableEq, Repr

namespace CMessageHeader

def headerSize : Nat := 24
def messageSizeOffset : Nat := 16
def checksumOffset : Nat := 20

/-- `strncpy` into a field of twelve zeros. -/
def commandField (pszCommand : Bytes) : Bytes :=
  pszCommand.take 12 ++ List.replicate (12 - pszCommand.length) 0

def ofCommand (start : MessageStart) (pszCommand : Bytes) (nMessageSizeIn : UInt32) :
    CMessageHeader where
  pchMessageStart := start.1
  pchCommand := commandField pszCommand
  nMessageSize := nMessageSizeIn
  nChecksum := 0

def serialize (h : CMessageHeader) : Writes :=
  [h.pchMessageStart, h.pchCommand] ++ serializeUint32 h.nMessageSize ++ serializeUint32 h.nChecksum

end CMessageHeader

def readMessageHeader : Reader CMessageHeader := do
  let pchMessageStart ← readBytes endOfData 4
  let pchCommand ← readBytes endOfData 12
  let nMessageSize ← readUint32
  let nChecksum ← readUint32
  pure ⟨pchMessageStart, pchCommand, nMessageSize, nChecksum⟩

/-! ## Sending -/

def beginMessage (start : MessageStart) (pszCommand : Bytes) : Bytes :=
  (CMessageHeader.ofCommand start pszCommand 0).serialize.bytes

/-- The size and the first four bytes of the payload's hash are written over the header. -/
def endMessage (hash256 : Bytes → Uint256) (ssSend : Bytes) : Bytes :=
  let nSize := UInt32.ofNat (ssSend.length - CMessageHeader.headerSize)
  let ssSend := memcpyAt ssSend CMessageHeader.messageSizeOffset (leBytes 4 nSize.toNat)
  let hash := hash256 (ssSend.drop CMessageHeader.headerSize)
  let nChecksum := UInt32.ofNat hash.toNat
  memcpyAt ssSend CMessageHeader.checksumOffset (leBytes 4 nChecksum.toNat)

/-- The header, the payload, then its size and checksum. -/
def pushMessage (hash256 : Bytes → Uint256) (start : MessageStart) (pszCommand payload : Bytes) :
    Bytes :=
  endMessage hash256 (beginMessage start pszCommand ++ payload)

/-- "block" -/
def blockCommand : Bytes := [0x62, 0x6c, 0x6f, 0x63, 0x6b]

/-! ## Receiving -/

/-- A message that is being received. -/
structure CNetMessage where
  in_data : Bool
  hdrbuf : Bytes
  hdr : CMessageHeader
  nHdrPos : Nat
  vRecv : Bytes
  nDataPos : Nat
deriving DecidableEq, Repr

namespace CNetMessage

/-- The constructor; the header is that of `CMessageHeader()`. -/
def empty (start : MessageStart) : CNetMessage where
  in_data := false
  hdrbuf := List.replicate 24 0
  hdr := CMessageHeader.ofCommand start [] 0xFFFFFFFF
  nHdrPos := 0
  vRecv := []
  nDataPos := 0

def complete (m : CNetMessage) : Bool := m.in_data && m.hdr.nMessageSize.toNat == m.nDataPos

/-- `readHeader`: the number of bytes taken, or `none` for the result -1. -/
def readHeader (m : CNetMessage) (pch : Bytes) : Option (Nat × CNetMessage) :=
  let nCopy := min (24 - m.nHdrPos) pch.length
  let m := { m with
    hdrbuf := memcpyAt m.hdrbuf m.nHdrPos (pch.take nCopy), nHdrPos := m.nHdrPos + nCopy }
  if m.nHdrPos < 24 then some (nCopy, m)
  else
    match readMessageHeader m.hdrbuf with
    | .error _ => none
    | .ok (hdr, rest) =>
      if maxSize < hdr.nMessageSize.toNat then none
      else some (nCopy, { m with hdrbuf := rest, hdr := hdr, in_data := true })

/-- The buffer grows by 256 KiB at a time, and not past the size of the message. -/
def growFor (m : CNetMessage) (needed : Nat) : Bytes :=
  if m.vRecv.length < needed then
    m.vRecv ++ List.replicate
      (min m.hdr.nMessageSize.toNat (needed + 256 * 1024) - m.vRecv.length) 0
  else m.vRecv

def readData (m : CNetMessage) (pch : Bytes) : Option (Nat × CNetMessage) :=
  let nCopy := min (m.hdr.nMessageSize.toNat - m.nDataPos) pch.length
  some (nCopy, { m with
    vRecv := memcpyAt (m.growFor (m.nDataPos + nCopy)) m.nDataPos (pch.take nCopy),
    nDataPos := m.nDataPos + nCopy })

/-- The header first, then the data. -/
def absorb (m : CNetMessage) (pch : Bytes) : Option (Nat × CNetMessage) :=
  if !m.in_data then m.readHeader pch else m.readData pch

end CNetMessage

section Receive

variable (start : MessageStart)

/-- The messages before the current one, and the current one: the last message if it is not
complete, else a new one. -/
def currentMessage (vRecvMsg : List CNetMessage) : List CNetMessage × CNetMessage :=
  match vRecvMsg.getLast? with
  | some msg =>
    if msg.complete then (vRecvMsg, CNetMessage.empty start) else (vRecvMsg.dropLast, msg)
  | none => ([], CNetMessage.empty start)

/-- One round of the loop: the number of bytes handled, or `none` where it returns false. -/
def receiveStep (pch : Bytes) (vRecvMsg : List CNetMessage) : Option (Nat × List CNetMessage) :=
  match (currentMessage start vRecvMsg).2.absorb pch with
  | none => none
  | some (handled, msg) =>
    if msg.in_data && maxProtocolMessageLength < msg.hdr.nMessageSize.toNat then none
    else some (handled, (currentMessage start vRecvMsg).1 ++ [msg])

/-- Every round handles at least one byte. -/
def receiveLoop : Nat → Bytes → List CNetMessage → Option (List CNetMessage)
  | 0, _, vRecvMsg => some vRecvMsg
  | fuel + 1, pch, vRecvMsg =>
    if pch.isEmpty then some vRecvMsg
    else
      match receiveStep start pch vRecvMsg with
      | none => none
      | some (handled, vRecvMsg') => receiveLoop fuel (pch.drop handled) vRecvMsg'

/-- `ReceiveMsgBytes`, with `none` where it returns false and the peer is disconnected. -/
def receiveMsgBytes (vRecvMsg : List CNetMessage) (pch : Bytes) : Option (List CNetMessage) :=
  receiveLoop start pch.length pch vRecvMsg

/-- The calls a connection makes, one after the other. -/
def receiveAll (vRecvMsg : List CNetMessage) (cuts : List Bytes) : Option (List CNetMessage) :=
  cuts.foldlM (receiveMsgBytes start) vRecvMsg

end Receive

/-! ## What is sent -/

theorem CMessageHeader.length_commandField (c : Bytes) : (commandField c).length = 12 := by
  simp only [commandField, length_append, length_take, length_replicate]
  omega

/-- The header of a finished message. -/
def sentHeader (hash256 : Bytes → Uint256) (start : MessageStart) (pszCommand payload : Bytes) :
    CMessageHeader where
  pchMessageStart := start.1
  pchCommand := CMessageHeader.commandField pszCommand
  nMessageSize := UInt32.ofNat payload.length
  nChecksum := UInt32.ofNat (hash256 payload).toNat

theorem CMessageHeader.serialize_bytes (h : CMessageHeader) : h.serialize.bytes =
    h.pchMessageStart ++ h.pchCommand ++ leBytes 4 h.nMessageSize.toNat ++
      leBytes 4 h.nChecksum.toNat := by
  simp [CMessageHeader.serialize, Writes.bytes, serializeUint32]

/-- Copying over the middle part of a buffer. -/
theorem memcpyAt_append {a b c src : Bytes} {pos : Nat} (hpos : a.length = pos)
    (h : src.length = b.length) : memcpyAt (a ++ (b ++ c)) pos src = a ++ (src ++ c) := by
  subst hpos
  rw [memcpyAt, take_left, h, ← drop_drop, drop_left, drop_left, append_assoc]

theorem pushMessage_eq (hash256 : Bytes → Uint256) (start : MessageStart)
    (pszCommand payload : Bytes) :
    pushMessage hash256 start pszCommand payload =
      (sentHeader hash256 start pszCommand payload).serialize.bytes ++ payload := by
  have hfront : (start.1 ++ CMessageHeader.commandField pszCommand).length =
      CMessageHeader.messageSizeOffset := by
    rw [length_append, start.2, CMessageHeader.length_commandField]
    rfl
  rw [pushMessage, beginMessage, CMessageHeader.serialize_bytes, CMessageHeader.serialize_bytes]
  simp only [CMessageHeader.ofCommand, sentHeader]
  generalize start.1 ++ CMessageHeader.commandField pszCommand = front at hfront
  simp only [append_assoc, UInt32.toNat_zero]
  have hpayload : ∀ size : Bytes, size.length = 4 →
      (front ++ (size ++ (leBytes 4 0 ++ payload))).drop CMessageHeader.headerSize = payload := by
    intro size hsize
    rw [← append_assoc, ← append_assoc]
    refine drop_left' ?_
    rw [length_append, length_append, hfront, hsize, leBytes_length]
    rfl
  have hsize : (front ++ (leBytes 4 0 ++ (leBytes 4 0 ++ payload))).length -
      CMessageHeader.headerSize = payload.length := by
    rw [← length_drop, hpayload _ (leBytes_length _ _)]
  have hoffset : (front ++ leBytes 4 (UInt32.ofNat payload.length).toNat).length =
      CMessageHeader.checksumOffset := by
    rw [length_append, hfront, leBytes_length]
    rfl
  -- first the size is written, then the checksum over what the size left untouched
  simp only [endMessage, hsize]
  rw [memcpyAt_append hfront (by simp only [leBytes_length]), hpayload _ (leBytes_length _ _),
    ← append_assoc front, memcpyAt_append hoffset (by simp only [leBytes_length]), append_assoc]

end MonetaryUnit

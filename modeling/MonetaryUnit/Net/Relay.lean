/-
# MonetaryUnit.Net.Relay — which messages get through

A message that one node builds is received by another in pieces. However the bytes are cut,
the receiver ends up with one complete message that holds the payload if and only if the
payload is at most `MAX_PROTOCOL_MESSAGE_LENGTH` bytes long (`blockMessage_received_iff`).

`CheckBlock` allows longer blocks than that, and so does the block assembler with its default
options: `oversizeBlock_disconnects`.

The induction follows the receiver through the bytes of the message: `Received k` is the state
of the current message after `k` of them.
-/

import MonetaryUnit.Net.Message
import MonetaryUnit.Serialize.Canonical
import MonetaryUnit.Validation.CheckBlock

namespace MonetaryUnit

open Lib List CTransaction Writes CNetMessage CMessageHeader Nat Bool

/-! ## The header is read back -/

/-- The fixed fields have the lengths they have in memory. -/
structure CMessageHeader.Fits (h : CMessageHeader) : Prop where
  start : h.pchMessageStart.length = 4
  command : h.pchCommand.length = 12

theorem CMessageHeader.Fits.length_bytes {h : CMessageHeader} (hf : h.Fits) :
    h.serialize.bytes.length = 24 := by
  rw [serialize_bytes]
  simp [hf.start, hf.command, leBytes_length]

theorem readMessageHeader_serialize {h : CMessageHeader} (hf : h.Fits) :
    readMessageHeader h.serialize.bytes = .ok (h, []) := by
  have hbytes : h.serialize.bytes = h.pchMessageStart ++ (h.pchCommand ++
      ((serializeUint32 h.nMessageSize).bytes ++ ((serializeUint32 h.nChecksum).bytes ++ []))) := by
    simp [CMessageHeader.serialize, Writes.bytes]
  rw [hbytes, readMessageHeader, (canonical_readBytes endOfData 4).bind_eq hf.start,
    (canonical_readBytes endOfData 12).bind_eq hf.command, canonical_readUint32.bind_eq trivial,
    canonical_readUint32.bind_eq trivial]
  rfl

theorem sentHeader_fits (hash256 : Bytes → Uint256) (start : MessageStart)
    (pszCommand payload : Bytes) : (sentHeader hash256 start pszCommand payload).Fits :=
  ⟨start.2, length_commandField pszCommand⟩

theorem sentHeader_size (hash256 : Bytes → Uint256) (start : MessageStart) (pszCommand : Bytes)
    {payload : Bytes} (h : payload.length < 2 ^ 32) :
    (sentHeader hash256 start pszCommand payload).nMessageSize.toNat = payload.length :=
  UInt32.toNat_ofNat_of_lt h

/-! ## One message, byte by byte -/

/-- Copying the next bytes of `src` behind those that are there already. -/
theorem take_memcpyAt (buf src : Bytes) (pos n : Nat) (hlen : pos + n ≤ buf.length)
    (hn : pos + n ≤ src.length) (h : buf.take pos = src.take pos) :
    (memcpyAt buf pos ((src.drop pos).take n)).take (pos + n) = src.take (pos + n) ∧
      (memcpyAt buf pos ((src.drop pos).take n)).length = buf.length := by
  have hpos : (buf.take pos).length = pos := by
    rw [length_take]
    omega
  have hcopied : ((src.drop pos).take n).length = n := by
    rw [length_take, length_drop]
    omega
  unfold memcpyAt
  constructor
  · rw [take_append_of_le_length (by rw [length_append, hpos, hcopied]),
      take_of_length_le (by rw [length_append, hpos, hcopied]), h, take_add]
  · simp only [length_append, hpos, hcopied, length_drop]
    omega

/-- The current message after `k` bytes of a message with this header and payload. -/
inductive Received (hdr : CMessageHeader) (payload : Bytes) : Nat → CNetMessage → Prop
  | header {k : Nat} {m : CNetMessage} (lt : k < 24) (in_data : m.in_data = false)
      (pos : m.nHdrPos = k) (length : m.hdrbuf.length = 24)
      (bytes : m.hdrbuf.take k = hdr.serialize.bytes.take k) (vRecv : m.vRecv = [])
      (nDataPos : m.nDataPos = 0) : Received hdr payload k m
  | data {n : Nat} {m : CNetMessage} (le : n ≤ payload.length) (in_data : m.in_data = true)
      (hdr_eq : m.hdr = hdr) (pos : m.nDataPos = n) (le_length : n ≤ m.vRecv.length)
      (length_le : m.vRecv.length ≤ payload.length)
      (bytes : m.vRecv.take n = payload.take n) : Received hdr payload (24 + n) m

variable {cuts : List Bytes} {fuel : Nat}

section Run

variable {start : MessageStart} {hdr : CMessageHeader} {payload : Bytes}

theorem received_empty : Received hdr payload 0 (empty start) :=
  .header (by decide) rfl rfl (by simp [empty]) rfl rfl rfl

variable {k n : Nat} {m : CNetMessage} {c : Bytes} {done msgs : List CNetMessage}

theorem Received.not_complete (h : Received hdr payload k m)
    (hsize : hdr.nMessageSize.toNat = payload.length) (hk : k < 24 + payload.length) :
    m.complete = false := by
  cases h with
  | header lt in_data => simp [complete, in_data]
  | @data n _ le in_data hdr_eq pos =>
    simp only [complete, in_data, hdr_eq, hsize, pos, Bool.true_and, beq_eq_false_iff_ne]
    omega

/-- At the end the message is complete and its data is the payload. -/
theorem Received.complete (h : Received hdr payload (24 + payload.length) m)
    (hsize : hdr.nMessageSize.toNat = payload.length) :
    m.complete = true ∧ m.hdr = hdr ∧ m.vRecv = payload := by
  generalize hk : 24 + payload.length = k at h
  cases h with
  | header lt => omega
  | @data n _ le in_data hdr_eq pos le_length length_le bytes =>
    obtain rfl : n = payload.length := by omega
    refine ⟨?_, hdr_eq, ?_⟩
    · simp [CNetMessage.complete, in_data, hdr_eq, hsize, pos]
    · rwa [take_of_length_le length_le, take_of_length_le le_rfl] at bytes

/-- The bytes of the message from position `k` on, cut off after `c`. -/
def IsNext (hdr : CMessageHeader) (payload : Bytes) (k : Nat) (c : Bytes) : Prop :=
  ∃ before after, before.length = k ∧ hdr.serialize.bytes ++ payload = before ++ c ++ after

section

variable (h : IsNext hdr payload k c)
include h

theorem IsNext.length_le (hf : hdr.Fits) : k + c.length ≤ 24 + payload.length := by
  obtain ⟨before, after, rfl, heq⟩ := h
  have := congrArg length heq
  simp only [length_append, hf.length_bytes] at this
  omega

theorem IsNext.drop (hn : n ≤ c.length) : IsNext hdr payload (k + n) (c.drop n) := by
  obtain ⟨before, after, rfl, heq⟩ := h
  refine ⟨before ++ c.take n, after, by simp [hn], ?_⟩
  rw [heq]
  simp [append_assoc]

theorem IsNext.take_eq (hn : n ≤ c.length) :
    c.take n = ((hdr.serialize.bytes ++ payload).drop k).take n := by
  obtain ⟨before, after, rfl, heq⟩ := h
  rw [heq, append_assoc, drop_left, take_append_of_le_length hn]

/-- The next bytes that belong to the header. -/
theorem IsNext.take_header (hf : hdr.Fits) (hn : n ≤ c.length) (hk : k + n ≤ 24) :
    c.take n = (hdr.serialize.bytes.drop k).take n := by
  have hlen := hf.length_bytes
  rw [h.take_eq hn, drop_append_of_le_length (by omega), take_append_of_le_length]
  rw [length_drop]
  omega

end

/-- The next bytes that belong to the payload. -/
theorem IsNext.take_payload (hf : hdr.Fits) (h : IsNext hdr payload (24 + k) c)
    (hn : n ≤ c.length) : c.take n = (payload.drop k).take n := by
  rw [h.take_eq hn, ← hf.length_bytes, drop_length_add_append]

theorem Received.hdr_eq (h : Received hdr payload k m) (hin : m.in_data = true) : m.hdr = hdr := by
  cases h with
  | header lt in_data =>
    rw [in_data] at hin
    cases hin
  | data le in_data hdr_eq => exact hdr_eq

theorem currentMessage_append (h : m.complete = false) :
    currentMessage start (done ++ [m]) = (done, m) := by
  simp [currentMessage, h]

/-- Nothing is pending: the next byte starts a new message. -/
def Settled (done : List CNetMessage) : Prop := ∀ m, done.getLast? = some m → m.complete = true

theorem currentMessage_settled (h : Settled done) :
    currentMessage start done = (done, empty start) := by
  unfold currentMessage
  cases hl : done.getLast? with
  | none =>
    rw [getLast?_eq_none_iff] at hl
    rw [hl]
  | some m => simp [h m hl]

/-! ## One round -/

section

variable (hf : hdr.Fits) (hsize : hdr.nMessageSize.toNat = payload.length)
include hf hsize

/-- The header is not complete after this round, or it is and its size decides. -/
theorem readHeader_step (hmax : payload.length ≤ maxSize) (h : Received hdr payload k m)
    (hk : k < 24) (hc : c ≠ []) (hnext : IsNext hdr payload k c) :
    ∃ n m', m.absorb c = some (n, m') ∧ 1 ≤ n ∧ n ≤ c.length ∧ Received hdr payload (k + n) m' ∧
      (m'.in_data = true ↔ 24 ≤ k + n) ∧ (24 ≤ k + c.length → 24 ≤ k + n) := by
  have hpos := length_pos_iff.mpr hc
  generalize hk' : k = k' at h
  cases h with
  | @data n => omega
  | header lt in_data pos length bytes vRecv nDataPos =>
    subst hk'
    set n := min (24 - k) c.length with hn
    have hcopy := hnext.take_header hf (n := n) (by omega) (by omega)
    obtain ⟨htake, hlen⟩ := take_memcpyAt m.hdrbuf hdr.serialize.bytes k n (by omega)
      (by rw [hf.length_bytes]; omega) bytes
    rw [← hcopy] at htake hlen
    by_cases hend : k + n < 24
    · refine ⟨n, { m with hdrbuf := memcpyAt m.hdrbuf k (c.take n), nHdrPos := k + n }, ?_,
        by omega, by omega, .header hend in_data rfl (by rw [hlen, length]) htake vRecv nDataPos,
        ?_, by omega⟩
      · simp only [absorb, in_data, Bool.not_false, if_true, readHeader, pos, ← hn, hend]
      · simp only [in_data]
        constructor
        · exact nofun
        · omega
    · have hfull : k + n = 24 := by omega
      have hbuf : memcpyAt m.hdrbuf k (c.take n) = hdr.serialize.bytes := by
        calc memcpyAt m.hdrbuf k (c.take n) = (memcpyAt m.hdrbuf k (c.take n)).take (k + n) :=
              (take_of_length_le (by omega)).symm
          _ = hdr.serialize.bytes.take (k + n) := htake
          _ = hdr.serialize.bytes := take_of_length_le (by rw [hf.length_bytes, hfull])
      have hnot : ¬ maxSize < hdr.nMessageSize.toNat := by omega
      refine ⟨n, { m with hdrbuf := [], hdr := hdr, in_data := true, nHdrPos := k + n }, ?_,
        by omega, by omega, ?_, by simp [hfull], by omega⟩
      · simp only [absorb, in_data, Bool.not_false, if_true, readHeader,
          pos, ← hn, hend, if_false, hbuf, readMessageHeader_serialize hf, hnot]
      · rw [hfull]
        exact .data (n := 0) (by omega) rfl rfl nDataPos (by omega) (by simp [vRecv]) rfl

theorem readData_step (h : Received hdr payload (24 + n) m) (hc : c ≠ [])
    (hnext : IsNext hdr payload (24 + n) c) :
    ∃ k m', m.absorb c = some (k, m') ∧ 1 ≤ k ∧ k ≤ c.length ∧
      Received hdr payload (24 + n + k) m' := by
  have hpos := length_pos_iff.mpr hc
  have hle := hnext.length_le hf
  generalize hn' : 24 + n = k' at h
  cases h with
  | header lt => omega
  | @data n' _ le in_data hdr_eq pos le_length length_le bytes =>
    obtain rfl : n' = n := by omega
    -- all of `c` belongs to the payload
    have hk : min (hdr.nMessageSize.toNat - n') c.length = c.length := by omega
    have hcopy := hnext.take_payload hf (n := c.length) le_rfl
    set buf := m.growFor (n' + c.length) with hbuf
    have hgrow : n' + c.length ≤ buf.length ∧ buf.length ≤ payload.length ∧
        buf.take n' = payload.take n' := by
      rw [hbuf, growFor, hdr_eq]
      split
      · refine ⟨?_, ?_, ?_⟩
        · rw [length_append, length_replicate]
          omega
        · rw [length_append, length_replicate]
          omega
        · rw [take_append_of_le_length le_length, bytes]
      · exact ⟨by omega, length_le, bytes⟩
    obtain ⟨htake, hlen⟩ := take_memcpyAt buf payload n' c.length hgrow.1 (by omega) hgrow.2.2
    rw [← hcopy, take_length] at htake hlen
    refine ⟨c.length, { m with vRecv := memcpyAt buf n' c, nDataPos := n' + c.length }, ?_,
      by omega, le_rfl, ?_⟩
    · simp only [absorb, in_data, Bool.not_true, Bool.false_eq_true, if_false,
        readData, pos, hdr_eq, hk, take_length, ← hbuf]
    · rw [add_assoc]
      exact .data (by omega) in_data hdr_eq rfl (by rw [hlen]; omega) (by rw [hlen]; omega) htake

theorem absorb_step (hmax : payload.length ≤ maxSize) (h : Received hdr payload k m) (hc : c ≠ [])
    (hnext : IsNext hdr payload k c) :
    ∃ n m', m.absorb c = some (n, m') ∧ 1 ≤ n ∧ n ≤ c.length ∧ Received hdr payload (k + n) m' := by
  rcases lt_or_ge k 24 with hk | hk
  · obtain ⟨n, m', habs, hpos, hle, hrec, -, -⟩ := readHeader_step hf hsize hmax h hk hc hnext
    exact ⟨n, m', habs, hpos, hle, hrec⟩
  · obtain ⟨n, rfl⟩ := Nat.exists_eq_add_of_le hk
    exact readData_step hf hsize h hc hnext

/-! ## Whole calls -/

theorem receiveLoop_received (hmax : payload.length ≤ maxProtocolMessageLength)
    (hfuel : c.length ≤ fuel) (hc : c ≠ []) (hcur : currentMessage start msgs = (done, m))
    (h : Received hdr payload k m) (hnext : IsNext hdr payload k c) :
    ∃ m', receiveLoop start fuel c msgs = some (done ++ [m']) ∧
      Received hdr payload (k + c.length) m' := by
  have hmax' : payload.length ≤ maxSize := hmax.trans (by decide)
  induction fuel generalizing k c msgs m with
  | zero => exact absurd (length_eq_zero_iff.mp (le_zero.mp hfuel)) hc
  | succ fuel ih =>
    obtain ⟨n, m1, habs, hpos, hle, hrec⟩ := absorb_step hf hsize hmax' h hc hnext
    have hfits : (m1.in_data && decide (maxProtocolMessageLength < m1.hdr.nMessageSize.toNat)) =
        false := by
      cases hin : m1.in_data with
      | false => rfl
      | true =>
        rw [hrec.hdr_eq hin, hsize]
        simpa using hmax
    have hstep : receiveStep start c msgs = some (n, done ++ [m1]) := by
      simp only [receiveStep, hcur, habs, hfits, false_eq_true, if_false]
    have hloop : receiveLoop start (fuel + 1) c msgs =
        receiveLoop start fuel (c.drop n) (done ++ [m1]) := by
      simp only [receiveLoop, List.isEmpty_iff, hc, if_false, hstep]
    rw [hloop]
    by_cases hrest : c.drop n = []
    · have hn : n = c.length := by
        have := drop_eq_nil_iff.mp hrest
        omega
      refine ⟨m1, ?_, hn ▸ hrec⟩
      rw [hrest]
      cases fuel <;> rfl
    · have hnext' := hnext.drop hle
      have hshort := hnext'.length_le hf
      have hlen := length_pos_iff.mpr hrest
      have hcur' : currentMessage start (done ++ [m1]) = (done, m1) :=
        currentMessage_append (hrec.not_complete hsize (by omega))
      obtain ⟨m', hrun, hrec'⟩ := ih (by rw [length_drop]; omega) hrest hcur' hrec hnext'
      refine ⟨m', hrun, ?_⟩
      rw [length_drop] at hrec'
      rwa [show k + c.length = k + n + (c.length - n) by omega]

theorem receiveAll_received (hmax : payload.length ≤ maxProtocolMessageLength)
    (hcur : currentMessage start msgs = (done, m)) (h : Received hdr payload k m)
    (hcuts : ∃ before, before.length = k ∧ hdr.serialize.bytes ++ payload = before ++ cuts.flatten)
    (hne : cuts.flatten ≠ []) :
    ∃ m', receiveAll start msgs cuts = some (done ++ [m']) ∧
      Received hdr payload (24 + payload.length) m' := by
  induction cuts generalizing k msgs m with
  | nil => exact absurd rfl hne
  | cons c cuts ih =>
    obtain ⟨before, hbefore, heq⟩ := hcuts
    rw [flatten_cons] at heq hne
    by_cases hc : c = []
    · -- an empty call does nothing
      subst hc
      exact ih hcur h ⟨before, hbefore, heq⟩ hne
    have hnext : IsNext hdr payload k c :=
      ⟨before, cuts.flatten, hbefore, by rw [heq, append_assoc]⟩
    obtain ⟨m1, hrun, hrec⟩ := receiveLoop_received hf hsize hmax le_rfl hc hcur h hnext
    have hall : receiveAll start msgs (c :: cuts) = receiveAll start (done ++ [m1]) cuts := by
      show (receiveMsgBytes start msgs c >>= fun msgs' => receiveAll start msgs' cuts) = _
      rw [receiveMsgBytes, hrun]
      rfl
    have htotal := congrArg length heq
    simp only [length_append, hf.length_bytes, hbefore] at htotal
    rw [hall]
    by_cases hrest : cuts.flatten = []
    · -- the message is complete, and the remaining calls are empty
      have hk : k + c.length = 24 + payload.length := by simp [hrest] at htotal; omega
      refine ⟨m1, ?_, hk ▸ hrec⟩
      clear ih hall heq hne htotal hnext
      induction cuts with
      | nil => rfl
      | cons c' cuts ihc =>
        rw [flatten_cons, append_eq_nil_iff] at hrest
        obtain ⟨rfl, hrest⟩ := hrest
        exact ihc hrest
    · have hlen := length_pos_iff.mpr hrest
      apply ih (currentMessage_append (hrec.not_complete hsize (by omega))) hrec
      · exact ⟨before ++ c, by simp [hbefore], by rw [heq, append_assoc]⟩
      · exact hrest

/-! ## Messages that are too long -/

/-- The call that completes the header of an oversized message returns false. -/
theorem receiveMsgBytes_oversize (hmax : payload.length ≤ maxSize)
    (hbig : maxProtocolMessageLength < payload.length) (hc : c ≠ [])
    (hcur : currentMessage start msgs = (done, m)) (h : Received hdr payload k m)
    (hnext : IsNext hdr payload k c) (hk : k < 24) (hend : 24 ≤ k + c.length) :
    receiveMsgBytes start msgs c = none := by
  obtain ⟨n, m1, habs, hpos, hle, hrec, hin, hfull⟩ := readHeader_step hf hsize hmax h hk hc hnext
  have hdata := hin.mpr (hfull hend)
  have hstep : receiveStep start c msgs = none := by
    simp only [receiveStep, hcur, habs, hdata, hrec.hdr_eq hdata, hsize, hbig, decide_true,
      Bool.and_self, if_true]
  obtain ⟨b, c, rfl⟩ := exists_cons_of_ne_nil hc
  show receiveLoop start (c.length + 1) (b :: c) msgs = none
  simp only [receiveLoop, hstep, isEmpty_cons, false_eq_true, if_false]

end

end Run

/-! ## Counting bytes -/

/-- A message as the receiver leaves it after a round that did not fail. -/
structure Parsed (m : CNetMessage) : Prop where
  header : m.in_data = false → m.nHdrPos < 24 ∧ m.nDataPos = 0
  data : m.in_data = true → m.nHdrPos = 24 ∧ m.nDataPos ≤ m.hdr.nMessageSize.toNat ∧
    m.hdr.nMessageSize.toNat ≤ maxProtocolMessageLength

/-- The bytes that went into a message. -/
def CNetMessage.consumed (m : CNetMessage) : Nat := m.nHdrPos + m.nDataPos

theorem parsed_empty (start : MessageStart) : Parsed (empty start) :=
  ⟨fun _ => ⟨succ_pos 23, rfl⟩, nofun⟩

theorem Parsed.absorb {m m' : CNetMessage} {c : Bytes} {n : Nat} (h : Parsed m)
    (hopen : m.complete = false) (hc : c ≠ []) (habs : m.absorb c = some (n, m'))
    (hfits : m'.in_data = true → m'.hdr.nMessageSize.toNat ≤ maxProtocolMessageLength) :
    1 ≤ n ∧ n ≤ c.length ∧ Parsed m' ∧ m'.consumed = m.consumed + n := by
  have hpos := length_pos_iff.mpr hc
  cases hin : m.in_data with
  | false =>
    obtain ⟨hhdr, hdata⟩ := h.header hin
    simp only [CNetMessage.absorb, hin, Bool.not_false, if_true, CNetMessage.readHeader] at habs
    split at habs
    · rename_i hlt
      cases habs
      refine ⟨by omega, by omega, ⟨fun _ => ⟨hlt, hdata⟩, nofun⟩, ?_⟩
      · simp only [consumed]
        omega
    split at habs
    · cases habs
    split at habs
    · cases habs
    cases habs
    refine ⟨by omega, by omega, ⟨nofun, fun _ => ⟨?_, ?_, hfits rfl⟩⟩, ?_⟩
    · show m.nHdrPos + _ = 24
      omega
    · show m.nDataPos ≤ _
      omega
    · simp only [consumed]
      omega
  | true =>
    obtain ⟨hhdr, hle, hmax⟩ := h.data hin
    have hlt : m.nDataPos < m.hdr.nMessageSize.toNat := by
      have : m.hdr.nMessageSize.toNat ≠ m.nDataPos := by
        simpa [complete, hin] using hopen
      omega
    simp only [CNetMessage.absorb, hin, Bool.not_true, Bool.false_eq_true, if_false,
      readData] at habs
    cases habs
    refine ⟨by omega, by omega, ⟨nofun, fun _ => ⟨hhdr, ?_, hmax⟩⟩, ?_⟩
    · show m.nDataPos + _ ≤ m.hdr.nMessageSize.toNat
      omega
    · simp only [consumed]
      omega

/-- Behind the messages `done` there are messages that took `k` bytes. -/
def Accounts (done : List CNetMessage) (k : Nat) (msgs : List CNetMessage) : Prop :=
  ∃ new, msgs = done ++ new ∧ (∀ m ∈ new, Parsed m) ∧ (new.map CNetMessage.consumed).sum = k

section Accounts

variable {start : MessageStart} {done msgs msgs' : List CNetMessage} {k n : Nat} {c : Bytes}

/-- The current message is a new one or the last one; either way the others stay. -/
theorem Accounts.current (start : MessageStart) (hdone : Settled done) (h : Accounts done k msgs) :
    (currentMessage start msgs).2.complete = false ∧ Parsed (currentMessage start msgs).2 ∧
      ∃ new, (currentMessage start msgs).1 = done ++ new ∧ (∀ m ∈ new, Parsed m) ∧
        (new.map consumed).sum + (currentMessage start msgs).2.consumed = k := by
  obtain ⟨new, rfl, hparsed, hsum⟩ := h
  rcases eq_nil_or_concat new with rfl | ⟨init, last, rfl⟩
  · rw [append_nil, currentMessage_settled hdone]
    exact ⟨rfl, parsed_empty start, [], by simp, by simp, hsum⟩
  rw [concat_eq_append] at hparsed hsum ⊢
  rw [← append_assoc]
  cases hlast : last.complete with
  | false =>
    rw [currentMessage_append hlast]
    refine ⟨hlast, hparsed last (by simp), init, rfl, fun m hm => hparsed m (by simp [hm]), ?_⟩
    simpa using hsum
  | true =>
    have hcur : currentMessage start (done ++ init ++ [last]) =
        (done ++ init ++ [last], empty start) := by
      apply currentMessage_settled
      intro m hm
      rw [getLast?_append] at hm
      cases hm
      exact hlast
    rw [hcur]
    refine ⟨rfl, parsed_empty start, init ++ [last], by simp, hparsed, ?_⟩
    rw [hsum]
    rfl

section

variable (hdone : Settled done) (h : Accounts done k msgs)
include hdone h

theorem Accounts.step (hc : c ≠ []) (hstep : receiveStep start c msgs = some (n, msgs')) :
    1 ≤ n ∧ n ≤ c.length ∧ Accounts done (k + n) msgs' := by
  obtain ⟨hopen, hparsed, new, hfst, hnew, hsum⟩ := h.current start hdone
  unfold receiveStep at hstep
  split at hstep
  · cases hstep
  rename_i handled m' habs
  split at hstep
  · cases hstep
  rename_i hsize
  cases hstep
  have hfits : m'.in_data = true → m'.hdr.nMessageSize.toNat ≤ maxProtocolMessageLength := by
    intro hin
    simpa [hin] using hsize
  obtain ⟨hpos, hle, hparsed', hcons⟩ := hparsed.absorb hopen hc habs hfits
  refine ⟨hpos, hle, new ++ [m'], ?_, ?_, ?_⟩
  · rw [hfst, append_assoc]
  · intro m hm
    rcases mem_append.mp hm with hm | hm
    · exact hnew m hm
    · rw [mem_singleton] at hm
      exact hm ▸ hparsed'
  · simp only [map_append, sum_append_nat, map_cons, map_nil, sum_singleton, hcons]
    omega

theorem Accounts.loop (hfuel : c.length ≤ fuel)
    (hrun : receiveLoop start fuel c msgs = some msgs') :
    Accounts done (k + c.length) msgs' := by
  induction fuel generalizing k c msgs with
  | zero =>
    cases hrun
    rwa [le_zero.mp hfuel]
  | succ fuel ih =>
    by_cases hc : c = []
    · subst hc
      cases hrun
      exact h
    simp only [receiveLoop, List.isEmpty_iff, hc, if_false] at hrun
    split at hrun
    · cases hrun
    · rename_i n msgs1 hstep
      obtain ⟨hpos, hle, h1⟩ := h.step hdone hc hstep
      have := ih h1 (by rw [List.length_drop]; omega) hrun
      rw [length_drop] at this
      rwa [show k + c.length = k + n + (c.length - n) by omega]

theorem Accounts.all (hrun : receiveAll start msgs cuts = some msgs') :
    Accounts done (k + cuts.flatten.length) msgs' := by
  induction cuts generalizing k msgs with
  | nil =>
    cases hrun
    exact h
  | cons c cuts ih =>
    obtain ⟨msgs1, hone, hrest⟩ := Option.bind_eq_some_iff.mp hrun
    have := ih (h.loop hdone le_rfl hone) hrest
    rwa [flatten_cons, length_append, ← add_assoc]

end

end Accounts

/-! ## Blocks -/

/-- **`blockMessage_received_iff`** — a `block` message, cut into any calls of
`ReceiveMsgBytes` on a connection with nothing pending, ends up as one complete message whose
data is the serialized block if and only if the block is at most
`MAX_PROTOCOL_MESSAGE_LENGTH` bytes long. -/
theorem blockMessage_received_iff (hash256 : Bytes → Uint256) (start : MessageStart)
    (block : CBlock) (done : List CNetMessage) (cuts : List Bytes) (hdone : Settled done)
    (hcuts : cuts.flatten = pushMessage hash256 start blockCommand block.bytes) :
    (∃ m, receiveAll start done cuts = some (done ++ [m]) ∧ m.complete = true ∧
      m.hdr = sentHeader hash256 start blockCommand block.bytes ∧ m.vRecv = block.bytes) ↔
      block.bytes.length ≤ maxProtocolMessageLength := by
  have hf := sentHeader_fits hash256 start blockCommand block.bytes
  rw [pushMessage_eq] at hcuts
  have hlen : cuts.flatten.length = 24 + block.bytes.length := by
    rw [hcuts, length_append, hf.length_bytes]
  constructor
  · rintro ⟨m, hrun, hcomplete, -, -⟩
    have hacc : Accounts done 0 done := ⟨[], by simp, by simp, rfl⟩
    obtain ⟨new, hnew, hparsed, hsum⟩ := hacc.all hdone hrun
    obtain rfl := append_cancel_left hnew
    simp only [complete, and_eq_true, beq_iff_eq] at hcomplete
    obtain ⟨hhdr, -, hmax⟩ := (hparsed m (by simp)).data hcomplete.1
    simp only [map_cons, map_nil, sum_singleton, consumed] at hsum
    omega
  · intro hle
    have hmax : maxProtocolMessageLength = 4194304 := rfl
    have hlt : block.bytes.length < 2 ^ 32 := by omega
    have hsize := sentHeader_size hash256 start blockCommand hlt
    obtain ⟨m, hrun, hrec⟩ := receiveAll_received hf hsize hle (currentMessage_settled hdone)
      received_empty ⟨[], rfl, hcuts.symm⟩ (by
        rw [← length_pos_iff]
        omega)
    obtain ⟨hcomplete, hhdr, hdata⟩ := hrec.complete hsize
    exact ⟨m, hrun, hcomplete, hhdr, hdata⟩

/-- A coinbase with a comment of `n` bytes. -/
def commentCoinbase (n : Nat) : CTransaction where
  hash := 1
  nVersion := 2
  vin := [⟨COutPoint.null, [0, 0], 0⟩]
  vout := [⟨0, []⟩]
  nLockTime := 0
  strTxComment := List.replicate n 0

def commentBlock (n : Nat) : CBlock where
  nVersion := 2
  hashPrevBlock := 0
  hashMerkleRoot := 1
  nTime := 0
  nBits := 0
  nNonce := 0
  vtx := [commentCoinbase n]

/-- Two calls, the second one with the data. -/
theorem blockMessage_received_commentBlock : ∃ m, receiveAll mainMessageStart []
        [(pushMessage (fun _ => 0) mainMessageStart blockCommand (commentBlock 3).bytes).take 30,
          (pushMessage (fun _ => 0) mainMessageStart blockCommand (commentBlock 3).bytes).drop 30] =
        some ([] ++ [m]) ∧ m.complete = true ∧
      m.hdr = sentHeader (fun _ => 0) mainMessageStart blockCommand (commentBlock 3).bytes ∧
      m.vRecv = (commentBlock 3).bytes :=
  (blockMessage_received_iff _ _ (commentBlock 3) [] _ nofun
    (by simp only [flatten_cons, flatten_nil, append_nil,
      take_append_drop])).mpr (by decide +kernel)

section Oversize

variable {n : Nat}

section

variable (hlo : 0x10000 ≤ n) (hhi : n ≤ 0xFFFFFFFF)
include hlo hhi

theorem length_serializeBytes_replicate :
    (serializeBytes (replicate n 0)).bytes.length = 5 + n := by
  have hne : (replicate n (0 : UInt8)).isEmpty = false := by
    rw [isEmpty_eq_false_iff, ← length_pos_iff, length_replicate]
    omega
  have hcompact : writeCompactSize n = [leBytes 1 254, leBytes 4 n] := by
    rw [writeCompactSize, if_neg (by omega), if_neg (by omega), if_pos hhi]
  rw [serializeBytes, length_replicate, hcompact, hne]
  simp only [Writes.bytes, false_eq_true, if_false, flatten_append, flatten_cons,
    flatten_nil, length_append, length_nil, length_replicate, leBytes_length]
  omega

theorem getSerializeSize_commentCoinbase : (commentCoinbase n).getSerializeSize = n + 67 := by
  have hcomment := length_serializeBytes_replicate hlo hhi
  have hfixed : (serializeInt32 2 ++
      serializeVector CTxIn.serialize [⟨COutPoint.null, [0, 0], 0⟩] ++
      serializeVector CTxOut.serialize [⟨0, []⟩] ++ serializeUint32 0).bytes.length = 62 := by
    decide
  rw [getSerializeSize, computedSize_eq]
  show (_ ++ serializeBytes (replicate n 0) : Writes).bytes.length = _
  rw [Writes.bytes, flatten_append, length_append]
  show (serializeInt32 2 ++ serializeVector CTxIn.serialize [⟨COutPoint.null, [0, 0], 0⟩] ++
    serializeVector CTxOut.serialize [⟨0, []⟩] ++ serializeUint32 0).bytes.length +
    (serializeBytes (replicate n 0)).bytes.length = _
  omega

theorem getSerializeSize_commentBlock : (commentBlock n).getSerializeSize = n + 148 := by
  have htx := getSerializeSize_commentCoinbase hlo hhi
  rw [getSerializeSize, computedSize_eq] at htx
  have hheader : ((commentBlock 0).toCBlockHeader.serialize ++
      writeCompactSize 1).bytes.length = 81 := by
    decide
  have hsplit : (commentBlock n).serialize =
      ((commentBlock 0).toCBlockHeader.serialize ++ writeCompactSize 1) ++
        (commentCoinbase n).serialize := by
    simp [CBlock.serialize, commentBlock, serializeVector]
  rw [CBlock.getSerializeSize, Writes.computedSize_eq, hsplit, Writes.bytes, flatten_append,
    length_append]
  show ((commentBlock 0).toCBlockHeader.serialize ++ writeCompactSize 1).bytes.length +
    (commentCoinbase n).serialize.bytes.length = _
  omega

end

/-- Nothing limits the length of a comment but the size of the block. -/
theorem checkBlock_commentBlock (hlo : 0x10000 ≤ n) (hhi : n + 148 ≤ maxBlockSize) :
    sizeLimitsOk (commentBlock n) = true ∧
    checkBlock ⟨fun _ => 0, fun a _ => a, fun _ _ => true, 0⟩ (commentBlock n) true true =
      .ok () := by
  have hmax : maxBlockSize = 5000000 := rfl
  have hlimits : sizeLimitsOk (commentBlock n) = true := by
    have hsize : (freeGetSerializeSize (commentBlock n).getSerializeSize).toNat ≤ maxBlockSize := by
      rw [getSerializeSize_commentBlock hlo (by omega), freeGetSerializeSize_toNat (by omega)]
      exact hhi
    rw [sizeLimitsOk, decide_eq_true hsize]
    rfl
  have htx : checkTransaction (commentCoinbase n) = .ok () := by
    have hsize : (freeGetSerializeSize (commentCoinbase n).getSerializeSize).toNat ≤
        maxBlockSize := by
      rw [getSerializeSize_commentCoinbase hlo (by omega), freeGetSerializeSize_toNat (by omega)]
      omega
    rw [checkTransaction, decide_eq_true hsize]
    rfl
  refine ⟨hlimits, ?_⟩
  have hforM : (commentBlock n).vtx.forM checkTransaction = .ok () := by
    show (do checkTransaction (commentCoinbase n); pure () : Except Reject Unit) = .ok ()
    rw [htx]
    rfl
  rw [checkBlock, hlimits, hforM]
  rfl

/-- The header alone tells the receiver that the block is too long. -/
theorem receiveMsgBytes_commentBlock (hlo : maxProtocolMessageLength < n + 148)
    (hhi : n + 148 ≤ maxBlockSize) :
    receiveMsgBytes mainMessageStart [] (pushMessage (fun _ => 0) mainMessageStart blockCommand
      (commentBlock n).bytes) = none := by
  have hmax : maxBlockSize = 5000000 := rfl
  have hproto : maxProtocolMessageLength = 4194304 := rfl
  have hmaxSize : maxSize = 33554432 := rfl
  have hf := sentHeader_fits (fun _ => 0) mainMessageStart blockCommand (commentBlock n).bytes
  have hlen : (commentBlock n).bytes.length = n + 148 := by
    rw [← getSerializeSize_commentBlock (by omega) (by omega), CBlock.getSerializeSize,
      computedSize_eq, CBlock.bytes]
  have hlt : (commentBlock n).bytes.length < 2 ^ 32 := by omega
  rw [pushMessage_eq]
  have htotal : ((sentHeader (fun _ => 0) mainMessageStart blockCommand
      (commentBlock n).bytes).serialize.bytes ++ (commentBlock n).bytes).length = n + 172 := by
    rw [length_append, hf.length_bytes]
    omega
  refine receiveMsgBytes_oversize hf (sentHeader_size _ _ _ hlt) (by omega) (by omega) ?_
    (currentMessage_settled fun m hm => by cases hm) received_empty ⟨[], [], rfl, by simp⟩
    (by decide) (by omega)
  rw [← length_pos_iff]
  omega

end Oversize

/-- The cap on the size of a new block, from the option -blockmaxsize. -/
def nBlockMaxSize (blockmaxsize : Nat) : Nat := max 1000 (min (maxBlockSize - 1000) blockmaxsize)

def defaultBlockMaxSize : Nat := 5000000

/-- A block of 4194452 bytes passes `CheckBlock` and is below the cap for new blocks; the
receiver of its message disconnects. -/
theorem oversizeBlock_disconnects : sizeLimitsOk (commentBlock 0x400000) = true ∧
    checkBlock ⟨fun _ => 0, fun a _ => a, fun _ _ => true, 0⟩ (commentBlock 0x400000) true true =
      .ok () ∧
    (commentBlock 0x400000).getSerializeSize < nBlockMaxSize defaultBlockMaxSize ∧
    receiveMsgBytes mainMessageStart [] (pushMessage (fun _ => 0) mainMessageStart blockCommand
      (commentBlock 0x400000).bytes) = none := by
  have hhi : 0x400000 + 148 ≤ maxBlockSize := by decide
  obtain ⟨hlimits, hcheck⟩ := checkBlock_commentBlock (by decide) hhi
  refine ⟨hlimits, hcheck, ?_, receiveMsgBytes_commentBlock (by decide) hhi⟩
  rw [getSerializeSize_commentBlock (by decide) (by decide)]
  decide

end MonetaryUnit

/-
**Message headers and message identity: `comm/msg.c`.**

A header carries the kind of the message, its two end nodes, the length of the body that follows
and, for data chunks, the identity `sid` of the message the chunk belongs to.  `sid` combines the
id of the sending node with its message counter (`comm_node_get_new_sid`), so it is unique in the
network; the receiver looks chunks up by the `sid` it decodes.

The header comes back from the wire with every `int` intact and with `wireUint64` of its `sid`.
A `sid` whose low 32 bits do not determine it is therefore changed, and two messages of one node
whose counters agree modulo `2 ^ 12` are confused.

Main definitions:

* `MsgKind`, `MsgInfo` — `enum msg_kind` and `struct msg_info`;
* `msgInfoPack`, `msgInfoUnpack` — `msg_info_pack` and `msg_info_unpack`;
* `commNodeGetNewSid` — `comm_node_get_new_sid`.

Main results:

* `msgInfoUnpack_msgInfoPack` — what a header becomes on the wire;
* `header_round_trip_iff` — **headers survive exactly for small counters**, and which messages are
  confused.
-/

import DLFree.Bytes
import DLFree.Libc

set_option relaxedAutoImplicit false
set_option autoImplicit false

namespace DLFree

/-- `enum msg_kind`. -/
inductive MsgKind
  | err
  | data
  | ping0
  | ping1
  | pong0
  | pong1
  | rt
  deriving DecidableEq, Repr

/-- The number of a kind in the header. -/
def MsgKind.toInt : MsgKind → ℤ
  | MsgKind.err => 0
  | MsgKind.data => 1
  | MsgKind.ping0 => 2
  | MsgKind.ping1 => 3
  | MsgKind.pong0 => 4
  | MsgKind.pong1 => 5
  | MsgKind.rt => 6

theorem MsgKind.toInt_injective : Function.Injective MsgKind.toInt := by
  intro a b h
  cases a <;> cases b <;> first | rfl | simp [MsgKind.toInt] at h

/-- `struct msg_info`. -/
structure MsgInfo where
  kind : ℤ
  dstId : ℤ
  srcId : ℤ
  len : ℤ
  remain : ℤ
  sid : BitVec 64
  totLen : ℤ
  seq : ℤ
  deriving DecidableEq, Repr

/-- `msg_info_create`. -/
def msgInfoCreate : MsgInfo where
  kind := -1
  dstId := -1
  srcId := -1
  len := -1
  remain := 0
  sid := -1
  totLen := -1
  seq := -1

/-- `msg_info_pack`. -/
def msgInfoPack (bo : ByteOrder) (minfo : MsgInfo) : List Byte :=
  packInt bo minfo.kind ++ packInt bo minfo.dstId ++ packInt bo minfo.srcId ++
    packInt bo minfo.len ++ packUint64 bo minfo.sid ++ packInt bo minfo.totLen ++
    packInt bo minfo.seq

/-- `msg_info_unpack`; `none` when the buffer is too short. -/
def msgInfoUnpack (bo : ByteOrder) (p : List Byte) : Option (MsgInfo × List Byte) := do
  let (kind, p) ← unpackInt bo p
  let (dstId, p) ← unpackInt bo p
  let (srcId, p) ← unpackInt bo p
  let (len, p) ← unpackInt bo p
  let (sid, p) ← unpackUint64 bo p
  let (totLen, p) ← unpackInt bo p
  let (seq, p) ← unpackInt bo p
  some ({ kind, dstId, srcId, len, remain := len, sid, totLen, seq }, p)

/-- Every `int` of the header fits an `int`. -/
structure MsgInfo.Fits (m : MsgInfo) : Prop where
  kind : FitsInt m.kind
  dstId : FitsInt m.dstId
  srcId : FitsInt m.srcId
  len : FitsInt m.len
  totLen : FitsInt m.totLen
  seq : FitsInt m.seq

/-- The header that a receiver decodes. -/
def MsgInfo.onWire (m : MsgInfo) : MsgInfo :=
  { m with remain := m.len, sid := wireUint64 m.sid }

/-- The bytes of a packed header. -/
def msgInfoBytes : ℕ := 32

@[simp] theorem msgInfoPack_length (bo : ByteOrder) (m : MsgInfo) :
    (msgInfoPack bo m).length = msgInfoBytes := by
  simp [msgInfoPack, msgInfoBytes]

/-- **What a header becomes on the wire**: every `int` survives, the 64-bit `sid` does not have to. -/
theorem msgInfoUnpack_msgInfoPack (bo : ByteOrder) {m : MsgInfo} (hm : m.Fits)
    (rest : List Byte) :
    msgInfoUnpack bo (msgInfoPack bo m ++ rest) = some (m.onWire, rest) := by
  simp only [msgInfoUnpack, msgInfoPack, List.append_assoc, unpackInt_packInt bo hm.kind,
    unpackInt_packInt bo hm.dstId, unpackInt_packInt bo hm.srcId, unpackInt_packInt bo hm.len,
    unpackInt_packInt bo hm.totLen, unpackInt_packInt bo hm.seq,
    unpackUint64_packUint64, Option.bind_eq_bind, Option.bind_some]
  rfl

/-- A header is decoded from any buffer that is long enough. -/
theorem exists_msgInfoUnpack (bo : ByteOrder) {p : List Byte} (h : msgInfoBytes ≤ p.length) :
    ∃ m rest, msgInfoUnpack bo p = some (m, rest) := by
  have hint : ∀ q : List Byte, 4 ≤ q.length → ∃ i, unpackInt bo q = some (i, q.drop 4) :=
    fun q hq => ⟨_, if_neg (not_lt.2 hq)⟩
  have huint : ∀ q : List Byte, 8 ≤ q.length → ∃ i, unpackUint64 bo q = some (i, q.drop 8) :=
    fun q hq => ⟨_, if_neg (not_lt.2 hq)⟩
  have hlen : 32 ≤ p.length := h
  obtain ⟨kind, hkind⟩ := hint p (by omega)
  obtain ⟨dstId, hdst⟩ := hint (p.drop 4) (by simp; omega)
  obtain ⟨srcId, hsrc⟩ := hint (p.drop 8) (by simp; omega)
  obtain ⟨len, hlen⟩ := hint (p.drop 12) (by simp; omega)
  obtain ⟨sid, hsid⟩ := huint (p.drop 16) (by simp; omega)
  obtain ⟨totLen, htot⟩ := hint (p.drop 24) (by simp; omega)
  obtain ⟨seq, hseq⟩ := hint (p.drop 28) (by simp; omega)
  simp [msgInfoUnpack, hkind, hdst, hsrc, hlen, hsid, htot, hseq]

/-! ### Message identity -/

/-- `comm_node_get_new_sid`: the new `sid` and the message counter after the call. -/
def commNodeGetNewSid (nodeId : ℤ) (dataMsgSid : BitVec 64) :
    Except Abort (BitVec 64 × BitVec 64) := do
  let sid := dataMsgSid <<< 20
  cAssert (nodeId < 2 ^ 20)
  Except.ok (sid + BitVec.ofInt 64 nodeId, dataMsgSid + 1)

/-- A message: the node that sends it and the value of that node's counter. -/
structure SentMsg where
  nodeId : ℕ
  counter : ℕ
  nodeId_lt : nodeId < 2 ^ 20
  counter_lt : counter < 2 ^ 44

/-- The counters whose `sid` a signed 32-bit number holds. -/
def SentMsg.Small (a : SentMsg) : Prop := a.counter < 2 ^ 11 ∨ 2 ^ 44 - 2 ^ 11 ≤ a.counter

instance (a : SentMsg) : Decidable a.Small := inferInstanceAs (Decidable (_ ∨ _))

/-- The header `m` carries the identity that the node gave to the message `a`. -/
def Carries (a : SentMsg) (m : MsgInfo) : Prop :=
  ∃ next, commNodeGetNewSid a.nodeId (BitVec.ofNat 64 a.counter) = Except.ok (m.sid, next)

/-- The new `sid` holds the counter above the node id. -/
theorem commNodeGetNewSid_toNat {a : SentMsg} {sid next : BitVec 64}
    (h : commNodeGetNewSid a.nodeId (BitVec.ofNat 64 a.counter) = Except.ok (sid, next)) :
    sid.toNat = a.counter * 2 ^ 20 + a.nodeId := by
  have hid := a.nodeId_lt
  have hc := a.counter_lt
  obtain ⟨_, _, h⟩ := bind_eq_ok.1 h
  simp only [Except.ok.injEq, Prod.mk.injEq] at h
  obtain ⟨rfl, -⟩ := h
  rw [BitVec.toNat_add, BitVec.toNat_shiftLeft, BitVec.toNat_ofNat, BitVec.ofInt_natCast,
    BitVec.toNat_ofNat, Nat.shiftLeft_eq]
  omega

theorem Carries.toNat {a : SentMsg} {m : MsgInfo} (h : Carries a m) :
    m.sid.toNat = a.counter * 2 ^ 20 + a.nodeId := by
  obtain ⟨_, h⟩ := h
  exact commNodeGetNewSid_toNat h

/-- The header round trip of one message succeeds exactly when its counter is small. -/
theorem Carries.round_trip_iff {a : SentMsg} {m : MsgInfo} (h : Carries a m) (hm : m.Fits)
    (bo : ByteOrder) (rest : List Byte) :
    msgInfoUnpack bo (msgInfoPack bo m ++ rest) = some ({ m with remain := m.len }, rest) ↔
      a.Small := by
  have hid := a.nodeId_lt
  have hc := a.counter_lt
  have hsid : m.onWire = { m with remain := m.len } ↔ wireUint64 m.sid = m.sid := by
    simp [MsgInfo.onWire]
  rw [msgInfoUnpack_msgInfoPack bo hm, Option.some.injEq, Prod.mk.injEq, hsid,
    wireUint64_eq_self_iff, h.toNat, SentMsg.Small]
  simp only [and_true]
  omega

/-- Two messages are confused exactly when one node sent them and their counters agree in the
twelve low bits. -/
theorem Carries.confused_iff {a b : SentMsg} {m k : MsgInfo} (ha : Carries a m)
    (hb : Carries b k) :
    wireUint64 m.sid = wireUint64 k.sid ↔
      a.nodeId = b.nodeId ∧ a.counter % 2 ^ 12 = b.counter % 2 ^ 12 := by
  have hid := a.nodeId_lt
  have hid' := b.nodeId_lt
  rw [wireUint64_eq_iff, ha.toNat, hb.toNat]
  omega

/-- The `sid` that a receiver decodes from the bytes of a header. -/
def decodedSid (bo : ByteOrder) (m : MsgInfo) (rest : List Byte) : Option (BitVec 64) :=
  (msgInfoUnpack bo (msgInfoPack bo m ++ rest)).map fun r => r.1.sid

theorem decodedSid_eq (bo : ByteOrder) {m : MsgInfo} (hm : m.Fits) (rest : List Byte) :
    decodedSid bo m rest = some (wireUint64 m.sid) := by
  rw [decodedSid, msgInfoUnpack_msgInfoPack bo hm]
  rfl

/-- **Headers and identities on the wire.**  Two messages come back unchanged and are told apart
exactly when both counters are small; and two messages are confused exactly when one node sent
both and their counters agree modulo `2 ^ 12`. -/
theorem header_round_trip_iff (bo : ByteOrder) (a b : SentMsg) (m k : MsgInfo)
    (ha : Carries a m) (hb : Carries b k) (hm : m.Fits) (hk : k.Fits) (rest rest' : List Byte) :
    ((msgInfoUnpack bo (msgInfoPack bo m ++ rest) = some ({ m with remain := m.len }, rest) ∧
        msgInfoUnpack bo (msgInfoPack bo k ++ rest') = some ({ k with remain := k.len }, rest') ∧
        ((a.nodeId, a.counter) ≠ (b.nodeId, b.counter) →
          decodedSid bo m rest ≠ decodedSid bo k rest')) ↔ (a.Small ∧ b.Small)) ∧
      (decodedSid bo m rest = decodedSid bo k rest' ↔
        a.nodeId = b.nodeId ∧ a.counter % 2 ^ 12 = b.counter % 2 ^ 12) := by
  have hdec : decodedSid bo m rest = decodedSid bo k rest' ↔
      a.nodeId = b.nodeId ∧ a.counter % 2 ^ 12 = b.counter % 2 ^ 12 := by
    rw [decodedSid_eq bo hm, decodedSid_eq bo hk, Option.some.injEq, ha.confused_iff hb]
  refine ⟨?_, hdec⟩
  rw [ha.round_trip_iff hm, hb.round_trip_iff hk]
  refine ⟨fun h => ⟨h.1, h.2.1⟩, fun h => ⟨h.1, h.2, ?_⟩⟩
  rintro hne he
  obtain ⟨hnode, hcounter⟩ := hdec.1 he
  apply hne
  have h₁ := h.1
  have h₂ := h.2
  have hca := a.counter_lt
  have hcb := b.counter_lt
  simp only [SentMsg.Small] at h₁ h₂
  rw [Prod.mk.injEq]
  exact ⟨hnode, by omega⟩

/-- After 2048 messages of node 0 the next header does not come back, and its 4097th message is
confused with its first. -/
theorem header_lost_at_2048 :
    Carries ⟨0, 2048, by decide, by decide⟩ { msgInfoCreate with sid := 2147483648 } ∧
      msgInfoUnpack ByteOrder.little
          (msgInfoPack ByteOrder.little { msgInfoCreate with sid := 2147483648 }) ≠
        some ({ msgInfoCreate with sid := 2147483648, remain := -1 }, []) ∧
      Carries ⟨0, 0, by decide, by decide⟩ { msgInfoCreate with sid := 0 } ∧
      Carries ⟨0, 4096, by decide, by decide⟩ { msgInfoCreate with sid := 4294967296 } ∧
      decodedSid ByteOrder.little { msgInfoCreate with sid := 0 } [] =
        decodedSid ByteOrder.little { msgInfoCreate with sid := 4294967296 } [] :=
  ⟨⟨2049, by decide⟩, by decide, ⟨1, by decide⟩, ⟨4097, by decide⟩, by decide⟩

/-- The first and the 2048th message of node 0 are told apart. -/
theorem header_round_trip_first :
    decodedSid ByteOrder.little { msgInfoCreate with sid := 0 } [] ≠
        decodedSid ByteOrder.little { msgInfoCreate with sid := 2146435072 } [] := by
  have h := header_round_trip_iff ByteOrder.little
    ⟨0, 0, by decide, by decide⟩ ⟨0, 2047, by decide, by decide⟩
    { msgInfoCreate with sid := 0 } { msgInfoCreate with sid := 2146435072 }
    ⟨1, by decide⟩ ⟨2048, by decide⟩
    ⟨by decide, by decide, by decide, by decide, by decide, by decide⟩
    ⟨by decide, by decide, by decide, by decide, by decide, by decide⟩ [] []
  exact (h.1.2 ⟨by decide, by decide⟩).2.2 (by decide)

end DLFree

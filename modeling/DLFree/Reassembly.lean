/-
**Reassembly: many messages arrive at once.**

A family of messages is addressed to one node.  Each message comes over one channel with its chunks
in order, and between them, on this channel and on others, come the chunks of other messages.  A
read takes any number of bytes and may stop at any of them.  The only assumption is the one that the
map of records makes: two messages that have both begun and are both incomplete have different
decoded `sid`s.

The state of the arrival is how many chunks of each message are complete, and how many bytes of its
next chunk have been taken.  It determines the records of the receiver: there is one for each open
message, and none for any other.

Main definitions:

* `Arrivals`, `Progress` — the messages, and how far they have arrived;
* `Arrivals.Arrives` — the runs of the receiver;
* `Arrivals.StoreOk` — what every run keeps.

Main results:

* `Arrivals.StoreOk.setup`, `Arrivals.StoreOk.recv`, `Arrivals.StoreOk.handle` — the parts of a read;
* `Arrivals.Arrives.call_ok` — **no read fails**;
* `Arrivals.reassembly` — **each message is delivered once, as it was sent, when its last chunk is
  complete**, and only open messages have records.
-/

import DLFree.Segments

set_option relaxedAutoImplicit false
set_option autoImplicit false

namespace DLFree

/-! ### Messages that arrive -/

/-- A family of messages for the node `dstId`, each on one channel. -/
structure Arrivals (κ ι : Type) where
  msg : ι → DataSend
  chan : ι → κ
  dstId : ℤ
  dst_fits : FitsInt dstId

/-- How many chunks of each message are complete, and how many bytes of the next have been taken. -/
structure Progress (ι : Type) where
  done : ι → ℕ
  pos : ι → ℕ

namespace Progress

variable {ι : Type} [DecidableEq ι]

/-- Nothing has arrived. -/
def start : Progress ι := ⟨fun _ => 0, fun _ => 0⟩

/-- `n` bytes of the next chunk of the message `j` have been taken. -/
def reach (p : Progress ι) (j : ι) (n : ℕ) : Progress ι :=
  ⟨p.done, Function.update p.pos j n⟩

/-- The next chunk of the message `j` is complete. -/
def finish (p : Progress ι) (j : ι) : Progress ι :=
  ⟨Function.update p.done j (p.done j + 1), Function.update p.pos j 0⟩

/-- `n` bytes of the next chunk `f` of the message `j` have been taken, which may be all. -/
def advance (bo : ByteOrder) (p : Progress ι) (j : ι) (f : Frame) (n : ℕ) : Progress ι :=
  if n = (f.encode bo).length then p.finish j else p.reach j n

end Progress

namespace Arrivals

variable {κ ι : Type} [DecidableEq κ] [DecidableEq ι] (arr : Arrivals κ ι)

/-- The chunks of a message. -/
def chunks (j : ι) : List Frame := (arr.msg j).chunks arr.dstId

/-- The number of chunks of a message. -/
def count (j : ι) : ℕ := (arr.msg j).count arr.dstId

/-- The decoded `sid` of a message. -/
def sid (j : ι) : BitVec 64 := (arr.msg j).wireSid

/-- `f` is the next chunk of the message `j`, and no chunk of another message is under way on its
channel. -/
structure Next (p : Progress ι) (j : ι) (f : Frame) : Prop where
  chunk : (arr.chunks j)[p.done j]? = some f
  alone : ∀ i, arr.chan i = arr.chan j → i ≠ j → p.pos i = 0

/-- A message is open from the end of its first header to the end of its last chunk. -/
def Open (p : Progress ι) (j : ι) : Prop :=
  p.done j < arr.count j ∧ (0 < p.done j ∨ channelMsgHeaderlen ≤ p.pos j)

/-- Open messages have different decoded `sid`s. -/
def Distinct (p : Progress ι) : Prop :=
  ∀ i j, arr.Open p i → arr.Open p j → arr.sid i = arr.sid j → i = j

/-- A read of the channel of the message `j` is given the bytes `bursts`, which start with what is
left of the chunk `f`.  Wherever in this chunk the read may be, open messages have different
decoded `sid`s. -/
structure Call (bo : ByteOrder) (p : Progress ι) (j : ι) (f : Frame) (bursts : List (List Byte)) :
    Prop where
  next : arr.Next p j f
  bytes : ∃ more tail, bursts.flatten ++ more = (f.encode bo).drop (p.pos j) ++ tail
  distinct : ∀ n, p.pos j ≤ n → n ≤ p.pos j + bursts.flatten.length →
    n < (f.encode bo).length → arr.Distinct (p.reach j n)

/-- A channel that can read a header. -/
def Idle (chan : Channel κ) : Prop := chan.currBuff = none ∧ chan.headerOff = 0

/-- What steps that read none of its channels leave alone in a node. -/
structure SameReaders (node node' : CommNode κ) : Prop where
  nodeId : node'.nodeId = node.nodeId
  reader : ∀ c chan, node.man.heap c = some chan → ∃ chan', node'.man.heap c = some chan' ∧
    chan'.currBuff = chan.currBuff ∧ chan'.headerOff = chan.headerOff ∧
    chan'.headerBuff = chan.headerBuff ∧ chan'.msgInfo = chan.msgInfo

/-- The runs of the receiver: the state of the arrival, the node and its records. -/
inductive Arrives (bo : ByteOrder) : Progress ι → CommNode κ → DataStore κ → Prop
  | start {node : CommNode κ} (memory : BitVec 32) (hid : node.nodeId = arr.dstId)
      (hidle : ∀ j, ∃ chan, node.man.heap (arr.chan j) = some chan ∧ Idle chan) :
      Arrives bo Progress.start node (commNodeCreateStore memory)
  | read {p : Progress ι} {node node' : CommNode κ} {store store' : DataStore κ} {j : ι} {f : Frame}
      {bursts bursts' : List (List Byte)} (now : ℚ) (h : Arrives bo p node store)
      (hcall : arr.Call bo p j f bursts)
      (hread : DataStore.iomanProcessChannelRead bo now node store (arr.chan j) (dataScript bursts) =
        Except.ok (true, node', store', dataScript bursts')) :
      Arrives bo
        (p.advance bo j f (p.pos j + bursts.flatten.length - bursts'.flatten.length))
        node' store'
  | other {p : Progress ι} {node node' : CommNode κ} {store : DataStore κ}
      (h : Arrives bo p node store) (hsame : SameReaders node node') : Arrives bo p node' store

/-! ### What the records hold -/

/-- The bytes of the next chunk of a message. -/
def body (p : Progress ι) (j : ι) : List Byte :=
  match (arr.chunks j)[p.done j]? with
  | some f => f.body
  | none => []

/-- The bytes of the next chunk of a message that have arrived. -/
def got (p : Progress ι) (j : ι) : List Byte :=
  (arr.body p j).take (p.pos j - channelMsgHeaderlen)

/-- The record of an open message. -/
def record (p : Progress ι) (j : ι) : DataMsg :=
  (arr.msg j).record arr.dstId (p.done j) (arr.got p j)

/-- The messages have been delivered in this order. -/
structure Delivered (p : Progress ι) (queues : DataQueues) (log : List ι) : Prop where
  nodup : log.Nodup
  mem : ∀ j, j ∈ log ↔ p.done j = arr.count j
  queue : ∀ i : ℤ, queues.queue i =
    (log.filter fun j => ((arr.msg j).srcId : ℤ) = i).map fun j => (arr.msg j).delivered arr.dstId

/-- What every run keeps in the records: the open messages, and only they, have a record; the map
leads to it, and a channel that reads the body of a chunk writes behind the chunks before. -/
structure StoreOk (p : Progress ι) (store : DataStore κ) : Prop where
  le : ∀ j, p.done j ≤ arr.count j
  under : ∀ j, p.pos j ≠ 0 → p.done j < arr.count j
  distinct : arr.Distinct p
  entry : ∀ j, arr.Open p j → ∃ ref, store.dataMsgMap (arr.sid j) = some ref ∧
    store.records ref = some (arr.record p j)
  only : ∀ sid ref, store.dataMsgMap sid = some ref → ∃ j, arr.Open p j ∧ arr.sid j = sid
  refs : ∀ sid sid' ref, store.dataMsgMap sid = some ref → store.dataMsgMap sid' = some ref →
    sid = sid'
  used : ∀ ref, store.records ref ≠ none →
    ref < store.nextRecord ∧ ∃ sid, store.dataMsgMap sid = some ref
  ext : ∀ j, channelMsgHeaderlen ≤ p.pos j → ∃ ref, store.dataMsgMap (arr.sid j) = some ref ∧
    store.extBuff (arr.chan j) =
      some (ref, (((arr.msg j).sent arr.dstId (p.done j)).length : ℤ))
  log : ∃ log, arr.Delivered p store.queues log

variable {arr} {p : Progress ι} {store : DataStore κ} {i j : ι} {f : Frame} {n : ℕ}

section

omit [DecidableEq κ] [DecidableEq ι]

theorem Next.lt_count (h : arr.Next p j f) : p.done j < arr.count j := DataSend.lt_count h.chunk

theorem Next.body_eq (h : arr.Next p j f) : arr.body p j = f.body := by
  unfold body
  rw [h.chunk]

theorem Next.info (h : arr.Next p j f) : f.info = (iomanSendChunk (arr.msg j).srcId arr.dstId
    (arr.msg j).sid (arr.msg j).buff.length (p.done j) f.body).info :=
  congrArg Frame.info (DataSend.chunk_eq h.chunk)

theorem Next.ok (h : arr.Next p j f) : f.Ok := DataSend.chunk_ok arr.dst_fits h.chunk

/-- The channel of a chunk that is under way belongs to its message. -/
theorem Next.chan_ne (h : arr.Next p j f) (hij : i ≠ j) (hi : p.pos i ≠ 0) :
    arr.chan i ≠ arr.chan j :=
  fun hc => hi (h.alone i hc hij)

end

@[simp] theorem reach_done (p : Progress ι) (j : ι) (n : ℕ) : (p.reach j n).done = p.done := rfl

@[simp] theorem reach_pos_self (p : Progress ι) (j : ι) (n : ℕ) : (p.reach j n).pos j = n :=
  Function.update_self _ _ _

theorem reach_pos_of_ne (p : Progress ι) (hij : i ≠ j) (n : ℕ) :
    (p.reach j n).pos i = p.pos i :=
  Function.update_of_ne hij _ _

omit [DecidableEq κ] in
theorem open_reach_of_ne (hij : i ≠ j) : arr.Open (p.reach j n) i ↔ arr.Open p i := by
  unfold Open
  rw [reach_pos_of_ne p hij, reach_done]

omit [DecidableEq κ] in
theorem open_reach_self : arr.Open (p.reach j n) j ↔
    p.done j < arr.count j ∧ (0 < p.done j ∨ channelMsgHeaderlen ≤ n) := by
  unfold Open
  rw [reach_pos_self, reach_done]

omit [DecidableEq κ] in
theorem record_reach_of_ne (hij : i ≠ j) : arr.record (p.reach j n) i = arr.record p i := by
  unfold record got body
  rw [reach_pos_of_ne p hij, reach_done]

omit [DecidableEq κ] [DecidableEq ι] in
/-- A record has no bytes of a chunk of which only the header has been read. -/
theorem record_of_header (h : p.pos j ≤ channelMsgHeaderlen) :
    arr.record p j = (arr.msg j).record arr.dstId (p.done j) [] := by
  unfold record got
  rw [Nat.sub_eq_zero_of_le h, List.take_zero]

omit [DecidableEq κ] [DecidableEq ι] in
/-- The names of the records of open messages have been used. -/
theorem StoreOk.ref_lt (h : arr.StoreOk p store) {sid : BitVec 64} {ref : ℕ}
    (hmap : store.dataMsgMap sid = some ref) : ref < store.nextRecord := by
  obtain ⟨j, hopen, rfl⟩ := h.only sid ref hmap
  obtain ⟨ref', hmap', hrec⟩ := h.entry j hopen
  obtain rfl : ref = ref' := Option.some.inj (hmap.symm.trans hmap')
  exact (h.used ref (by rw [hrec]; nofun)).1

/-! ### Reading a header -/

omit [DecidableEq κ] in
/-- A message whose next chunk is on its way is not complete. -/
theorem StoreOk.under_reach (h : arr.StoreOk p store) (hnext : arr.Next p j f) (n : ℕ) :
    ∀ i, (p.reach j n).pos i ≠ 0 → (p.reach j n).done i < arr.count i := by
  intro i hi
  by_cases hij : i = j
  · rw [hij]
    exact hnext.lt_count
  · rw [reach_pos_of_ne p hij] at hi
    exact h.under i hi

omit [DecidableEq κ] in
/-- A part of a header does not change the records. -/
theorem StoreOk.header (h : arr.StoreOk p store) (hnext : arr.Next p j f)
    (hpos : p.pos j < channelMsgHeaderlen) (hn : n < channelMsgHeaderlen) :
    arr.StoreOk (p.reach j n) store := by
  have hopen : ∀ i, arr.Open (p.reach j n) i ↔ arr.Open p i := by
    intro i
    by_cases hij : i = j
    · subst hij
      rw [open_reach_self]
      unfold Open
      constructor <;> rintro ⟨hlt, h | h⟩ <;> first | exact ⟨hlt, Or.inl h⟩ | omega
    · exact open_reach_of_ne hij
  have hrecord : ∀ i, arr.record (p.reach j n) i = arr.record p i := by
    intro i
    by_cases hij : i = j
    · subst hij
      rw [record_of_header hpos.le, record_of_header (by rw [reach_pos_self]; exact hn.le),
        reach_done]
    · exact record_reach_of_ne hij
  refine ⟨h.le, h.under_reach hnext n, ?_, ?_, ?_, h.refs, h.used, ?_,
    h.log.imp fun _ hlog => ⟨hlog.1, hlog.2, hlog.3⟩⟩
  · intro i i' hi hi'
    exact h.distinct i i' ((hopen i).1 hi) ((hopen i').1 hi')
  · intro i hi
    rw [hrecord]
    exact h.entry i ((hopen i).1 hi)
  · intro sid ref hmap
    obtain ⟨i, hi, hsid⟩ := h.only sid ref hmap
    exact ⟨i, (hopen i).2 hi, hsid⟩
  · intro i hi
    by_cases hij : i = j
    · subst hij
      rw [reach_pos_self] at hi
      omega
    · rw [reach_pos_of_ne p hij] at hi
      exact h.ext i hi

omit [DecidableEq ι] in
/-- A channel that takes a buffer leaves those of the other channels. -/
theorem Next.extBuff_other (hnext : arr.Next p j f) (hij : i ≠ j)
    (hi : channelMsgHeaderlen ≤ p.pos i) (buff : Option (ℕ × ℤ)) :
    (store.setExtBuff (arr.chan j) buff).extBuff (arr.chan i) = store.extBuff (arr.chan i) :=
  Function.update_of_ne (hnext.chan_ne hij (by unfold channelMsgHeaderlen at hi; omega)) _ _

/-- The first header of a message: no open message has its `sid`, so a record is created. -/
theorem StoreOk.setup_new (h : arr.StoreOk p store) (hnext : arr.Next p j f)
    (hsid : f.info.onWire.sid = arr.sid j) (hpos : p.pos j < channelMsgHeaderlen)
    (hdistinct : arr.Distinct (p.reach j channelMsgHeaderlen)) (hfirst : p.done j = 0) :
    ∃ ref store', store.findOrCreate f.info.onWire = (ref, store') ∧
      store'.records ref = some ((arr.msg j).record arr.dstId (p.done j) []) ∧
      arr.StoreOk (p.reach j channelMsgHeaderlen) (store'.setExtBuff (arr.chan j)
        (some (ref, (((arr.msg j).sent arr.dstId (p.done j)).length : ℤ)))) := by
  have hself : arr.Open (p.reach j channelMsgHeaderlen) j :=
    open_reach_self.2 ⟨hnext.lt_count, Or.inr le_rfl⟩
  have hrec : arr.record (p.reach j channelMsgHeaderlen) j =
      (arr.msg j).record arr.dstId (p.done j) [] := record_of_header (reach_pos_self p j _).le
  have hnone : store.dataMsgMap (arr.sid j) = none := by
    cases hmap : store.dataMsgMap (arr.sid j) with
    | none => rfl
    | some ref =>
        obtain ⟨i, hi, hisid⟩ := h.only _ ref hmap
        have hij : i ≠ j := by
          rintro rfl
          rcases hi.2 with hd | hp <;> omega
        exact absurd (hdistinct i j ((open_reach_of_ne hij).2 hi) hself hisid) hij
  have hmsg : dataMsgCreate f.info.onWire.totLen f.info.onWire.srcId =
      (arr.msg j).record arr.dstId (p.done j) [] := by
    rw [hfirst, DataSend.record_zero, hnext.info]
    rfl
  have hfind : store.findOrCreate f.info.onWire = (store.nextRecord, store.addRecord (arr.sid j)
      ((arr.msg j).record arr.dstId (p.done j) [])) := by
    unfold DataStore.findOrCreate
    rw [hsid, hnone, hmsg]
  have hold : ∀ {sid : BitVec 64} {ref : ℕ}, store.dataMsgMap sid = some ref →
      sid ≠ arr.sid j ∧ ref ≠ store.nextRecord := by
    intro sid ref hmap
    refine ⟨?_, (h.ref_lt hmap).ne⟩
    rintro rfl
    rw [hnone] at hmap
    cases hmap
  -- what is in the map afterwards: the new record, and what was there before
  have hnew : ∀ {sid : BitVec 64} {ref : ℕ},
      Function.update store.dataMsgMap (arr.sid j) (some store.nextRecord) sid = some ref →
        sid = arr.sid j ∧ ref = store.nextRecord ∨ store.dataMsgMap sid = some ref := by
    intro sid ref hmap
    by_cases hs : sid = arr.sid j
    · rw [hs, Function.update_self] at hmap
      exact Or.inl ⟨hs, (Option.some.inj hmap).symm⟩
    · rw [Function.update_of_ne hs] at hmap
      exact Or.inr hmap
  refine ⟨store.nextRecord, _, hfind, by simp, ?_⟩
  refine ⟨h.le, h.under_reach hnext _, hdistinct, ?_, ?_, ?_, ?_, ?_,
    h.log.imp fun _ hlog => ⟨hlog.1, hlog.2, hlog.3⟩⟩
  · intro i hi
    by_cases hij : i = j
    · rw [hij, hrec]
      exact ⟨store.nextRecord, by simp, by simp⟩
    · obtain ⟨ref, hmap, hiref⟩ := h.entry i ((open_reach_of_ne hij).1 hi)
      obtain ⟨hne, hrne⟩ := hold hmap
      rw [record_reach_of_ne hij]
      exact ⟨ref, by simpa [Function.update_of_ne hne] using hmap,
        by simpa [Function.update_of_ne hrne] using hiref⟩
  · intro sid ref hmap
    rcases hnew hmap with ⟨rfl, _⟩ | hmap
    · exact ⟨j, hself, rfl⟩
    · obtain ⟨i, hi, hisid⟩ := h.only sid ref hmap
      have hij : i ≠ j := fun hij => (hold hmap).1 (by rw [← hisid, hij])
      exact ⟨i, (open_reach_of_ne hij).2 hi, hisid⟩
  · intro sid sid' ref hmap hmap'
    rcases hnew hmap with ⟨rfl, href⟩ | hmap <;> rcases hnew hmap' with ⟨rfl, href'⟩ | hmap'
    · rfl
    · exact absurd href (hold hmap').2
    · exact absurd href' (hold hmap).2
    · exact h.refs sid sid' ref hmap hmap'
  · intro ref hused
    by_cases href : ref = store.nextRecord
    · subst href
      exact ⟨Nat.lt_succ_self _, arr.sid j, by simp⟩
    · obtain ⟨hlt', sid, hmap⟩ := h.used ref (by simpa [Function.update_of_ne href] using hused)
      exact ⟨Nat.lt_succ_of_lt hlt', sid,
        by simpa [Function.update_of_ne (hold hmap).1] using hmap⟩
  · intro i hi
    by_cases hij : i = j
    · rw [hij]
      exact ⟨store.nextRecord, by simp, by simp⟩
    · rw [reach_pos_of_ne p hij] at hi
      obtain ⟨ref, hmap, hbuff⟩ := h.ext i hi
      exact ⟨ref, by simpa [Function.update_of_ne (hold hmap).1] using hmap,
        (hnext.extBuff_other hij hi _).trans hbuff⟩

/-- A later header of a message: its record is there. -/
theorem StoreOk.setup_open (h : arr.StoreOk p store) (hnext : arr.Next p j f)
    (hsid : f.info.onWire.sid = arr.sid j) (hpos : p.pos j < channelMsgHeaderlen)
    (hdistinct : arr.Distinct (p.reach j channelMsgHeaderlen)) (hlater : 0 < p.done j) :
    ∃ ref store', store.findOrCreate f.info.onWire = (ref, store') ∧
      store'.records ref = some ((arr.msg j).record arr.dstId (p.done j) []) ∧
      arr.StoreOk (p.reach j channelMsgHeaderlen) (store'.setExtBuff (arr.chan j)
        (some (ref, (((arr.msg j).sent arr.dstId (p.done j)).length : ℤ)))) := by
  have hself : arr.Open (p.reach j channelMsgHeaderlen) j :=
    open_reach_self.2 ⟨hnext.lt_count, Or.inr le_rfl⟩
  have hrec : arr.record (p.reach j channelMsgHeaderlen) j = arr.record p j := by
    rw [record_of_header (reach_pos_self p j _).le, record_of_header hpos.le, reach_done]
  obtain ⟨ref, hmap, hjref⟩ := h.entry j ⟨hnext.lt_count, Or.inl hlater⟩
  have hfind : store.findOrCreate f.info.onWire = (ref, store) := by
    unfold DataStore.findOrCreate
    rw [hsid, hmap]
  refine ⟨ref, store, hfind, by rw [hjref, record_of_header hpos.le], ?_⟩
  refine ⟨h.le, h.under_reach hnext _, hdistinct, ?_, ?_, h.refs, h.used, ?_,
    h.log.imp fun _ hlog => ⟨hlog.1, hlog.2, hlog.3⟩⟩
  · intro i hi
    by_cases hij : i = j
    · rw [hij, hrec]
      exact ⟨ref, hmap, hjref⟩
    · rw [record_reach_of_ne hij]
      exact h.entry i ((open_reach_of_ne hij).1 hi)
  · intro sid ref' hmap'
    obtain ⟨i, hi, hisid⟩ := h.only sid ref' hmap'
    by_cases hij : i = j
    · exact ⟨j, hself, by rw [← hisid, hij]⟩
    · exact ⟨i, (open_reach_of_ne hij).2 hi, hisid⟩
  · intro i hi
    by_cases hij : i = j
    · rw [hij]
      exact ⟨ref, hmap, by simp⟩
    · rw [reach_pos_of_ne p hij] at hi
      obtain ⟨ref', hmap', hbuff⟩ := h.ext i hi
      exact ⟨ref', hmap', (hnext.extBuff_other hij hi _).trans hbuff⟩

/-- **After the header of a chunk the map leads to the record of its message**, which is created
when this is its first chunk. -/
theorem StoreOk.setup (h : arr.StoreOk p store) (hnext : arr.Next p j f)
    (hpos : p.pos j < channelMsgHeaderlen)
    (hdistinct : arr.Distinct (p.reach j channelMsgHeaderlen)) :
    ∃ ref store', store.findOrCreate f.info.onWire = (ref, store') ∧
      store'.records ref = some ((arr.msg j).record arr.dstId (p.done j) []) ∧
      arr.StoreOk (p.reach j channelMsgHeaderlen) (store'.setExtBuff (arr.chan j)
        (some (ref, (((arr.msg j).sent arr.dstId (p.done j)).length : ℤ)))) := by
  have hsid : f.info.onWire.sid = arr.sid j := by
    rw [hnext.info]
    rfl
  rcases Nat.eq_zero_or_pos (p.done j) with hfirst | hlater
  · exact h.setup_new hnext hsid hpos hdistinct hfirst
  · exact h.setup_open hnext hsid hpos hdistinct hlater

/-! ### Reading a body -/

omit [DecidableEq κ] in
/-- **The bytes of a body are written into the buffer of their message**, where its record has room
for them. -/
theorem StoreOk.recv (h : arr.StoreOk p store) (hnext : arr.Next p j f)
    (hpos : channelMsgHeaderlen ≤ p.pos j) {got' : List Byte} {n : ℕ} (hn : channelMsgHeaderlen ≤ n)
    (hbytes : arr.got p j ++ got' = f.body.take (n - channelMsgHeaderlen)) :
    ∃ store', store.recvInto (arr.chan j) (arr.got p j).length got' = Except.ok store' ∧
      arr.StoreOk (p.reach j n) store' := by
  have hlt := hnext.lt_count
  have hopen : ∀ i, arr.Open (p.reach j n) i ↔ arr.Open p i := by
    intro i
    by_cases hij : i = j
    · subst hij
      rw [open_reach_self]
      exact ⟨fun hi => ⟨hi.1, Or.inr hpos⟩, fun hi => ⟨hi.1, Or.inr hn⟩⟩
    · exact open_reach_of_ne hij
  obtain ⟨ref, hmap, hext⟩ := h.ext j hpos
  obtain ⟨ref', hmap', hrec⟩ := h.entry j ⟨hlt, Or.inr hpos⟩
  obtain rfl : ref = ref' := Option.some.inj (hmap.symm.trans hmap')
  have hfit : ((arr.msg j).sent arr.dstId (p.done j)).length + (arr.got p j ++ got').length ≤
      (arr.msg j).buff.length := by
    have hle := DataSend.sent_length_le hnext.chunk
    have htake := List.length_take_le (n - channelMsgHeaderlen) f.body
    rw [hbytes, List.length_take]
    omega
  have hnew : arr.record (p.reach j n) j =
      (arr.msg j).record arr.dstId (p.done j) (arr.got p j ++ got') := by
    have hbody : arr.body (p.reach j n) j = f.body := hnext.body_eq
    unfold record got
    rw [hbody, reach_pos_self, ← hbytes]
    rfl
  refine ⟨_, DataStore.recvInto_record hext hrec hfit, h.le, h.under_reach hnext n, ?_, ?_, ?_,
    h.refs, ?_, ?_,
    h.log.imp fun _ hlog => ⟨hlog.1, hlog.2, hlog.3⟩⟩
  · intro i i' hi hi'
    exact h.distinct i i' ((hopen i).1 hi) ((hopen i').1 hi')
  · intro i hi
    by_cases hij : i = j
    · rw [hij, hnew]
      exact ⟨ref, hmap, by simp⟩
    · obtain ⟨iref, himap, hirec⟩ := h.entry i ((hopen i).1 hi)
      have hne : iref ≠ ref := by
        rintro rfl
        exact hij (h.distinct i j ((hopen i).1 hi) ⟨hlt, Or.inr hpos⟩ (h.refs _ _ _ himap hmap))
      rw [record_reach_of_ne hij]
      exact ⟨iref, himap, by simpa [Function.update_of_ne hne] using hirec⟩
  · intro sid ref' hmap'
    obtain ⟨i, hi, hsid⟩ := h.only sid ref' hmap'
    exact ⟨i, (hopen i).2 hi, hsid⟩
  · intro ref' hused
    by_cases href : ref' = ref
    · exact href ▸ h.used ref (by rw [hrec]; nofun)
    · exact h.used ref' (by simpa [Function.update_of_ne href] using hused)
  · intro i hi
    by_cases hij : i = j
    · rw [hij]
      exact ⟨ref, hmap, hext⟩
    · rw [reach_pos_of_ne p hij] at hi
      exact h.ext i hi

/-! ### A chunk is complete -/

@[simp] theorem finish_done_self (p : Progress ι) (j : ι) : (p.finish j).done j = p.done j + 1 :=
  Function.update_self _ _ _

@[simp] theorem finish_pos_self (p : Progress ι) (j : ι) : (p.finish j).pos j = 0 :=
  Function.update_self _ _ _

theorem finish_done_of_ne (p : Progress ι) (hij : i ≠ j) : (p.finish j).done i = p.done i :=
  Function.update_of_ne hij _ _

theorem finish_pos_of_ne (p : Progress ι) (hij : i ≠ j) : (p.finish j).pos i = p.pos i :=
  Function.update_of_ne hij _ _

section

omit [DecidableEq κ]

theorem open_finish_of_ne (hij : i ≠ j) : arr.Open (p.finish j) i ↔ arr.Open p i := by
  unfold Open
  rw [finish_done_of_ne p hij, finish_pos_of_ne p hij]

theorem open_finish_self : arr.Open (p.finish j) j ↔ p.done j + 1 < arr.count j := by
  unfold Open
  rw [finish_done_self, finish_pos_self]
  exact ⟨fun h => h.1, fun h => ⟨h, Or.inl (Nat.succ_pos _)⟩⟩

theorem record_finish_of_ne (hij : i ≠ j) : arr.record (p.finish j) i = arr.record p i := by
  unfold record got body
  rw [finish_done_of_ne p hij, finish_pos_of_ne p hij]

theorem record_finish_self : arr.record (p.finish j) j =
    (arr.msg j).record arr.dstId (p.done j + 1) [] := by
  rw [record_of_header (by rw [finish_pos_self]; exact Nat.zero_le _), finish_done_self]

end

theorem queue_push (queues : DataQueues) (msg : DataMsg) (i : ℤ) :
    (queues.push msg).queue i = queues.queue i ++ if i = msg.srcId then [msg] else [] := by
  refine (DataQueues.queue_setQueue queues msg.srcId (queues.queue msg.srcId ++ [msg]) i).trans ?_
  split
  · rename_i hi
    rw [hi]
  · rw [List.append_nil]

section

omit [DecidableEq κ]

/-- A message that is delivered comes behind those before it. -/
theorem Delivered.push {queues : DataQueues} {log : List ι} (h : arr.Delivered p queues log)
    (hlast : p.done j + 1 = arr.count j) :
    arr.Delivered (p.finish j) (queues.push ((arr.msg j).delivered arr.dstId)) (log ++ [j]) := by
  have hj : j ∉ log := fun hj => by
    have hdone := (h.mem j).1 hj
    omega
  refine ⟨?_, ?_, ?_⟩
  · rw [List.nodup_append]
    refine ⟨h.nodup, List.nodup_singleton j, ?_⟩
    rintro i hi i' hi' rfl
    exact hj (List.mem_singleton.1 hi' ▸ hi)
  · intro i
    rw [List.mem_append, List.mem_singleton]
    by_cases hij : i = j
    · rw [hij, finish_done_self]
      exact ⟨fun _ => hlast, fun _ => Or.inr rfl⟩
    · rw [finish_done_of_ne p hij, ← h.mem i]
      exact ⟨fun hi => hi.resolve_right hij, Or.inl⟩
  · intro i
    rw [queue_push, h.queue, List.filter_append, List.map_append]
    congr 1
    change (if i = ((arr.msg j).srcId : ℤ) then _ else _) = _
    by_cases hi : i = (arr.msg j).srcId
    · rw [if_pos hi, List.filter_singleton, hi]
      simp
    · rw [if_neg hi, List.filter_singleton]
      simp [Ne.symm hi]

/-- The messages delivered do not change with a chunk that is not the last of its message. -/
theorem Delivered.keep {queues : DataQueues} {log : List ι} (h : arr.Delivered p queues log)
    (hlast : p.done j + 1 < arr.count j) : arr.Delivered (p.finish j) queues log := by
  refine ⟨h.nodup, fun i => ?_, h.queue⟩
  rw [h.mem i]
  by_cases hij : i = j
  · rw [hij, finish_done_self]
    omega
  · rw [finish_done_of_ne p hij]

theorem finish_done_le (h : arr.StoreOk p store) (hnext : arr.Next p j f) (i : ι) :
    (p.finish j).done i ≤ arr.count i := by
  by_cases hij : i = j
  · rw [hij, finish_done_self]
    exact hnext.lt_count
  · rw [finish_done_of_ne p hij]
    exact h.le i

theorem StoreOk.under_finish (h : arr.StoreOk p store) (j : ι) :
    ∀ i, (p.finish j).pos i ≠ 0 → (p.finish j).done i < arr.count i := by
  intro i hi
  by_cases hij : i = j
  · rw [hij, finish_pos_self] at hi
    exact absurd rfl hi
  · rw [finish_pos_of_ne p hij] at hi
    rw [finish_done_of_ne p hij]
    exact h.under i hi

end

/-- No chunk of the message `j` is being read after one is complete. -/
theorem ne_of_finish_pos (hi : channelMsgHeaderlen ≤ (p.finish j).pos i) : i ≠ j := by
  rintro rfl
  rw [finish_pos_self] at hi
  exact absurd hi (by decide)

omit [DecidableEq κ] in
/-- The messages that are open afterwards were open before. -/
theorem open_of_finish (hopen : arr.Open p j) (hi : arr.Open (p.finish j) i) : arr.Open p i := by
  by_cases hij : i = j
  · rw [hij]
    exact hopen
  · exact (open_finish_of_ne hij).1 hi

omit [DecidableEq κ] [DecidableEq ι] in
/-- The records of two open messages are two records. -/
theorem StoreOk.other (h : arr.StoreOk p store) (hopen : arr.Open p j) {ref iref : ℕ}
    (hmap : store.dataMsgMap (arr.sid j) = some ref) (hij : i ≠ j) (hi : arr.Open p i)
    (himap : store.dataMsgMap (arr.sid i) = some iref) :
    arr.sid i ≠ arr.sid j ∧ iref ≠ ref := by
  have hne : arr.sid i ≠ arr.sid j := fun he => hij (h.distinct i j hi hopen he)
  refine ⟨hne, ?_⟩
  rintro rfl
  exact hne (h.refs _ _ _ himap hmap)

omit [DecidableEq κ] in
/-- The last chunk: the message goes to its queue, and its record is taken out. -/
theorem StoreOk.handle_last (h : arr.StoreOk p store) (hnext : arr.Next p j f)
    (hopen : arr.Open p j) {ref : ℕ} (hmap : store.dataMsgMap (arr.sid j) = some ref)
    (hlast : p.done j + 1 = arr.count j) :
    arr.StoreOk (p.finish j) (store.popRecord (arr.sid j) ref
      (store.queues.push ((arr.msg j).delivered arr.dstId))) := by
  have hclosed : ¬ arr.Open (p.finish j) j := fun hj => absurd (open_finish_self.1 hj) (by omega)
  have hopen_ne : ∀ {i : ι}, arr.Open (p.finish j) i → i ≠ j := by
    rintro i hi rfl
    exact hclosed hi
  -- what is in the map afterwards was there before, for another message
  have hold : ∀ {sid : BitVec 64} {iref : ℕ},
      Function.update store.dataMsgMap (arr.sid j) none sid = some iref →
        sid ≠ arr.sid j ∧ store.dataMsgMap sid = some iref := by
    intro sid iref hs
    by_cases hsj : sid = arr.sid j
    · rw [hsj, Function.update_self] at hs
      cases hs
    · rw [Function.update_of_ne hsj] at hs
      exact ⟨hsj, hs⟩
  obtain ⟨log, hlog⟩ := h.log
  refine ⟨finish_done_le h hnext, h.under_finish j,
    fun i i' hi hi' => h.distinct i i' (open_of_finish hopen hi) (open_of_finish hopen hi'),
    ?_, ?_, ?_, ?_, ?_, ⟨log ++ [j], hlog.push hlast⟩⟩
  · intro i hi
    have hij := hopen_ne hi
    have hi := open_of_finish hopen hi
    obtain ⟨iref, himap, hirec⟩ := h.entry i hi
    obtain ⟨hne, hrne⟩ := h.other hopen hmap hij hi himap
    rw [record_finish_of_ne hij]
    exact ⟨iref, by simpa [Function.update_of_ne hne] using himap,
      by simpa [Function.update_of_ne hrne] using hirec⟩
  · intro sid iref himap
    obtain ⟨hne, himap⟩ := hold himap
    obtain ⟨i, hi, hisid⟩ := h.only sid iref himap
    have hij : i ≠ j := fun hij => hne (by rw [← hisid, hij])
    exact ⟨i, (open_finish_of_ne hij).2 hi, hisid⟩
  · intro sid sid' iref hs hs'
    exact h.refs sid sid' iref (hold hs).2 (hold hs').2
  · intro iref hused
    by_cases href : iref = ref
    · rw [href] at hused
      simp at hused
    · obtain ⟨hlt', sid, himap⟩ :=
        h.used iref (by simpa [Function.update_of_ne href] using hused)
      have hne : sid ≠ arr.sid j := by
        rintro rfl
        exact href (Option.some.inj (himap.symm.trans hmap))
      exact ⟨hlt', sid, by simpa [Function.update_of_ne hne] using himap⟩
  · intro i hi
    have hij := ne_of_finish_pos hi
    rw [finish_pos_of_ne p hij] at hi
    rw [finish_done_of_ne p hij]
    obtain ⟨iref, himap, hext⟩ := h.ext i hi
    have hiopen : arr.Open p i :=
      ⟨h.under i (by unfold channelMsgHeaderlen at hi; omega), Or.inr hi⟩
    have hne := (h.other hopen hmap hij hiopen himap).1
    exact ⟨iref, by simpa [Function.update_of_ne hne] using himap, hext⟩

omit [DecidableEq κ] in
/-- A chunk that is not the last: the record goes on. -/
theorem StoreOk.handle_more (h : arr.StoreOk p store) (hnext : arr.Next p j f)
    (hopen : arr.Open p j) {ref : ℕ} (hmap : store.dataMsgMap (arr.sid j) = some ref)
    (hrec : store.records ref ≠ none) (hmore : p.done j + 1 < arr.count j) :
    arr.StoreOk (p.finish j)
      (store.setRecord ref (some ((arr.msg j).record arr.dstId (p.done j + 1) []))) := by
  obtain ⟨log, hlog⟩ := h.log
  refine ⟨finish_done_le h hnext, h.under_finish j,
    fun i i' hi hi' => h.distinct i i' (open_of_finish hopen hi) (open_of_finish hopen hi'),
    ?_, ?_, h.refs, ?_, ?_, ⟨log, hlog.keep hmore⟩⟩
  · intro i hi
    by_cases hij : i = j
    · rw [hij, record_finish_self]
      exact ⟨ref, hmap, by simp⟩
    · have hi := open_of_finish hopen hi
      obtain ⟨iref, himap, hirec⟩ := h.entry i hi
      obtain ⟨_, hrne⟩ := h.other hopen hmap hij hi himap
      rw [record_finish_of_ne hij]
      exact ⟨iref, himap, by simpa [Function.update_of_ne hrne] using hirec⟩
  · intro sid iref himap
    obtain ⟨i, hi, hisid⟩ := h.only sid iref himap
    by_cases hij : i = j
    · exact ⟨j, open_finish_self.2 hmore, by rw [← hisid, hij]⟩
    · exact ⟨i, (open_finish_of_ne hij).2 hi, hisid⟩
  · intro iref hused
    by_cases href : iref = ref
    · exact href ▸ h.used ref hrec
    · exact h.used iref (by simpa [Function.update_of_ne href] using hused)
  · intro i hi
    have hij := ne_of_finish_pos hi
    rw [finish_pos_of_ne p hij] at hi
    rw [finish_done_of_ne p hij]
    exact h.ext i hi

omit [DecidableEq κ] in
/-- **With its last chunk a message is delivered and its record is gone.** -/
theorem StoreOk.handle (h : arr.StoreOk p store) (hnext : arr.Next p j f)
    (hpos : channelMsgHeaderlen ≤ p.pos j) (hfull : arr.got p j = f.body) {header : MsgInfo}
    {chunk : MsgBuff} (hsid : header.sid = arr.sid j) (hsrc : header.srcId = (arr.msg j).srcId)
    (hseq : header.seq = p.done j) (hlen : chunk.len = f.body.length) :
    ∃ store', store.commNodeHandleChunk header chunk = Except.ok store' ∧
      arr.StoreOk (p.finish j) store' := by
  have hlt := hnext.lt_count
  have hopen : arr.Open p j := ⟨hlt, Or.inr hpos⟩
  obtain ⟨ref, hmap, hrec⟩ := h.entry j hopen
  have hrec' : store.records ref = some ((arr.msg j).record arr.dstId (p.done j) f.body) := by
    rw [hrec, record, hfull]
  have hhandle : store.commNodeHandleChunk header chunk = Except.ok
      (if p.done j + 1 = arr.count j then store.popRecord (arr.sid j) ref
        (store.queues.push ((arr.msg j).delivered arr.dstId))
      else store.setRecord ref (some ((arr.msg j).record arr.dstId (p.done j + 1) []))) :=
    DataStore.commNodeHandleChunk_record hnext.chunk hsid hsrc hseq hlen hmap hrec'
  refine ⟨_, hhandle, ?_⟩
  split
  · rename_i hlast
    exact h.handle_last hnext hopen hmap hlast
  · rename_i hlast
    refine h.handle_more hnext hopen hmap ?_ (lt_of_le_of_ne hlt hlast)
    rw [hrec]
    exact nofun

/-! ### Channels -/

variable {bo : ByteOrder} {node node' : CommNode κ} {chan chan' : Channel κ}

omit [DecidableEq κ] [DecidableEq ι] in
theorem Idle.reading (h : Idle chan) (f : Frame) : Reading bo arr.dstId chan f [] :=
  Reading.header h.1 h.2 (by decide) rfl

omit [DecidableEq κ] [DecidableEq ι] in
theorem Reading.idle (h : Reading bo arr.dstId chan f []) : Idle chan := by
  generalize hr : ([] : List Byte) = r at h
  cases h with
  | header hcurr hoff =>
      subst hr
      exact ⟨hcurr, hoff⟩
  | body =>
      have hlen := congrArg List.length hr
      simp only [List.length_nil, List.length_append, packHeader_length, channelMsgHeaderlen] at hlen
      omega

/-- The channel of a chunk has read as much of it as has arrived. -/
structure ChansOk (arr : Arrivals κ ι) (bo : ByteOrder) (p : Progress ι) (node : CommNode κ) :
    Prop where
  nodeId : node.nodeId = arr.dstId
  reading : ∀ j f, arr.Next p j f → ∃ chan, node.man.heap (arr.chan j) = some chan ∧
    Reading bo arr.dstId chan f ((f.encode bo).take (p.pos j))

omit [DecidableEq κ] in
theorem Next.reach (h : arr.Next p j f) (n : ℕ) : arr.Next (p.reach j n) j f where
  chunk := h.chunk
  alone := fun i hc hij => by
    rw [reach_pos_of_ne p hij]
    exact h.alone i hc hij

omit [DecidableEq ι] in
/-- The chunks on other channels are the same as before a channel has been read. -/
theorem ChansOk.other (h : ChansOk arr bo p node) {q : Progress ι}
    (hq : ∀ i, i ≠ j → q.done i = p.done i ∧ q.pos i = p.pos i) (hij : arr.chan i ≠ arr.chan j)
    {g : Frame} (hnext : arr.Next q i g)
    (hheap : node'.man.heap = Function.update node.man.heap (arr.chan j) (some chan')) :
    ∃ chan, node'.man.heap (arr.chan i) = some chan ∧
      Reading bo arr.dstId chan g ((g.encode bo).take (q.pos i)) := by
  have hne : i ≠ j := fun he => hij (by rw [he])
  have hold : arr.Next p i g := by
    refine ⟨?_, fun i' hc hi' => ?_⟩
    · rw [← (hq i hne).1]
      exact hnext.chunk
    · have hi'j : i' ≠ j := fun he => hij (by rw [← hc, he])
      rw [← (hq i' hi'j).2]
      exact hnext.alone i' hc hi'
  obtain ⟨chan, hchan, hreading⟩ := h.reading i g hold
  refine ⟨chan, ?_, ?_⟩
  · rw [hheap, Function.update_of_ne hij]
    exact hchan
  · rw [(hq i hne).2]
    exact hreading

/-- A channel has read more of its chunk. -/
theorem ChansOk.reach (h : ChansOk arr bo p node) (hnext : arr.Next p j f)
    (hid : node'.nodeId = arr.dstId)
    (hheap : node'.man.heap = Function.update node.man.heap (arr.chan j) (some chan'))
    (hreading : Reading bo arr.dstId chan' f ((f.encode bo).take n)) :
    ChansOk arr bo (p.reach j n) node' := by
  refine ⟨hid, fun i g hi => ?_⟩
  by_cases hc : arr.chan i = arr.chan j
  · refine ⟨chan', by rw [hheap, hc, Function.update_self], ?_⟩
    by_cases hij : i = j
    · subst hij
      obtain rfl : g = f := Option.some.inj (hi.chunk.symm.trans hnext.chunk)
      rw [reach_pos_self]
      exact hreading
    · -- another chunk can only be next on this channel while it has read nothing
      have hn : n = 0 := by
        have hn := hi.alone j hc.symm (Ne.symm hij)
        rwa [reach_pos_self] at hn
      rw [hn, List.take_zero] at hreading
      rw [reach_pos_of_ne p hij, hnext.alone i hc hij, List.take_zero]
      exact (Reading.idle hreading).reading g
  · exact h.other (q := p.reach j n) (fun i hij => ⟨rfl, reach_pos_of_ne p hij n⟩) hc hi hheap

/-- A channel has read its chunk. -/
theorem ChansOk.finish (h : ChansOk arr bo p node) (hnext : arr.Next p j f)
    (hid : node'.nodeId = arr.dstId)
    (hheap : node'.man.heap = Function.update node.man.heap (arr.chan j) (some chan'))
    (hidle : Idle chan') : ChansOk arr bo (p.finish j) node' := by
  refine ⟨hid, fun i g hi => ?_⟩
  by_cases hc : arr.chan i = arr.chan j
  · refine ⟨chan', by rw [hheap, hc, Function.update_self], ?_⟩
    have hpos : (p.finish j).pos i = 0 := by
      by_cases hij : i = j
      · rw [hij, finish_pos_self]
      · rw [finish_pos_of_ne p hij, hnext.alone i hc hij]
    rw [hpos, List.take_zero]
    exact hidle.reading g
  · exact h.other (fun i hij => ⟨finish_done_of_ne p hij, finish_pos_of_ne p hij⟩) hc hi hheap

/-- A channel has read more of its chunk, or all of it. -/
theorem ChansOk.advance (h : ChansOk arr bo p node) (hnext : arr.Next p j f)
    (hid : node'.nodeId = node.nodeId)
    (hheap : node'.man.heap = Function.update node.man.heap (arr.chan j) (some chan'))
    (hfull : n = (f.encode bo).length → Idle chan')
    (hpart : n ≠ (f.encode bo).length → Reading bo arr.dstId chan' f ((f.encode bo).take n)) :
    ChansOk arr bo (p.advance bo j f n) node' := by
  unfold Progress.advance
  by_cases hn : n = (f.encode bo).length
  · rw [if_pos hn]
    exact h.finish hnext (hid.trans h.nodeId) hheap (hfull hn)
  · rw [if_neg hn]
    exact h.reach hnext (hid.trans h.nodeId) hheap (hpart hn)

/-! ### A read -/

theorem reach_reach (p : Progress ι) (j : ι) (m n : ℕ) :
    (p.reach j m).reach j n = p.reach j n := by
  simp [Progress.reach]

theorem reach_finish (p : Progress ι) (j : ι) (n : ℕ) : (p.reach j n).finish j = p.finish j := by
  simp [Progress.finish, Progress.reach]

theorem reach_advance (p : Progress ι) (j : ι) (f : Frame) (m n : ℕ) :
    (p.reach j m).advance bo j f n = p.advance bo j f n := by
  unfold Progress.advance
  rw [reach_finish, reach_reach]

/-- What a read from the state `p` has done that has taken the chunk `f` up to `n` bytes. -/
structure ReadOk (arr : Arrivals κ ι) (bo : ByteOrder) (p : Progress ι) (j : ι) (f : Frame)
    (node node' : CommNode κ) (store' : DataStore κ) (n : ℕ) : Prop where
  store : arr.StoreOk (p.advance bo j f n) store'
  nodeId : node'.nodeId = node.nodeId
  chan : ∃ chan', node'.man.heap = Function.update node.man.heap (arr.chan j) (some chan') ∧
    (n = (f.encode bo).length → Idle chan') ∧
    (n ≠ (f.encode bo).length → Reading bo arr.dstId chan' f ((f.encode bo).take n))

theorem heap_modify_put (man : Ioman κ) (c : κ) (chan : Channel κ) (g : Channel κ → Channel κ) :
    ((man.put c chan).modify c g).heap = Function.update man.heap c (some (g chan)) := by
  funext x
  by_cases hx : x = c
  · subst hx
    simp [Ioman.modify, Ioman.put]
  · simp [Ioman.modify, Ioman.put, hx]

omit [DecidableEq ι] in
/-- A chunk for this node is complete. -/
theorem iomanReadDone_own (now : ℚ) (node : CommNode κ) (hnext : arr.Next p j f)
    (hid : node.nodeId = arr.dstId) (hinfo : chan.msgInfo = f.seen f.body.length) (c : κ)
    (msg : MsgBuff) :
    ∃ node', iomanReadDone bo now node c chan msg = Except.ok node' ∧
      node'.man = node.man.modify c (Channel.setCurrBuff none) := by
  have hkind : chan.msgInfo.kind = MsgKind.data.toInt := by
    rw [hinfo, Frame.seen_kind, hnext.info]
    rfl
  have hdst : chan.msgInfo.dstId = node.nodeId := by
    rw [hinfo, Frame.seen_dstId, hnext.info, hid]
    rfl
  have hsid : chan.msgInfo.sid ≠ -1 := by
    rw [hinfo, Frame.seen_sid, hnext.info]
    exact (arr.msg j).wireSid_ne
  have hremain : chan.msgInfo.remain = 0 := by
    rw [hinfo]
    simp [Frame.seen, hnext.ok.len]
  unfold iomanReadDone commNodeHandleChunk
  rw [if_pos hkind, if_pos hdst, cAssert_of hsid, ok_bind, ok_bind, cAssert_of hremain, ok_bind]
  exact ⟨_, rfl, rfl⟩

/-- **The body of a chunk is read in pieces.** -/
theorem StoreOk.read_body (now : ℚ) (h : arr.StoreOk p store) (hnext : arr.Next p j f)
    (hid : node.nodeId = arr.dstId)
    (hpos : p.pos j = channelMsgHeaderlen + (arr.got p j).length)
    (hcurr : chan.currBuff = some (f.buff bo arr.dstId (arr.got p j)))
    (hoff : chan.headerOff = 0) (hinfo : chan.msgInfo = f.seen (arr.got p j).length)
    (bursts : List (List Byte)) {more tail : List Byte}
    (hbytes : arr.got p j ++ bursts.flatten ++ more = f.body ++ tail) :
    ∃ node' store' bursts' n, DataStore.iomanReadBody bo now node store (arr.chan j) chan
        (dataScript bursts) = Except.ok (true, node', store', dataScript bursts') ∧
      n + bursts'.flatten.length = p.pos j + bursts.flatten.length ∧
      ReadOk arr bo p j f node node' store' n := by
  have hkind : f.info.kind = MsgKind.data.toInt := by
    rw [hnext.info]
    rfl
  have hdst : f.info.dstId = arr.dstId := by
    rw [hnext.info]
    rfl
  have hgot : (arr.got p j).length ≤ f.body.length := by
    unfold got
    rw [hnext.body_eq, List.length_take]
    exact min_le_right _ _
  have hstart : f.start bo arr.dstId = [] := Frame.start_of_dst hdst
  obtain ⟨got', bursts', stat, hflat, hle, hstat, hread⟩ :=
    channelReadBody_data bursts hnext.ok.len hcurr hinfo hgot
  rw [if_neg (show ¬ (_ ∧ f.info.kind ≠ _) from fun hc => hc.2 hkind)] at hread
  set chan₁ : Channel κ := { chan with
    msgInfo := f.seen (arr.got p j ++ got').length
    currBuff := some (f.buff bo arr.dstId (arr.got p j ++ got')) } with hchan₁
  -- what has been read of the body is the beginning of it
  have hpre : arr.got p j ++ got' = f.body.take (arr.got p j ++ got').length := by
    refine List.prefix_iff_eq_take.1 (List.prefix_of_prefix_length_le ?_
      (List.prefix_append f.body tail) hle)
    rw [← hbytes, hflat, ← List.append_assoc, List.append_assoc (arr.got p j ++ got')]
    exact List.prefix_append _ _
  obtain ⟨store₁, hrecv, hstore₁⟩ := h.recv hnext (by omega)
    (n := channelMsgHeaderlen + (arr.got p j ++ got').length) (Nat.le_add_right _ _)
    (by rw [Nat.add_sub_cancel_left]; exact hpre)
  have hbuffered : chan.buffered = arr.got p j := by
    simp [Channel.buffered, hcurr, Frame.buff, hstart]
  have hbuffered₁ : chan₁.buffered.drop (arr.got p j).length = got' := by
    simp [Channel.buffered, hchan₁, Frame.buff, hstart]
  have hcount : channelMsgHeaderlen + (arr.got p j ++ got').length + bursts'.flatten.length =
      p.pos j + bursts.flatten.length := by
    rw [hpos, hflat, List.length_append, List.length_append]
    omega
  unfold DataStore.iomanReadBody
  dsimp only
  rw [hbuffered, hread, ok_bind]
  dsimp only
  rw [hbuffered₁, hrecv, ok_bind]
  by_cases hfull : (arr.got p j ++ got').length = f.body.length
  · -- the chunk is complete
    have hn : channelMsgHeaderlen + (arr.got p j ++ got').length = (f.encode bo).length := by
      rw [Frame.encode_length, hfull]
    have hbody : arr.got p j ++ got' = f.body := by
      rw [hpre, hfull, List.take_length]
    have hgot₁ : arr.got (p.reach j (channelMsgHeaderlen + (arr.got p j ++ got').length)) j =
        f.body := by
      have hbody₁ : arr.body (p.reach j (channelMsgHeaderlen + (arr.got p j ++ got').length)) j =
          f.body := hnext.body_eq
      unfold got at *
      rw [hbody₁, reach_pos_self, Nat.add_sub_cancel_left, hfull, List.take_length]
    have hinfo₁ : chan₁.msgInfo = f.seen f.body.length := by
      rw [hchan₁, hfull]
    have hsid : chan₁.msgInfo.sid = arr.sid j := by
      rw [hinfo₁, Frame.seen_sid, hnext.info]
      rfl
    have hsrc : chan₁.msgInfo.srcId = (arr.msg j).srcId := by
      rw [hinfo₁, Frame.seen_srcId, hnext.info]
      rfl
    have hseq : chan₁.msgInfo.seq = p.done j := by
      rw [hinfo₁]
      change f.info.seq = p.done j
      rw [hnext.info]
      rfl
    have hlen : (f.buff bo arr.dstId (arr.got p j ++ got')).len = f.body.length := by
      simp [Frame.buff, hstart]
    obtain ⟨store₂, hhandle, hstore₂⟩ := hstore₁.handle (hnext.reach _)
      (by rw [reach_pos_self]; exact Nat.le_add_right _ _) hgot₁ hsid hsrc hseq hlen
    obtain ⟨node₂, hdone, hman⟩ := iomanReadDone_own now
      (node.setMan (node.man.put (arr.chan j) chan₁)) hnext hid hinfo₁ (arr.chan j)
      (f.buff bo arr.dstId (arr.got p j ++ got'))
    have hkind₁ : chan₁.msgInfo.kind = MsgKind.data.toInt ∧
        chan₁.msgInfo.dstId = (node.setMan (node.man.put (arr.chan j) chan₁)).nodeId := by
      refine ⟨?_, ?_⟩
      · rw [hinfo₁, Frame.seen_kind]
        exact hkind
      · rw [hinfo₁, Frame.seen_dstId, hdst]
        exact hid.symm
    refine ⟨node₂, store₂, bursts', _, ?_, hcount, ?_, ?_, chan₁.setCurrBuff none, ?_, ?_, ?_⟩
    · rw [if_pos hfull]
      dsimp only
      unfold DataStore.iomanReadDone
      rw [if_pos hkind₁, hhandle, ok_bind, hdone]
      rfl
    · unfold Progress.advance
      rw [if_pos hn, ← reach_finish p j _]
      exact hstore₂
    · rw [CommNode.nodeId, hman]
      rfl
    · rw [hman]
      exact heap_modify_put node.man (arr.chan j) chan₁ _
    · exact fun _ => ⟨rfl, hoff⟩
    · exact fun hne => absurd hn hne
  · -- a part of the chunk is missing
    have hn : channelMsgHeaderlen + (arr.got p j ++ got').length ≠ (f.encode bo).length := by
      rw [Frame.encode_length]
      omega
    have htake : (f.encode bo).take (channelMsgHeaderlen + (arr.got p j ++ got').length) =
        packHeader bo f.info ++ (arr.got p j ++ got') := by
      have hheader : (packHeader bo f.info).take
          (channelMsgHeaderlen + (arr.got p j ++ got').length) = packHeader bo f.info :=
        List.take_of_length_le (by rw [packHeader_length]; exact Nat.le_add_right _ _)
      rw [Frame.encode, List.take_append, packHeader_length, hheader, Nat.add_sub_cancel_left,
        ← hpre]
    refine ⟨node.setMan (node.man.put (arr.chan j) chan₁), store₁, bursts', _, ?_, hcount, ?_, rfl,
      chan₁, rfl, ?_, ?_⟩
    · rw [if_neg hfull]
      dsimp only
      rw [decide_eq_true hstat]
    · unfold Progress.advance
      rw [if_neg hn]
      exact hstore₁
    · exact fun he => absurd he hn
    · intro _
      rw [htake]
      exact Reading.body rfl hoff rfl (lt_of_le_of_ne hle hfull)

omit [DecidableEq κ] [DecidableEq ι] in
theorem got_of_header (h : p.pos j ≤ channelMsgHeaderlen) : arr.got p j = [] := by
  unfold got
  rw [Nat.sub_eq_zero_of_le h, List.take_zero]

/-- After the header of a chunk for this node, its channel reads into the record of its message. -/
theorem StoreOk.iomanSetupRead_own (h : arr.StoreOk p store) (hnext : arr.Next p j f)
    (hpos : p.pos j < channelMsgHeaderlen)
    (hdistinct : arr.Distinct (p.reach j channelMsgHeaderlen)) (hcurr : chan.currBuff = none)
    (hinfo : chan.msgInfo = f.info.onWire) (hbuff : chan.headerBuff = packHeader bo f.info) :
    ∃ store', store.iomanSetupRead arr.dstId (arr.chan j) chan =
        Except.ok (store', chan.setCurrBuff (some (f.buff bo arr.dstId []))) ∧
      arr.StoreOk (p.reach j channelMsgHeaderlen) store' := by
  obtain ⟨ref, store', hfind, hrec, hstore'⟩ := h.setup hnext hpos hdistinct
  have hkind : chan.msgInfo.kind = MsgKind.data.toInt := by
    rw [hinfo, hnext.info]
    rfl
  have hdst : chan.msgInfo.dstId = arr.dstId := by
    rw [hinfo, hnext.info]
    rfl
  have hsid : chan.msgInfo.sid ≠ -1 := by
    rw [hinfo, hnext.info]
    exact (arr.msg j).wireSid_ne
  have hsetup := @iomanSetupRead_eq κ bo arr.dstId chan f hnext.ok hinfo hbuff hcurr
  unfold iomanSetupRead commNodeSetupChunk at hsetup
  rw [if_pos hkind, if_pos hdst, cAssert_of hsid, ok_bind] at hsetup
  refine ⟨_, ?_, hstore'⟩
  unfold DataStore.iomanSetupRead DataStore.commNodeSetupChunk
  rw [if_pos ⟨hkind, hdst⟩, cAssert_of hsid, ok_bind, hinfo, hfind]
  dsimp only
  rw [DataStore.getRecord_eq hrec, ok_bind, hsetup, ok_bind]
  rfl

/-- **A channel that has read its chunk so far reads more of it**: it takes some bytes, and
everything stays in order. -/
theorem StoreOk.read_reading (now : ℚ) (h : arr.StoreOk p store) (hid : node.nodeId = arr.dstId)
    (hchan : node.man.heap (arr.chan j) = some chan)
    (hreading : Reading bo arr.dstId chan f ((f.encode bo).take (p.pos j)))
    {bursts : List (List Byte)} (hcall : arr.Call bo p j f bursts) :
    ∃ node' store' bursts' n, DataStore.iomanProcessChannelRead bo now node store (arr.chan j)
        (dataScript bursts) = Except.ok (true, node', store', dataScript bursts') ∧
      n + bursts'.flatten.length = p.pos j + bursts.flatten.length ∧
      ReadOk arr bo p j f node node' store' n := by
  have hnext := hcall.next
  have hok := hnext.ok
  obtain ⟨more, tail, hbytes⟩ := hcall.bytes
  have henc := @Frame.encode_length bo f
  have hbody := List.length_pos_iff.2 (DataSend.chunk_ne_nil hnext.chunk)
  have hall : (f.encode bo).take (p.pos j) ++ bursts.flatten ++ more = f.encode bo ++ tail := by
    rw [List.append_assoc, hbytes, ← List.append_assoc, List.take_append_drop]
  unfold DataStore.iomanProcessChannelRead
  rw [Ioman.get_eq_ok.2 hchan, ok_bind]
  generalize hr : (f.encode bo).take (p.pos j) = r at hreading hall
  have hrlen : r.length = min (p.pos j) (f.encode bo).length := by
    rw [← hr, List.length_take]
  cases hreading with
  | header hcurr hoff hlt htake =>
      have hpos : p.pos j = r.length := by omega
      rw [if_pos (by rw [hcurr]; rfl)]
      have hheader : r ++ bursts.flatten ++ more = packHeader bo f.info ++ (f.body ++ tail) := by
        rw [hall, Frame.encode, List.append_assoc]
      obtain ⟨bursts', ⟨headerBuff, r', hread, htake', hlt', hflat⟩ | ⟨hread, hflat⟩⟩ :=
        channelReadHeader_data bursts hok.fits hok.kind hoff hlt htake hheader
      · -- the header is not complete
        have hr' : (f.encode bo).take r'.length = r' := by
          refine (List.prefix_iff_eq_take.1 (List.prefix_of_prefix_length_le ?_
            (List.prefix_append (f.encode bo) tail) (by omega))).symm
          rw [← hall, hflat, List.append_assoc]
          exact List.prefix_append _ _
        have hn : r'.length ≠ (f.encode bo).length := by omega
        rw [hread, ok_bind]
        refine ⟨_, store, bursts', r'.length, rfl, ?_, ?_, rfl, _, rfl, ?_, ?_⟩
        · have hlen := congrArg List.length hflat
          rw [List.length_append, List.length_append] at hlen
          omega
        · unfold Progress.advance
          rw [if_neg hn]
          exact h.header hnext (hpos ▸ hlt) hlt'
        · exact fun he => absurd he hn
        · intro _
          rw [hr']
          exact Reading.header hcurr rfl hlt' htake'
      · -- the header is complete
        generalize hnew : ({ chan with
          headerBuff := packHeader bo f.info, headerOff := 0, msgInfo := f.info.onWire } :
          Channel κ) = chan₁ at hread
        have hcurr₁ : chan₁.currBuff = none := hnew ▸ hcurr
        have hoff₁ : chan₁.headerOff = 0 := hnew ▸ rfl
        have hinfo₁ : chan₁.msgInfo = f.info.onWire := hnew ▸ rfl
        have hbuff₁ : chan₁.headerBuff = packHeader bo f.info := hnew ▸ rfl
        have hlen := congrArg List.length hflat
        rw [List.length_append, List.length_append, packHeader_length] at hlen
        obtain ⟨store₁, hsetup, hstore₁⟩ := h.iomanSetupRead_own hnext (hpos ▸ hlt)
          (hcall.distinct channelMsgHeaderlen (by omega) (by omega) (by omega)) hcurr₁ hinfo₁ hbuff₁
        have hgot : arr.got (p.reach j channelMsgHeaderlen) j = [] :=
          got_of_header (reach_pos_self p j _).le
        rw [hread, ok_bind]
        dsimp only
        rw [if_pos rfl, hid, hsetup, ok_bind]
        dsimp only
        have hrest : arr.got (p.reach j channelMsgHeaderlen) j ++ bursts'.flatten ++ more =
            f.body ++ tail := by
          rw [hgot, List.nil_append]
          rw [hflat, List.append_assoc, List.append_cancel_left_eq] at hheader
          exact hheader
        obtain ⟨node', store', bursts'', n, hrun, hcount, hdone⟩ := hstore₁.read_body now
          (hnext.reach _) hid (by rw [hgot, reach_pos_self]; rfl)
          (show (chan₁.setCurrBuff (some (f.buff bo arr.dstId []))).currBuff = _ by rw [hgot]; rfl)
          hoff₁ (by rw [hgot]; exact hinfo₁.trans Frame.seen_zero.symm) bursts' hrest
        refine ⟨node', store', bursts'', n, hrun, ?_, ?_, hdone.nodeId, hdone.chan⟩
        · rw [reach_pos_self] at hcount
          omega
        · rw [← reach_advance p j f channelMsgHeaderlen n]
          exact hdone.store
  | @body got hcurr hoff hinfo hlt =>
      rw [List.length_append, packHeader_length] at hrlen
      have hpos : p.pos j = channelMsgHeaderlen + got.length := by omega
      have hgot : arr.got p j = got := by
        rw [hpos, Frame.encode, List.take_append, packHeader_length, Nat.add_sub_cancel_left,
          List.take_of_length_le (by rw [packHeader_length]; omega),
          List.append_cancel_left_eq] at hr
        unfold DLFree.Arrivals.got
        rw [hnext.body_eq, hpos, Nat.add_sub_cancel_left, hr]
      rw [if_neg (by simp [hcurr])]
      have hrest : arr.got p j ++ bursts.flatten ++ more = f.body ++ tail := by
        rw [Frame.encode, List.append_assoc, List.append_assoc, List.append_assoc,
          List.append_cancel_left_eq] at hall
        rw [hgot, List.append_assoc]
        exact hall
      exact h.read_body now hnext hid (by rw [hgot]; exact hpos) (by rw [hgot]; exact hcurr) hoff
        (by rw [hgot]; exact hinfo) bursts hrest

/-- **No read fails**: it takes some bytes of the chunk, and everything stays in order. -/
theorem StoreOk.read (now : ℚ) (h : arr.StoreOk p store) (hc : ChansOk arr bo p node)
    {bursts : List (List Byte)} (hcall : arr.Call bo p j f bursts) :
    ∃ node' store' bursts' n, DataStore.iomanProcessChannelRead bo now node store (arr.chan j)
        (dataScript bursts) = Except.ok (true, node', store', dataScript bursts') ∧
      n + bursts'.flatten.length = p.pos j + bursts.flatten.length ∧
      ReadOk arr bo p j f node node' store' n := by
  obtain ⟨chan, hchan, hreading⟩ := hc.reading j f hcall.next
  exact h.read_reading now hc.nodeId hchan hreading hcall

/-! ### Runs -/

omit [DecidableEq κ] [DecidableEq ι] in
theorem storeOk_start (memory : BitVec 32) :
    arr.StoreOk Progress.start (commNodeCreateStore memory) := by
  have hzero : ¬ channelMsgHeaderlen ≤ 0 := by decide
  have hclosed : ∀ j, ¬ arr.Open Progress.start j := by
    rintro j ⟨_, h | h⟩
    · exact absurd h (Nat.lt_irrefl 0)
    · exact hzero h
  refine ⟨fun j => Nat.zero_le _, fun j h => absurd rfl h, fun i _ hi => absurd hi (hclosed i),
    fun j h => absurd h (hclosed j), nofun, nofun, fun ref h => absurd rfl h,
    fun j h => absurd h hzero, [], List.nodup_nil, fun j => ?_, fun i => rfl⟩
  have hpos : 0 < arr.count j := DataSend.count_pos
  constructor
  · nofun
  · intro h
    exact absurd h hpos.ne

omit [DecidableEq κ] [DecidableEq ι] in
theorem SameReaders.chansOk (h : SameReaders node node') (hc : ChansOk arr bo p node) :
    ChansOk arr bo p node' := by
  refine ⟨h.nodeId.trans hc.nodeId, fun j f hnext => ?_⟩
  obtain ⟨chan, hchan, hreading⟩ := hc.reading j f hnext
  obtain ⟨chan', hchan', hcurr, hoff, hbuff, hinfo⟩ := h.reader _ _ hchan
  refine ⟨chan', hchan', ?_⟩
  generalize (f.encode bo).take (p.pos j) = r at hreading ⊢
  cases hreading with
  | header h₁ h₂ hlt htake =>
      exact Reading.header (hcurr.trans h₁) (hoff.trans h₂) hlt (by rw [hbuff]; exact htake)
  | body h₁ h₂ h₃ hlt => exact Reading.body (hcurr.trans h₁) (hoff.trans h₂) (hinfo.trans h₃) hlt

theorem dataScript_injective : Function.Injective dataScript := by
  intro bursts bursts' h
  exact List.map_injective_iff.2 (fun _ _ he => RecvEvent.data.inj he) h

/-- **Every run keeps the records and the channels in order.** -/
theorem Arrives.inv (h : arr.Arrives bo p node store) :
    arr.StoreOk p store ∧ ChansOk arr bo p node := by
  induction h with
  | start memory hid hidle =>
      refine ⟨storeOk_start memory, hid, fun j f _ => ?_⟩
      obtain ⟨chan, hchan, hidle⟩ := hidle j
      refine ⟨chan, hchan, ?_⟩
      change Reading bo arr.dstId chan f ((f.encode bo).take 0)
      rw [List.take_zero]
      exact hidle.reading f
  | @read p node node' store store' j f bursts bursts' now h hcall hread ih =>
      obtain ⟨node₁, store₁, bursts₁, n, hrun, hcount, hok⟩ := ih.1.read now ih.2 hcall
      rw [hread] at hrun
      simp only [Except.ok.injEq, Prod.mk.injEq, true_and] at hrun
      obtain ⟨rfl, rfl, hscript⟩ := hrun
      obtain rfl := dataScript_injective hscript
      obtain rfl : n = p.pos j + bursts.flatten.length - bursts'.flatten.length := by omega
      obtain ⟨chan', hheap, hfull, hpart⟩ := hok.chan
      exact ⟨hok.store, ih.2.advance hcall.next hok.nodeId hheap hfull hpart⟩
  | other h hsame ih => exact ⟨ih.1, hsame.chansOk ih.2⟩

/-- **Reassembly.**  The chunks are those that `comm_node_send_data` cuts.  Whenever the receiver
reads, the read returns, and takes bytes if there are some; the messages whose last chunk is
complete have been delivered, each once and as it was sent; and every record belongs to an open
message, whose chunks so far it holds. -/
theorem reassembly (h : arr.Arrives bo p node store) :
    (∀ j, commNodeSendData (arr.msg j).srcId (arr.msg j).dataMsgSid (arr.msg j).chunkSz arr.dstId
      (arr.msg j).buff = Except.ok (arr.chunks j, (arr.msg j).dataMsgSid + 1)) ∧
    (∀ now j f bursts, arr.Call bo p j f bursts → ∃ node' store' bursts',
      DataStore.iomanProcessChannelRead bo now node store (arr.chan j) (dataScript bursts) =
        Except.ok (true, node', store', dataScript bursts') ∧
      (Fed (dataScript bursts) → bursts'.flatten.length < bursts.flatten.length)) ∧
    (∃ log, arr.Delivered p store.queues log) ∧
    (∀ sid ref, store.dataMsgMap sid = some ref → ∃ j, arr.Open p j ∧ arr.sid j = sid ∧
      store.records ref = some (arr.record p j)) ∧
    ∀ ref, store.records ref ≠ none → ∃ j, arr.Open p j ∧
      store.dataMsgMap (arr.sid j) = some ref := by
  obtain ⟨hstore, hchans⟩ := h.inv
  refine ⟨fun j => ((arr.msg j).commNodeSendData_eq arr.dstId).1,
    fun now j f bursts hcall => ?_, hstore.log, fun sid ref hmap => ?_, fun ref hused => ?_⟩
  · obtain ⟨node', store', bursts', n, hrun, _, _⟩ := hstore.read now hchans hcall
    refine ⟨node', store', bursts', hrun, fun hfed => ?_⟩
    obtain ⟨chan, hchan, hreading⟩ := hchans.reading j f hcall.next
    rw [← hchans.nodeId] at hreading
    obtain ⟨_, _, _, hframe⟩ := iomanProcessChannelRead_script hchan
      (DataStore.iomanProcessChannelRead_refines hrun)
    have htakes := iomanReadFrame_takes hcall.next.ok hreading hfed hframe
    rwa [recvBytes_dataScript, recvBytes_dataScript] at htakes
  · obtain ⟨j, hj, rfl⟩ := hstore.only sid ref hmap
    obtain ⟨ref', hmap', hrec⟩ := hstore.entry j hj
    obtain rfl : ref = ref' := Option.some.inj (hmap.symm.trans hmap')
    exact ⟨j, hj, rfl, hrec⟩
  · obtain ⟨_, sid, hmap⟩ := hstore.used ref hused
    obtain ⟨j, hj, rfl⟩ := hstore.only sid ref hmap
    exact ⟨j, hj, hmap⟩

end Arrivals

/-! ### Two messages on one channel -/

/-- Two messages for node 5 on one channel, of two chunks and of one chunk. -/
def crossing : Arrivals ℕ Bool where
  msg := fun b => if b then ⟨1, 0, 1, [7, 8], by decide, by decide, by decide, by decide⟩
    else ⟨2, 0, 4, [9], by decide, by decide, by decide, by decide⟩
  chan := fun _ => 1
  dstId := 5
  dst_fits := by decide

/-- Node 5 after it has accepted the channel. -/
def crossingNode : CommNode ℕ :=
  (commNodeCreate 5 0).setMan (iomanAccept (commNodeCreate 5 0).man 1)

/-- A read that takes the next chunk of a message. -/
theorem crossing_read {p : Progress Bool} {node node' : CommNode ℕ} {store store' : DataStore ℕ}
    (h : crossing.Arrives ByteOrder.little p node store) {j : Bool} {f : Frame}
    (hchunk : (crossing.chunks j)[p.done j]? = some f) (halone : p.pos (!j) = 0)
    (hpos : p.pos j = 0)
    (hread : DataStore.iomanProcessChannelRead ByteOrder.little 0 node store 1
      (dataScript [f.encode ByteOrder.little]) = Except.ok (true, node', store', dataScript [])) :
    crossing.Arrives ByteOrder.little (p.finish j) node' store' := by
  have hnext : crossing.Next p j f := by
    refine ⟨hchunk, fun i _ hij => ?_⟩
    cases i <;> cases j <;> first | exact absurd rfl hij | exact halone
  have hcall : crossing.Call ByteOrder.little p j f [f.encode ByteOrder.little] := by
    refine ⟨hnext, ⟨[], [], by simp [hpos]⟩, ?_⟩
    intro n _ _ _ i i' _ _ hsid
    have hne : crossing.sid true ≠ crossing.sid false := by decide
    cases i <;> cases i' <;> first | rfl | exact absurd hsid hne | exact absurd hsid.symm hne
  have hrun := Arrivals.Arrives.read 0 h hcall hread
  have hall : p.pos j + [f.encode ByteOrder.little].flatten.length -
      ([] : List (List Byte)).flatten.length =
      (f.encode ByteOrder.little).length := by
    simp [hpos]
  unfold Progress.advance at hrun
  rwa [if_pos hall] at hrun

/-- The chunk of the second message comes between those of the first: both are delivered, and no
record is left. -/
theorem reassembly_crossing : ∃ p node store, crossing.Arrives ByteOrder.little p node store ∧
    (∀ j, p.done j = crossing.count j) ∧ ∀ sid, store.dataMsgMap sid = none := by
  have h₀ : crossing.Arrives ByteOrder.little Progress.start crossingNode (commNodeCreateStore 0) :=
    Arrivals.Arrives.start 0 rfl fun j => ⟨channelActiveCreate, rfl, rfl, rfl⟩
  have h₁ := crossing_read (j := true) h₀ rfl rfl rfl rfl
  have h₂ := crossing_read (j := false) h₁ rfl rfl rfl rfl
  have h₃ := crossing_read (j := true) h₂ rfl rfl rfl rfl
  have hdone : ∀ j, (((Progress.start.finish true).finish false).finish true).done j =
      crossing.count j := by decide
  refine ⟨_, _, _, h₃, hdone, fun sid => ?_⟩
  refine Option.eq_none_iff_forall_ne_some.2 fun ref hmap => ?_
  obtain ⟨j, hopen, _⟩ := (Arrivals.reassembly h₃).2.2.2.1 sid ref hmap
  exact absurd (hdone j) hopen.1.ne

end DLFree

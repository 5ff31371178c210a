/-
**Data messages on the receiving node: `comm/comm.c` with the records of `comm/msg.c`.**

Completed messages wait in one queue for each source.  User threads take them out with
`comm_node_recv_data`, from one source, or with `comm_node_recv_any_data`, from any; both hold the
lock of the node except while they sleep on its condition variable, so what they do between two
sleeps is one step.  They return their results through pointers of the caller.

`comm_node_create` writes every field of a node but the counter of undelivered messages, which
starts with whatever the memory held.

Main definitions:

* `DataMsg` — `struct data_msg`;
* `DataQueues` — the fields of `struct comm_node` for completed messages;
* `CallerMem` — the variables that the pointers of the callers lead to;
* `commNodeDeliverChunk`, `commNodeRecvData`, `commNodeRecvAnyData` — the functions of the source.

Main results:

* `DataQueues.Ok.deliver`, `DataQueues.Ok.recvAny` — what the functions do to the queues;
* `commNodeRecvData_found` — **a call of `comm_node_recv_data` that finds a message uses a null
  pointer**.
-/

import DLFree.Comm
import Mathlib.Algebra.BigOperators.Group.Finset.Basic

set_option relaxedAutoImplicit false
set_option autoImplicit false

namespace DLFree

/-! ### Records -/

/-- `struct data_msg`: the first `recvd` of `len` bytes have arrived; a byte of the buffer that has
not been written is `none`. -/
structure DataMsg where
  len : ℤ
  srcId : ℤ
  recvd : ℤ
  seq : ℤ
  userMsgData : List (Option Byte)
  deriving DecidableEq, Repr

/-- `data_msg_create`. -/
def dataMsgCreate (len srcId : ℤ) : DataMsg where
  len := len
  srcId := srcId
  recvd := 0
  seq := -1
  userMsgData := List.replicate len.toNat none

/-- `data_msg_destroy` frees the record and returns the buffer. -/
def dataMsgDestroy (msg : DataMsg) : List (Option Byte) := msg.userMsgData

/-! ### The code -/

/-- The fields of `struct comm_node` for completed messages. -/
structure DataQueues where
  recvdDataMsgQueues : ℤ → Option (List DataMsg)
  dataMsgRecvd : BitVec 32
  dataMsgUnackedRecvd : BitVec 32

/-- The messages of one source that wait; a queue that has not been created is empty. -/
def DataQueues.queue (queues : DataQueues) (srcId : ℤ) : List DataMsg :=
  (queues.recvdDataMsgQueues srcId).getD []

/-- These fields after `comm_node_create`; `memory` is what `data_msg_unacked_recvd` held when the
node was allocated. -/
def commNodeCreateQueues (memory : BitVec 32) : DataQueues where
  recvdDataMsgQueues := fun _ => none
  dataMsgRecvd := 0
  dataMsgUnackedRecvd := memory

/-- An index into an array of `COMM_MAX_PEER` elements. -/
def checkPeerId (id : ℤ) : Except Abort Unit :=
  if 0 ≤ id ∧ id < commMaxPeer then Except.ok () else Except.error Abort.badAccess

/-- The queue of a source is replaced. -/
def DataQueues.setQueue (queues : DataQueues) (srcId : ℤ) (msgQueue : List DataMsg) : DataQueues :=
  { queues with
    recvdDataMsgQueues := Function.update queues.recvdDataMsgQueues srcId (some msgQueue) }

/-- The message is appended to the queue of its source and counted. -/
def DataQueues.push (queues : DataQueues) (msg : DataMsg) : DataQueues :=
  { queues.setQueue msg.srcId (queues.queue msg.srcId ++ [msg]) with
    dataMsgUnackedRecvd := queues.dataMsgUnackedRecvd + 1
    dataMsgRecvd := queues.dataMsgRecvd + 1 }

/-- `comm_node_deliver_chunk`. -/
def commNodeDeliverChunk (queues : DataQueues) (msg : DataMsg) : Except Abort DataQueues := do
  checkPeerId msg.srcId
  Except.ok (queues.push msg)

/-- The variables of the callers: those of type `int`, and the buffers that those of type `void *`
point to. -/
structure CallerMem where
  ints : ℕ → ℤ
  buffs : ℕ → List (Option Byte)

/-- `*p = x` for a pointer to an `int`. -/
def CallerMem.storeInt (mem : CallerMem) (p : Option ℕ) (x : ℤ) : Except Abort CallerMem :=
  match p with
  | none => Except.error Abort.badAccess
  | some a => Except.ok { mem with ints := Function.update mem.ints a x }

/-- `*p` for a pointer to an `int`. -/
def CallerMem.loadInt (mem : CallerMem) (p : Option ℕ) : Except Abort ℤ :=
  match p with
  | none => Except.error Abort.badAccess
  | some a => Except.ok (mem.ints a)

/-- `*p = data` for a pointer to a `void *`. -/
def CallerMem.storeBuff (mem : CallerMem) (p : Option ℕ) (data : List (Option Byte)) :
    Except Abort CallerMem :=
  match p with
  | none => Except.error Abort.badAccess
  | some a => Except.ok { mem with buffs := Function.update mem.buffs a data }

theorem storeInt_some (mem : CallerMem) (a : ℕ) (x : ℤ) :
    mem.storeInt (some a) x = Except.ok { mem with ints := Function.update mem.ints a x } := rfl

theorem loadInt_some (mem : CallerMem) (a : ℕ) : mem.loadInt (some a) = Except.ok (mem.ints a) := rfl

theorem storeBuff_some (mem : CallerMem) (a : ℕ) (data : List (Option Byte)) :
    mem.storeBuff (some a) data =
      Except.ok { mem with buffs := Function.update mem.buffs a data } := rfl

/-- `-- node -> data_msg_unacked_recvd`. -/
def DataQueues.ack (queues : DataQueues) : DataQueues :=
  { queues with dataMsgUnackedRecvd := queues.dataMsgUnackedRecvd - 1 }

/-- `comm_node_recv_data` from where it has the lock; `none` when it goes to sleep. -/
def commNodeRecvData (queues : DataQueues) (mem : CallerMem) (srcId : ℤ)
    (_buff buffsize : Option ℕ) : Except Abort (Option (DataQueues × CallerMem)) := do
  -- the source clears its parameter before it takes the lock: `buff = 0;`
  let buff : Option ℕ := none
  checkPeerId srcId
  match queues.queue srcId with
  | [] => Except.ok none
  | msg :: msgQueue => do
      let queues := queues.setQueue srcId msgQueue
      cAssert (msg.srcId = srcId)
      let mem ← mem.storeInt buffsize msg.len
      let mem ← mem.storeBuff buff (dataMsgDestroy msg)
      let queues := queues.ack
      cAssert (0 ≤ queues.dataMsgUnackedRecvd.toInt)
      Except.ok (some (queues, mem))

/-- The loop of `comm_node_recv_any_data` over the sources: the first message it comes to. -/
def firstQueued (queues : DataQueues) : List ℕ → Option (ℕ × DataMsg × List DataMsg)
  | [] => none
  | tmpNodeid :: tmpNodeids =>
      match queues.queue tmpNodeid with
      | [] => firstQueued queues tmpNodeids
      | msg :: msgQueue => some (tmpNodeid, msg, msgQueue)

/-- What `comm_node_recv_any_data` does with this message. -/
def commNodeTakeFirst (queues : DataQueues) (mem : CallerMem) (srcId buff buffsize : Option ℕ) :
    Except Abort (DataQueues × CallerMem) :=
  match firstQueued queues (List.range commMaxPeer) with
  | none => Except.ok (queues, mem)
  | some (tmpNodeid, msg, msgQueue) => do
      let queues := queues.setQueue tmpNodeid msgQueue
      let mem ← mem.storeInt srcId msg.srcId
      let stored ← mem.loadInt srcId
      cAssert (stored = tmpNodeid)
      let mem ← mem.storeInt buffsize msg.len
      let mem ← mem.storeBuff buff (dataMsgDestroy msg)
      Except.ok (queues, mem)

/-- `comm_node_recv_any_data` from where it has the lock; `none` when it goes to sleep. -/
def commNodeRecvAnyData (queues : DataQueues) (mem : CallerMem) (srcId buff buffsize : Option ℕ) :
    Except Abort (Option (DataQueues × CallerMem)) :=
  if 0 < queues.dataMsgUnackedRecvd.toInt then do
    let (queues, mem) ← commNodeTakeFirst queues mem srcId buff buffsize
    let queues := queues.ack
    cAssert (0 ≤ queues.dataMsgUnackedRecvd.toInt)
    cAssert buff.isSome
    Except.ok (some (queues, mem))
  else Except.ok none

/-! ### Queues -/

namespace DataQueues

variable {queues : DataQueues} {memory : BitVec 32}

@[simp] theorem queue_create (memory : BitVec 32) (srcId : ℤ) :
    (commNodeCreateQueues memory).queue srcId = [] := rfl

theorem queue_setQueue (queues : DataQueues) (srcId : ℤ) (msgQueue : List DataMsg) (i : ℤ) :
    (queues.setQueue srcId msgQueue).queue i = if i = srcId then msgQueue else queues.queue i := by
  unfold queue setQueue
  by_cases hi : i = srcId
  · simp [hi]
  · simp [hi]

@[simp] theorem unacked_setQueue (queues : DataQueues) (srcId : ℤ) (msgQueue : List DataMsg) :
    (queues.setQueue srcId msgQueue).dataMsgUnackedRecvd = queues.dataMsgUnackedRecvd := rfl

/-- The number of messages that wait. -/
def total (queues : DataQueues) : ℕ :=
  ∑ i ∈ Finset.range commMaxPeer, (queues.queue (i : ℕ)).length

@[simp] theorem queue_ack (queues : DataQueues) (i : ℤ) : queues.ack.queue i = queues.queue i := rfl

@[simp] theorem total_ack (queues : DataQueues) : queues.ack.total = queues.total := rfl

/-- Replacing one queue changes the total by what it changes this queue. -/
theorem total_setQueue (queues : DataQueues) {i : ℕ} (hi : i < commMaxPeer)
    (msgQueue : List DataMsg) :
    (queues.setQueue i msgQueue).total + (queues.queue i).length =
      queues.total + msgQueue.length := by
  have hmem : i ∈ Finset.range commMaxPeer := Finset.mem_range.2 hi
  have hrest : ∑ j ∈ (Finset.range commMaxPeer).erase i,
      ((queues.setQueue i msgQueue).queue (j : ℕ)).length =
      ∑ j ∈ (Finset.range commMaxPeer).erase i, (queues.queue (j : ℕ)).length := by
    refine Finset.sum_congr rfl fun j hj => ?_
    have hne : (j : ℤ) ≠ i := by
      exact_mod_cast Finset.ne_of_mem_erase hj
    rw [queue_setQueue, if_neg hne]
  unfold total
  rw [← Finset.sum_erase_add _ _ hmem, hrest, ← Finset.sum_erase_add _ _ hmem, queue_setQueue,
    if_pos rfl]
  omega

/-- No message waits exactly when all queues are empty. -/
theorem total_eq_zero : queues.total = 0 ↔ ∀ i < commMaxPeer, queues.queue (i : ℕ) = [] := by
  unfold total
  rw [Finset.sum_eq_zero_iff]
  simp only [Finset.mem_range, List.length_eq_zero_iff]

/-- What every operation keeps: a message waits in the queue of its source, and the counter has
counted the messages that wait, from the value it had at first. -/
structure Ok (memory : BitVec 32) (queues : DataQueues) : Prop where
  src : ∀ i, ∀ msg ∈ queues.queue i, msg.srcId = i
  range : ∀ i, queues.queue i ≠ [] → 0 ≤ i ∧ i < commMaxPeer
  unacked : queues.dataMsgUnackedRecvd = memory + BitVec.ofNat 32 queues.total

theorem ok_create (memory : BitVec 32) : Ok memory (commNodeCreateQueues memory) where
  src := by simp
  range := by simp
  unacked := by
    have htotal : (commNodeCreateQueues memory).total = 0 := total_eq_zero.2 fun _ _ => rfl
    rw [htotal]
    simp [commNodeCreateQueues]

end DataQueues

theorem checkPeerId_of {id : ℤ} (h : 0 ≤ id ∧ id < commMaxPeer) : checkPeerId id = Except.ok () :=
  if_pos h

open DataQueues

section Queues

variable {queues : DataQueues} {memory : BitVec 32}

/-- **A delivered message waits behind those of its source.** -/
theorem DataQueues.Ok.deliver (h : Ok memory queues) {msg : DataMsg}
    (hsrc : 0 ≤ msg.srcId ∧ msg.srcId < commMaxPeer) :
    ∃ queues', commNodeDeliverChunk queues msg = Except.ok queues' ∧ Ok memory queues' ∧
      queues'.total = queues.total + 1 ∧
      ∀ i, queues'.queue i = queues.queue i ++ if i = msg.srcId then [msg] else [] := by
  have hrun : commNodeDeliverChunk queues msg = Except.ok (queues.push msg) := by
    simp only [commNodeDeliverChunk, checkPeerId_of hsrc, bind, Except.bind]
  have hqueue : ∀ i, (queues.push msg).queue i =
      queues.queue i ++ if i = msg.srcId then [msg] else [] := by
    intro i
    refine (queue_setQueue queues msg.srcId (queues.queue msg.srcId ++ [msg]) i).trans ?_
    split
    · rename_i hi
      rw [hi]
    · rw [List.append_nil]
  obtain ⟨k, hk⟩ := Int.eq_ofNat_of_zero_le hsrc.1
  have htotal : (queues.push msg).total = queues.total + 1 := by
    have h := total_setQueue queues (show k < commMaxPeer by omega) (queues.queue k ++ [msg])
    rw [List.length_append, List.length_singleton] at h
    have hsame : (queues.push msg).total = (queues.setQueue k (queues.queue k ++ [msg])).total := by
      rw [← hk]
      rfl
    omega
  refine ⟨queues.push msg, hrun, ⟨?_, ?_, ?_⟩, htotal, hqueue⟩
  · intro i x hx
    rw [hqueue] at hx
    rcases List.mem_append.1 hx with hx | hx
    · exact h.src i x hx
    · split at hx
      · rename_i hi
        rw [List.mem_singleton.1 hx, hi]
      · cases hx
  · intro i hi
    rw [hqueue] at hi
    split at hi
    · rename_i heq
      exact heq ▸ hsrc
    · rw [List.append_nil] at hi
      exact h.range i hi
  · rw [htotal]
    change queues.dataMsgUnackedRecvd + 1 = _
    rw [h.unacked, BitVec.ofNat_add]
    exact BitVec.add_assoc _ _ _

/-- What the loop over the sources finds. -/
theorem firstQueued_spec (queues : DataQueues) (ids : List ℕ) :
    (firstQueued queues ids = none ∧ ∀ i ∈ ids, queues.queue (i : ℕ) = []) ∨
      ∃ i ∈ ids, ∃ msg msgQueue, firstQueued queues ids = some (i, msg, msgQueue) ∧
        queues.queue (i : ℕ) = msg :: msgQueue := by
  induction ids with
  | nil => exact Or.inl ⟨rfl, by simp⟩
  | cons i ids ih =>
      unfold firstQueued
      cases hq : queues.queue (i : ℕ) with
      | nil =>
          rcases ih with ⟨hnone, hall⟩ | ⟨j, hj, msg, msgQueue, hsome, hqueue⟩
          · refine Or.inl ⟨hnone, fun j hj => ?_⟩
            rcases List.mem_cons.1 hj with rfl | hj
            · exact hq
            · exact hall j hj
          · exact Or.inr ⟨j, List.mem_cons_of_mem _ hj, msg, msgQueue, hsome, hqueue⟩
      | cons msg msgQueue => exact Or.inr ⟨i, List.mem_cons_self, msg, msgQueue, rfl, hq⟩

theorem toInt_ofNat_of_lt {k : ℕ} (hk : k < 2 ^ 31) : (BitVec.ofNat 32 k).toInt = k := by
  rw [BitVec.toInt_eq_toNat_of_lt] <;> rw [BitVec.toNat_ofNat] <;> omega

/-- The counter shows how many messages wait when it has started with 0. -/
theorem DataQueues.Ok.toInt_unacked (h : Ok 0 queues) (hsmall : queues.total < 2 ^ 31) :
    queues.dataMsgUnackedRecvd.toInt = queues.total := by
  rw [h.unacked]
  have hzero : (0 : BitVec 32) + BitVec.ofNat 32 queues.total = BitVec.ofNat 32 queues.total :=
    BitVec.zero_add _
  rw [hzero, toInt_ofNat_of_lt hsmall]

/-- A call of `comm_node_recv_any_data` sleeps while no message waits. -/
theorem DataQueues.Ok.recvAny_sleeps (h : Ok 0 queues) (hempty : queues.total = 0)
    (mem : CallerMem) (srcId buff buffsize : Option ℕ) :
    commNodeRecvAnyData queues mem srcId buff buffsize = Except.ok none := by
  have hcounter := h.toInt_unacked (by omega)
  rw [commNodeRecvAnyData, if_neg (by omega)]

/-- **A call of `comm_node_recv_any_data` takes the first message of some source** and returns it
through the pointers of its caller. -/
theorem DataQueues.Ok.recvAny (h : Ok 0 queues) (hsmall : queues.total < 2 ^ 31)
    (hsome : queues.total ≠ 0) (mem : CallerMem) {srcId buff buffsize : ℕ}
    (hdistinct : srcId ≠ buffsize) :
    ∃ queues' mem' i msg msgQueue,
      commNodeRecvAnyData queues mem (some srcId) (some buff) (some buffsize) =
        Except.ok (some (queues', mem')) ∧ Ok 0 queues' ∧
      queues.queue i = msg :: msgQueue ∧
      (∀ j, queues'.queue j = if j = i then msgQueue else queues.queue j) ∧
      queues'.total + 1 = queues.total ∧
      mem'.ints srcId = msg.srcId ∧ mem'.ints buffsize = msg.len ∧
      mem'.buffs buff = dataMsgDestroy msg := by
  have hcounter := h.toInt_unacked hsmall
  rcases firstQueued_spec queues (List.range commMaxPeer) with
    ⟨_, hall⟩ | ⟨i, hi, msg, msgQueue, hfirst, hqueue⟩
  · refine absurd (total_eq_zero.2 fun i hi => hall i (List.mem_range.2 hi)) hsome
  · have hsrc : msg.srcId = (i : ℕ) := h.src i msg (by rw [hqueue]; exact List.mem_cons_self)
    have htotal := total_setQueue queues (List.mem_range.1 hi) msgQueue
    rw [hqueue, List.length_cons] at htotal
    set popped := queues.setQueue (i : ℕ) msgQueue with hpopped
    have hunacked : popped.dataMsgUnackedRecvd - 1 = 0 + BitVec.ofNat 32 popped.total := by
      rw [hpopped, unacked_setQueue, h.unacked, ← hpopped,
        show queues.total = popped.total + 1 by omega, BitVec.ofNat_add, ← BitVec.add_assoc]
      exact BitVec.add_sub_cancel _ _
    have hnonneg : (0 : ℤ) ≤ popped.ack.dataMsgUnackedRecvd.toInt := by
      have hzero : (0 : BitVec 32) + BitVec.ofNat 32 popped.total = BitVec.ofNat 32 popped.total :=
        BitVec.zero_add _
      change (0 : ℤ) ≤ (popped.dataMsgUnackedRecvd - 1).toInt
      rw [hunacked, hzero, toInt_ofNat_of_lt (by omega)]
      omega
    set mem' : CallerMem := ⟨Function.update (Function.update mem.ints srcId msg.srcId) buffsize
      msg.len, Function.update mem.buffs buff (dataMsgDestroy msg)⟩ with hmem'
    have htake : commNodeTakeFirst queues mem (some srcId) (some buff) (some buffsize) =
        Except.ok (popped, mem') := by
      have hstored : (Function.update mem.ints srcId msg.srcId) srcId = (i : ℕ) := by
        rw [Function.update_self, hsrc]
      unfold commNodeTakeFirst
      rw [hfirst]
      dsimp only
      rw [← hpopped, storeInt_some, ok_bind, loadInt_some, ok_bind, cAssert_of hstored, ok_bind,
        storeInt_some, ok_bind, storeBuff_some, ok_bind]
    refine ⟨popped.ack, mem', i, msg, msgQueue, ?_,
      ⟨?_, ?_, ?_⟩, hqueue, ?_, ?_, ?_, ?_, ?_⟩
    · have hpos : 0 < queues.dataMsgUnackedRecvd.toInt := by omega
      unfold commNodeRecvAnyData
      rw [if_pos hpos, htake, ok_bind]
      dsimp only
      rw [cAssert_of hnonneg, ok_bind, Option.isSome_some, cAssert_true, ok_bind]
    · intro j x hx
      rw [queue_ack, hpopped, queue_setQueue] at hx
      split at hx
      · rename_i hj
        rw [hj]
        exact h.src i x (by rw [hqueue]; exact List.mem_cons_of_mem _ hx)
      · exact h.src j x hx
    · intro j hj
      rw [queue_ack, hpopped, queue_setQueue] at hj
      split at hj
      · rename_i heq
        rw [heq]
        exact h.range i (by rw [hqueue]; exact List.cons_ne_nil _ _)
      · exact h.range j hj
    · rw [total_ack]
      exact hunacked
    · exact fun j => queue_setQueue queues i msgQueue j
    · rw [total_ack]
      omega
    · change Function.update (Function.update mem.ints srcId msg.srcId) buffsize msg.len srcId = _
      rw [Function.update_of_ne hdistinct, Function.update_self]
    · exact Function.update_self _ _ _
    · exact Function.update_self _ _ _

/-- A call of `comm_node_recv_any_data` trusts the counter: when it is wrong, the call returns
without a message. -/
theorem commNodeRecvAnyData_nothing (hempty : ∀ i, queues.queue i = [])
    (hcounter : 0 < queues.dataMsgUnackedRecvd.toInt)
    (hack : 0 ≤ queues.ack.dataMsgUnackedRecvd.toInt) (mem : CallerMem) (srcId : Option ℕ) (buff : ℕ)
    (buffsize : Option ℕ) :
    commNodeRecvAnyData queues mem srcId (some buff) buffsize =
      Except.ok (some (queues.ack, mem)) := by
  have htake : commNodeTakeFirst queues mem srcId (some buff) buffsize =
      Except.ok (queues, mem) := by
    unfold commNodeTakeFirst
    rcases firstQueued_spec queues (List.range commMaxPeer) with
      ⟨hnone, _⟩ | ⟨i, _, _, _, _, hqueue⟩
    · rw [hnone]
    · rw [hempty i] at hqueue
      cases hqueue
  unfold commNodeRecvAnyData
  rw [if_pos hcounter, htake, ok_bind]
  dsimp only
  rw [cAssert_of hack, ok_bind, Option.isSome_some, cAssert_true, ok_bind]

/-- A call of `comm_node_recv_data` sleeps while no message of its source waits. -/
theorem commNodeRecvData_sleeps {srcId : ℤ} (hsrc : 0 ≤ srcId ∧ srcId < commMaxPeer)
    (hempty : queues.queue srcId = []) (mem : CallerMem) (buff buffsize : Option ℕ) :
    commNodeRecvData queues mem srcId buff buffsize = Except.ok none := by
  simp only [commNodeRecvData, checkPeerId_of hsrc, hempty, bind, Except.bind]

/-- **A call of `comm_node_recv_data` that finds a message uses a null pointer.** -/
theorem commNodeRecvData_found (h : Ok memory queues) {srcId : ℤ} {msg : DataMsg}
    {msgQueue : List DataMsg} (hqueue : queues.queue srcId = msg :: msgQueue) (mem : CallerMem)
    (buff : Option ℕ) (buffsize : Option ℕ) :
    commNodeRecvData queues mem srcId buff buffsize = Except.error Abort.badAccess := by
  have hsrc := h.range srcId (by rw [hqueue]; exact List.cons_ne_nil _ _)
  have hmsg := h.src srcId msg (by rw [hqueue]; exact List.mem_cons_self)
  cases buffsize with
  | none =>
      simp only [commNodeRecvData, checkPeerId_of hsrc, hqueue, cAssert_of hmsg,
        CallerMem.storeInt, bind, Except.bind]
  | some buffsize =>
      simp only [commNodeRecvData, checkPeerId_of hsrc, hqueue, cAssert_of hmsg,
        CallerMem.storeInt, CallerMem.storeBuff, bind, Except.bind]

end Queues

end DLFree

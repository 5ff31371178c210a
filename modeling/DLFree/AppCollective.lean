/-
**The collective operations of the application: `app/collective.c`.**

In `send_all2one`, `send_one2all` and `send_all2all` the nodes of a GXP run go through a number of
iterations.  An iteration is between two calls of `gxp_man_sync`; in it a node sends messages to other
nodes, and waits for a number of messages from any node.

Each node has one user thread that runs the operation, over the network with its users and over the
stream of lines that `gxp_man_sync` uses.

Main definitions:

* `AppCollective.dests`, `AppCollective.waits` — whom a node sends to, and how many messages it waits
  for;
* `AppSend.call` — the calls of `comm_node_send_data`;
* `AppThread`, `AppState`, `AppStep` — the user threads, and the steps of all threads.

Main results:

* `AppCollective.length_senders` — **a node waits for as many messages as are sent to it**;
* `AppCollective.nodup_dests`, `AppCollective.ne_of_mem_dests` — one message to each node, none to
  itself.
-/

import DLFree.CollectiveProgress
import DLFree.GxpCollectives
import DLFree.MessageDelivery

set_option relaxedAutoImplicit false
set_option autoImplicit false

namespace DLFree

open FifoPlaces TransitionRun

/-! ### The operations -/

/-- The operations, with the index of the node that all send to, or that sends to all. -/
inductive AppCollective (n : ℕ)
  | all2one (dstIdx : Fin n)
  | one2all (srcIdx : Fin n)
  | all2all
  deriving DecidableEq, Repr

/-- `ord` of `send_all2all`: the nodes from `myidx` on, in a circle. -/
def all2allOrd (n : ℕ) (myidx : Fin n) : List (Fin n) :=
  (List.finRange n).map fun i : Fin n => ⟨(i.val + myidx.val) % n, Nat.mod_lt _ i.pos⟩

namespace AppCollective

variable {n : ℕ}

/-- The nodes that `myidx` sends to in an iteration, in this order. -/
def dests : AppCollective n → Fin n → List (Fin n)
  | all2one dstIdx, myidx => if myidx ≠ dstIdx then [dstIdx] else []
  | one2all srcIdx, myidx =>
      if myidx = srcIdx then (List.finRange n).filter fun idx => idx ≠ myidx else []
  | all2all, myidx => (all2allOrd n myidx).filter fun idx => idx ≠ myidx

/-- The number of messages that `myidx` waits for in an iteration. -/
def waits : AppCollective n → Fin n → ℕ
  | all2one dstIdx, myidx => if myidx ≠ dstIdx then 0 else n - 1
  | one2all srcIdx, myidx => if myidx = srcIdx then 0 else 1
  | all2all, _ => n - 1

/-- The nodes that send to `idx` in an iteration. -/
def senders (op : AppCollective n) (idx : Fin n) : List (Fin n) :=
  (List.finRange n).filter fun v => idx ∈ op.dests v

end AppCollective

/-- A message of an operation: the iteration, the sender and the receiver. -/
structure AppMsg (n : ℕ) where
  it : ℕ
  src : Fin n
  dst : Fin n
  deriving DecidableEq

/-- What the nodes send: the buffer of each node, the chunk size and the message counters of the
nodes. -/
structure AppSend (n : ℕ) where
  buff : Fin n → List Byte
  chunkSz : ℕ
  dataMsgSid : Fin n → BitVec 64
  buff_ne : ∀ u, buff u ≠ []
  buff_fits : ∀ u, FitsInt (buff u).length
  chunkSz_pos : 0 < chunkSz
  peers : n ≤ commMaxPeer

/-- The number of messages that a node has sent before this one. -/
def AppCollective.before {n : ℕ} (op : AppCollective n) (i : AppMsg n) : ℕ :=
  i.it * (op.dests i.src).length + (op.dests i.src).idxOf i.dst

/-- The call of `comm_node_send_data` for a message. -/
def AppSend.call {n : ℕ} (a : AppSend n) (op : AppCollective n) (i : AppMsg n) : DataCall where
  msg :=
    { srcId := i.src
      dataMsgSid := a.dataMsgSid i.src + BitVec.ofNat 64 (op.before i)
      chunkSz := a.chunkSz
      buff := a.buff i.src
      src_lt := i.src.isLt.trans_le a.peers
      chunkSz_pos := a.chunkSz_pos
      buff_ne := a.buff_ne i.src
      buff_fits := a.buff_fits i.src }
  dstId := i.dst

/-! ### The threads -/

/-- Where a thread is in an iteration: before the first `gxp_man_sync` has returned, before it sends
to the nodes `left`, in the call that sends to `idx`, before it has received `count` messages more,
and in the second `gxp_man_sync`. -/
inductive AppStage (n : ℕ)
  | opening
  | sending (left : List (Fin n))
  | pushing (idx : Fin n) (left : List (Fin n))
  | waiting (count : ℕ)
  | closing

/-- The user thread of a node; after the last iteration the operation has returned. -/
structure AppThread (n : ℕ) where
  it : ℕ
  stage : AppStage n

/-- The network with its users, the stream of lines, and the threads. -/
structure AppState (n : ℕ) where
  net : Messaging (AppMsg n)
  gxp : Collective.State (Fin n) Line
  thread : Fin n → AppThread n

/-- The thread of `u` goes on. -/
def AppState.setThread {n : ℕ} (s : AppState n) (u : Fin n) (th : AppThread n) : AppState n :=
  { s with thread := Function.update s.thread u th }

/-- The thread is at a call of `gxp_man_sync`. -/
def AppStage.AtSync {n : ℕ} (stage : AppStage n) : Prop :=
  stage = AppStage.opening ∨ stage = AppStage.closing

/-- The thread of `u` after a call of `gxp_man_sync`. -/
def AppThread.synced {n : ℕ} (op : AppCollective n) (u : Fin n) (th : AppThread n) : AppThread n :=
  match th.stage with
  | AppStage.opening => ⟨th.it, AppStage.sending (op.dests u)⟩
  | AppStage.closing => ⟨th.it + 1, AppStage.opening⟩
  | _ => th

/-- The calls of `gxp_man_sync` in an operation. -/
def appProgram (n iter : ℕ) : List (Collective.Round (Fin n) Line) :=
  gxpProgram n (List.replicate (2 * iter) GxpCollective.sync)

/-- A step of some thread, when the nodes run `iter` iterations of `op`. -/
inductive AppStep {n : ℕ} (bo : ByteOrder) (op : AppCollective n) (iter : ℕ) (a : AppSend n)
    (s : AppState n) : AppState n → Prop
  /-- the thread of `u` calls `gxp_man_sync` -/
  | enter {u : Fin n} {gxp' : Collective.State (Fin n) Line} (hit : (s.thread u).it < iter)
      (hstage : (s.thread u).stage.AtSync) (hstep : Collective.Step (appProgram n iter) s.gxp gxp')
      (henters : Collective.Enters u s.gxp gxp') : AppStep bo op iter a s { s with gxp := gxp' }
  /-- a line is printed, gets its place in the stream, or is scanned -/
  | line {gxp' : Collective.State (Fin n) Line}
      (hstep : Collective.Step (appProgram n iter) s.gxp gxp')
      (hstays : Collective.Stays s.gxp gxp') : AppStep bo op iter a s { s with gxp := gxp' }
  /-- `gxp_man_sync` returns -/
  | leave {u : Fin n} {gxp' : Collective.State (Fin n) Line}
      (hstep : Collective.Step (appProgram n iter) s.gxp gxp')
      (hleaves : Collective.Leaves u s.gxp gxp') :
      AppStep bo op iter a s
        { s.setThread u ((s.thread u).synced op u) with gxp := gxp' }
  /-- the thread of `u` calls `comm_node_send_data` -/
  | send {u idx : Fin n} {left : List (Fin n)} {net' : Messaging (AppMsg n)}
      (hstage : (s.thread u).stage = AppStage.sending (idx :: left))
      (hstep : MessagingStep bo n (a.call op) s.net net')
      (hcall : net'.begun = s.net.begun ++ [⟨(s.thread u).it, u, idx⟩]) :
      AppStep bo op iter a s { s.setThread u { s.thread u with
        stage := AppStage.pushing idx left } with net := net' }
  /-- `comm_node_send_data` returns -/
  | sent {u idx : Fin n} {left : List (Fin n)}
      (hstage : (s.thread u).stage = AppStage.pushing idx left)
      (hpushed : (a.call op ⟨(s.thread u).it, u, idx⟩).chunks.length ≤
        s.net.pushes.count ⟨(s.thread u).it, u, idx⟩) :
      AppStep bo op iter a s (s.setThread u { s.thread u with stage := AppStage.sending left })
  /-- the thread of `u` has sent all its messages -/
  | sentAll {u : Fin n} (hstage : (s.thread u).stage = AppStage.sending []) :
      AppStep bo op iter a s
        (s.setThread u { s.thread u with stage := AppStage.waiting (op.waits u) })
  /-- the thread of `u` receives a message -/
  | recv {u : Fin n} {count : ℕ} {net' : Messaging (AppMsg n)} {received : ReceivedData}
      (hstage : (s.thread u).stage = AppStage.waiting (count + 1))
      (hstep : MessagingStep bo n (a.call op) s.net net')
      (hrecv : net'.received = Function.update s.net.received u (s.net.received u ++ [received])) :
      AppStep bo op iter a s { s.setThread u { s.thread u with
        stage := AppStage.waiting count } with net := net' }
  /-- the thread of `u` has received all its messages -/
  | waited {u : Fin n} (hstage : (s.thread u).stage = AppStage.waiting 0) :
      AppStep bo op iter a s (s.setThread u { s.thread u with stage := AppStage.closing })
  /-- a call of `comm_node_send_data` pushes a chunk, or an I/O thread does something -/
  | network {net' : Messaging (AppMsg n)} (hstep : MessagingStep bo n (a.call op) s.net net')
      (hbegun : net'.begun = s.net.begun) (hreceived : net'.received = s.net.received) :
      AppStep bo op iter a s { s with net := net' }

/-- All threads are before their first iteration. -/
structure AppStart {n : ℕ} (bo : ByteOrder) (adj : ℤ → ℤ → Prop) [∀ u v, Decidable (adj u v)]
    (tables : ℤ → OverlayRtable) (a : AppSend n) (s : AppState n) : Prop where
  net : MessagingStart bo n adj tables s.net
  dataMsgSid : ∀ u : Fin n, s.net.dataMsgSid u = a.dataMsgSid u
  gxp : s.gxp = Collective.State.initial
  thread : ∀ u, s.thread u = ⟨0, AppStage.opening⟩

/-! ### Whom a node sends to -/

namespace AppCollective

variable {n : ℕ} {op : AppCollective n} {u v : Fin n}

theorem all2allOrd_injective (myidx : Fin n) :
    Function.Injective fun i : Fin n =>
      (⟨(i.val + myidx.val) % n, Nat.mod_lt _ i.pos⟩ : Fin n) := by
  intro i j hij
  have hmod : (i.val + myidx.val) % n = (j.val + myidx.val) % n := congrArg Fin.val hij
  have hi := i.isLt
  have hj := j.isLt
  have hcancel : (i : ℕ) % n = j % n := Nat.ModEq.add_right_cancel' (myidx : ℕ) hmod
  rw [Nat.mod_eq_of_lt hi, Nat.mod_eq_of_lt hj] at hcancel
  exact Fin.ext hcancel

theorem nodup_all2allOrd (myidx : Fin n) : (all2allOrd n myidx).Nodup :=
  (List.nodup_finRange n).map (all2allOrd_injective myidx)

/-- `ord` has all nodes. -/
theorem mem_all2allOrd (myidx v : Fin n) : v ∈ all2allOrd n myidx := by
  obtain ⟨i, hi⟩ := (Finite.injective_iff_surjective.1 (all2allOrd_injective myidx)) v
  exact List.mem_map.2 ⟨i, List.mem_finRange i, hi⟩

theorem mem_dests : v ∈ op.dests u ↔ v ≠ u ∧
    match op with
    | all2one dstIdx => v = dstIdx
    | one2all srcIdx => u = srcIdx
    | all2all => True := by
  cases op with
  | all2one dstIdx =>
      change v ∈ (if u ≠ dstIdx then [dstIdx] else []) ↔ v ≠ u ∧ v = dstIdx
      split
      · rename_i hu
        rw [List.mem_singleton]
        exact ⟨fun hv => ⟨fun he => hu (he.symm.trans hv), hv⟩, fun hv => hv.2⟩
      · rename_i hu
        rw [not_not] at hu
        exact iff_of_false List.not_mem_nil fun hv => hv.1 (hv.2.trans hu.symm)
  | one2all srcIdx =>
      change v ∈ (if u = srcIdx then _ else []) ↔ v ≠ u ∧ u = srcIdx
      split
      · rename_i hu
        simp [hu]
      · rename_i hu
        simp [hu]
  | all2all =>
      change v ∈ (all2allOrd n u).filter (fun idx => idx ≠ u) ↔ v ≠ u ∧ True
      simp [mem_all2allOrd]

/-- **No node sends to itself.** -/
theorem ne_of_mem_dests (h : v ∈ op.dests u) : v ≠ u := (mem_dests.1 h).1

/-- **A node sends one message to each node at most.** -/
theorem nodup_dests (op : AppCollective n) (u : Fin n) : (op.dests u).Nodup := by
  cases op with
  | all2one dstIdx =>
      change (if u ≠ dstIdx then [dstIdx] else []).Nodup
      split
      · exact List.nodup_singleton _
      · exact List.nodup_nil
  | one2all srcIdx =>
      change (if u = srcIdx then _ else []).Nodup
      split
      · exact (List.nodup_finRange n).filter _
      · exact List.nodup_nil
  | all2all => exact (nodup_all2allOrd u).filter _

theorem length_others (u : Fin n) :
    ((List.finRange n).filter fun v => v ≠ u).length = n - 1 := by
  have h := List.length_erase_of_mem (List.mem_finRange u)
  rw [(List.nodup_finRange n).erase_eq_filter, List.length_finRange] at h
  rw [← h]
  refine congrArg List.length (List.filter_congr fun v _ => ?_)
  by_cases hv : v = u <;> simp [hv]

/-- **A node waits for as many messages as are sent to it.** -/
theorem length_senders (op : AppCollective n) (u : Fin n) :
    (op.senders u).length = op.waits u := by
  unfold senders
  cases op with
  | all2one dstIdx =>
      by_cases hu : u = dstIdx
      · subst hu
        have hsame : ((List.finRange n).filter fun v => u ∈ (all2one u).dests v) =
            (List.finRange n).filter fun v => v ≠ u := by
          refine List.filter_congr fun v _ => decide_eq_decide.2 ?_
          rw [mem_dests]
          exact ⟨fun h => Ne.symm h.1, fun h => ⟨Ne.symm h, rfl⟩⟩
        rw [hsame, length_others, waits, if_neg (not_not.2 rfl)]
      · have hnone : ((List.finRange n).filter fun v => u ∈ (all2one dstIdx).dests v) = [] :=
          List.filter_eq_nil_iff.2 fun v _ hv => hu (mem_dests.1 (of_decide_eq_true hv)).2
        rw [hnone, waits, if_pos hu]
        rfl
  | one2all srcIdx =>
      by_cases hu : u = srcIdx
      · have hnone : ((List.finRange n).filter fun v => u ∈ (one2all srcIdx).dests v) = [] := by
          refine List.filter_eq_nil_iff.2 fun v _ hv => ?_
          obtain ⟨hne, hv⟩ := mem_dests.1 (of_decide_eq_true hv)
          exact hne (hu.trans (Eq.symm hv))
        rw [hnone, waits, if_pos hu]
        rfl
      · have hone : ((List.finRange n).filter fun v => u ∈ (one2all srcIdx).dests v) =
            (List.finRange n).filter fun v => v = srcIdx := by
          refine List.filter_congr fun v _ => decide_eq_decide.2 ?_
          rw [mem_dests]
          exact ⟨fun h => h.2, fun h => ⟨fun he => hu (he.trans h), h⟩⟩
        rw [hone, waits, if_neg hu, ← List.countP_eq_length_filter]
        exact List.count_eq_one_of_mem (List.nodup_finRange n) (List.mem_finRange srcIdx)
  | all2all =>
      have hsame : ((List.finRange n).filter fun v => u ∈ (all2all (n := n)).dests v) =
          (List.finRange n).filter fun v => v ≠ u := by
        refine List.filter_congr fun v _ => decide_eq_decide.2 ?_
        rw [mem_dests]
        exact ⟨fun h => Ne.symm h.1, fun h => ⟨Ne.symm h, trivial⟩⟩
      rw [hsame, length_others, waits]

end AppCollective

end DLFree

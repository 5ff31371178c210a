/-
**The iterations of an operation do not mix.**

The messages of an operation carry nothing that tells the iterations apart, and a node takes any
message that waits.  That its messages are those of its iteration follows from the two calls of
`gxp_man_sync`: nobody sends in an iteration before all nodes have received what was sent in those
before.

So the messages that are under way to a node are of one iteration, hence of different sources, and
their decoded `sid`s are different.  The assumption under which a network transports messages is
therefore met by an operation of any number of iterations.

Main definitions:

* `AppCollective.messages` — the messages for a node in the first iterations;
* `AppThread.Ok`, `AppInv` — what every step keeps;
* `AppSeparate` — what is promised of an operation.

Main results:

* `AppInv.inBounds` — **the messages that are under way have different decoded `sid`s**;
* `AppStep.inv` — every step keeps the invariant;
* `AppInv.appSeparate` — a node receives the messages of each iteration before those of the next one.
-/

import DLFree.AppCollective

set_option relaxedAutoImplicit false
set_option autoImplicit false

namespace DLFree

open FifoPlaces TransitionRun

/-! ### Messages -/

namespace AppCollective

variable {n : ℕ}

/-- The messages for `u` in the first `k` iterations. -/
def messages (op : AppCollective n) (k : ℕ) (u : Fin n) : List (AppMsg n) :=
  (List.range k).flatMap fun it => (op.senders u).map fun v => ⟨it, v, u⟩

variable {op : AppCollective n} {k : ℕ} {u : Fin n} {i : AppMsg n}

theorem mem_messages : i ∈ op.messages k u ↔ i.it < k ∧ i.dst = u ∧ u ∈ op.dests i.src := by
  unfold messages senders
  simp only [List.mem_flatMap, List.mem_range, List.mem_map, List.mem_filter, List.mem_finRange,
    true_and, decide_eq_true_eq]
  constructor
  · rintro ⟨it, hit, v, hv, rfl⟩
    exact ⟨hit, rfl, hv⟩
  · rintro ⟨hit, rfl, hv⟩
    exact ⟨i.it, hit, i.src, hv, rfl⟩

theorem nodup_messages (op : AppCollective n) (k : ℕ) (u : Fin n) : (op.messages k u).Nodup := by
  refine List.nodup_flatMap.2 ⟨fun it _ => ?_, ?_⟩
  · exact ((List.nodup_finRange n).filter _).map fun v w hvw => congrArg AppMsg.src hvw
  · refine List.nodup_range.imp fun {j k} hjk i hj hk => ?_
    obtain ⟨_, _, rfl⟩ := List.mem_map.1 hj
    obtain ⟨_, _, hi⟩ := List.mem_map.1 hk
    exact hjk (congrArg AppMsg.it hi).symm

theorem length_messages (op : AppCollective n) (k : ℕ) (u : Fin n) :
    (op.messages k u).length = k * op.waits u := by
  unfold messages
  simp [List.length_flatMap, length_senders]

/-- A message to `idx` comes after those that are sent before it in its iteration. -/
theorem before_eq {v idx : Fin n} {left : List (Fin n)} (h : idx :: left <:+ op.dests v) (it : ℕ) :
    op.before ⟨it, v, idx⟩ = it * (op.dests v).length +
      ((op.dests v).length - (idx :: left).length) := by
  have hnodup := op.nodup_dests v
  obtain ⟨pre, hpre⟩ := h
  rw [← hpre, List.nodup_append] at hnodup
  have hidx : idx ∉ pre := fun hmem => hnodup.2.2 idx hmem idx List.mem_cons_self rfl
  unfold before
  dsimp only
  rw [← hpre, List.idxOf_append_of_notMem hidx, List.idxOf_cons_self, List.length_append,
    Nat.add_zero, Nat.add_sub_cancel]

end AppCollective

/-- Different nodes use different `sid`s, also after decoding. -/
theorem DataSend.src_of_wireSid {m m' : DataSend} (h : m.wireSid = m'.wireSid) :
    m.srcId = m'.srcId := by
  have hid := m.src_lt
  have hid' := m'.src_lt
  unfold commMaxPeer at hid hid'
  rw [DataSend.wireSid, DataSend.wireSid, wireUint64_eq_iff, DataSend.sid, DataSend.sid,
    BitVec.toNat_add, BitVec.toNat_add, BitVec.toNat_shiftLeft, BitVec.toNat_shiftLeft,
    BitVec.ofInt_natCast, BitVec.ofInt_natCast, BitVec.toNat_ofNat, BitVec.toNat_ofNat,
    Nat.shiftLeft_eq, Nat.shiftLeft_eq] at h
  omega

/-! ### Threads -/

section Threads

variable {n : ℕ}

/-- The nodes that the thread has not called `comm_node_send_data` for in this iteration. -/
def AppStage.unsent (dests : List (Fin n)) : AppStage n → List (Fin n)
  | AppStage.opening => dests
  | AppStage.sending left => left
  | AppStage.pushing _ left => left
  | AppStage.waiting _ => []
  | AppStage.closing => []

/-- The messages that the thread has to receive in this iteration. -/
def AppStage.owed (waits : ℕ) : AppStage n → ℕ
  | AppStage.waiting count => count
  | AppStage.closing => 0
  | _ => waits

/-- The calls of `gxp_man_sync` that have returned. -/
def AppThread.syncs (th : AppThread n) : ℕ :=
  match th.stage with
  | AppStage.opening => 2 * th.it
  | _ => 2 * th.it + 1

theorem AppThread.syncs_of_ne {th : AppThread n} (h : th.stage ≠ AppStage.opening) :
    th.syncs = 2 * th.it + 1 := by
  unfold AppThread.syncs
  split
  · exact absurd ‹_› h
  · rfl

/-- The thread has called `comm_node_send_data` for the message. -/
def AppThread.HasSent (op : AppCollective n) (th : AppThread n) (i : AppMsg n) : Prop :=
  i.it < th.it ∨ (i.it = th.it ∧ i.dst ∉ th.stage.unsent (op.dests i.src))

/-- The thread has received its messages of the iteration `it`. -/
def AppThread.HasWaited (th : AppThread n) (it : ℕ) : Prop :=
  it < th.it ∨ (it = th.it ∧ th.stage = AppStage.closing)

/-- After a call of `comm_node_send_data`, the messages that have been sent are those that had been
sent before it, and its own. -/
theorem AppThread.hasSent_send {op : AppCollective n} {th : AppThread n} {u idx : Fin n}
    {left : List (Fin n)} {i : AppMsg n} (hstage : th.stage = AppStage.sending (idx :: left))
    (hunsent : idx :: left <:+ op.dests u) (hnodup : (op.dests u).Nodup) (hi : i.src = u) :
    ((i.dst ∈ op.dests i.src ∧ th.HasSent op i) ∨ i = ⟨th.it, u, idx⟩) ↔
      i.dst ∈ op.dests i.src ∧
        AppThread.HasSent op { th with stage := AppStage.pushing idx left } i := by
  unfold AppThread.HasSent
  rw [hstage]
  change _ ∧ (_ ∨ _ ∧ i.dst ∉ idx :: left) ∨ _ ↔ _ ∧ (_ ∨ _ ∧ i.dst ∉ left)
  rw [List.mem_cons, not_or]
  have hidx := (List.nodup_cons.1 (hunsent.sublist.nodup hnodup)).1
  constructor
  · rintro (⟨hdst, hsent⟩ | rfl)
    · exact ⟨hdst, hsent.imp id fun heq => ⟨heq.1, heq.2.2⟩⟩
    · exact ⟨hunsent.subset List.mem_cons_self, Or.inr ⟨rfl, hidx⟩⟩
  · rintro ⟨hdst, hlt | ⟨hit, hleft⟩⟩
    · exact Or.inl ⟨hdst, Or.inl hlt⟩
    · by_cases hsame : i.dst = idx
      · refine Or.inr ?_
        rw [← hit, ← hsame, ← hi]
      · exact Or.inl ⟨hdst, Or.inr ⟨hit, hsame, hleft⟩⟩

/-- A call of `comm_node_send_data` counts its message. -/
theorem dataMsgSid_send {dests left : List (Fin n)} {idx : Fin n} {sid : BitVec 64} {before : ℕ}
    (hunsent : idx :: left <:+ dests) :
    sid + BitVec.ofNat 64 (before + (dests.length - (idx :: left).length)) + 1 =
      sid + BitVec.ofNat 64 (before + (dests.length - left.length)) := by
  have hlen := hunsent.length_le
  rw [BitVec.add_assoc]
  change _ + (_ + BitVec.ofNat 64 1) = _
  rw [← BitVec.ofNat_add]
  refine congrArg (fun k => sid + BitVec.ofNat 64 k) ?_
  rw [List.length_cons] at hlen ⊢
  omega

/-- What holds of the thread of `u` alone. -/
structure AppThread.Ok (op : AppCollective n) (iter : ℕ) (u : Fin n) (th : AppThread n) : Prop where
  it_le : th.it ≤ iter
  ended : th.it = iter → th.stage = AppStage.opening
  unsent : th.stage.unsent (op.dests u) <:+ op.dests u
  pushing : ∀ idx left, th.stage = AppStage.pushing idx left → idx :: left <:+ op.dests u
  owed : th.stage.owed (op.waits u) ≤ op.waits u

/-- What holds of the thread of `u`, with the network and the node on the stream of lines. -/
structure AppThread.Inv (op : AppCollective n) (iter : ℕ) (a : AppSend n)
    (net : Messaging (AppMsg n)) (m : Collective.Member (Fin n) Line) (u : Fin n)
    (th : AppThread n) : Prop extends th.Ok op iter u where
  round : m.round = th.syncs
  inside : m.inside = true → th.stage.AtSync
  begun : ∀ i : AppMsg n, i.src = u →
    (i ∈ net.begun ↔ i.dst ∈ op.dests i.src ∧ th.HasSent op i)
  dataMsgSid : net.dataMsgSid u = a.dataMsgSid u + BitVec.ofNat 64 (th.it * (op.dests u).length +
    ((op.dests u).length - (th.stage.unsent (op.dests u)).length))
  received : (net.received u).length + th.stage.owed (op.waits u) = (th.it + 1) * op.waits u
  arrived : ∀ i ∈ net.begun, i.dst = u → th.HasWaited i.it →
    net.arrived (a.call op) i = (a.call op i).chunks.length
  separate : ∀ k ≤ th.it, ((net.received u).take (k * op.waits u)).Perm
    ((op.messages k u).map fun i => (a.call op i).result)

end Threads

/-! ### What every step keeps -/

section Run

variable {n : ℕ}

/-- What holds between two steps. -/
structure AppInv (bo : ByteOrder) (adj : ℤ → ℤ → Prop) [∀ u v, Decidable (adj u v)]
    (tables : ℤ → OverlayRtable) (op : AppCollective n) (iter : ℕ) (a : AppSend n) (s : AppState n)
    (placed : Placed ChunkPlace (Frame × ℕ)) : Prop where
  net : MessagingInv bo n adj tables (a.call op) s.net placed
  gxp : Collective.Ok (appProgram n iter) s.gxp
  thread : ∀ u, (s.thread u).Inv op iter a s.net (s.gxp.member u) u

variable {bo : ByteOrder} {adj : ℤ → ℤ → Prop} [∀ u v, Decidable (adj u v)]
  {tables : ℤ → OverlayRtable} {op : AppCollective n} {iter : ℕ} {a : AppSend n} {s s' : AppState n}
  {placed placed' : Placed ChunkPlace (Frame × ℕ)} {cap : ℤ → ℤ → ℕ} {i j : AppMsg n} {u v : Fin n}
  {net' : Messaging (AppMsg n)}

theorem node_range (u : Fin n) : 0 ≤ ((u : ℕ) : ℤ) ∧ ((u : ℕ) : ℤ) < n :=
  ⟨Int.natCast_nonneg _, Int.ofNat_lt.2 u.isLt⟩

/-- A message that has not arrived completely lacks a chunk. -/
theorem PushesOk.arrived_le {ι : Type} [DecidableEq ι] {calls : ι → DataCall} {t : Messaging ι}
    (h : PushesOk calls t) (i : ι) : t.arrived calls i ≤ (calls i).chunks.length := by
  have hown := congrArg List.length (h.own i)
  rw [List.length_map, ← h.filter_own i, List.length_take] at hown
  have hle : t.arrived calls i ≤ ((t.fwd.accepted.zipIdx.filter fun x =>
      x.1.Between (calls i).msg.srcId (calls i).dstId).filter fun x => t.Owns i x).length :=
    ((List.take_sublist _ _).filter _).length_le
  omega

@[simp] theorem AppState.setThread_self {th : AppThread n} : (s.setThread u th).thread u = th :=
  Function.update_self _ _ _

theorem AppState.setThread_of_ne {th : AppThread n} (h : v ≠ u) :
    (s.setThread u th).thread v = s.thread v := Function.update_of_ne h _ _

namespace AppInv

/-- **Who sends in an iteration has seen all nodes enter it.** -/
theorem it_le (h : AppInv bo adj tables op iter a s placed) (hi : i ∈ s.net.begun) (v : Fin n) :
    i.it ≤ (s.thread v).it := by
  obtain ⟨hmem, hsent⟩ := ((h.thread i.src).begun i rfl).1 hi
  have hleft : 2 * i.it < (s.gxp.member i.src).round := by
    rw [(h.thread i.src).round]
    unfold AppThread.syncs
    rcases hsent with hlt | ⟨heq, hunsent⟩
    · split <;> omega
    · split
      · rename_i hstage
        rw [hstage] at hunsent
        exact absurd hmem hunsent
      · omega
  have hv := h.gxp.entered_of_left hleft v
  rw [(h.thread v).round] at hv
  unfold AppThread.syncs at hv
  split at hv <;> omega

/-- The messages that have been sent to a node are of its iterations. -/
theorem sentTo_subset (h : AppInv bo adj tables op iter a s placed)
    (hi : i ∈ s.net.sentTo (a.call op) u) : i ∈ op.messages ((s.thread u).it + 1) u := by
  obtain ⟨hbegun, hdst⟩ := List.mem_filter.1 hi
  have hu : i.dst = u := Fin.ext (Int.ofNat_inj.1 (of_decide_eq_true hdst))
  have hmem := (((h.thread i.src).begun i rfl).1 hbegun).1
  rw [hu] at hmem
  exact AppCollective.mem_messages.2 ⟨Nat.lt_succ_of_le (h.it_le hbegun u), hu, hmem⟩

theorem nodup_sentTo (h : AppInv bo adj tables op iter a s placed) (u : Fin n) :
    (s.net.sentTo (a.call op) u).Nodup := h.net.nodup.filter _

theorem sentTo_le (h : AppInv bo adj tables op iter a s placed) (u : Fin n) :
    (s.net.sentTo (a.call op) u).length ≤ ((s.thread u).it + 1) * op.waits u := by
  rw [← AppCollective.length_messages]
  exact ((h.nodup_sentTo u).subperm fun i hi => h.sentTo_subset hi).length_le

theorem waits_lt (op : AppCollective n) (u : Fin n) : op.waits u ≤ n := by
  rw [← AppCollective.length_senders]
  exact (List.length_filter_le _ _).trans_eq (List.length_finRange)

/-- **The messages that are under way have different decoded `sid`s**: they are of one iteration, so
they have different sources. -/
theorem inBounds (h : AppInv bo adj tables op iter a s placed)
    (hsockets : SocketsBounded cap s.net.fwd) : s.net.InBounds n cap (a.call op) := by
  have hsame : ∀ i ∈ s.net.begun, s.net.arrived (a.call op) i < (a.call op i).chunks.length →
      i.it = (s.thread i.dst).it := by
    intro i hi hlt
    have hle := h.it_le hi i.dst
    by_contra hne
    have harrived := (h.thread i.dst).arrived i hi rfl (Or.inl (lt_of_le_of_ne hle hne))
    omega
  refine ⟨hsockets, fun i j hi hj hdst hilt hjlt hsid => ?_, fun w hw => ?_⟩
  · have hd : i.dst = j.dst := Fin.ext (Int.ofNat_inj.1 hdst)
    have hsrc : i.src = j.src := Fin.ext (DataSend.src_of_wireSid hsid)
    have hit : i.it = j.it := by rw [hsame i hi hilt, hsame j hj hjlt, hd]
    obtain ⟨_, _, _⟩ := i
    obtain ⟨_, _, _⟩ := j
    cases hd
    cases hsrc
    cases hit
    rfl
  · obtain ⟨k, rfl⟩ := Int.eq_ofNat_of_zero_le hw.1
    have hk : k < n := Int.ofNat_lt.1 hw.2
    have hle := h.sentTo_le ⟨k, hk⟩
    have hrec := (h.thread ⟨k, hk⟩).received
    have howed := (h.thread ⟨k, hk⟩).owed
    have hwaits := waits_lt op ⟨k, hk⟩
    have hpeers := a.peers
    unfold commMaxPeer at hpeers
    change (s.net.sentTo (a.call op) (k : ℕ)).length < (s.net.received (k : ℕ)).length + 2 ^ 31
    dsimp only at hle hrec
    omega

end AppInv

/-! ### Threads that stay where they are -/

/-- What a step does to the calls. -/
theorem MessagingStep.begun_cases {ι : Type} [DecidableEq ι] {calls : ι → DataCall}
    {t t' : Messaging ι} (hstep : MessagingStep bo n calls t t') :
    (t'.begun = t.begun ∧ t'.dataMsgSid = t.dataMsgSid) ∨ ∃ i, i ∉ t.begun ∧
      t'.begun = t.begun ++ [i] ∧ t'.received = t.received ∧
      t'.dataMsgSid = Function.update t.dataMsgSid (calls i).msg.srcId
        (t.dataMsgSid (calls i).msg.srcId + 1) := by
  cases hstep with
  | @call i hnew _ _ _ _ => exact Or.inr ⟨i, hnew, rfl, rfl, rfl⟩
  | push _ _ _ _ => exact Or.inl ⟨rfl, rfl⟩
  | silent _ => exact Or.inl ⟨rfl, rfl⟩
  | read _ _ => exact Or.inl ⟨rfl, rfl⟩
  | recv _ _ _ => exact Or.inl ⟨rfl, rfl⟩

theorem ne_append_singleton {α : Type} (l : List α) (x : α) : l ≠ l ++ [x] := by
  intro h
  have hlen := congrArg List.length h
  rw [List.length_append, List.length_singleton] at hlen
  omega

section Thread

variable {net : Messaging (AppMsg n)} {m m' : Collective.Member (Fin n) Line} {th th' : AppThread n}

/-- A thread stays where it is while others go on. -/
theorem AppThread.Inv.congr (h : th.Inv op iter a net m u) (hround : m'.round = m.round)
    (hinside : m'.inside = true → th.stage.AtSync)
    (hbegun : ∀ i : AppMsg n, i.src = u → (i ∈ net'.begun ↔ i ∈ net.begun))
    (hsid : net'.dataMsgSid u = net.dataMsgSid u) (hreceived : net'.received u = net.received u)
    (harrived : ∀ i ∈ net'.begun, i.dst = u → th.HasWaited i.it →
      net'.arrived (a.call op) i = (a.call op i).chunks.length) :
    th.Inv op iter a net' m' u where
  toOk := h.toOk
  round := hround.trans h.round
  inside := hinside
  begun i hi := (hbegun i hi).trans (h.begun i hi)
  dataMsgSid := hsid.trans h.dataMsgSid
  received := by
    rw [hreceived]
    exact h.received
  arrived := harrived
  separate := by
    rw [hreceived]
    exact h.separate

/-- A thread goes on within its iteration, and sends and receives nothing. -/
theorem AppThread.Inv.stage (h : th.Inv op iter a net m u) (hok : th'.Ok op iter u)
    (hit : th'.it = th.it) (hround : m'.round = th'.syncs)
    (hinside : m'.inside = true → th'.stage.AtSync)
    (hunsent : th'.stage.unsent (op.dests u) = th.stage.unsent (op.dests u))
    (howed : th'.stage.owed (op.waits u) = th.stage.owed (op.waits u))
    (harrived : ∀ i ∈ net.begun, i.dst = u → th'.HasWaited i.it →
      net.arrived (a.call op) i = (a.call op i).chunks.length) : th'.Inv op iter a net m' u where
  toOk := hok
  round := hround
  inside := hinside
  begun i hi := by
    rw [h.begun i hi]
    unfold AppThread.HasSent
    rw [hit, hi, hunsent]
  dataMsgSid := by
    rw [hit, hunsent]
    exact h.dataMsgSid
  received := by
    rw [hit, howed]
    exact h.received
  arrived := harrived
  separate := by
    rw [hit]
    exact h.separate

end Thread

/-! ### What has arrived -/

namespace AppInv

/-- No more messages are received than sent. -/
theorem received_le (h : AppInv bo adj tables op iter a s placed) (u : Fin n) :
    ∃ log, ArrivedLog (a.call op) s.net u log ∧
      (s.net.received u).length + (s.net.stores u).queues.total = log.length ∧
      DataQueues.Ok 0 (s.net.stores u).queues := by
  obtain ⟨taken, p, hnode⟩ :=
    h.net.node u (node_range u) (fitsInt_of_node a.peers (node_range u))
  obtain ⟨log, hlog⟩ := hnode.log
  exact ⟨log, hlog, hnode.received_length hlog, hnode.queues⟩

/-- **Before a message is sent, its receiver waits for it.** -/
theorem not_waited (h : AppInv bo adj tables op iter a s placed) (hnew : i ∉ s.net.begun)
    (hmem : i.dst ∈ op.dests i.src) (hit : i.it = (s.thread i.src).it) :
    ¬ (s.thread i.dst).HasWaited i.it := by
  intro hwaited
  obtain ⟨log, hlog, hlen, _⟩ := h.received_le i.dst
  have hle := hlog.length_le
  have hrec := (h.thread i.dst).received
  have howed := (h.thread i.dst).owed
  have hmany : (i.it + 1) * op.waits i.dst ≤ (s.net.received i.dst).length := by
    rcases hwaited with hlt | ⟨heq, hstage⟩
    · have hmul := Nat.mul_le_mul_right (op.waits i.dst) (Nat.succ_le_of_lt hlt)
      rw [Nat.succ_mul] at hrec
      exact hmul.trans (by omega)
    · rw [hstage] at hrec
      rw [heq]
      exact hrec.ge
  -- the message itself is missing among those that have been sent
  have hfew : (i :: s.net.sentTo (a.call op) i.dst).length ≤ (i.it + 1) * op.waits i.dst := by
    rw [← AppCollective.length_messages]
    refine List.Subperm.length_le (List.Nodup.subperm ?_ fun j hj => ?_)
    · exact List.nodup_cons.2 ⟨fun hi => hnew (List.mem_filter.1 hi).1, h.nodup_sentTo i.dst⟩
    · rcases List.mem_cons.1 hj with rfl | hj
      · exact AppCollective.mem_messages.2 ⟨Nat.lt_succ_self _, rfl, hmem⟩
      · obtain ⟨_, hdst, hdests⟩ := AppCollective.mem_messages.1 (h.sentTo_subset hj)
        refine AppCollective.mem_messages.2 ⟨Nat.lt_succ_of_le ?_, hdst, hdests⟩
        rw [hit]
        exact h.it_le (List.mem_filter.1 hj).1 i.src
  rw [List.length_cons] at hfew
  have hsent : (s.net.sentTo (a.call op) i.dst).length =
    (s.net.begun.filter fun j => (a.call op j).dstId = (i.dst : ℕ)).length := rfl
  omega

/-- **A node that has received all messages of its iteration** has received those of the first
iterations, up to its own, and nothing else. -/
theorem settled (h : AppInv bo adj tables op iter a s placed)
    (howed : (s.thread u).stage.owed (op.waits u) = 0) :
    (∀ i ∈ s.net.begun, i.dst = u →
      s.net.arrived (a.call op) i = (a.call op i).chunks.length) ∧
    (s.net.received u).Perm
      ((op.messages ((s.thread u).it + 1) u).map fun i => (a.call op i).result) := by
  obtain ⟨log, hlog, hlen, hqueues⟩ := h.received_le u
  have hrec := (h.thread u).received
  rw [howed, Nat.add_zero, ← AppCollective.length_messages] at hrec
  have hsub : ∀ i ∈ log, i ∈ op.messages ((s.thread u).it + 1) u := by
    intro i hi
    obtain ⟨hbegun, hdst, _⟩ := (hlog.mem i).1 hi
    exact h.sentTo_subset (List.mem_filter.2 ⟨hbegun, decide_eq_true hdst⟩)
  have hsubperm := hlog.nodup.subperm hsub
  have hperm : log.Perm (op.messages ((s.thread u).it + 1) u) :=
    hsubperm.perm_of_length_le (by omega)
  have htotal : (s.net.stores u).queues.total = 0 := by
    have hle := hsubperm.length_le
    omega
  refine ⟨fun i hi hdst => ?_, (hlog.perm (hqueues.queue_eq_nil htotal)).trans (hperm.map _)⟩
  have hmem : i ∈ log := by
    rw [hperm.mem_iff]
    refine h.sentTo_subset (List.mem_filter.2 ⟨hi, decide_eq_true ?_⟩)
    rw [← hdst]
    rfl
  exact ((hlog.mem i).1 hmem).2.2

/-! ### Steps of a thread -/

/-- What has arrived completely stays. -/
theorem arrived_full (h : AppInv bo adj tables op iter a s placed)
    (hstep : MessagingStep bo n (a.call op) s.net net') (hpeers : Peers n adj)
    (htables : TablesComplete n adj tables) (hsockets : SocketsBounded cap s.net.fwd)
    (h' : MessagingInv bo n adj tables (a.call op) net' placed') (hi : i ∈ s.net.begun)
    (hfull : s.net.arrived (a.call op) i = (a.call op i).chunks.length) :
    net'.arrived (a.call op) i = (a.call op i).chunks.length := by
  have hle := hstep.arrived_le a.peers hpeers htables h.net (h.inBounds hsockets) hi
  have hmax := h'.pushes.arrived_le i
  omega

/-- A step of the network. -/
theorem network (h : AppInv bo adj tables op iter a s placed)
    (hstep : MessagingStep bo n (a.call op) s.net net') (hpeers : Peers n adj)
    (htables : TablesComplete n adj tables) (hsockets : SocketsBounded cap s.net.fwd)
    (hbegun : net'.begun = s.net.begun) (hreceived : net'.received = s.net.received) :
    ∃ placed', AppInv bo adj tables op iter a { s with net := net' } placed' := by
  obtain ⟨placed', h'⟩ := hstep.inv a.peers hpeers htables h.net (h.inBounds hsockets)
  have hsid : net'.dataMsgSid = s.net.dataMsgSid := by
    rcases hstep.begun_cases with ⟨_, hsid⟩ | ⟨i, _, hcall, _⟩
    · exact hsid
    · exact absurd (hbegun.symm.trans hcall) (ne_append_singleton _ _)
  refine ⟨placed', h', h.gxp, fun v => (h.thread v).congr rfl (h.thread v).inside (fun i _ => ?_)
    (congrFun hsid _) (congrFun hreceived _) fun i hi hdst hwaited => ?_⟩
  · rw [hbegun]
  · dsimp only at hi
    rw [hbegun] at hi
    exact h.arrived_full hstep hpeers htables hsockets h' hi ((h.thread v).arrived i hi hdst hwaited)

/-- A line is printed, gets its place in the stream, or is scanned. -/
theorem line (h : AppInv bo adj tables op iter a s placed) {gxp' : Collective.State (Fin n) Line}
    (hstep : Collective.Step (appProgram n iter) s.gxp gxp') (hstays : Collective.Stays s.gxp gxp') :
    AppInv bo adj tables op iter a { s with gxp := gxp' } placed :=
  ⟨h.net, h.gxp.step hstep, fun v => (h.thread v).congr (hstays v).1
    (fun hin => (h.thread v).inside ((hstays v).2 ▸ hin)) (fun _ _ => Iff.rfl) rfl rfl
    (h.thread v).arrived⟩

/-- A thread calls `gxp_man_sync`. -/
theorem enter (h : AppInv bo adj tables op iter a s placed) {gxp' : Collective.State (Fin n) Line}
    (hstage : (s.thread u).stage.AtSync)
    (hstep : Collective.Step (appProgram n iter) s.gxp gxp')
    (henters : Collective.Enters u s.gxp gxp') :
    AppInv bo adj tables op iter a { s with gxp := gxp' } placed := by
  refine ⟨h.net, h.gxp.step hstep, fun v => ?_⟩
  by_cases hv : v = u
  · subst hv
    exact (h.thread v).congr henters.round (fun _ => hstage) (fun _ _ => Iff.rfl) rfl rfl
      (h.thread v).arrived
  · refine (h.thread v).congr ?_ (fun hin => (h.thread v).inside ?_) (fun _ _ => Iff.rfl) rfl rfl
      (h.thread v).arrived
    · exact congrArg Collective.Member.round (henters.others v hv)
    · dsimp only at hin
      rwa [henters.others v hv] at hin

/-- A thread that is in `gxp_man_sync` has an iteration to go through. -/
theorem it_lt (h : AppInv bo adj tables op iter a s placed)
    (hin : (s.gxp.member u).inside = true) : (s.thread u).it < iter := by
  have hchosen : (s.gxp.member u).chosen[(s.gxp.member u).round]? ≠ none :=
    h.gxp.entered_iff.2 (Or.inr ⟨rfl, hin⟩)
  obtain ⟨w, hw⟩ := Option.ne_none_iff_exists'.1 hchosen
  obtain ⟨r, hr, _⟩ := (h.gxp.member u).writes _ w hw
  have hlt := (List.getElem?_eq_some_iff.1 hr).1
  unfold appProgram gxpProgram at hlt
  rw [List.length_map, List.length_replicate, (h.thread u).round] at hlt
  unfold AppThread.syncs at hlt
  split at hlt <;> omega

/-- One thread goes on, alone. -/
theorem setThread (h : AppInv bo adj tables op iter a s placed) {th : AppThread n}
    (hth : th.Inv op iter a s.net (s.gxp.member u) u) :
    AppInv bo adj tables op iter a (s.setThread u th) placed := by
  refine ⟨h.net, h.gxp, fun v => ?_⟩
  by_cases hv : v = u
  · subst hv
    rw [AppState.setThread_self]
    exact hth
  · rw [AppState.setThread_of_ne hv]
    exact h.thread v

/-- **A node begins its next iteration.** -/
theorem next_iteration (h : AppInv bo adj tables op iter a s placed)
    (hstage : (s.thread u).stage = AppStage.closing)
    {m : Collective.Member (Fin n) Line} (hround : m.round = (s.gxp.member u).round + 1) :
    AppThread.Inv op iter a s.net m u ⟨(s.thread u).it + 1, AppStage.opening⟩ := by
  have hu := h.thread u
  have hit : (s.thread u).it ≠ iter := fun hit => by
    have hopening := hu.ended hit
    rw [hstage] at hopening
    cases hopening
  have howed : (s.thread u).stage.owed (op.waits u) = 0 := by
    rw [hstage]
    rfl
  have hrec := hu.received
  have hsid := hu.dataMsgSid
  obtain ⟨harrived, hseparate⟩ := h.settled howed
  rw [howed, Nat.add_zero] at hrec
  rw [hstage] at hsid
  have hle := hu.it_le
  refine
    { it_le := by
        dsimp only
        omega
      ended := fun _ => rfl
      unsent := List.suffix_refl _
      pushing := fun _ _ hpushing => by cases hpushing
      owed := le_rfl
      round := ?_
      inside := fun _ => Or.inl rfl
      begun := fun i hi => ?_
      dataMsgSid := ?_
      received := ?_
      arrived := fun i hi hdst _ => harrived i hi hdst
      separate := ?_ }
  · rw [hround, hu.round]
    unfold AppThread.syncs
    rw [hstage]
    dsimp only
    omega
  · rw [hu.begun i hi]
    refine and_congr_right fun hmem => ?_
    unfold AppThread.HasSent
    rw [hstage]
    constructor
    · intro hsent
      exact Or.inl
        (hsent.elim (fun hlt => Nat.lt_succ_of_lt hlt) fun heq => Nat.lt_succ_of_le heq.1.le)
    · rintro (hlt | ⟨_, hnot⟩)
      · exact (Nat.lt_succ_iff_lt_or_eq.1 hlt).imp id fun heq => ⟨heq, List.not_mem_nil⟩
      · exact absurd hmem hnot
  · rw [hsid]
    change _ + BitVec.ofNat 64 (_ + (_ - 0)) = _ + BitVec.ofNat 64
      (((s.thread u).it + 1) * (op.dests u).length + ((op.dests u).length - (op.dests u).length))
    rw [Nat.sub_zero, Nat.sub_self, Nat.add_zero, Nat.succ_mul]
  · rw [hrec]
    exact (Nat.succ_mul _ _).symm
  · intro k hk
    rcases Nat.le_succ_iff.1 hk with hk | rfl
    · exact hu.separate k hk
    · rw [Nat.succ_eq_add_one, ← hrec, List.take_length]
      exact hseparate

/-- **A call of `gxp_man_sync` returns.** -/
theorem leave (h : AppInv bo adj tables op iter a s placed) {gxp' : Collective.State (Fin n) Line}
    (hstep : Collective.Step (appProgram n iter) s.gxp gxp')
    (hleaves : Collective.Leaves u s.gxp gxp') :
    AppInv bo adj tables op iter a
      { s.setThread u ((s.thread u).synced op u) with gxp := gxp' } placed := by
  refine ⟨h.net, h.gxp.step hstep, fun v => ?_⟩
  dsimp only
  by_cases hv : v = u
  swap
  · rw [AppState.setThread_of_ne hv, hleaves.others v hv]
    exact h.thread v
  subst hv
  rw [AppState.setThread_self]
  have hlt := h.it_lt hleaves.inside
  rcases (h.thread v).inside hleaves.inside with hstage | hstage
  · have hsynced : (s.thread v).synced op v =
        ⟨(s.thread v).it, AppStage.sending (op.dests v)⟩ := by
      unfold AppThread.synced
      rw [hstage]
    rw [hsynced]
    refine (h.thread v).stage ⟨hlt.le, fun hit => absurd hit hlt.ne, List.suffix_refl _,
      (fun _ _ hpushing => by cases hpushing), le_rfl⟩ rfl ?_
      (fun hin => absurd hin (by rw [hleaves.out]; exact Bool.false_ne_true)) ?_ ?_ ?_
    · rw [hleaves.round, (h.thread v).round]
      unfold AppThread.syncs
      rw [hstage]
    · rw [hstage]
      rfl
    · rw [hstage]
      rfl
    · intro i hi hdst hwaited
      refine (h.thread v).arrived i hi hdst (hwaited.imp id fun hclosing => ?_)
      exact absurd hclosing.2 (by intro hstage'; cases hstage')
  · have hsynced : (s.thread v).synced op v = ⟨(s.thread v).it + 1, AppStage.opening⟩ := by
      unfold AppThread.synced
      rw [hstage]
    rw [hsynced]
    exact h.next_iteration hstage hleaves.round

/-- A thread that is between the calls of `gxp_man_sync` has entered no round. -/
theorem outside (h : AppInv bo adj tables op iter a s placed) (hnot : ¬ (s.thread u).stage.AtSync) :
    (s.gxp.member u).inside = false :=
  Bool.eq_false_iff.2 fun hin => hnot ((h.thread u).inside hin)

/-- A thread between the calls of `gxp_man_sync` has an iteration to go through. -/
theorem it_ne (h : AppInv bo adj tables op iter a s placed) (hnot : ¬ (s.thread u).stage.AtSync) :
    (s.thread u).it ≠ iter := fun hit => hnot (Or.inl ((h.thread u).ended hit))

/-- **A thread calls `comm_node_send_data`.** -/
theorem send (h : AppInv bo adj tables op iter a s placed)
    (hstep : MessagingStep bo n (a.call op) s.net net') (hpeers : Peers n adj)
    (htables : TablesComplete n adj tables) (hsockets : SocketsBounded cap s.net.fwd) {idx : Fin n}
    {left : List (Fin n)} (hstage : (s.thread u).stage = AppStage.sending (idx :: left))
    (hcall : net'.begun = s.net.begun ++ [⟨(s.thread u).it, u, idx⟩]) :
    ∃ placed', AppInv bo adj tables op iter a { s.setThread u { s.thread u with
      stage := AppStage.pushing idx left } with net := net' } placed' := by
  obtain ⟨placed', h'⟩ := hstep.inv a.peers hpeers htables h.net (h.inBounds hsockets)
  rcases hstep.begun_cases with ⟨hsame, _⟩ | ⟨i, hnew, hbegun, hreceived, hsid⟩
  · exact absurd (hsame.symm.trans hcall) (ne_append_singleton _ _)
  obtain rfl : i = ⟨(s.thread u).it, u, idx⟩ :=
    List.singleton_inj.1 (List.append_cancel_left (hbegun.symm.trans hcall))
  have hu := h.thread u
  have hunsent := hu.unsent
  have hsidu := hu.dataMsgSid
  rw [hstage] at hunsent hsidu
  have hmem : idx ∈ op.dests u := hunsent.subset List.mem_cons_self
  have hsync : ¬ (s.thread u).stage.AtSync := by simp [hstage, AppStage.AtSync]
  -- the messages that had arrived completely are those that have arrived now
  have hfull : ∀ v, ∀ i ∈ net'.begun, i.dst = v → (s.thread v).HasWaited i.it →
      net'.arrived (a.call op) i = (a.call op i).chunks.length := by
    intro v i hi hdst hwaited
    rw [hbegun] at hi
    rcases List.mem_append.1 hi with hi | hi
    · exact h.arrived_full hstep hpeers htables hsockets h' hi
        ((h.thread v).arrived i hi hdst hwaited)
    · obtain rfl := List.mem_singleton.1 hi
      rw [← hdst] at hwaited
      exact absurd hwaited (h.not_waited hnew hmem rfl)
  refine ⟨placed', h', h.gxp, fun v => ?_⟩
  change AppThread.Inv op iter a net' (s.gxp.member v) v ((s.setThread u _).thread v)
  by_cases hv : v = u
  swap
  · rw [AppState.setThread_of_ne hv]
    refine (h.thread v).congr rfl (h.thread v).inside (fun i hi => ?_) ?_
      (congrFun hreceived _) (hfull v)
    · rw [hbegun, List.mem_append, List.mem_singleton]
      refine or_iff_left fun hlast => hv ?_
      rw [← hi, hlast]
    · rw [hsid]
      exact Function.update_of_ne (fun hsame => hv (Fin.ext (Int.ofNat_inj.1 hsame))) _ _
  subst hv
  rw [AppState.setThread_self]
  refine
    { it_le := hu.it_le
      ended := fun hit => absurd hit (h.it_ne hsync)
      unsent := (List.suffix_cons idx left).trans hunsent
      pushing := fun _ _ hpushing => by cases hpushing; exact hunsent
      owed := le_rfl
      round := ?_
      inside := fun hin => absurd hin (by rw [h.outside hsync]; exact Bool.false_ne_true)
      begun := fun i hi => ?_
      dataMsgSid := ?_
      received := ?_
      arrived := fun i hi hdst hwaited => hfull v i hi hdst (hwaited.imp id fun hclosing => ?_)
      separate := ?_ }
  · rw [hu.round]
    unfold AppThread.syncs
    rw [hstage]
  · rw [hbegun, List.mem_append, List.mem_singleton, hu.begun i hi]
    exact AppThread.hasSent_send hstage hunsent (op.nodup_dests v) hi
  · rw [hsid]
    change Function.update s.net.dataMsgSid ((v : ℕ) : ℤ) (s.net.dataMsgSid ((v : ℕ) : ℤ) + 1)
      ((v : ℕ) : ℤ) = _
    rw [Function.update_self, hsidu]
    exact dataMsgSid_send hunsent
  · rw [hreceived]
    have hrec := hu.received
    rw [hstage] at hrec
    exact hrec
  · cases hclosing.2
  · rw [hreceived]
    exact hu.separate

/-- A thread goes on between the calls of `gxp_man_sync`. -/
theorem go_on (h : AppInv bo adj tables op iter a s placed) {stage : AppStage n}
    (hnot : ¬ (s.thread u).stage.AtSync) (hopening : stage ≠ AppStage.opening)
    (hpushing : ∀ idx left, stage ≠ AppStage.pushing idx left)
    (hunsent : stage.unsent (op.dests u) = (s.thread u).stage.unsent (op.dests u))
    (howed : stage.owed (op.waits u) = (s.thread u).stage.owed (op.waits u)) :
    AppInv bo adj tables op iter a (s.setThread u ⟨(s.thread u).it, stage⟩) placed := by
  have hu := h.thread u
  refine h.setThread (hu.stage
    { it_le := hu.it_le
      ended := fun hit => absurd hit (h.it_ne hnot)
      unsent := hunsent ▸ hu.unsent
      pushing := fun idx left hstage => absurd hstage (hpushing idx left)
      owed := howed ▸ hu.owed } rfl ?_ (fun hin => ?_) hunsent howed fun i hi hdst hwaited => ?_)
  · rw [hu.round, AppThread.syncs_of_ne fun hstage => hnot (Or.inl hstage),
      AppThread.syncs_of_ne hopening]
  · rw [h.outside hnot] at hin
    cases hin
  · rcases hwaited with hlt | ⟨_, hclosing⟩
    · exact hu.arrived i hi hdst (Or.inl hlt)
    · change stage = AppStage.closing at hclosing
      rw [hclosing] at howed
      exact (h.settled howed.symm).1 i hi hdst

/-- **A thread receives a message.** -/
theorem recv (h : AppInv bo adj tables op iter a s placed)
    (hstep : MessagingStep bo n (a.call op) s.net net') (hpeers : Peers n adj)
    (htables : TablesComplete n adj tables) (hsockets : SocketsBounded cap s.net.fwd) {count : ℕ}
    {received : ReceivedData} (hstage : (s.thread u).stage = AppStage.waiting (count + 1))
    (hrecv : net'.received = Function.update s.net.received u (s.net.received u ++ [received])) :
    ∃ placed', AppInv bo adj tables op iter a { s.setThread u { s.thread u with
      stage := AppStage.waiting count } with net := net' } placed' := by
  obtain ⟨placed', h'⟩ := hstep.inv a.peers hpeers htables h.net (h.inBounds hsockets)
  rcases hstep.begun_cases with ⟨hbegun, hsid⟩ | ⟨_, _, _, hsame, _⟩
  swap
  · have hself := congrFun (hsame.symm.trans hrecv) u
    rw [Function.update_self] at hself
    exact absurd hself (ne_append_singleton _ _)
  have hu := h.thread u
  have howed := hu.owed
  have hreceived := hu.received
  rw [hstage] at howed hreceived
  change count + 1 ≤ _ at howed
  change _ + (count + 1) = _ at hreceived
  have hsync : ¬ (s.thread u).stage.AtSync := by simp [hstage, AppStage.AtSync]
  have hfull : ∀ v, ∀ i ∈ net'.begun, i.dst = v → (s.thread v).HasWaited i.it →
      net'.arrived (a.call op) i = (a.call op i).chunks.length := by
    intro v i hi hdst hwaited
    rw [hbegun] at hi
    exact h.arrived_full hstep hpeers htables hsockets h' hi
      ((h.thread v).arrived i hi hdst hwaited)
  refine ⟨placed', h', h.gxp, fun v => ?_⟩
  change AppThread.Inv op iter a net' (s.gxp.member v) v ((s.setThread u _).thread v)
  by_cases hv : v = u
  swap
  · rw [AppState.setThread_of_ne hv]
    refine (h.thread v).congr rfl (h.thread v).inside (fun i _ => ?_) (congrFun hsid _) ?_ (hfull v)
    · rw [hbegun]
    · rw [hrecv]
      exact Function.update_of_ne (fun hsame => hv (Fin.ext (Int.ofNat_inj.1 hsame))) _ _
  subst hv
  rw [AppState.setThread_self]
  refine
    { it_le := hu.it_le
      ended := fun hit => absurd hit (h.it_ne hsync)
      unsent := ⟨_, List.append_nil _⟩
      pushing := fun _ _ hpushing => by cases hpushing
      owed := Nat.le_of_succ_le howed
      round := ?_
      inside := fun hin => absurd hin (by rw [h.outside hsync]; exact Bool.false_ne_true)
      begun := fun i hi => ?_
      dataMsgSid := ?_
      received := ?_
      arrived := fun i hi hdst hwaited => hfull v i hi hdst (hwaited.imp id fun hclosing => ?_)
      separate := ?_ }
  · rw [hu.round]
    unfold AppThread.syncs
    rw [hstage]
  · rw [hbegun, hu.begun i hi]
    unfold AppThread.HasSent
    rw [hstage]
    rfl
  · rw [hsid, hu.dataMsgSid, hstage]
    rfl
  · change (net'.received ((v : ℕ) : ℤ)).length + count = ((s.thread v).it + 1) * _
    rw [hrecv, Function.update_self, List.length_append, List.length_singleton]
    omega
  · cases hclosing.2
  · -- the messages of the iterations before have all been received
    intro k hk
    have hle : k * op.waits v ≤ (s.net.received ((v : ℕ) : ℤ)).length := by
      have hmul := Nat.mul_le_mul_right (op.waits v) hk
      rw [Nat.succ_mul] at hreceived
      dsimp only at hmul
      omega
    rw [hrecv, Function.update_self, List.take_append_of_le_length hle]
    exact hu.separate k hk

end AppInv

/-- **Every step keeps the invariant.** -/
theorem AppStep.inv (hstep : AppStep bo op iter a s s') (hpeers : Peers n adj)
    (htables : TablesComplete n adj tables) (hsockets : SocketsBounded cap s.net.fwd)
    (h : AppInv bo adj tables op iter a s placed) :
    ∃ placed', AppInv bo adj tables op iter a s' placed' := by
  cases hstep with
  | enter _ hstage hstep henters => exact ⟨placed, h.enter hstage hstep henters⟩
  | line hstep hstays => exact ⟨placed, h.line hstep hstays⟩
  | leave hstep hleaves => exact ⟨placed, h.leave hstep hleaves⟩
  | send hstage hstep hcall => exact h.send hstep hpeers htables hsockets hstage hcall
  | @sent u idx left hstage _ =>
      refine ⟨placed, h.go_on ?_ (fun hopening => by cases hopening)
        (fun _ _ hpushing => by cases hpushing) ?_ ?_⟩
      · simp [hstage, AppStage.AtSync]
      · rw [hstage]
        rfl
      · rw [hstage]
        rfl
  | @sentAll u hstage =>
      refine ⟨placed, h.go_on ?_ (fun hopening => by cases hopening)
        (fun _ _ hpushing => by cases hpushing) ?_ ?_⟩
      · simp [hstage, AppStage.AtSync]
      · rw [hstage]
        rfl
      · rw [hstage]
        rfl
  | recv hstage hstep hrecv => exact h.recv hstep hpeers htables hsockets hstage hrecv
  | @waited u hstage =>
      refine ⟨placed, h.go_on ?_ (fun hopening => by cases hopening)
        (fun _ _ hpushing => by cases hpushing) ?_ ?_⟩
      · simp [hstage, AppStage.AtSync]
      · rw [hstage]
        rfl
      · rw [hstage]
        rfl
  | network hstep hbegun hreceived =>
      exact h.network hstep hpeers htables hsockets hbegun hreceived

/-! ### Runs -/

/-- In the beginning nothing has been sent. -/
theorem AppStart.inv (h : AppStart bo adj tables a s) (hpeers : Peers n adj) :
    AppInv bo adj tables op iter a s placedStart := by
  refine ⟨h.net.inv hpeers, ?_, fun u => ?_⟩
  · rw [h.gxp]
    exact Collective.Ok.initial
  rw [h.thread, h.gxp]
  refine
    { it_le := Nat.zero_le _
      ended := fun _ => rfl
      unsent := List.suffix_refl _
      pushing := fun _ _ hpushing => by cases hpushing
      owed := le_rfl
      round := rfl
      inside := fun _ => Or.inl rfl
      begun := fun i _ => ?_
      dataMsgSid := ?_
      received := ?_
      arrived := fun i hi _ _ => ?_
      separate := fun k hk => ?_ }
  · rw [h.net.begun]
    refine iff_of_false List.not_mem_nil ?_
    rintro ⟨hmem, hlt | ⟨_, hnot⟩⟩
    · exact Nat.not_lt_zero _ hlt
    · exact hnot hmem
  · rw [h.dataMsgSid]
    change _ = _ + BitVec.ofNat 64 (0 * _ + ((op.dests u).length - (op.dests u).length))
    rw [Nat.zero_mul, Nat.sub_self]
    exact (BitVec.add_zero _).symm
  · rw [h.net.received, List.length_nil]
    change 0 + op.waits u = (0 + 1) * op.waits u
    omega
  · rw [h.net.begun] at hi
    cases hi
  · obtain rfl := Nat.le_zero.1 hk
    rw [Nat.zero_mul, List.take_zero]
    exact List.Perm.refl []

/-- The states that the threads of the nodes can reach, while the sockets are within their bounds. -/
abbrev AppReach (bo : ByteOrder) (adj : ℤ → ℤ → Prop) [∀ u v, Decidable (adj u v)]
    (tables : ℤ → OverlayRtable) (cap : ℤ → ℤ → ℕ) (op : AppCollective n) (iter : ℕ) (a : AppSend n) :
    AppState n → Prop :=
  Reach (fun s => AppStart bo adj tables a s ∧ SocketsBounded cap s.net.fwd)
    (Guarded (AppStep bo op iter a) fun _ t => SocketsBounded cap t.net.fwd)

/-- What holds of every reachable state. -/
theorem appReach_inv (hpeers : Peers n adj) (htables : TablesComplete n adj tables)
    (h : AppReach bo adj tables cap op iter a s) :
    (∃ placed, AppInv bo adj tables op iter a s placed) ∧ SocketsBounded cap s.net.fwd := by
  refine Reach.inv (I := fun s => (∃ placed, AppInv bo adj tables op iter a s placed) ∧
    SocketsBounded cap s.net.fwd) ?_ ?_ h
  · intro s hs
    exact ⟨⟨placedStart, hs.1.inv hpeers⟩, hs.2⟩
  · rintro s t ⟨⟨placed, hinv⟩, hsockets⟩ ⟨hstep, hsockets'⟩
    exact ⟨hstep.inv hpeers htables hsockets hinv, hsockets'⟩

/-- What a node receives of the message of `v`. -/
def AppSend.result (a : AppSend n) (v : Fin n) : ReceivedData :=
  (((v : ℕ) : ℤ), (a.buff v).length, (a.buff v).map some)

/-- What is promised of an operation: in each iteration that a node has finished, it has received one
message of each of its senders; in the running iteration it has received one at most of each; and
the network transports the messages. -/
structure AppSeparate (bo : ByteOrder) (op : AppCollective n) (a : AppSend n) (s : AppState n) :
    Prop where
  finished : ∀ u : Fin n, ∀ k < (s.thread u).it,
    (((s.net.received u).drop (k * op.waits u)).take (op.waits u)).Perm ((op.senders u).map a.result)
  running : ∀ u : Fin n,
    ((s.net.received u).drop ((s.thread u).it * op.waits u)).Subperm ((op.senders u).map a.result)
  transported : MessagesTransported bo n (a.call op) s.net

/-- The messages of one more iteration. -/
theorem AppCollective.map_messages_succ (k : ℕ) (u : Fin n) :
    ((op.messages (k + 1) u).map fun i => (a.call op i).result) =
      ((op.messages k u).map fun i => (a.call op i).result) ++ (op.senders u).map a.result := by
  unfold messages
  rw [List.range_succ, List.flatMap_append, List.map_append, List.flatMap_singleton, List.map_map]
  rfl

/-- What has been received and what waits are messages that have arrived. -/
theorem ArrivedLog.subperm {ι : Type} [DecidableEq ι] {calls : ι → DataCall} {t : Messaging ι} {d : ℤ}
    {log : List ι} (h : ArrivedLog calls t d log) :
    (t.received d).Subperm (log.map fun i => (calls i).result) := by
  refine List.subperm_ext_iff.2 fun r _ => ?_
  have horder := congrArg (List.count r) (h.order r.1)
  have hkeep : ∀ l : List ReceivedData, (l.filter fun x => x.1 = r.1).count r = l.count r := fun l =>
    List.count_filter (decide_eq_true rfl)
  rw [List.count_append, hkeep] at horder
  have hlog : ((log.filter fun i => ((calls i).msg.srcId : ℤ) = r.1).map fun i =>
      (calls i).result).count r = (log.map fun i => (calls i).result).count r := by
    rw [← hkeep (log.map _), List.filter_map]
    rfl
  rw [hlog] at horder
  omega

/-- **A node receives the messages of each iteration before those of the next one.** -/
theorem AppInv.appSeparate (h : AppInv bo adj tables op iter a s placed) (hpeers : Peers n adj)
    (htables : TablesComplete n adj tables) (hsockets : SocketsBounded cap s.net.fwd) :
    AppSeparate bo op a s := by
  refine ⟨fun u k hk => ?_, fun u => ?_, h.net.transported a.peers hpeers htables
    (h.inBounds hsockets)⟩
  · have hfirst := (h.thread u).separate k hk.le
    have hnext := (h.thread u).separate (k + 1) hk
    rw [AppCollective.map_messages_succ, Nat.succ_mul, List.take_add] at hnext
    exact (List.perm_append_left_iff _).1 ((hfirst.append_right _).symm.trans hnext)
  · have hfirst := (h.thread u).separate _ le_rfl
    obtain ⟨log, hlog, _⟩ := h.received_le u
    have hsub : log.Subperm (op.messages ((s.thread u).it + 1) u) := by
      refine hlog.nodup.subperm fun i hi => ?_
      obtain ⟨hbegun, hdst, _⟩ := (hlog.mem i).1 hi
      exact h.sentTo_subset (List.mem_filter.2 ⟨hbegun, decide_eq_true hdst⟩)
    obtain ⟨sent, hperm, hsublist⟩ := hsub
    have hall := hlog.subperm.trans ⟨_, hperm.map _, hsublist.map _⟩
    rw [AppCollective.map_messages_succ, ← List.take_append_drop ((s.thread u).it * op.waits u)
      (s.net.received u)] at hall
    exact (List.subperm_append_left _).1 ((hfirst.append_right _).symm.subperm.trans hall)

end Run

end DLFree

/-
**Every message is received in the end.**

The chunks of a network are delivered once no further chunk is pushed, and what has arrived of a
message is what is delivered.  A call of `comm_node_send_data` therefore gets all its chunks into its
local queue, which is emptied again and again, and a message all of whose chunks have arrived is there
for a call of `comm_node_recv_any_data`.

Main definitions:

* `MessagingQuiet` — a step that begins no call and respects the bounds of the sockets;
* `MessagingWork` — quiet steps, the last of which moves something;
* `AllReceived` — each node has received the messages that were sent to it, once;
* `messagingVariant` — the chunks to push, what is left to do in the network, and the messages to
  receive.

Main results:

* `MessagingQuiet.lowers` — a quiet step lowers the variant, or moves nothing;
* `messages_or_work` — before all messages are received, something can move;
* `messages_received` — **in every reachable state it is inevitable that all messages are received**,
  once no further call begins.
-/

import DLFree.MessageTransport

set_option relaxedAutoImplicit false
set_option autoImplicit false

namespace DLFree

open FifoPlaces TransitionRun

section MessageDelivery

variable {ι : Type} [DecidableEq ι]

/-! ### Steps that move something -/

/-- A step that begins no call: no user thread enters `comm_node_send_data`. -/
structure MessagingQuiet (bo : ByteOrder) (n : ℕ) (cap : ℤ → ℤ → ℕ) (calls : ι → DataCall)
    (s s' : Messaging ι) : Prop where
  step : MessagingStep bo n calls s s'
  sockets : SocketsBounded cap s'.fwd
  begun : s'.begun = s.begun

/-- Something has moved: in the network, or a chunk has been pushed, or a message received. -/
inductive MessagingMoved (s s' : Messaging ι) : Prop
  | network (hmoved : SomeMoved s.fwd s'.fwd)
  | push (hpush : s.pushes.length < s'.pushes.length)
  | recv {u : ℤ} (hrecv : (s.received u).length < (s'.received u).length)

/-- Quiet steps, the last of which moves something. -/
def MessagingWork (bo : ByteOrder) (n : ℕ) (cap : ℤ → ℤ → ℕ) (calls : ι → DataCall)
    (s s' : Messaging ι) : Prop :=
  ∃ t, Relation.ReflTransGen (MessagingQuiet bo n cap calls) s t ∧
    MessagingQuiet bo n cap calls t s' ∧ MessagingMoved t s'

/-- The calls whose messages are for the node `u`. -/
def Messaging.sentTo (calls : ι → DataCall) (s : Messaging ι) (u : ℤ) : List ι :=
  s.begun.filter fun i => (calls i).dstId = u

/-- Each node has received the messages that have been sent to it, each of them once. -/
def AllReceived (n : ℕ) (calls : ι → DataCall) (s : Messaging ι) : Prop :=
  ∀ u : ℤ, 0 ≤ u ∧ u < n →
    (s.received u).Perm ((s.sentTo calls u).map fun i => (calls i).result)

/-! ### What is left to do -/

/-- The chunks that the calls have not pushed yet. -/
def chunksToPush (calls : ι → DataCall) (s : Messaging ι) : ℕ :=
  (s.begun.map fun i => (calls i).chunks.length - s.pushes.count i).sum

/-- The messages that have not been received yet. -/
noncomputable def messagesToReceive (n : ℕ) (calls : ι → DataCall) (s : Messaging ι) : ℕ :=
  ∑ u ∈ Finset.Ico (0 : ℤ) n, ((s.sentTo calls u).length - (s.received u).length)

/-- The chunks to push, what is left to do in the network, and the messages to receive. -/
noncomputable def messagingVariant (n : ℕ) (tables : ℤ → OverlayRtable) (calls : ι → DataCall)
    (s : Messaging ι) (placed : Placed ChunkPlace (Frame × ℕ)) :
    ℕ ×ₗ ((ℕ ×ₗ (ℕ ×ₗ ℕ)) ×ₗ ℕ) :=
  toLex (chunksToPush calls s, toLex (variant n tables s.fwd placed, messagesToReceive n calls s))

/-- What holds between two steps, within the bounds. -/
def MessageDeliveryInv (bo : ByteOrder) (n : ℕ) (adj : ℤ → ℤ → Prop) [∀ u v, Decidable (adj u v)]
    (tables : ℤ → OverlayRtable) (cap : ℤ → ℤ → ℕ) (calls : ι → DataCall) (s : Messaging ι)
    (placed : Placed ChunkPlace (Frame × ℕ)) : Prop :=
  MessagingInv bo n adj tables calls s placed ∧ s.InBounds n cap calls

/-- The variant is lower, or it is as before and nothing has moved. -/
def MessagingLowers (n : ℕ) (tables : ℤ → OverlayRtable) (calls : ι → DataCall) (s : Messaging ι)
    (placed : Placed ChunkPlace (Frame × ℕ)) (s' : Messaging ι)
    (placed' : Placed ChunkPlace (Frame × ℕ)) : Prop :=
  messagingVariant n tables calls s' placed' < messagingVariant n tables calls s placed ∨
    (messagingVariant n tables calls s' placed' = messagingVariant n tables calls s placed ∧
      ¬ MessagingMoved s s')

variable {bo : ByteOrder} {n : ℕ} {adj : ℤ → ℤ → Prop} [∀ u v, Decidable (adj u v)]
  {tables : ℤ → OverlayRtable} {calls : ι → DataCall} {s s' t : Messaging ι} {cap : ℤ → ℤ → ℕ}
  {placed placed' : Placed ChunkPlace (Frame × ℕ)} {i : ι} {f : Frame} {d u v : ℤ} {hd : FitsInt d}
  {taken : ℤ → List DataMsg} {p : Progress ι} {log : List ι}

/-! ### What a step lowers -/

/-- A chunk that is pushed lowers the variant. -/
theorem MessagingLowers.of_push (hi : i ∈ s.begun) (hcount : s.pushes.count i < (calls i).chunks.length)
    (hbegun : s'.begun = s.begun) (hpushes : s'.pushes = s.pushes ++ [i]) :
    MessagingLowers n tables calls s placed s' placed' := by
  refine Or.inl (Prod.Lex.toLex_lt_toLex.2 (Or.inl ?_))
  unfold chunksToPush
  rw [hbegun]
  refine List.sum_lt_sum _ _ (fun j _ => ?_) ⟨i, hi, ?_⟩
  · rw [hpushes, List.count_append]
    omega
  · have hself : List.count i [i] = 1 := List.count_singleton_self
    rw [hpushes, List.count_append, hself]
    omega

/-- A step of the network lowers the variant, or moves nothing. -/
theorem MessagingLowers.of_network (h : Lowers n tables s.fwd placed s'.fwd placed')
    (hbegun : s'.begun = s.begun) (hpushes : s'.pushes = s.pushes)
    (hreceived : s'.received = s.received) : MessagingLowers n tables calls s placed s' placed' := by
  have hpush : chunksToPush calls s' = chunksToPush calls s := by
    unfold chunksToPush
    rw [hbegun, hpushes]
  have hreceive : messagesToReceive n calls s' = messagesToReceive n calls s := by
    unfold messagesToReceive Messaging.sentTo
    rw [hbegun, hreceived]
  rcases h with hlt | ⟨heq, hstill⟩
  · refine Or.inl (Prod.Lex.toLex_lt_toLex.2 (Or.inr ⟨hpush, ?_⟩))
    exact Prod.Lex.toLex_lt_toLex.2 (Or.inl hlt)
  · refine Or.inr ⟨?_, ?_⟩
    · unfold messagingVariant
      rw [hpush, hreceive, heq]
    · rintro (hmoved | hlt | hlt)
      · exact hstill.not_moved hmoved
      · rw [hpushes] at hlt
        exact lt_irrefl _ hlt
      · rw [hreceived] at hlt
        exact lt_irrefl _ hlt

theorem DataQueues.Ok.queue_eq_nil {queues : DataQueues} (h : DataQueues.Ok 0 queues)
    (htotal : queues.total = 0) (src : ℤ) : queues.queue src = [] := by
  by_contra hne
  obtain ⟨hlo, hhi⟩ := h.range src hne
  obtain ⟨k, rfl⟩ := Int.eq_ofNat_of_zero_le hlo
  exact hne (DataQueues.total_eq_zero.1 htotal k (by omega))

omit [∀ u v, Decidable (adj u v)] in
/-- Before a message is taken from a queue, fewer messages have been received than were sent. -/
theorem NodeOk.received_lt (h : NodeOk bo adj tables calls s hd taken p) {src : ℤ} {msg : DataMsg}
    {msgQueue : List DataMsg} (hqueue : (s.stores d).queues.queue src = msg :: msgQueue) :
    (s.received d).length < (s.sentTo calls d).length := by
  obtain ⟨log, hlog⟩ := h.log
  have hle : log.length ≤ (s.sentTo calls d).length := hlog.length_le
  have htotal : (s.stores d).queues.total ≠ 0 := by
    intro hzero
    rw [h.queues.queue_eq_nil hzero] at hqueue
    cases hqueue
  have hsum := h.received_length hlog
  omega

/-- A message that is received lowers the variant. -/
theorem MessagingLowers.of_recv (hu : 0 ≤ u ∧ u < n)
    (hlt : (s.received u).length < (s.sentTo calls u).length) {received : ReceivedData}
    (hfwd : s'.fwd = s.fwd) (hbegun : s'.begun = s.begun) (hpushes : s'.pushes = s.pushes)
    (hreceived : s'.received = Function.update s.received u (s.received u ++ [received])) :
    MessagingLowers n tables calls s placed s' placed := by
  have hpush : chunksToPush calls s' = chunksToPush calls s := by
    unfold chunksToPush
    rw [hbegun, hpushes]
  have hsent : ∀ x, s'.sentTo calls x = s.sentTo calls x := by
    intro x
    unfold Messaging.sentTo
    rw [hbegun]
  refine Or.inl (Prod.Lex.toLex_lt_toLex.2 (Or.inr ⟨hpush, ?_⟩))
  rw [hfwd]
  refine Prod.Lex.toLex_lt_toLex.2 (Or.inr ⟨rfl, ?_⟩)
  refine Finset.sum_lt_sum (fun x _ => ?_) ⟨u, Finset.mem_Ico.2 hu, ?_⟩
  · rw [hsent, hreceived]
    by_cases hx : x = u
    · rw [hx, Function.update_self, List.length_append]
      omega
    · rw [Function.update_of_ne hx]
  · rw [hsent, hreceived, Function.update_self, List.length_append, List.length_singleton]
    omega

/-! ### What a step keeps -/

/-- Where the chunks are does not matter for the records. -/
theorem MessagingInv.setPlaced (h : MessagingInv bo n adj tables calls s placed)
    (hfwd : ForwardInv bo n adj False tables s.fwd placed') :
    MessagingInv bo n adj tables calls s placed' := ⟨hfwd, h.pushes, h.nodup, h.ends, h.node⟩

/-- A read takes nothing back of what has arrived. -/
theorem Counted.arrived_le {done : ι → ℕ} {node' : CommNode (Option ℤ)}
    (h : Counted calls s d done node') (hi : (calls i).dstId = d)
    (hdone : done = s'.doneAt calls d) : s.arrived calls i ≤ s'.arrived calls i := by
  rw [← doneAt_of_dst hi, ← doneAt_of_dst hi, ← hdone]
  rcases h with ⟨rfl, _⟩ | ⟨j, x, more, _, _, _, _, rfl, _⟩
  · exact le_rfl
  · by_cases hij : i = j
    · rw [hij, Function.update_self]
      exact Nat.le_succ _
    · rw [Function.update_of_ne hij]

/-- **What has arrived of a message stays.** -/
theorem MessagingStep.arrived_le (hstep : MessagingStep bo n calls s s') (hn : n ≤ commMaxPeer)
    (hpeers : Peers n adj) (htables : TablesComplete n adj tables)
    (h : MessagingInv bo n adj tables calls s placed) (hbounds : s.InBounds n cap calls)
    (hi : i ∈ s.begun) : s.arrived calls i ≤ s'.arrived calls i := by
  obtain ⟨_, hdst, _⟩ := h.ends i hi
  cases hstep with
  | call _ _ _ _ _ => exact Eq.ge (arrived_congr rfl rfl rfl)
  | @push j f chan chan' hj _ _ _ =>
      exact Eq.ge (arrived_push h.fwd.toCarried htables.simple h.pushes hdst rfl rfl
        (setMan_chunks _))
  | silent hstep => exact Eq.ge (arrived_congr hstep.accepted rfl ((hstep.rests h.fwd).chunks _))
  | @read u v now bursts rest node' store' script hu hread =>
      by_cases hiu : (calls i).dstId = u
      · obtain ⟨taken, p, hnode⟩ := h.node u hu (fitsInt_of_node hn hu)
        obtain ⟨p', _, hcounted⟩ := hnode.read_of h hn hpeers htables hbounds hu hread
        refine hcounted.arrived_le hiu (hcounted.done rfl rfl ?_)
        exact congrArg CommNode.chunks Net.setNode_node_self
      · exact Eq.ge (arrived_congr rfl rfl
          (congrArg CommNode.chunks (Net.setNode_node_of_ne hiu)))
  | recv _ _ _ => exact Eq.ge (arrived_congr rfl rfl rfl)

/-- What has been received stays. -/
theorem MessagingStep.received_le (hstep : MessagingStep bo n calls s s') (u : ℤ) :
    (s.received u).length ≤ (s'.received u).length := by
  cases hstep with
  | @recv w mem mem' srcId buff buffsize queues' hw _ _ =>
      dsimp only
      by_cases hu : u = w
      · rw [hu, Function.update_self, List.length_append]
        omega
      · rw [Function.update_of_ne hu]
  | call _ _ _ _ _ => exact le_rfl
  | push _ _ _ _ => exact le_rfl
  | silent _ => exact le_rfl
  | read _ _ => exact le_rfl

/-- A quiet step stays within the bounds: what has arrived of the messages only grows. -/
theorem MessagingQuiet.inBounds (hstep : MessagingQuiet bo n cap calls s s') (hn : n ≤ commMaxPeer)
    (hpeers : Peers n adj) (htables : TablesComplete n adj tables)
    (h : MessagingInv bo n adj tables calls s placed) (hbounds : s.InBounds n cap calls) :
    s'.InBounds n cap calls := by
  obtain ⟨hstep, hsockets, hbegun⟩ := hstep
  have hle := fun i (hi : i ∈ s.begun) => hstep.arrived_le hn hpeers htables h hbounds hi
  refine ⟨hsockets, fun i j hi hj hdst hidone hjdone hsid => ?_, fun u hu => ?_⟩
  · rw [hbegun] at hi hj
    exact hbounds.apart i j hi hj hdst ((hle i hi).trans_lt hidone) ((hle j hj).trans_lt hjdone) hsid
  · have hlt := hbounds.waiting u hu
    have hrec := hstep.received_le u
    rw [hbegun]
    omega

/-- **A quiet step lowers the variant, or moves nothing.** -/
theorem MessagingQuiet.lowers (hstep : MessagingQuiet bo n cap calls s s') (hn : n ≤ commMaxPeer)
    (hpeers : Peers n adj) (htables : TablesComplete n adj tables)
    (h : MessageDeliveryInv bo n adj tables cap calls s placed) :
    ∃ placed', MessageDeliveryInv bo n adj tables cap calls s' placed' ∧
      MessagingLowers n tables calls s placed s' placed' := by
  obtain ⟨h, hbounds⟩ := h
  have hbounds' := hstep.inBounds hn hpeers htables h hbounds
  obtain ⟨hstep, hsockets, hbegun⟩ := hstep
  obtain ⟨placed₁, h₁⟩ := hstep.inv hn hpeers htables h hbounds
  -- a step of the network, which has its own places
  have hnetwork : QuietStep bo n cap s.fwd s'.fwd → s'.pushes = s.pushes →
      s'.received = s.received → ∃ placed', MessageDeliveryInv bo n adj tables cap calls s' placed' ∧
        MessagingLowers n tables calls s placed s' placed' := by
    intro hquiet hpushes hreceived
    obtain ⟨placed', h', hlowers⟩ := hquiet.lowers hn hpeers htables.simple h.fwd
    exact ⟨placed', ⟨h₁.setPlaced h', hbounds'⟩,
      MessagingLowers.of_network hlowers hbegun hpushes hreceived⟩
  cases hstep with
  | @call i _ _ _ _ _ =>
      have hlen := congrArg List.length hbegun
      simp at hlen
  | push hi hchunk _ _ =>
      exact ⟨placed₁, ⟨h₁, hbounds'⟩, MessagingLowers.of_push hi (DataSend.lt_count hchunk) rfl rfl⟩
  | silent hstep => exact hnetwork ⟨hstep.forward, hsockets, hstep.accepted⟩ rfl rfl
  | read hu hread =>
      have hnet := NetRead.intro hread.ready
        (DataStore.iomanProcessChannelRead_refines hread.read)
      exact hnetwork ⟨ForwardStep.io (ForwardIoStep.read hu hnet), hsockets, rfl⟩ rfl rfl
  | recv hu hdistinct hcall =>
      obtain ⟨taken, p, hnode⟩ := h.node _ hu (fitsInt_of_node hn hu)
      obtain ⟨_, _, _, hqueue, _⟩ := hnode.recv hbounds hu hdistinct hcall
      exact ⟨placed, ⟨h₁.setPlaced h.fwd, hbounds'⟩,
        MessagingLowers.of_recv hu (hnode.received_lt hqueue) rfl rfl rfl rfl⟩

/-- Quiet steps do not raise the variant. -/
theorem messagingQuiet_le (hrun : Relation.ReflTransGen (MessagingQuiet bo n cap calls) s s')
    (hn : n ≤ commMaxPeer) (hpeers : Peers n adj) (htables : TablesComplete n adj tables)
    (h : MessageDeliveryInv bo n adj tables cap calls s placed) :
    ∃ placed', MessageDeliveryInv bo n adj tables cap calls s' placed' ∧
      messagingVariant n tables calls s' placed' ≤ messagingVariant n tables calls s placed := by
  induction hrun with
  | refl => exact ⟨placed, h, le_rfl⟩
  | tail _ hstep ih =>
      obtain ⟨placed₁, h₁, hle⟩ := ih
      obtain ⟨placed', h', hlowers⟩ := hstep.lowers hn hpeers htables h₁
      exact ⟨placed', h', (hlowers.elim (fun hlt => hlt.le) fun hsame => hsame.1.le).trans hle⟩

/-- **Quiet steps that move something lower the variant.** -/
theorem MessagingWork.lowers (hwork : MessagingWork bo n cap calls s s') (hn : n ≤ commMaxPeer)
    (hpeers : Peers n adj) (htables : TablesComplete n adj tables)
    (h : MessageDeliveryInv bo n adj tables cap calls s placed) :
    ∃ placed', MessageDeliveryInv bo n adj tables cap calls s' placed' ∧
      messagingVariant n tables calls s' placed' < messagingVariant n tables calls s placed := by
  obtain ⟨t, hrun, hstep, hmoved⟩ := hwork
  obtain ⟨placed₁, h₁, hle⟩ := messagingQuiet_le hrun hn hpeers htables h
  obtain ⟨placed', h', hlowers⟩ := hstep.lowers hn hpeers htables h₁
  exact ⟨placed', h', (hlowers.resolve_right fun hsame => hsame.2 hmoved).trans_le hle⟩

/-! ### Before all messages are received -/

/-- **A step of the network is one with its users**, who receive nothing: its reads return with the
records of the nodes. -/
theorem QuietStep.lift {fwd' : Forwarding} (hstep : QuietStep bo n cap s.fwd fwd')
    (hn : n ≤ commMaxPeer) (hpeers : Peers n adj) (htables : TablesComplete n adj tables)
    (h : MessageDeliveryInv bo n adj tables cap calls s placed) :
    ∃ s', MessagingQuiet bo n cap calls s s' ∧ s'.fwd = fwd' ∧ s'.received = s.received := by
  obtain ⟨h, hbounds⟩ := h
  obtain ⟨hstep, hsockets, haccepted⟩ := hstep
  have hsilent : SilentStep bo n s.fwd fwd' →
      ∃ s', MessagingQuiet bo n cap calls s s' ∧ s'.fwd = fwd' ∧ s'.received = s.received :=
    fun hsilent => ⟨{ s with fwd := fwd' }, ⟨MessagingStep.silent hsilent, hsockets, rfl⟩, rfl, rfl⟩
  cases hstep with
  | push _ _ _ _ =>
      have hlen := congrArg List.length haccepted
      simp at hlen
  | token hu hchan hpipe => exact hsilent (SilentStep.token hu hchan hpipe)
  | notify hu => exact hsilent (SilentStep.notify hu)
  | event hu hevent => exact hsilent (SilentStep.event hu hevent)
  | io hio =>
      cases hio with
      | localRead hu hchan hready hpipe hread =>
          exact hsilent (SilentStep.localRead hu hchan hready hpipe hread)
      | write hu hwrite => exact hsilent (SilentStep.write hu hwrite)
      | @read u v now net' hu hread =>
          obtain ⟨hready, hread⟩ := hread
          obtain ⟨taken, p, hnode⟩ := h.node u hu (fitsInt_of_node hn hu)
          obtain ⟨node', store', script, _, hrecord, _⟩ :=
            hnode.read h hn hpeers htables hbounds hu now hready
          have hsame := hread.symm.trans (DataStore.iomanProcessChannelRead_refines hrecord.read)
          simp only [Except.ok.injEq, Prod.mk.injEq, true_and] at hsame
          obtain ⟨rfl, rfl⟩ := hsame
          exact ⟨_, ⟨MessagingStep.read hu hrecord, hsockets, rfl⟩, rfl, rfl⟩

/-- Quiet steps of the network are quiet steps with its users. -/
theorem quiet_lift {fwd' : Forwarding}
    (hrun : Relation.ReflTransGen (QuietStep bo n cap) s.fwd fwd') (hn : n ≤ commMaxPeer)
    (hpeers : Peers n adj) (htables : TablesComplete n adj tables)
    (h : MessageDeliveryInv bo n adj tables cap calls s placed) :
    ∃ t, Relation.ReflTransGen (MessagingQuiet bo n cap calls) s t ∧ t.fwd = fwd' ∧
      ∃ placed', MessageDeliveryInv bo n adj tables cap calls t placed' := by
  induction hrun with
  | refl => exact ⟨s, Relation.ReflTransGen.refl, rfl, placed, h⟩
  | tail _ hquiet ih =>
      obtain ⟨t, hrun, rfl, placed₁, h₁⟩ := ih
      obtain ⟨t', hstep, rfl, _⟩ := hquiet.lift hn hpeers htables h₁
      obtain ⟨placed', h', _⟩ := hstep.lowers hn hpeers htables h₁
      exact ⟨t', hrun.tail hstep, rfl, placed', h'⟩

/-- Work in the network is work with its users. -/
theorem ForwardWork.lift {fwd' : Forwarding} (hwork : ForwardWork bo n cap s.fwd fwd')
    (hn : n ≤ commMaxPeer) (hpeers : Peers n adj) (htables : TablesComplete n adj tables)
    (h : MessageDeliveryInv bo n adj tables cap calls s placed) :
    ∃ s', MessagingWork bo n cap calls s s' := by
  obtain ⟨fwd₁, hrun, hstep, hmoved⟩ := hwork
  obtain ⟨t, hrun', rfl, placed₁, h₁⟩ := quiet_lift hrun hn hpeers htables h
  obtain ⟨s', hstep', rfl, _⟩ := hstep.lift hn hpeers htables h₁
  exact ⟨s', t, hrun', hstep', MessagingMoved.network hmoved⟩

/-- A call can push its next chunk when the local queue of its node is empty. -/
theorem push_work (h : MessageDeliveryInv bo n adj tables cap calls s placed)
    (hplaces : ∀ p, ∀ x ∈ placed.held p, ∃ v, p = ChunkPlace.delivered v) (hi : i ∈ s.begun)
    (hcount : s.pushes.count i < (calls i).chunks.length) :
    ∃ s', MessagingQuiet bo n cap calls s s' ∧ s'.received = s.received ∧
      s.pushes.length < s'.pushes.length := by
  obtain ⟨hsrc, _, _⟩ := h.1.ends i hi
  have hu : (0 : ℤ) ≤ (calls i).msg.srcId ∧ ((calls i).msg.srcId : ℤ) < n := by omega
  obtain ⟨chan, hchan, hqueue⟩ :=
    h.1.fwd.holds.place (ChunkPlace.localQueue (calls i).msg.srcId) hu
  have hempty : placed.held (ChunkPlace.localQueue (calls i).msg.srcId) = [] := by
    refine List.eq_nil_iff_forall_not_mem.2 fun x hx => ?_
    obtain ⟨v, hv⟩ := hplaces _ x hx
    cases hv
  rw [hempty, List.map_nil] at hqueue
  have hpush : channelLocalPushChunk chan (((calls i).chunks[s.pushes.count i]).packed bo) =
      some (chan.appendBuff (((calls i).chunks[s.pushes.count i]).packed bo)) := by
    unfold channelLocalPushChunk
    rw [if_neg (by rw [hqueue]; decide)]
  have hlocal := (h.1.fwd.holds.node _ hu).localChan
  refine ⟨_, ⟨MessagingStep.push hi (List.getElem?_eq_getElem hcount) (by rw [hlocal]; exact hchan)
    hpush, h.2.sockets, rfl⟩, rfl, ?_⟩
  rw [List.length_append, List.length_singleton]
  exact Nat.lt_succ_self _

/-- A message that waits can be received. -/
theorem recv_work (h : MessageDeliveryInv bo n adj tables cap calls s placed)
    (hrange : 0 ≤ d ∧ d < n) (hnode : NodeOk bo adj tables calls s hd taken p)
    (htotal : (s.stores d).queues.total ≠ 0) : ∃ s', MessagingQuiet bo n cap calls s s' ∧
      ∃ received, s'.received = Function.update s.received d (s.received d ++ [received]) := by
  obtain ⟨queues', mem', _, _, _, hcall, _⟩ :
      ∃ queues' mem' i msg msgQueue, commNodeRecvAnyData (s.stores d).queues ⟨fun _ => 0, fun _ => []⟩
        (some 0) (some 0) (some 1) = Except.ok (some (queues', mem')) ∧ DataQueues.Ok 0 queues' ∧
        (s.stores d).queues.queue i = msg :: msgQueue ∧ _ :=
    hnode.queues.recvAny (hnode.total_lt h.2 hrange) htotal _ Nat.zero_ne_one
  exact ⟨_, ⟨MessagingStep.recv hrange Nat.zero_ne_one hcall, h.2.sockets, rfl⟩, _, rfl⟩

/-- **A message all of whose chunks are delivered has arrived.** -/
theorem arrived_of_places (h : MessagingInv bo n adj tables calls s placed)
    (hsimple : TablesSimple n tables)
    (hplaces : ∀ p, ∀ x ∈ placed.held p, ∃ v, p = ChunkPlace.delivered v) (hi : i ∈ s.begun)
    (hcount : (calls i).chunks.length ≤ s.pushes.count i) :
    s.arrived calls i = (calls i).chunks.length := by
  obtain ⟨_, hdst, _⟩ := h.ends i hi
  have hall := h.fwd.allDelivered hsimple hplaces (calls i).msg.srcId (calls i).dstId hdst
  have hlen := congrArg List.length hall
  rw [h.fwd.accepted_between, List.length_map, h.fwd.entered] at hlen
  have hown := congrArg List.length (h.pushes.own i)
  rw [List.length_map, List.take_of_length_le hcount, ← h.pushes.filter_own i] at hown
  unfold Messaging.arrived Forwarding.arrivedChunks
  rw [hlen, List.take_length]
  exact hown

/-- What has been received is what has arrived, when no message waits. -/
theorem ArrivedLog.perm (h : ArrivedLog calls s d log)
    (hempty : ∀ src, (s.stores d).queues.queue src = []) :
    (s.received d).Perm (log.map fun i => (calls i).result) := by
  refine List.perm_iff_count.2 fun r => ?_
  have horder := h.order r.1
  rw [hempty, List.map_nil, List.append_nil] at horder
  have hkeep : ∀ l : List ReceivedData,
      (l.filter fun x => x.1 = r.1).count r = l.count r := fun l =>
    List.count_filter (decide_eq_true rfl)
  rw [← hkeep, horder, ← hkeep (log.map _), List.filter_map]
  rfl

/-- **Before all messages are received, something can move.** -/
theorem messages_or_work (hn : n ≤ commMaxPeer) (hpeers : Peers n adj)
    (htables : TablesComplete n adj tables)
    (hacyclic : ChannelDependency.Acyclic (ChannelDependency.Dep (tableRoutes n tables)))
    (hcap : ∀ u v, 0 < cap u v) (h : MessageDeliveryInv bo n adj tables cap calls s placed) :
    AllReceived n calls s ∨ ∃ s', MessagingWork bo n cap calls s s' := by
  rcases arrived_or_work hn hpeers htables hacyclic hcap ⟨h.1.fwd, h.1.inBounds h.2.sockets⟩ with
    hplaces | ⟨fwd', hwork⟩
  swap
  · exact Or.inr (hwork.lift hn hpeers htables h)
  by_cases hpush : ∃ i ∈ s.begun, s.pushes.count i < (calls i).chunks.length
  · obtain ⟨i, hi, hcount⟩ := hpush
    obtain ⟨s', hstep, _, hlt⟩ := push_work h hplaces hi hcount
    exact Or.inr ⟨s', s, Relation.ReflTransGen.refl, hstep, MessagingMoved.push hlt⟩
  push Not at hpush
  by_contra hstuck
  push Not at hstuck
  obtain ⟨hmissing, hnowork⟩ := hstuck
  refine hmissing fun u hu => ?_
  obtain ⟨taken, p, hnode⟩ := h.1.node u hu (fitsInt_of_node hn hu)
  have hempty : ∀ src, (s.stores u).queues.queue src = [] := by
    by_contra hsome
    obtain ⟨src, hsrc⟩ := not_forall.1 hsome
    have htotal : (s.stores u).queues.total ≠ 0 := fun hzero =>
      hsrc (hnode.queues.queue_eq_nil hzero src)
    obtain ⟨s', hstep, received, hreceived⟩ := recv_work h hu hnode htotal
    refine hnowork s' ⟨s, Relation.ReflTransGen.refl, hstep, MessagingMoved.recv (u := u) ?_⟩
    rw [hreceived, Function.update_self, List.length_append, List.length_singleton]
    exact Nat.lt_succ_self _
  obtain ⟨log, hlog⟩ := hnode.log
  refine (hlog.perm hempty).trans (List.Perm.map _ ?_)
  refine (List.perm_ext_iff_of_nodup hlog.nodup (h.1.nodup.filter _)).2 fun i => ?_
  rw [hlog.mem, List.mem_filter, decide_eq_true_iff]
  constructor
  · exact fun hi => ⟨hi.1, hi.2.1⟩
  · exact fun hi => ⟨hi.1, hi.2, arrived_of_places h.1 htables.simple hplaces hi.1 (hpush i hi.1)⟩

/-! ### Runs -/

/-- **Every message is received in the end**: once no further call of `comm_node_send_data` begins,
something can move before each node has received the messages that were sent to it, and every run of
the other steps in which something moves again and again gets to a state in which it has. -/
theorem messages_received (hn : n ≤ commMaxPeer) (hpeers : Peers n adj)
    (htables : TablesComplete n adj tables)
    (hacyclic : ChannelDependency.Acyclic (ChannelDependency.Dep (tableRoutes n tables)))
    (hcap : ∀ u v, 0 < cap u v)
    (h : Reach (fun s => MessagingStart bo n adj tables s ∧ s.InBounds n cap calls)
      (Guarded (MessagingStep bo n calls) fun _ t => t.InBounds n cap calls) s) :
    Inevitable (MessagingWork bo n cap calls) (AllReceived n calls) s := by
  obtain ⟨⟨placed, hinv⟩, hbounds⟩ := messagingReach_inv hn hpeers htables h
  have hstart : MessageDeliveryInv bo n adj tables cap calls s placed := ⟨hinv, hbounds⟩
  exact Inevitable.of_variant (messagingVariant n tables calls)
    (fun _ _ hs => messages_or_work hn hpeers htables hacyclic hcap hs)
    (fun _ _ _ hs hwork => hwork.lowers hn hpeers htables hs) hstart

end MessageDelivery

/-! ### Two nodes -/

/-- The message will be received. -/
theorem messages_received_pair : ∃ s : Messaging Unit, s.begun = [()] ∧ s.received 1 = [] ∧
    Inevitable (MessagingWork ByteOrder.little 2 (fun _ _ => 1) pairCalls)
      (AllReceived 2 pairCalls) s := by
  obtain ⟨s, hbegun, _, hreceived, hreach⟩ := pair_sending
  exact ⟨s, hbegun, hreceived, messages_received (by decide)
    ⟨pairAdj_peers.range, pairAdj_peers.symm, pairAdj_peers.irrefl⟩ pairTables_complete
    pairTables_acyclic (fun _ _ => Nat.one_pos) hreach⟩

end DLFree

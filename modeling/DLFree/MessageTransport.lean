/-
**Messages arrive as they were sent.**

In every state of a network with its users each node has the records of `Reassembly`: those of the
messages that are under way to it, of which as many chunks are complete as have arrived.  A read
finds the next chunk of one of these messages, or a chunk for another node, so no read fails; and the
messages that are complete wait in the queues of their sources or have been received.

Main definitions:

* `arrivalsAt`, `Messaging.doneAt` — the messages for a node, and how many of their chunks have arrived;
* `NodeOk`, `MessagingInv` — what every step keeps;
* `ArrivedLog` — the messages of a node that have arrived completely;
* `MessagesTransported` — what is promised of a network with its users.

Main results:

* `NodeOk.read` — **a read of a node returns**;
* `NodeOk.total_lt` — its counter of messages that wait does not overflow;
* `MessagingStep.inv` — every step keeps the invariant;
* `messages_transported` — **every message arrives as it was sent, once**.
-/

import DLFree.Messages
import DLFree.Delivery

set_option relaxedAutoImplicit false
set_option autoImplicit false

namespace DLFree

open FifoPlaces TransitionRun

section Transport

variable {ι : Type} [DecidableEq ι]

/-! ### What every step keeps -/

/-- The messages for the node `dst`; a message comes over the channel to its last hop. -/
def arrivalsAt (calls : ι → DataCall) (tables : ℤ → OverlayRtable) {dst : ℤ}
    (hdst : FitsInt dst) : Arrivals (Option ℤ) ι where
  msg i := (calls i).msg
  chan i := some (lastHop tables (calls i).msg.srcId dst)
  dstId := dst
  dst_fits := hdst

/-- How many chunks of each message have arrived at the node `d`. -/
def Messaging.doneAt (calls : ι → DataCall) (s : Messaging ι) (d : ℤ) (i : ι) : ℕ :=
  if (calls i).dstId = d then s.arrived calls i else 0

/-- The records of the node `d` are those of the messages that are under way to it; its users have
`taken` messages of each source. -/
structure NodeOk (bo : ByteOrder) (adj : ℤ → ℤ → Prop) (tables : ℤ → OverlayRtable)
    (calls : ι → DataCall) (s : Messaging ι) {d : ℤ} (hd : FitsInt d) (taken : ℤ → List DataMsg)
    (p : Progress ι) : Prop where
  records : (arrivalsAt calls tables hd).RecordsOk bo (adj d)
    (fun i => i ∈ s.begun ∧ (calls i).dstId = d) taken p (s.fwd.net.node d) (s.stores d)
  done : p.done = s.doneAt calls d
  queues : DataQueues.Ok 0 (s.stores d).queues
  received : ∀ src, (s.received d).filter (fun r => r.1 = src) = (taken src).map DataMsg.result
  sources : ∀ r ∈ s.received d, 0 ≤ r.1 ∧ r.1 < commMaxPeer

/-- What holds between two steps: the chunks are in their places, each is one of the call that has
pushed it, and the records of the nodes are in order. -/
structure MessagingInv (bo : ByteOrder) (n : ℕ) (adj : ℤ → ℤ → Prop) [∀ u v, Decidable (adj u v)]
    (tables : ℤ → OverlayRtable) (calls : ι → DataCall) (s : Messaging ι)
    (placed : Placed ChunkPlace (Frame × ℕ)) : Prop where
  fwd : ForwardInv bo n adj False tables s.fwd placed
  pushes : PushesOk calls s
  nodup : s.begun.Nodup
  ends : ∀ i ∈ s.begun, (calls i).msg.srcId < n ∧ (0 ≤ (calls i).dstId ∧ (calls i).dstId < n) ∧
    (calls i).dstId ≠ (calls i).msg.srcId
  node : ∀ d : ℤ, 0 ≤ d ∧ d < n → ∀ hd : FitsInt d, ∃ taken p,
    NodeOk bo adj tables calls s hd taken p

variable {bo : ByteOrder} {n : ℕ} {adj : ℤ → ℤ → Prop} [∀ u v, Decidable (adj u v)]
  {tables : ℤ → OverlayRtable} {calls : ι → DataCall} {s s' : Messaging ι}
  {placed placed' : Placed ChunkPlace (Frame × ℕ)} {i j : ι} {f : Frame} {d u v : ℤ}
  {hd : FitsInt d} {taken : ℤ → List DataMsg} {p : Progress ι} {cap : ℤ → ℤ → ℕ}

omit [DecidableEq ι] in
theorem arrivalsAt_chunks (hi : (calls i).dstId = d) :
    (arrivalsAt calls tables hd).chunks i = (calls i).chunks := by
  subst hi
  rfl

omit [DecidableEq ι] in
theorem arrivalsAt_count (hi : (calls i).dstId = d) :
    (arrivalsAt calls tables hd).count i = (calls i).chunks.length := by
  subst hi
  rfl

theorem doneAt_of_dst (hi : (calls i).dstId = d) : s.doneAt calls d i = s.arrived calls i :=
  if_pos hi

/-- Messages that are under way to a node have different decoded `sid`s. -/
theorem Messaging.SidsApart.apart (h : s.SidsApart calls) :
    (arrivalsAt calls tables hd).Apart (fun i => i ∈ s.begun ∧ (calls i).dstId = d)
      (s.doneAt calls d) := by
  rintro i j ⟨hi, hid⟩ ⟨hj, hjd⟩ hidone hjdone hsid
  rw [arrivalsAt_count hid, doneAt_of_dst hid] at hidone
  rw [arrivalsAt_count hjd, doneAt_of_dst hjd] at hjdone
  exact h i j hi hj (hid.trans hjd.symm) hidone hjdone hsid

/-- The channels of a node to its peers exist. -/
theorem MessagingInv.live (h : MessagingInv bo n adj tables calls s placed) :
    ∀ v, adj d v → ∃ chan, (s.fwd.net.node d).man.heap (some v) = some chan := by
  intro v hv
  obtain ⟨chan, hchan, _⟩ := h.fwd.holds.place (ChunkPlace.currBuff d (some v)) hv
  exact ⟨chan, hchan⟩

/-- All accepted chunks are for other nodes. -/
theorem MessagingInv.inBounds (h : MessagingInv bo n adj tables calls s placed)
    (hsockets : SocketsBounded cap s.fwd) : InBounds n cap s.fwd := by
  refine ⟨hsockets, fun f hf => ?_⟩
  obtain ⟨k, hk⟩ := List.getElem?_of_mem hf
  have hx : (f, k) ∈ s.fwd.accepted.zipIdx := List.mk_mem_zipIdx_iff_getElem?.2 hk
  obtain ⟨i, hi, howns⟩ := h.pushes.owner hx
  obtain ⟨hsrc, hdst⟩ := h.pushes.between hx howns
  obtain ⟨_, hrange, hne⟩ := h.ends i hi
  exact ⟨by rw [hdst]; exact hrange, by rw [hdst, hsrc]; exact hne⟩

omit [∀ u v, Decidable (adj u v)] in
/-- A node stays in order while none of its channels is read. -/
theorem NodeOk.keep (h : NodeOk bo adj tables calls s hd taken p)
    (hlive : ∀ v, adj d v → ∃ chan, (s.fwd.net.node d).man.heap (some v) = some chan)
    (hkeep : ∀ v, KeepsReader (s.fwd.net.node d).man (s'.fwd.net.node d).man (some v))
    (hbegun : ∀ i ∈ s.begun, i ∈ s'.begun)
    (hdone : ∀ i, (calls i).dstId = d → s'.arrived calls i = s.arrived calls i)
    (hstore : s'.stores d = s.stores d) (hreceived : s'.received d = s.received d) :
    NodeOk bo adj tables calls s' hd taken p where
  records := by
    rw [hstore]
    exact h.records.readers hlive (fun _ => ⟨_, rfl⟩) hkeep fun i hi => ⟨hbegun i hi.1, hi.2⟩
  done := by
    rw [h.done]
    funext i
    unfold Messaging.doneAt
    by_cases hi : (calls i).dstId = d
    · rw [if_pos hi, if_pos hi, hdone i hi]
    · rw [if_neg hi, if_neg hi]
  queues := by
    rw [hstore]
    exact h.queues
  received := by
    rw [hreceived]
    exact h.received
  sources := by
    rw [hreceived]
    exact h.sources

/-! ### Reading a channel -/

omit [DecidableEq ι] in
/-- A read that is ready finds the first chunk of its link, of which its channel has read a part. -/
theorem ready_frame (h : ForwardInv bo n adj False tables s.fwd placed) (hpeers : Peers n adj)
    (hu : 0 ≤ u ∧ u < n) {bursts : List (List Byte)} {rest : List Byte}
    (hready : ReadReady s.fwd.net u v bursts rest) :
    ∃ chan f k more r left tail, adj u v ∧ (s.fwd.net.node u).man.heap (some v) = some chan ∧
      chan.state ≠ ChannelStatus.blocking ∧ placed.held (ChunkPlace.link v u) = (f, k) :: more ∧
      f.Ok ∧ f.IsChunk ∧ Reading bo u chan f r ∧
      r ++ bursts.flatten ++ left = f.encode bo ++ tail := by
  have hv := (h.holds.node u hu).channels v hready.channel
  obtain ⟨chan, hchan, hreadable⟩ := hready.readable
  obtain ⟨cu, frames, hcu, hlink, hqueue, hheld⟩ :=
    h.holds.link_ready hpeers hv (h.ready hu hchan hreadable)
  have hwire : s.fwd.net.wire v u ≠ [] := by
    rw [hready.wire]
    exact fun he => hready.bytes (List.append_eq_nil_iff.1 he).1
  obtain ⟨f, frames', rfl⟩ := hlink.exists_frame hwire
  obtain ⟨hok, r, hreader, hbytes⟩ := hlink
  have hstate := (not_blocking_of_readable hchan hreadable).1
  have hkind : f.IsChunk := (hqueue.chunks f List.mem_cons_self).resolve_right id
  obtain ⟨k, more, hfirst, _⟩ := first_chunk hheld hkind
  rw [hready.wire, List.flatMap_cons] at hbytes
  exact ⟨chan, f, k, more, r, rest ++ cu.buffQueue.flatMap MsgBuff.unsent, _, hv, hchan, hstate,
    hfirst, hok f List.mem_cons_self, hkind, hreader.reading_of_active hstate,
    by rw [← hbytes]; simp [List.append_assoc]⟩

/-- What a read of `u` does to what has arrived: nothing, or a chunk is handed to `u`. -/
def Counted (calls : ι → DataCall) (s : Messaging ι) (u : ℤ) (done : ι → ℕ)
    (node' : CommNode (Option ℤ)) : Prop :=
  (done = s.doneAt calls u ∧ node'.chunks = (s.fwd.net.node u).chunks) ∨
    ∃ (i : ι) (x : Frame × ℕ) (more : List (Frame × ℕ)), s.Owns i x ∧ (calls i).dstId = u ∧
      (calls i).msg.srcId = x.1.info.srcId ∧
      (s.fwd.accepted.zipIdx.filter fun y => y.1.Between x.1.info.srcId u) =
        s.fwd.arrivedChunks x.1.info.srcId u ++ x :: more ∧
      done = Function.update (s.doneAt calls u) i (s.doneAt calls u i + 1) ∧
      node'.chunks = (s.fwd.net.node u).chunks ++ [x.1.handed]

/-- **A read of a node returns**: it reads the next chunk of a message, or a chunk for another
node. -/
theorem NodeOk.read (hnode : NodeOk bo adj tables calls s hd taken p)
    (h : MessagingInv bo n adj tables calls s placed) (hn : n ≤ commMaxPeer) (hpeers : Peers n adj)
    (htables : TablesComplete n adj tables) (hbounds : s.InBounds n cap calls)
    (hrange : 0 ≤ d ∧ d < n) (now : ℚ) {bursts : List (List Byte)} {rest : List Byte}
    (hready : ReadReady s.fwd.net d v bursts rest) :
    ∃ node' store' script p', RecordRead bo now d v s bursts rest node' store' script ∧
      (arrivalsAt calls tables hd).RecordsOk bo (adj d)
        (fun i => i ∈ s.begun ∧ (calls i).dstId = d) taken p' node' store' ∧
      Counted calls s d p'.done node' := by
  obtain ⟨chan, f, k, more, r, left, tail, hv, hchan, hstate, hheld, hf, hkind, hreading, hbytes⟩ :=
    ready_frame h.fwd hpeers hrange hready
  have hid : (s.fwd.net.node d).nodeId = (arrivalsAt calls tables hd).dstId :=
    (h.fwd.holds.node d hrange).nodeId
  by_cases hdst : f.info.dstId = d
  · -- the chunk is the next one of its message
    obtain ⟨i, hi, howns, hto, hsrc, hhop, hchunk, more', hmore⟩ :=
      next_chunk h.fwd.toCarried htables.simple h.pushes hrange hheld hdst
    have hnext : ((arrivalsAt calls tables hd).chunks i)[p.done i]? = some f := by
      rw [hnode.done, doneAt_of_dst hto, arrivalsAt_chunks hto]
      exact hchunk
    have hapart : (arrivalsAt calls tables hd).Apart (fun i => i ∈ s.begun ∧ (calls i).dstId = d)
        (s.doneAt calls d) := hbounds.apart.apart
    rw [← hnode.done] at hapart
    obtain ⟨node', store', bursts', p', hread, hrecords, hcount⟩ := hnode.records.own now h.live hid
      hv hapart ⟨hi, hto⟩ hnext (congrArg some hhop) hchan hstate hreading hbytes
    refine ⟨node', store', _, p', ⟨hready, hread⟩, hrecords, ?_⟩
    rcases hcount with ⟨hdone, hchunks⟩ | ⟨hdone, hchunks⟩
    · exact Or.inl ⟨hdone.trans hnode.done, hchunks⟩
    · rw [hnode.done] at hdone
      exact Or.inr ⟨i, (f, k), more', howns, hto, hsrc, hmore, hdone, hchunks⟩
  · obtain ⟨node', script, hread⟩ : ∃ node' script, iomanProcessChannelRead bo now
        (s.fwd.net.node d) (some v) (dataScript bursts) = Except.ok (true, node', script) :=
      h.fwd.read_ok hn hpeers htables (h.inBounds hbounds.sockets) hrange hready
    obtain ⟨store', hread', hrecords, hchunks⟩ :=
      hnode.records.pass h.live hid hv hf hkind hdst hchan hstate hreading hbytes hread
    exact ⟨node', store', script, p, ⟨hready, hread'⟩, hrecords, Or.inl ⟨hnode.done, hchunks⟩⟩

/-- What a read of a node leaves. -/
theorem NodeOk.read_of (hnode : NodeOk bo adj tables calls s hd taken p)
    (h : MessagingInv bo n adj tables calls s placed) (hn : n ≤ commMaxPeer) (hpeers : Peers n adj)
    (htables : TablesComplete n adj tables) (hbounds : s.InBounds n cap calls)
    (hrange : 0 ≤ d ∧ d < n) {now : ℚ} {bursts : List (List Byte)} {rest : List Byte}
    {node' : CommNode (Option ℤ)} {store' : DataStore (Option ℤ)} {script : List RecvEvent}
    (hread : RecordRead bo now d v s bursts rest node' store' script) :
    ∃ p', (arrivalsAt calls tables hd).RecordsOk bo (adj d)
      (fun i => i ∈ s.begun ∧ (calls i).dstId = d) taken p' node' store' ∧
      Counted calls s d p'.done node' := by
  obtain ⟨node₁, store₁, script₁, p', hread₁, hrecords, hcounted⟩ :=
    hnode.read h hn hpeers htables hbounds hrange now hread.ready
  have hsame := hread.read.symm.trans hread₁.read
  simp only [Except.ok.injEq, Prod.mk.injEq, true_and] at hsame
  obtain ⟨rfl, rfl, _⟩ := hsame
  exact ⟨p', hrecords, hcounted⟩

/-- What has arrived after a read. -/
theorem Counted.done {done : ι → ℕ} {node' : CommNode (Option ℤ)} (h : Counted calls s d done node')
    (haccepted : s'.fwd.accepted = s.fwd.accepted) (hpushes : s'.pushes = s.pushes)
    (hnode : (s'.fwd.net.node d).chunks = node'.chunks) : done = s'.doneAt calls d := by
  funext j
  unfold Messaging.doneAt
  rcases h with ⟨rfl, hchunks⟩ | ⟨i, x, more, howns, hto, hsrc, hmore, rfl, hchunks⟩
  · unfold Messaging.doneAt
    by_cases hj : (calls j).dstId = d
    · rw [if_pos hj, if_pos hj, arrived_congr haccepted hpushes (by rw [hj, hnode, hchunks])]
    · rw [if_neg hj, if_neg hj]
  · by_cases hj : (calls j).dstId = d
    · rw [if_pos hj, arrived_deliver howns hsrc hmore haccepted hpushes (hnode.trans hchunks) hj]
      by_cases hji : j = i
      · subst hji
        rw [if_pos rfl, Function.update_self, doneAt_of_dst hj]
      · rw [if_neg hji, Function.update_of_ne hji, doneAt_of_dst hj]
    · have hji : j ≠ i := by
        rintro rfl
        exact hj hto
      rw [if_neg hj, Function.update_of_ne hji]
      exact if_neg hj

/-- The counter of a node counts the messages that a read delivers. -/
theorem read_queues {now : ℚ} {node node' : CommNode (Option ℤ)} {store store' : DataStore (Option ℤ)}
    {c : Option ℤ} {script script' : List RecvEvent} {alive : Bool}
    (h : DataStore.iomanProcessChannelRead bo now node store c script =
      Except.ok (alive, node', store', script')) (hok : DataQueues.Ok 0 store.queues) :
    DataQueues.Ok 0 store'.queues := by
  have hclosed : PushClosed fun queues _ => DataQueues.Ok 0 queues := by
    intro queues _ msg hmsg hq
    obtain ⟨queues', hdeliver, hq', _⟩ := hq.deliver hmsg
    simp only [commNodeDeliverChunk, checkPeerId_of hmsg, bind, Except.bind,
      Except.ok.injEq] at hdeliver
    rwa [hdeliver]
  have hread : ∃ queues' : DataQueues, DataQueues.Ok 0 store'.queues ∧
      DataStore.iomanProcessChannelRead bo now node (store.withQueues store.queues) c script =
        Except.ok (alive, node', store'.withQueues queues', script') :=
    DataStore.iomanProcessChannelRead_rel hclosed h hok
  obtain ⟨_, hq, _⟩ := hread
  exact hq

/-! ### Every step keeps the invariant -/

/-- A step that reads no channel and hands out no message. -/
theorem MessagingInv.rests (h : MessagingInv bo n adj tables calls s placed)
    (hfwd : ForwardInv bo n adj False tables s'.fwd placed') (hrests : Rests s.fwd.net s'.fwd.net)
    (hpushes : PushesOk calls s') (hnodup : s'.begun.Nodup)
    (hends : ∀ i ∈ s'.begun, (calls i).msg.srcId < n ∧
      (0 ≤ (calls i).dstId ∧ (calls i).dstId < n) ∧ (calls i).dstId ≠ (calls i).msg.srcId)
    (hbegun : ∀ i ∈ s.begun, i ∈ s'.begun)
    (harrived : ∀ i, 0 ≤ (calls i).dstId ∧ (calls i).dstId < n →
      s'.arrived calls i = s.arrived calls i)
    (hstores : s'.stores = s.stores) (hreceived : s'.received = s.received) :
    MessagingInv bo n adj tables calls s' placed' := by
  refine ⟨hfwd, hpushes, hnodup, hends, fun d hrange hd => ?_⟩
  obtain ⟨taken, p, hnode⟩ := h.node d hrange hd
  refine ⟨taken, p, hnode.keep h.live (hrests.keep d) hbegun (fun i hi => harrived i ?_)
    (congrFun hstores d) (congrFun hreceived d)⟩
  rw [hi]
  exact hrange

theorem PushesOk.congr (h : PushesOk calls s) (haccepted : s'.fwd.accepted = s.fwd.accepted)
    (hpushes : s'.pushes = s.pushes) (hbegun : ∀ i ∈ s.begun, i ∈ s'.begun) :
    PushesOk calls s' := by
  refine ⟨by rw [haccepted, hpushes]; exact h.length, fun i hi => hbegun i (h.begun i ?_),
    fun i => ?_⟩
  · rwa [← hpushes]
  · rw [haccepted, hpushes, ← h.own i]
    refine congrArg _ (List.filter_congr fun x _ => decide_eq_decide.2 ?_)
    unfold Messaging.Owns
    rw [hpushes]

/-- **The next chunk of a call** is accepted. -/
theorem PushesOk.push (h : PushesOk calls s) (hi : i ∈ s.begun)
    (hchunk : (calls i).chunks[s.pushes.count i]? = some f)
    (haccepted : s'.fwd.accepted = s.fwd.accepted ++ [f]) (hpushes : s'.pushes = s.pushes ++ [i])
    (hbegun : s'.begun = s.begun) : PushesOk calls s' := by
  refine ⟨?_, fun j hj => ?_, fun j => ?_⟩
  · rw [haccepted, hpushes, List.length_append, List.length_append, h.length]
    rfl
  · rw [hpushes] at hj
    rw [hbegun]
    rcases List.mem_append.1 hj with hj | hj
    · exact h.begun j hj
    · rw [List.mem_singleton.1 hj]
      exact hi
  · have hold : (s.fwd.accepted.zipIdx.filter fun x => s'.Owns j x) =
        s.fwd.accepted.zipIdx.filter fun x => s.Owns j x := by
      refine List.filter_congr fun x hx => decide_eq_decide.2 ?_
      have hlt := List.snd_lt_of_mem_zipIdx hx
      rw [Nat.add_zero, ← h.length] at hlt
      unfold Messaging.Owns
      rw [hpushes, List.getElem?_append_left hlt]
    have hnew : s'.Owns j (f, s.fwd.accepted.length) ↔ i = j := by
      unfold Messaging.Owns
      rw [hpushes, ← h.length, List.getElem?_concat_length, Option.some.injEq]
    rw [haccepted, List.zipIdx_append, List.filter_append, List.map_append, hold, h.own j, hpushes,
      List.count_append, Nat.zero_add]
    by_cases hij : i = j
    · subst hij
      have hone : ([f].zipIdx s.fwd.accepted.length).filter (fun x => s'.Owns i x) =
          [(f, s.fwd.accepted.length)] :=
        List.filter_cons_of_pos (decide_eq_true (hnew.2 rfl))
      have hcount : List.count i [i] = 1 := List.count_singleton_self
      rw [hone, hcount, List.take_add_one, hchunk]
      rfl
    · have hnone : ([f].zipIdx s.fwd.accepted.length).filter (fun x => s'.Owns j x) = [] :=
        List.filter_cons_of_neg (by simpa using fun he => hij (hnew.1 he))
      have hcount : List.count j [i] = 0 := List.count_eq_zero_of_not_mem (by simpa using Ne.symm hij)
      rw [hnone, hcount]
      simp

theorem fitsInt_of_node (hn : n ≤ commMaxPeer) (hd : 0 ≤ d ∧ d < n) : FitsInt d := by
  unfold commMaxPeer at hn
  unfold FitsInt
  omega

theorem MessagingInv.call (h : MessagingInv bo n adj tables calls s placed) (hnew : i ∉ s.begun)
    (hends : (calls i).msg.srcId < n ∧ (0 ≤ (calls i).dstId ∧ (calls i).dstId < n) ∧
      (calls i).dstId ≠ (calls i).msg.srcId)
    (hfwd : s'.fwd = s.fwd) (hpushes : s'.pushes = s.pushes) (hbegun : s'.begun = s.begun ++ [i])
    (hstores : s'.stores = s.stores) (hreceived : s'.received = s.received) :
    MessagingInv bo n adj tables calls s' placed := by
  have hmono : ∀ j ∈ s.begun, j ∈ s'.begun := by
    intro j hj
    rw [hbegun]
    exact List.mem_append_left _ hj
  refine h.rests (by rw [hfwd]; exact h.fwd) (by rw [hfwd]; exact Rests.refl _)
    (h.pushes.congr (by rw [hfwd]) hpushes hmono) ?_ (fun j hj => ?_) hmono
    (fun j _ => arrived_congr (by rw [hfwd]) hpushes (by rw [hfwd])) hstores hreceived
  · rw [hbegun, List.nodup_append]
    refine ⟨h.nodup, List.nodup_singleton i, fun a ha b hb hab => hnew ?_⟩
    rw [← List.mem_singleton.1 hb, ← hab]
    exact ha
  · rw [hbegun] at hj
    rcases List.mem_append.1 hj with hj | hj
    · exact h.ends j hj
    · rw [List.mem_singleton.1 hj]
      exact hends

/-- A user thread pushes a chunk. -/
theorem MessagingInv.push (h : MessagingInv bo n adj tables calls s placed) (hn : n ≤ commMaxPeer)
    (hpeers : Peers n adj) (hsimple : TablesSimple n tables) {chan chan' : Channel (Option ℤ)}
    (hi : i ∈ s.begun) (hchunk : (calls i).chunks[s.pushes.count i]? = some f)
    (hchan : (s.fwd.net.node (calls i).msg.srcId).man.heap
      (s.fwd.net.node (calls i).msg.srcId).man.localChan = some chan)
    (hpush : channelLocalPushChunk chan (f.packed bo) = some chan')
    (hfwd : s'.fwd = { s.fwd.setMan (calls i).msg.srcId
      ((s.fwd.net.node (calls i).msg.srcId).man.put
        (s.fwd.net.node (calls i).msg.srcId).man.localChan chan') with
          accepted := s.fwd.accepted ++ [f] })
    (hpushes : s'.pushes = s.pushes ++ [i]) (hbegun : s'.begun = s.begun)
    (hstores : s'.stores = s.stores) (hreceived : s'.received = s.received) :
    ∃ placed', MessagingInv bo n adj tables calls s' placed' := by
  obtain ⟨hsrc, hdst, _⟩ := h.ends i hi
  have hu : (0 : ℤ) ≤ (calls i).msg.srcId ∧ ((calls i).msg.srcId : ℤ) < n := by omega
  have hok : f.Ok := DataSend.chunk_ok (fitsInt_of_node hn hdst) hchunk
  have hform := DataSend.chunk_eq hchunk
  have hstep : ForwardStep bo n s.fwd s'.fwd := by
    rw [hfwd, hform]
    rw [hform] at hok hpush
    exact ForwardStep.push hu hok hchan hpush
  obtain ⟨placed', _, h'⟩ := hstep.refines hn hpeers hsimple h.fwd
  have hrests : Rests s.fwd.net s'.fwd.net := by
    rw [hfwd, (h.fwd.holds.node _ hu).localChan]
    exact Rests.setMan fun v => KeepsReader.of_same (SameRead.of_heap (Ioman.heap_put_of_ne nofun))
  have haccepted : s'.fwd.accepted = s.fwd.accepted ++ [f] := by rw [hfwd]
  refine ⟨placed', h.rests h' hrests (h.pushes.push hi hchunk haccepted hpushes hbegun)
    (by rw [hbegun]; exact h.nodup) (by rw [hbegun]; exact h.ends) (by rw [hbegun]; exact fun _ => id)
    (fun j hj => ?_) hstores hreceived⟩
  exact arrived_push h.fwd.toCarried hsimple h.pushes hj haccepted hpushes (hrests.chunks _)

/-- A thread takes a step that concerns no record. -/
theorem MessagingInv.silent (h : MessagingInv bo n adj tables calls s placed) (hn : n ≤ commMaxPeer)
    (hpeers : Peers n adj) (hsimple : TablesSimple n tables) {fwd' : Forwarding}
    (hstep : SilentStep bo n s.fwd fwd') :
    ∃ placed', MessagingInv bo n adj tables calls { s with fwd := fwd' } placed' := by
  obtain ⟨placed', _, h'⟩ := hstep.forward.refines hn hpeers hsimple h.fwd
  have hrests := hstep.rests h.fwd
  exact ⟨placed', h.rests h' hrests (h.pushes.congr hstep.accepted rfl fun _ => id) h.nodup h.ends
    (fun _ => id) (fun j _ => arrived_congr hstep.accepted rfl (hrests.chunks _)) rfl rfl⟩

/-- **The I/O thread of a node reads a channel.** -/
theorem MessagingInv.read (h : MessagingInv bo n adj tables calls s placed) (hn : n ≤ commMaxPeer)
    (hpeers : Peers n adj) (htables : TablesComplete n adj tables) (hbounds : s.InBounds n cap calls)
    (hu : 0 ≤ u ∧ u < n) {now : ℚ} {bursts : List (List Byte)} {rest : List Byte}
    {node' : CommNode (Option ℤ)} {store' : DataStore (Option ℤ)} {script : List RecvEvent}
    (hread : RecordRead bo now u v s bursts rest node' store' script)
    (hfwd : s'.fwd = { s.fwd with
      net := (s.fwd.net.setNode u node').setWire v u (recvBytes script ++ rest) })
    (hpushes : s'.pushes = s.pushes) (hbegun : s'.begun = s.begun)
    (hstores : s'.stores = Function.update s.stores u store') (hreceived : s'.received = s.received) :
    ∃ placed', MessagingInv bo n adj tables calls s' placed' := by
  have hnet : NetRead bo now u v s.fwd.net
      ((s.fwd.net.setNode u node').setWire v u (recvBytes script ++ rest)) :=
    NetRead.intro hread.ready (DataStore.iomanProcessChannelRead_refines hread.read)
  have hstep : ForwardStep bo n s.fwd s'.fwd := by
    rw [hfwd]
    exact ForwardStep.io (ForwardIoStep.read hu hnet)
  obtain ⟨placed', _, h'⟩ := hstep.refines hn hpeers htables.simple h.fwd
  have haccepted : s'.fwd.accepted = s.fwd.accepted := by rw [hfwd]
  have hself : s'.fwd.net.node u = node' := by
    rw [hfwd]
    exact Net.setNode_node_self
  have hothers : ∀ d, d ≠ u → s'.fwd.net.node d = s.fwd.net.node d := by
    intro d hd
    rw [hfwd]
    exact Net.setNode_node_of_ne hd
  refine ⟨placed', h', h.pushes.congr haccepted hpushes (by rw [hbegun]; exact fun _ => id),
    by rw [hbegun]; exact h.nodup, by rw [hbegun]; exact h.ends, fun d hrange hd => ?_⟩
  obtain ⟨taken, p, hnode⟩ := h.node d hrange hd
  by_cases hdu : d = u
  · subst hdu
    obtain ⟨p', hrecords, hcounted⟩ :=
      hnode.read_of h hn hpeers htables hbounds hrange hread
    have hstore : s'.stores d = store' := by rw [hstores, Function.update_self]
    refine ⟨taken, p', ⟨?_, ?_, ?_, ?_, ?_⟩⟩
    · rw [hself, hstore, hbegun]
      exact hrecords
    · exact hcounted.done haccepted hpushes (by rw [hself])
    · rw [hstore]
      exact read_queues hread.read hnode.queues
    · rw [hreceived]
      exact hnode.received
    · rw [hreceived]
      exact hnode.sources
  · refine ⟨taken, p, hnode.keep h.live (fun v => ?_) (by rw [hbegun]; exact fun _ => id)
      (fun i hi => ?_) (by rw [hstores, Function.update_of_ne hdu]) (by rw [hreceived])⟩
    · rw [hothers d hdu]
      exact KeepsReader.of_same (SameRead.of_heap rfl)
    · refine arrived_congr haccepted hpushes ?_
      rw [hi, hothers d hdu]

/-! ### The counter of a node -/

/-- The parts of a list with different keys are all of it. -/
theorem sum_length_filter {α : Type} (key : α → ℤ) {m : ℕ} {l : List α}
    (h : ∀ x ∈ l, 0 ≤ key x ∧ key x < m) :
    ∑ k ∈ Finset.range m, (l.filter fun x => key x = (k : ℕ)).length = l.length := by
  induction l with
  | nil => simp
  | cons x l ih =>
      obtain ⟨hx, hl⟩ := List.forall_mem_cons.1 h
      obtain ⟨k, hk⟩ := Int.eq_ofNat_of_zero_le hx.1
      have hmem : k ∈ Finset.range m := Finset.mem_range.2 (by omega)
      have hone : ∀ j ∈ Finset.range m, ((x :: l).filter fun x => key x = (j : ℕ)).length =
          (l.filter fun x => key x = (j : ℕ)).length + if j = k then 1 else 0 := by
        intro j _
        by_cases hj : j = k
        · rw [List.filter_cons_of_pos (by simp [hk, hj]), if_pos hj]
          rfl
        · rw [List.filter_cons_of_neg (by simp [hk]; omega), if_neg hj]
          rfl
      rw [Finset.sum_congr rfl hone, Finset.sum_add_distrib, ih hl, Finset.sum_ite_eq',
        if_pos hmem]
      rfl

/-- The messages for a node that have arrived completely: for each source, the users of the node have
received the first of them, and the others wait. -/
structure ArrivedLog (calls : ι → DataCall) (s : Messaging ι) (d : ℤ) (log : List ι) : Prop where
  nodup : log.Nodup
  mem : ∀ i, i ∈ log ↔ i ∈ s.begun ∧ (calls i).dstId = d ∧
    s.arrived calls i = (calls i).chunks.length
  order : ∀ src : ℤ, (s.received d).filter (fun r => r.1 = src) ++
    ((s.stores d).queues.queue src).map DataMsg.result =
      (log.filter fun i => ((calls i).msg.srcId : ℤ) = src).map fun i => (calls i).result

omit [∀ u v, Decidable (adj u v)] in
/-- The records of a node know the messages that have arrived. -/
theorem NodeOk.log (h : NodeOk bo adj tables calls s hd taken p) :
    ∃ log, ArrivedLog calls s d log := by
  obtain ⟨queues, hqueues, hstore⟩ := h.records.records
  obtain ⟨log, hlog⟩ := hstore.log
  refine ⟨log, hlog.nodup, fun i => ?_, fun src => ?_⟩
  · rw [hlog.mem, h.done]
    constructor
    · intro hdone
      have hpos : 0 < (arrivalsAt calls tables hd).count i := DataSend.count_pos
      obtain ⟨hi, hid⟩ := h.records.begun i (Or.inl (by rw [h.done]; omega))
      rw [doneAt_of_dst hid, arrivalsAt_count hid] at hdone
      exact ⟨hi, hid, hdone⟩
    · rintro ⟨_, hid, hdone⟩
      rw [doneAt_of_dst hid, arrivalsAt_count hid]
      exact hdone
  · have hqueue := congrArg (List.map DataMsg.result) ((hqueues src).symm.trans (hlog.queue src))
    rw [List.map_append, ← h.received src, List.map_map] at hqueue
    exact hqueue

/-- Messages that have arrived have been sent. -/
theorem ArrivedLog.length_le {log : List ι} (h : ArrivedLog calls s d log) :
    log.length ≤ (s.begun.filter fun i => (calls i).dstId = d).length := by
  refine (h.nodup.subperm fun i hi => ?_).length_le
  obtain ⟨hi, hid, _⟩ := (h.mem i).1 hi
  exact List.mem_filter.2 ⟨hi, decide_eq_true hid⟩

section

omit [∀ u v, Decidable (adj u v)]

/-- What has been received and what waits are the messages that have arrived, source by source. -/
theorem NodeOk.received_length (h : NodeOk bo adj tables calls s hd taken p) {log : List ι}
    (hlog : ArrivedLog calls s d log) :
    (s.received d).length + (s.stores d).queues.total = log.length := by
  have hsrc : ∀ i ∈ log, (0 : ℤ) ≤ (calls i).msg.srcId ∧ ((calls i).msg.srcId : ℤ) < commMaxPeer :=
    fun i _ => ⟨Int.natCast_nonneg _, Int.ofNat_lt.2 (calls i).msg.src_lt⟩
  rw [← sum_length_filter Prod.fst h.sources,
    ← sum_length_filter (fun i => ((calls i).msg.srcId : ℤ)) hsrc]
  unfold DataQueues.total
  rw [← Finset.sum_add_distrib]
  refine Finset.sum_congr rfl fun k _ => ?_
  have hlen := congrArg List.length (hlog.order k)
  simpa using hlen

/-- **The counter of a node does not overflow.** -/
theorem NodeOk.total_lt (h : NodeOk bo adj tables calls s hd taken p) (hbounds : s.InBounds n cap calls)
    (hrange : 0 ≤ d ∧ d < n) : (s.stores d).queues.total < 2 ^ 31 := by
  obtain ⟨log, hlog⟩ := h.log
  have hwaiting := hbounds.waiting d hrange
  have hle := hlog.length_le
  have hsum := h.received_length hlog
  omega

/-- **A user thread takes a message**: it is the first one that waits of its source. -/
theorem NodeOk.recv (h : NodeOk bo adj tables calls s hd taken p) (hbounds : s.InBounds n cap calls)
    (hrange : 0 ≤ d ∧ d < n) {mem mem' : CallerMem} {srcId buff buffsize : ℕ} {queues' : DataQueues}
    (hdistinct : srcId ≠ buffsize)
    (hcall : commNodeRecvAnyData (s.stores d).queues mem (some srcId) (some buff) (some buffsize) =
      Except.ok (some (queues', mem'))) :
    ∃ i msg msgQueue, (s.stores d).queues.queue i = msg :: msgQueue ∧ msg.srcId = i ∧
      (∀ j, queues'.queue j = if j = i then msgQueue else (s.stores d).queues.queue j) ∧
      DataQueues.Ok 0 queues' ∧ (0 ≤ i ∧ i < commMaxPeer) ∧
      (mem'.ints srcId, mem'.ints buffsize, mem'.buffs buff) = msg.result := by
  have hturn : (RecvCall.any srcId buff buffsize hdistinct).turn (s.stores d).queues mem =
      Except.ok (some (queues', mem')) := hcall
  obtain ⟨i, msg, msgQueue, hqueue, hrest, hok, _, hreturned, hsrc⟩ :=
    RecvCall.turn_returns h.queues (h.total_lt hbounds hrange) hturn
  refine ⟨i, msg, msgQueue, hqueue, hsrc, hrest, hok, h.queues.range i ?_, ?_⟩
  · rw [hqueue]
    exact List.cons_ne_nil _ _
  · exact Prod.ext (congrArg Returned.srcId hreturned)
      (Prod.ext (congrArg Returned.buffsize hreturned) (congrArg Returned.data hreturned))

/-- A message that is taken is received, and does not wait any more. -/
theorem NodeOk.receive (h : NodeOk bo adj tables calls s hd taken p) {i : ℤ} {msg : DataMsg}
    {msgQueue : List DataMsg} {queues' : DataQueues}
    (hqueue : (s.stores d).queues.queue i = msg :: msgQueue) (hsrc : msg.srcId = i)
    (hrest : ∀ j, queues'.queue j = if j = i then msgQueue else (s.stores d).queues.queue j)
    (hok : DataQueues.Ok 0 queues') (hrange : 0 ≤ i ∧ i < commMaxPeer) (hfwd : s'.fwd = s.fwd)
    (hbegun : s'.begun = s.begun) (hpushes : s'.pushes = s.pushes)
    (hstore : s'.stores d = (s.stores d).withQueues queues')
    (hreceived : s'.received d = s.received d ++ [msg.result]) :
    NodeOk bo adj tables calls s' hd (fun j => taken j ++ if j = i then [msg] else []) p where
  records := by
    rw [hstore, hfwd, hbegun]
    obtain ⟨queues, hqueues, hstoreOk⟩ := h.records.records
    refine ⟨⟨queues, fun j => ?_, hstoreOk⟩, h.records.begun, h.records.underway, h.records.buffers⟩
    refine (hqueues j).trans ?_
    have hj : ((s.stores d).withQueues queues').queues.queue j = _ := hrest j
    rw [hj]
    by_cases hji : j = i
    · rw [if_pos hji, if_pos hji, hji, hqueue, List.append_assoc]
      rfl
    · rw [if_neg hji, if_neg hji, List.append_nil]
  done := by
    rw [h.done]
    funext j
    unfold Messaging.doneAt
    rw [arrived_congr (by rw [hfwd]) hpushes (by rw [hfwd])]
  queues := by
    rw [hstore]
    exact hok
  received src := by
    rw [hreceived, List.filter_append, h.received, List.map_append]
    by_cases hs : src = i
    · rw [if_pos hs, List.filter_cons_of_pos (by simp [DataMsg.result, hsrc, hs])]
      rfl
    · rw [if_neg hs, List.filter_cons_of_neg (by simp [DataMsg.result, hsrc, Ne.symm hs])]
      rfl
  sources r hr := by
    rw [hreceived] at hr
    rcases List.mem_append.1 hr with hr | hr
    · exact h.sources r hr
    · rw [List.mem_singleton.1 hr]
      show 0 ≤ msg.srcId ∧ msg.srcId < commMaxPeer
      rwa [hsrc]

end

/-! ### Runs -/

/-- **Every step keeps the invariant.** -/
theorem MessagingStep.inv (hstep : MessagingStep bo n calls s s') (hn : n ≤ commMaxPeer)
    (hpeers : Peers n adj) (htables : TablesComplete n adj tables)
    (h : MessagingInv bo n adj tables calls s placed) (hbounds : s.InBounds n cap calls) :
    ∃ placed', MessagingInv bo n adj tables calls s' placed' := by
  cases hstep with
  | call hnew hsrc hdst hother hsid =>
      exact ⟨placed, h.call hnew ⟨hsrc, hdst, hother⟩ rfl rfl rfl rfl rfl⟩
  | push hi hchunk hchan hpush =>
      exact h.push hn hpeers htables.simple hi hchunk hchan hpush rfl rfl rfl rfl rfl
  | silent hstep => exact h.silent hn hpeers htables.simple hstep
  | read hu hread => exact h.read hn hpeers htables hbounds hu hread rfl rfl rfl rfl rfl
  | @recv u mem mem' srcId buff buffsize queues' hu hdistinct hcall =>
      refine ⟨placed, h.fwd, h.pushes.congr rfl rfl fun _ => id, h.nodup, h.ends,
        fun d hrange hd => ?_⟩
      obtain ⟨taken, p, hnode⟩ := h.node d hrange hd
      by_cases hdu : d = u
      · subst hdu
        obtain ⟨i, msg, msgQueue, hqueue, hsrc, hrest, hok, hi, hresult⟩ :=
          hnode.recv hbounds hrange hdistinct hcall
        refine ⟨_, p, hnode.receive hqueue hsrc hrest hok hi rfl rfl rfl ?_ ?_⟩
        · exact Function.update_self _ _ _
        · rw [← hresult]
          exact Function.update_self _ _ _
      · exact ⟨taken, p, hnode.keep h.live (fun v => KeepsReader.of_same (SameRead.of_heap rfl))
          (fun _ => id) (fun i _ => arrived_congr rfl rfl rfl) (Function.update_of_ne hdu _ _)
          (Function.update_of_ne hdu _ _)⟩

/-- In the beginning nothing has arrived. -/
theorem MessagingStart.inv (h : MessagingStart bo n adj tables s) (hpeers : Peers n adj) :
    MessagingInv bo n adj tables calls s placedStart := by
  have harrived : ∀ i, s.arrived calls i = 0 := by
    intro i
    unfold Messaging.arrived Forwarding.arrivedChunks
    rw [h.fwd.accepted]
    simp
  refine ⟨h.fwd.inv hpeers, ⟨?_, ?_, fun i => ?_⟩, ?_, ?_, fun d hrange hd => ?_⟩
  · rw [h.pushes, h.fwd.accepted]
    rfl
  · rw [h.pushes]
    exact fun i hi => absurd hi List.not_mem_nil
  · rw [h.pushes, h.fwd.accepted]
    rfl
  · rw [h.begun]
    exact List.nodup_nil
  · rw [h.begun]
    exact fun i hi => absurd hi List.not_mem_nil
  · refine ⟨fun _ => [], Progress.start, ⟨?_, ?_, ?_, fun src => ?_, fun r hr => ?_⟩⟩
    · rw [h.stores d hrange]
      refine ⟨⟨_, fun i => rfl, Arrivals.storeOk_start 0⟩, fun i hi => ?_, fun i hi => ?_,
        fun v hv chan hchan hstate hcurr => ?_⟩
      · exact absurd rfl (hi.resolve_left fun hne => hne rfl)
      · exact absurd rfl hi
      · -- a socket without frames is read by a channel between two frames
        obtain ⟨_, cv, frames, _, hcv, hlink, hqueue, hnone⟩ := h.fwd.link v d (hpeers.symm hv)
        obtain rfl : cv = chan := Option.some.inj (hcv.symm.trans hchan)
        obtain rfl : frames = [] := List.eq_nil_iff_forall_not_mem.2 fun f hf =>
          hnone f hf ((hqueue.chunks f hf).resolve_right id)
        obtain ⟨r, hreader, _⟩ := hlink.carries
        cases hreader with
        | idle _ hnil _ => exact absurd hnil hcurr
        | held hblocking _ => exact absurd hblocking hstate
    · funext i
      unfold Messaging.doneAt
      rw [harrived, ite_self]
      rfl
    · rw [h.stores d hrange]
      exact DataQueues.ok_create 0
    · rw [h.received]
      rfl
    · rw [h.received] at hr
      exact absurd hr List.not_mem_nil

/-- What is promised of a network with its users: no read fails, a call of `comm_node_recv_any_data`
returns a message or sleeps because there is none, and each message that has arrived completely has
been received or waits in the queue of its source, once and as it was sent. -/
structure MessagesTransported (bo : ByteOrder) (n : ℕ) (calls : ι → DataCall) (s : Messaging ι) :
    Prop where
  reads : ∀ u v : ℤ, 0 ≤ u ∧ u < n → ∀ now bursts rest, ReadReady s.fwd.net u v bursts rest →
    ∃ node' store' script, RecordRead bo now u v s bursts rest node' store' script
  receives : ∀ u : ℤ, 0 ≤ u ∧ u < n → ∀ mem srcId buff buffsize, srcId ≠ buffsize →
    ∃ res, commNodeRecvAnyData (s.stores u).queues mem (some srcId) (some buff) (some buffsize) =
      Except.ok res ∧ (res = none ↔ ∀ src, (s.stores u).queues.queue src = [])
  messages : ∀ u : ℤ, 0 ≤ u ∧ u < n → ∃ log, ArrivedLog calls s u log

/-- What holds of every reachable state. -/
theorem messagingReach_inv (hn : n ≤ commMaxPeer) (hpeers : Peers n adj)
    (htables : TablesComplete n adj tables)
    (h : Reach (fun s => MessagingStart bo n adj tables s ∧ s.InBounds n cap calls)
      (Guarded (MessagingStep bo n calls) fun _ t => t.InBounds n cap calls) s) :
    (∃ placed, MessagingInv bo n adj tables calls s placed) ∧ s.InBounds n cap calls := by
  refine Reach.inv (I := fun s => (∃ placed, MessagingInv bo n adj tables calls s placed) ∧
    s.InBounds n cap calls) (fun s hs => ⟨⟨_, hs.1.inv hpeers⟩, hs.2⟩) (fun s t hs hst => ?_) h
  obtain ⟨⟨placed, hinv⟩, hbounds⟩ := hs
  exact ⟨hst.1.inv hn hpeers htables hinv hbounds, hst.2⟩

/-- What is promised holds where the invariant does. -/
theorem MessagingInv.transported (h : MessagingInv bo n adj tables calls s placed)
    (hn : n ≤ commMaxPeer) (hpeers : Peers n adj) (htables : TablesComplete n adj tables)
    (hbounds : s.InBounds n cap calls) : MessagesTransported bo n calls s := by
  refine ⟨fun u v hu now bursts rest hready => ?_, fun u hu mem srcId buff buffsize hdistinct => ?_,
    fun u hu => ?_⟩
  · obtain ⟨taken, p, hnode⟩ := h.node u hu (fitsInt_of_node hn hu)
    obtain ⟨node', store', script, _, hread, _⟩ :=
      hnode.read h hn hpeers htables hbounds hu now hready
    exact ⟨node', store', script, hread⟩
  · obtain ⟨taken, p, hnode⟩ := h.node u hu (fitsInt_of_node hn hu)
    have hsmall := hnode.total_lt hbounds hu
    obtain ⟨res, hres⟩ := RecvCall.turn_any_ok hnode.queues hsmall mem srcId buff buffsize hdistinct
    refine ⟨res, hres, fun hnone => ?_, fun hempty => ?_⟩
    · rw [hnone] at hres
      exact RecvCall.blocked_of_turn hnode.queues hsmall hres
    · by_contra hsome
      obtain ⟨⟨queues', mem'⟩, rfl⟩ := Option.ne_none_iff_exists'.1 hsome
      obtain ⟨i, msg, msgQueue, hqueue, _⟩ := RecvCall.turn_returns hnode.queues hsmall hres
      rw [hempty i] at hqueue
      cases hqueue
  · obtain ⟨taken, p, hnode⟩ := h.node u hu (fitsInt_of_node hn hu)
    exact hnode.log

/-- **Messages arrive as they were sent, once**: whatever the threads of the nodes do and however the
chunks of the messages mix, no read fails, and each node has received, or will find in its queues,
the messages whose chunks have all arrived. -/
theorem messages_transported (hn : n ≤ commMaxPeer) (hpeers : Peers n adj)
    (htables : TablesComplete n adj tables)
    (h : Reach (fun s => MessagingStart bo n adj tables s ∧ s.InBounds n cap calls)
      (Guarded (MessagingStep bo n calls) fun _ t => t.InBounds n cap calls) s) :
    MessagesTransported bo n calls s := by
  obtain ⟨⟨placed, hinv⟩, hbounds⟩ := messagingReach_inv hn hpeers htables h
  exact hinv.transported hn hpeers htables hbounds

end Transport

/-! ### Two nodes -/

/-- A message of one byte. -/
def pairMsg : DataSend where
  srcId := 0
  dataMsgSid := 7
  chunkSz := 4
  buff := [42]
  src_lt := Nat.zero_lt_succ _
  chunkSz_pos := Nat.zero_lt_succ _
  buff_ne := List.cons_ne_nil _ _
  buff_fits := by
    rw [List.length_singleton]
    exact ⟨by omega, by omega⟩

/-- It is sent to the node 1. -/
def pairCalls : Unit → DataCall := fun _ => ⟨pairMsg, 1⟩

/-- The two nodes with their users. -/
def pairMessaging : Messaging Unit where
  fwd := pairForwarding
  stores := fun _ => commNodeCreateStore 0
  dataMsgSid := fun _ => 7
  begun := []
  pushes := []
  received := fun _ => []

/-- States with a single call are within the bounds. -/
theorem pair_inBounds {s : Messaging Unit} (hbegun : s.begun.length ≤ 1)
    (hwire : s.fwd.net.wire = pairForwarding.net.wire) :
    s.InBounds 2 (fun _ _ => 1) pairCalls := by
  refine ⟨fun u v => ?_, fun _ _ _ _ _ _ _ _ => rfl, fun u _ => ?_⟩
  · rw [hwire]
    exact Nat.zero_le 1
  · have hle := List.length_filter_le (fun i => (pairCalls i).dstId = u) s.begun
    omega

/-- The chunk of a message has left the local channel of the node 0. -/
theorem pair_sending : ∃ s : Messaging Unit, s.begun = [()] ∧
    (s.fwd.net.node 0).man.queueLen (some 1) = 1 ∧ s.received 1 = [] ∧
    Reach (fun s => MessagingStart ByteOrder.little 2 pairAdj pairTables s ∧
      s.InBounds 2 (fun _ _ => 1) pairCalls)
      (Guarded (MessagingStep ByteOrder.little 2 pairCalls) fun _ t =>
        t.InBounds 2 (fun _ _ => 1) pairCalls) s := by
  have hstart : Reach (fun s => MessagingStart ByteOrder.little 2 pairAdj pairTables s ∧
      s.InBounds 2 (fun _ _ => 1) pairCalls)
      (Guarded (MessagingStep ByteOrder.little 2 pairCalls) fun _ t =>
        t.InBounds 2 (fun _ _ => 1) pairCalls) pairMessaging :=
    Reach.init ⟨⟨pairForwarding_start False, fun _ _ => rfl, rfl, rfl, fun _ => rfl⟩,
      pair_inBounds (Nat.zero_le 1) rfl⟩
  have hcall := hstart.step ⟨MessagingStep.call (i := ()) List.not_mem_nil (by decide)
    ⟨by decide, by decide⟩ (by decide) rfl, pair_inBounds le_rfl rfl⟩
  have hpush := hcall.step ⟨MessagingStep.push (i := ()) List.mem_cons_self rfl rfl rfl,
    pair_inBounds le_rfl rfl⟩
  have htoken := hpush.step ⟨MessagingStep.silent (SilentStep.token (u := 0) (by decide) rfl
    (by decide)), pair_inBounds le_rfl rfl⟩
  have hread := htoken.step ⟨MessagingStep.silent (SilentStep.localRead (u := 0) (by decide) rfl rfl
    (by decide) rfl), pair_inBounds le_rfl rfl⟩
  exact ⟨_, rfl, rfl, rfl, hread⟩

/-- It is on its way to the node 1. -/
theorem messages_transported_pair : ∃ s : Messaging Unit, s.begun = [()] ∧
    (s.fwd.net.node 0).man.queueLen (some 1) = 1 ∧
    MessagesTransported ByteOrder.little 2 pairCalls s := by
  obtain ⟨s, hbegun, hqueue, _, hreach⟩ := pair_sending
  exact ⟨s, hbegun, hqueue, messages_transported (by decide)
    ⟨pairAdj_peers.range, pairAdj_peers.symm, pairAdj_peers.irrefl⟩ pairTables_complete hreach⟩

end DLFree

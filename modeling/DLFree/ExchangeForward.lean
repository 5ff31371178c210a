/-
**From the exchange of the tables to the chunks.**

A node that has returned from `comm_node_exchange_rt` may send chunks.  When all nodes have returned,
each has the tables of all, and the network is one that forwards chunks, whatever order the tables
took: tables and ends of handshakes may still be under way, and do not concern the chunks.

Main definitions:

* `AtRest` — a node with registered peers that has handled no chunk;
* `RoutingStart`, `ExchangeDone` — the exchange before the first call and after the last return;
* `Routed` — a network in which all nodes have returned.

Main results:

* `ExchangeStep.atRest`, `ExchangeStep.knows` — **the exchange handles no chunk, and a call that
  returns has all tables**;
* `Routed.start` — **when all calls have returned, the network forwards chunks**.
-/

import DLFree.ForwardRun

set_option relaxedAutoImplicit false
set_option autoImplicit false

namespace DLFree

open FifoPlaces TransitionRun Flooding

/-! ### Nodes without chunks -/

/-- A node that has registered its peers and has handled no chunk. -/
structure AtRest (adj : ℤ → ℤ → Prop) [∀ u v, Decidable (adj u v)] (node : CommNode (Option ℤ))
    (u : ℤ) : Prop where
  connected : Connected adj True node u
  channel : ∀ c chan, node.man.heap c = some chan → chan.state = ChannelStatus.active ∧
    chan.waitQueue = [] ∧ ∀ buff ∈ chan.buffQueue, buff.unsent ≠ []
  source : ∃ chan, node.man.heap none = some chan ∧ chan.buffQueue = [] ∧ chan.pipe = 0
  chunks : node.chunks = []

/-- All channels are registered at both ends, no chunk has been pushed, and nobody has called
`comm_node_exchange_rt`. -/
structure RoutingStart (bo : ByteOrder) (n : ℕ) (adj : ℤ → ℤ → Prop)
    [∀ u v, Decidable (adj u v)] (s : Exchange) : Prop extends ExchangeStart bo n adj s where
  atRest : ∀ u : ℤ, 0 ≤ u ∧ u < n → AtRest adj (s.net.node u) u

/-- All calls of `comm_node_exchange_rt` have returned. -/
def ExchangeDone (n : ℕ) (s : Exchange) : Prop :=
  ∀ u : ℤ, 0 ≤ u ∧ u < n → s.call u = ExchangeCall.done

/-- A network in which all calls have returned, and no chunk has been pushed. -/
def Routed (bo : ByteOrder) (n : ℕ) (adj : ℤ → ℤ → Prop) [∀ u v, Decidable (adj u v)]
    (tables : ℤ → OverlayRtable) (t : Forwarding) : Prop :=
  ∃ s, Reach (RoutingStart bo n adj) (ExchangeStep bo n tables) s ∧ ExchangeDone n s ∧
    t = ⟨s.net, []⟩

section Rest

variable {bo : ByteOrder} {n : ℕ} {adj : ℤ → ℤ → Prop} [∀ u v, Decidable (adj u v)]
  {tables : ℤ → OverlayRtable} {pongs : Prop} {node node' : CommNode (Option ℤ)} {net net' : Net}
  {s s' : Exchange} {a a' : Flood ℤ ℤ} {u v x : ℤ} {chan chan' : Channel (Option ℤ)}
  {frames : List Frame} {srcs : List ℤ}

/-- A node that handles messages stays at rest. -/
theorem AtRest.message (h : AtRest adj node u) (hstep : MessageStep bo True node node') :
    AtRest adj node' u where
  connected := h.connected.samePeers hstep.peers hstep.events
  channel c chan' hchan' := by
    have hlive : node.man.live c := by
      rw [← hstep.peers.live c, Ioman.live, hchan']
      rfl
    obtain ⟨chan, hchan⟩ := Option.isSome_iff_exists.1 hlive
    obtain ⟨hstate, hwait, hqueue⟩ := h.channel c chan hchan
    obtain ⟨chan₁, frames, hchan₁, happ, _⟩ := hstep.channel c chan hchan
    obtain rfl : chan₁ = chan' := Option.some.inj (hchan₁.symm.trans hchan')
    refine ⟨happ.reader.state.trans hstate, happ.waitQueue.trans hwait, fun buff hbuff => ?_⟩
    rw [happ.queue, List.mem_append, List.mem_map] at hbuff
    rcases hbuff with hbuff | ⟨f, _, rfl⟩
    · exact hqueue buff hbuff
    · exact unsent_packed_ne_nil
  source := by
    rw [hstep.source]
    exact h.source
  chunks := hstep.chunks.trans h.chunks

/-- A step that leaves the channels and the chunks alone. -/
theorem AtRest.of_man (h : AtRest adj node u) (hman : node'.man = node.man)
    (hchunks : node'.chunks = node.chunks) : AtRest adj node' u where
  connected := h.connected.samePeers (by rw [hman]; exact (Steady.refl node.man).toSamePeers)
    fun e he => Or.inl (by rw [← hman]; exact he)
  channel := by
    rw [hman]
    exact h.channel
  source := by
    rw [hman]
    exact h.source
  chunks := hchunks.trans h.chunks

/-- A channel to a peer changes, with buffers that have bytes left. -/
theorem AtRest.put (h : AtRest adj node u) (hchan : node.man.heap (some v) = some chan)
    (hpeer : chan'.peerId = chan.peerId) (hconn : chan'.connectState = chan.connectState)
    (hstate : chan'.state = chan.state) (hwait : chan'.waitQueue = chan.waitQueue)
    (hqueue : ∀ buff ∈ chan'.buffQueue, buff.unsent ≠ []) :
    AtRest adj (node.setMan (node.man.put (some v) chan')) u where
  connected := h.connected.samePeers (Steady.put hchan hpeer hconn).toSamePeers
    fun _ he => Or.inl he
  channel c chan₁ hchan₁ := by
    by_cases hc : c = some v
    · subst hc
      obtain rfl : chan' = chan₁ := Option.some.inj (Ioman.heap_put_self.symm.trans hchan₁)
      obtain ⟨hstate', hwait', _⟩ := h.channel _ chan hchan
      exact ⟨hstate.trans hstate', hwait.trans hwait', hqueue⟩
    · exact h.channel c chan₁ ((Ioman.heap_put_of_ne hc).symm.trans hchan₁)
  source := by
    obtain ⟨chan₀, hchan₀, hrest⟩ := h.source
    exact ⟨chan₀, (Ioman.heap_put_of_ne (Option.some_ne_none v).symm).trans hchan₀, hrest⟩
  chunks := h.chunks

/-- The frames of the exchange are no chunks. -/
theorem Announces.not_chunk (h : Announces bo tables pongs u v frames srcs) :
    ∀ f ∈ frames, ¬ f.IsChunk := by
  induction h with
  | nil => simp
  | pong _ hf _ ih =>
      refine List.forall_mem_cons.2 ⟨fun hc => ?_, ih⟩
      rcases hf with hf | hf <;> exact absurd (hf.symm.trans hc) (by decide)
  | table _ ih => exact List.forall_mem_cons.2 ⟨messageFrame_not_chunk (by decide), ih⟩

/-! ### The steps of the exchange -/

theorem atRest_of_node (hrest : ∀ x : ℤ, 0 ≤ x ∧ x < n → AtRest adj (net.node x) x)
    (hnode : ∀ x, x ≠ u → net'.node x = net.node x) (hu : AtRest adj (net'.node u) u) :
    ∀ x : ℤ, 0 ≤ x ∧ x < n → AtRest adj (net'.node x) x := by
  intro x hx
  by_cases hxu : x = u
  · rw [hxu]
    exact hu
  · rw [hnode x hxu]
    exact hrest x hx

/-- The call of `u` goes on. -/
theorem atRest_of_man (hrest : ∀ x : ℤ, 0 ≤ x ∧ x < n → AtRest adj (net.node x) x)
    (hu : 0 ≤ u ∧ u < n) (hman : node'.man = (net.node u).man)
    (hchunks : node'.chunks = (net.node u).chunks) :
    ∀ x : ℤ, 0 ≤ x ∧ x < n → AtRest adj ((net.setNode u node').node x) x := by
  refine atRest_of_node hrest (fun x hx => Net.setNode_node_of_ne hx) ?_
  rw [Net.setNode_node_self]
  exact (hrest u hu).of_man hman hchunks

/-- The node `u` handles a message. -/
theorem atRest_of_message (hrest : ∀ x : ℤ, 0 ≤ x ∧ x < n → AtRest adj (net.node x) x)
    (hu : 0 ≤ u ∧ u < n) (hstep : MessageStep bo True (net.node u) node') :
    ∀ x : ℤ, 0 ≤ x ∧ x < n → AtRest adj ((net.setNode u node').node x) x := by
  refine atRest_of_node hrest (fun x hx => Net.setNode_node_of_ne hx) ?_
  rw [Net.setNode_node_self]
  exact (hrest u hu).message hstep

/-- **A read of the exchange handles no chunk.** -/
theorem ExchangeSim.read_atRest (h : ExchangeSim bo n adj tables pongs s a) (hn : n ≤ commMaxPeer)
    (hpeers : PeersConnected n adj) (hu : 0 ≤ u ∧ u < n)
    (hrest : AtRest adj (s.net.node u) u) {now : ℚ} (hread : NetRead bo now u v s.net net') :
    AtRest adj (net'.node u) u := by
  have hsim := h.node u hu
  have hadj : adj u v := by
    obtain ⟨hready, _⟩ := hread
    exact hsim.channels v hready.channel
  obtain ⟨cu, cv, frames, hcu, hcv, _, _, hlink, hann⟩ := h.link v u (hpeers.symm hadj)
  have hlink : LinkOk bo (s.net.node u).nodeId cu.buffQueue (s.net.wire v u) cv frames := by
    rw [hsim.nodeId]
    exact hlink
  have hput : ∀ {chan'}, Reads cv chan' →
      AtRest adj ((s.net.node u).setMan ((s.net.node u).man.put (some v) chan')) u := by
    intro chan' hreads
    refine hrest.put hcv hreads.peerId hreads.connectState hreads.state hreads.waitQueue ?_
    rw [hreads.buffQueue]
    exact (hrest.channel _ _ hcv).2.2
  cases hread.outcome hcv hlink with
  | part hreads _ =>
      rw [Net.node_changed]
      exact hput hreads
  | @full f _ _ _ _ hreads hf hdone _ _ hnode =>
      have hkind : ¬ f.IsChunk := hann.not_chunk f List.mem_cons_self
      have hbody : FitsInt f.body.length := by
        rw [← hf.len]
        exact hf.fits.len
      rw [Net.node_changed]
      exact (hput hreads).message (commNodeHandleMsg_message
        (iomanReadDone_msg hkind hdone.msgInfo hnode) (hput hreads).connected hn hu hadj trivial
          hbody)

/-- A write of the exchange leaves bytes of the buffers that it has begun with. -/
theorem ExchangeSim.write_atRest (h : ExchangeSim bo n adj tables pongs s a) (hu : 0 ≤ u ∧ u < n)
    (hrest : AtRest adj (s.net.node u) u) {sent : List Byte}
    (hwrite : NetWrite bo u v s.net sent net') : AtRest adj (net'.node u) u := by
  have hadj : adj u v := by
    obtain ⟨hready, _⟩ := hwrite
    exact (h.node u hu).channels v hready.channel
  obtain ⟨cu, _, _, hcu, _, hstate, hwait, _⟩ := h.link u v hadj
  obtain ⟨node₁, rfl, ⟨hsetup, _⟩ | ⟨_, man', rfl, hrun⟩⟩ := hwrite.outcome hcu
  · rw [hstate] at hsetup
    cases hsetup
  obtain ⟨queue, rfl, _, hleft⟩ := hrun.left_of_idle hcu hwait
  rw [Net.node_changed, ← Ioman.put_apply _ hcu]
  exact hrest.put hcu rfl rfl rfl rfl (hleft (hrest.channel _ _ hcu).2.2)

/-- **The exchange handles no chunk**: the nodes stay at rest. -/
theorem ExchangeStep.atRest (hstep : ExchangeStep bo n tables s s') (hn : n ≤ commMaxPeer)
    (hpeers : PeersConnected n adj) (htables : TablesOk bo n tables)
    (h : ExchangeSim bo n adj tables pongs s a)
    (hrest : ∀ x : ℤ, 0 ≤ x ∧ x < n → AtRest adj (s.net.node x) x) :
    ∀ x : ℤ, 0 ≤ x ∧ x < n → AtRest adj (s'.net.node x) x := by
  cases hstep with
  | store hu _ hstore =>
      obtain ⟨_, _, _, rfl⟩ := commNodeStoreRt_cases hstore
      exact atRest_of_man hrest hu rfl rfl
  | @bcast u buff hu hcall =>
      have hbuff : FitsInt buff.length := by
        have hsim := h.node u hu
        rw [hsim.stored buff hcall]
        exact htables.packLen u hu _ (packedTable_eq htables hu).1
      have hstep : MessageStep bo True (s.net.node u)
          (commNodeBcastMsg (s.net.node u) MsgKind.rt buff) :=
        messageStep_event (Or.inr ⟨trivial, buff, rfl, hbuff⟩)
      exact atRest_of_message hrest hu hstep
  | count hu _ => exact atRest_of_man hrest hu rfl rfl
  | wait hu _ _ hwait =>
      unfold commNodeExchangeWait at hwait
      split at hwait
      · cases hwait
        exact atRest_of_man hrest hu rfl rfl
      · cases hwait
        exact atRest_of_man hrest hu rfl rfl
  | event hu hevent =>
      exact atRest_of_message hrest hu
        (iomanHandleEvent_message hevent (hrest _ hu).connected hn hu)
  | read hu hread =>
      refine atRest_of_node hrest (fun x hx => ?_) (h.read_atRest hn hpeers hu (hrest _ hu) hread)
      obtain ⟨_, _⟩ := hread
      simp [Exchange.move, hx]
  | write hu hwrite =>
      refine atRest_of_node hrest (fun x hx => ?_) (h.write_atRest hu (hrest _ hu) hwrite)
      obtain ⟨_, _⟩ := hwrite
      simp [Exchange.move, hx]

/-! ### The end of the exchange -/

/-- A call returns when all tables have been counted. -/
theorem ExchangeStep.returns (hstep : ExchangeStep bo n tables s s')
    (hdone : s'.call x = ExchangeCall.done) :
    s.call x = ExchangeCall.done ∨ n ≤ (s'.net.node x).numRts := by
  have hgoto : ∀ {u net call}, ((s.move u net).goto u call).call x = ExchangeCall.done →
      call ≠ ExchangeCall.done → s.call x = ExchangeCall.done := by
    intro u net call h hcall
    by_cases hx : x = u
    · subst hx
      exact absurd ((Function.update_self _ _ _).symm.trans h) hcall
    · exact (Function.update_of_ne hx _ _).symm.trans h
  cases hstep with
  | store _ _ _ => exact Or.inl (hgoto hdone nofun)
  | bcast _ _ => exact Or.inl (hgoto hdone nofun)
  | count _ _ => exact Or.inl (hgoto hdone nofun)
  | @wait u _ _ _ _ _ hwait =>
      unfold commNodeExchangeWait at hwait
      split at hwait
      · cases hwait
        exact Or.inl (hgoto hdone (by decide))
      · rename_i hlt
        cases hwait
        by_cases hx : x = u
        · subst hx
          refine Or.inr ?_
          show n ≤ ((s.net.setNode x (s.net.node x)).node x).numRts
          rw [Net.setNode_node_self]
          exact not_lt.1 hlt
        · exact Or.inl ((Function.update_of_ne hx _ _).symm.trans hdone)
  | event _ _ => exact Or.inl hdone
  | read _ _ => exact Or.inl hdone
  | write _ _ => exact Or.inl hdone

/-- The nodes whose calls have returned know all sources. -/
def KnowAll (n : ℕ) (s : Exchange) (a : Flood ℤ ℤ) : Prop :=
  ∀ u : ℤ, 0 ≤ u ∧ u < n → s.call u = ExchangeCall.done → a.known u = Finset.Ico 0 (n : ℤ)

/-- **A call that returns has all tables.** -/
theorem ExchangeStep.knows (hstep : ExchangeStep bo n tables s s')
    (hflood : a' = a ∨ FloodStep adj id a a') (hsim : ExchangeSim bo n adj tables pongs s a)
    (hsim' : ExchangeSim bo n adj tables pongs s' a') (hknow : KnowAll n s a) : KnowAll n s' a' := by
  intro u hu hdone
  have hsub : a'.known u ⊆ Finset.Ico 0 (n : ℤ) :=
    fun src hsrc => Finset.mem_Ico.2 (hsim'.range u src hsrc)
  refine Finset.eq_of_subset_of_card_le hsub ?_
  rcases hstep.returns hdone with hbefore | hcount
  · have hmono : a.known u ⊆ a'.known u := by
      rcases hflood with rfl | hflood
      · exact subset_rfl
      · exact hflood.known_subset u
    rw [← hknow u hu hbefore]
    exact Finset.card_le_card hmono
  · have hcard := (hsim'.node u hu).count
    rw [hdone] at hcard
    rw [Int.card_Ico, ← hcard]
    change _ ≤ (s'.net.node u).numRts + 0
    omega

/-- In every reachable state the exchange refines a flooding, and no chunk has been handled. -/
theorem routingReach_inv (hn : n ≤ commMaxPeer) (hpeers : PeersConnected n adj)
    (htables : TablesOk bo n tables)
    (h : Reach (RoutingStart bo n adj) (ExchangeStep bo n tables) s) :
    ∃ a, ExchangeSim bo n adj tables True s a ∧ KnowAll n s a ∧
      ∀ x : ℤ, 0 ≤ x ∧ x < n → AtRest adj (s.net.node x) x := by
  refine Reach.inv (I := fun s => ∃ a, ExchangeSim bo n adj tables True s a ∧ KnowAll n s a ∧
    ∀ x : ℤ, 0 ≤ x ∧ x < n → AtRest adj (s.net.node x) x) (fun s hs => ?_)
    (fun s t hinv hstep => ?_) h
  · refine ⟨floodStart, hs.toExchangeStart.sim, fun u _ hdone => ?_, hs.atRest⟩
    rw [hs.call u] at hdone
    cases hdone
  · obtain ⟨a, hsim, hknow, hrest⟩ := hinv
    obtain ⟨a', hflood, hsim'⟩ := hstep.refines hn hpeers htables hsim
    exact ⟨a', hsim', hstep.knows hflood hsim hsim' hknow,
      hstep.atRest hn hpeers htables hsim hrest⟩

/-- **When all calls have returned, the network forwards chunks**: every node has the tables of all,
and only messages that are no chunks are under way. -/
theorem Routed.start {t : Forwarding} (h : Routed bo n adj tables t) (hn : n ≤ commMaxPeer)
    (hpeers : PeersConnected n adj) (htables : TablesOk bo n tables) :
    ForwardStart bo n adj True tables t := by
  obtain ⟨s, hreach, hdone, rfl⟩ := h
  obtain ⟨a, hsim, hknow, hrest⟩ := routingReach_inv hn hpeers htables hreach
  refine ⟨fun u hu => ?_, fun u hu c chan hchan => ?_, fun u hu => (hrest u hu).source,
    fun u v hadj => ?_, fun u hu => (hrest u hu).chunks, rfl⟩
  · obtain ⟨hid, hmax, hlocal, hmap, hchannels, hinv, hevents⟩ := (hrest u hu).connected
    refine ⟨hid, hmax, hlocal, hmap, hchannels, hinv, hevents, fun src hsrc => ?_⟩
    have hrts := (hsim.node u hu).rts src
    rwa [hknow u hu (hdone u hu), if_pos (Finset.mem_Ico.2 hsrc)] at hrts
  · obtain ⟨hstate, hwait, _⟩ := (hrest u hu).channel c chan hchan
    exact ⟨hstate, hwait⟩
  · obtain ⟨cu, cv, frames, hcu, hcv, _, _, hlink, hann⟩ := hsim.link u v hadj
    refine ⟨cu, cv, frames, hcu, hcv, hlink, ⟨?_, fun _ _ => Or.inr trivial⟩, hann.not_chunk⟩
    exact ((hrest u (hpeers.range hadj)).channel _ cu hcu).2.2

end Rest

end DLFree

/-
**Every call of `comm_node_exchange_rt` returns.**

A call of `comm_node_exchange_rt` sleeps until the tables of all nodes have been counted.  It does not
sleep for ever: once the handshakes are over, some step is possible as long as one of the calls has
not returned, and in every order of the steps the tables get to all nodes.

Main definitions:

* `HandshakesOver` — the exchange before the first call, with nothing under way;
* `ExchangeWork` — steps of the exchange, the last of which moves something;
* `ExchangeHandles` — no step of a thread that is due aborts;
* `exchangeLeft` — what the calls have left to do, the tables that are missing, the events in the
  notify pipes and the bytes of the links.

Main results:

* `ExchangeStep.lowers` — a step lowers this variant, or leaves everything where it is;
* `ExchangeInv.work` — something can move until all calls have returned;
* `exchange_returns` — **in every reachable state it is inevitable that all calls return**, and no
  assertion fails;
* `exchange_transports` — **the chunks that are pushed afterwards are transported**.
-/

import DLFree.ExchangeForward
import DLFree.ForwardDelivery

set_option relaxedAutoImplicit false
set_option autoImplicit false

namespace DLFree

open FifoPlaces TransitionRun Flooding

/-! ### Steps that move something -/

/-- No call has been made, and nothing is under way any more: all messages of the handshakes have been
taken. -/
structure HandshakesOver (bo : ByteOrder) (n : ℕ) (adj : ℤ → ℤ → Prop) [∀ u v, Decidable (adj u v)]
    (s : Exchange) : Prop extends RoutingStart bo n adj s where
  quiet : ∀ u v, adj u v → ∃ cu cv, (s.net.node u).man.heap (some v) = some cu ∧
    (s.net.node v).man.heap (some u) = some cv ∧ LinkOk bo v cu.buffQueue (s.net.wire u v) cv []

/-- Something has moved: a call, an event of a notify pipe, or bytes of a socket. -/
inductive ExchangeMoved (s s' : Exchange) : Prop
  | call {u : ℤ} (hcall : s'.call u ≠ s.call u)
  | event {u : ℤ}
      (hevent : (s'.net.node u).man.events.length < (s.net.node u).man.events.length)
  | take {u v : ℤ} (htake : (s'.net.wire u v).length < (s.net.wire u v).length)
  | send {u v : ℤ} (hsend : (s.net.wire u v).length < (s'.net.wire u v).length)

/-- Steps of the exchange, the last of which moves something. -/
def ExchangeWork (bo : ByteOrder) (n : ℕ) (tables : ℤ → OverlayRtable) (s s' : Exchange) : Prop :=
  ∃ t, Relation.ReflTransGen (ExchangeStep bo n tables) s t ∧ ExchangeStep bo n tables t s' ∧
    ExchangeMoved t s'

/-- Whatever is due returns: the store of a table, a read, a write, and an event.  No read or write
finds a broken connection. -/
structure ExchangeHandles (bo : ByteOrder) (n : ℕ) (tables : ℤ → OverlayRtable) (s : Exchange) :
    Prop where
  store : ∀ u : ℤ, 0 ≤ u ∧ u < n → s.call u = ExchangeCall.before →
    ∃ buff node', commNodeStoreRt bo (s.net.node u) (tables u) = Except.ok (buff, node')
  read : ∀ (u v : ℤ) now bursts rest, 0 ≤ u ∧ u < n → ReadReady s.net u v bursts rest →
    ∃ node' script, iomanProcessChannelRead bo now (s.net.node u) (some v) (dataScript bursts) =
      Except.ok (true, node', script)
  write : ∀ (u v : ℤ) rooms, 0 ≤ u ∧ u < n → WriteReady s.net u v →
    ∃ node' sent, iomanProcessChannelWrite bo (s.net.node u) (some v) true (roomScript rooms) =
      Except.ok (true, node', sent)
  event : ∀ u, (s.net.node u).man.events ≠ [] →
    ∃ man', iomanHandleEvent bo (s.net.node u).man = Except.ok man'

/-! ### What is left to do -/

/-- What a call has left to do. -/
def ExchangeCall.left : ExchangeCall → ℕ
  | before => 4
  | stored _ => 3
  | sent => 2
  | waiting => 1
  | done => 0

/-- The tables that a node does not have. -/
noncomputable def rtsMissing (n : ℕ) (node : CommNode (Option ℤ)) : ℕ :=
  ((Finset.Ico (0 : ℤ) n).filter fun src => node.rts src = none).card

/-- The sum over all nodes. -/
noncomputable def nodesSum (n : ℕ) (f : ℤ → ℕ) : ℕ := ∑ u ∈ Finset.Ico (0 : ℤ) n, f u

/-- What the calls have left to do, the missing tables, the events, and the bytes of the links. -/
noncomputable def exchangeLeft (n : ℕ) (s : Exchange) : ℕ ×ₗ (ℕ ×ₗ (ℕ ×ₗ ℕ)) :=
  toLex (nodesSum n fun u => (s.call u).left, toLex (nodesSum n fun u => rtsMissing n (s.net.node u),
    toLex (nodesSum n fun u => (s.net.node u).man.events.length, bytesLeft n s.net)))

/-- The exchange refines a flooding of tables alone, the nodes whose calls have returned have all
tables, and no chunk has been handled. -/
structure ExchangeInv (bo : ByteOrder) (n : ℕ) (adj : ℤ → ℤ → Prop) [∀ u v, Decidable (adj u v)]
    (tables : ℤ → OverlayRtable) (s : Exchange) (a : Flood ℤ ℤ) : Prop where
  sim : ExchangeSim bo n adj tables False s a
  know : KnowAll n s a
  atRest : ∀ x : ℤ, 0 ≤ x ∧ x < n → AtRest adj (s.net.node x) x

section Lowers

variable {bo : ByteOrder} {n : ℕ} {adj : ℤ → ℤ → Prop} [∀ u v, Decidable (adj u v)]
  {tables : ℤ → OverlayRtable} {node' : CommNode (Option ℤ)} {net net' : Net}
  {s s' : Exchange} {a : Flood ℤ ℤ} {u v src : ℤ} {call call' : ExchangeCall} {f g : ℤ → ℕ}
  {chan : Channel (Option ℤ)} {man' : Ioman (Option ℤ)}

theorem nodesSum_lt (hu : 0 ≤ u ∧ u < n) (hothers : ∀ x, x ≠ u → g x = f x) (hlt : g u < f u) :
    nodesSum n g < nodesSum n f := by
  refine Finset.sum_lt_sum (fun x _ => ?_) ⟨u, Finset.mem_Ico.2 hu, hlt⟩
  by_cases hx : x = u
  · rw [hx]
    exact hlt.le
  · exact (hothers x hx).le

theorem nodesSum_congr (h : ∀ x, g x = f x) : nodesSum n g = nodesSum n f :=
  Finset.sum_congr rfl fun x _ => h x

/-- Everything is where it was. -/
structure ExchangeStill (s s' : Exchange) : Prop where
  call : s'.call = s.call
  rts : ∀ u, (s'.net.node u).rts = (s.net.node u).rts
  events : ∀ u, (s'.net.node u).man.events = (s.net.node u).man.events
  wire : ∀ u v, (s'.net.wire u v).length = (s.net.wire u v).length

theorem ExchangeStill.not_moved (h : ExchangeStill s s') : ¬ ExchangeMoved s s' := by
  rintro (hcall | hevent | htake | hsend)
  · exact hcall (congrFun h.call _)
  · rw [h.events] at hevent
    exact lt_irrefl _ hevent
  · exact htake.ne (h.wire _ _)
  · exact hsend.ne' (h.wire _ _)

/-- The variant is lower, or it is as before and nothing has moved. -/
def ExchangeLowers (n : ℕ) (s s' : Exchange) : Prop :=
  exchangeLeft n s' < exchangeLeft n s ∨
    (exchangeLeft n s' = exchangeLeft n s ∧ ExchangeStill s s')

/-- A call that goes on lowers the variant. -/
theorem ExchangeLowers.of_call (hu : 0 ≤ u ∧ u < n) (h : call'.left < (s.call u).left) :
    ExchangeLowers n s ((s.move u net').goto u call') := by
  refine Or.inl (Prod.Lex.toLex_lt_toLex.2 (Or.inl (nodesSum_lt hu (fun x hx => ?_) ?_)))
  · exact congrArg ExchangeCall.left (Function.update_of_ne hx _ _)
  · exact (congrArg ExchangeCall.left (Function.update_self _ _ _)).trans_lt h

/-- So does a table that a node gets. -/
theorem ExchangeLowers.of_rts (rt : OverlayRtable) (hu : 0 ≤ u ∧ u < n)
    (hnode : ∀ x, x ≠ u → net'.node x = s.net.node x) (hsrc : 0 ≤ src ∧ src < n)
    (hnone : (s.net.node u).rts src = none)
    (hrts : (net'.node u).rts = Function.update (s.net.node u).rts src (some rt)) :
    ExchangeLowers n s (s.move u net') := by
  refine Or.inl (Prod.Lex.toLex_lt_toLex.2 (Or.inr ⟨rfl, ?_⟩))
  refine Prod.Lex.toLex_lt_toLex.2 (Or.inl (nodesSum_lt hu (fun x hx => ?_) ?_))
  · exact congrArg (rtsMissing n) (hnode x hx)
  · refine Finset.card_lt_card ⟨fun x hx => ?_, fun hsub => ?_⟩
    · rw [Finset.mem_filter] at hx ⊢
      refine ⟨hx.1, ?_⟩
      have hxn : (net'.node u).rts x = none := hx.2
      rw [hrts] at hxn
      by_cases hxs : x = src
      · rw [hxs]
        exact hnone
      · rwa [Function.update_of_ne hxs] at hxn
    · have hmem := hsub (Finset.mem_filter.2 ⟨Finset.mem_Ico.2 hsrc, hnone⟩)
      have hnone' : (net'.node u).rts src = none := (Finset.mem_filter.1 hmem).2
      rw [hrts, Function.update_self] at hnone'
      cases hnone'

/-- So does an event that is taken from a notify pipe. -/
theorem ExchangeLowers.of_event (hu : 0 ≤ u ∧ u < n)
    (hevents : man'.events.length < (s.net.node u).man.events.length) :
    ExchangeLowers n s (s.move u (s.net.setNode u ((s.net.node u).setMan man'))) := by
  have hnode : ∀ x, x ≠ u → (s.net.setNode u ((s.net.node u).setMan man')).node x = s.net.node x :=
    fun x hx => Net.setNode_node_of_ne hx
  refine Or.inl (Prod.Lex.toLex_lt_toLex.2 (Or.inr ⟨rfl, ?_⟩))
  refine Prod.Lex.toLex_lt_toLex.2 (Or.inr ⟨nodesSum_congr fun x => ?_, ?_⟩)
  · by_cases hx : x = u
    · rw [hx]
      show rtsMissing n ((s.net.setNode u ((s.net.node u).setMan man')).node u) = _
      rw [Net.setNode_node_self]
      rfl
    · exact congrArg (rtsMissing n) (hnode x hx)
  · refine Prod.Lex.toLex_lt_toLex.2 (Or.inl (nodesSum_lt hu (fun x hx => ?_) ?_))
    · exact congrArg (fun node => node.man.events.length) (hnode x hx)
    · show ((s.net.setNode u ((s.net.node u).setMan man')).node u).man.events.length < _
      rw [Net.setNode_node_self]
      exact hevents

/-- Bytes that go on lower the variant, or nothing has moved. -/
theorem ExchangeLowers.of_bytes (hcall : s'.call = s.call)
    (hrts : ∀ x, (s'.net.node x).rts = (s.net.node x).rts)
    (hevents : ∀ x, (s'.net.node x).man.events = (s.net.node x).man.events)
    (hbytes : bytesLeft n s'.net < bytesLeft n s.net ∨ (bytesLeft n s'.net = bytesLeft n s.net ∧
      ∀ u v, (s'.net.wire u v).length = (s.net.wire u v).length)) : ExchangeLowers n s s' := by
  have hmissing : ∀ x, rtsMissing n (s'.net.node x) = rtsMissing n (s.net.node x) := by
    intro x
    unfold rtsMissing
    rw [hrts]
  unfold ExchangeLowers exchangeLeft
  rw [hcall]
  simp only [hmissing, hevents]
  rcases hbytes with hlt | ⟨heq, hwire⟩
  · refine Or.inl (Prod.Lex.toLex_lt_toLex.2 (Or.inr ⟨rfl, ?_⟩))
    refine Prod.Lex.toLex_lt_toLex.2 (Or.inr ⟨rfl, ?_⟩)
    exact Prod.Lex.toLex_lt_toLex.2 (Or.inr ⟨rfl, hlt⟩)
  · rw [heq]
    exact Or.inr ⟨rfl, hcall, hrts, hevents, hwire⟩

/-- A read that takes a part of a frame. -/
theorem ExchangeLowers.of_partRead {now : ℚ} (hu : 0 ≤ u ∧ u < n) (hv : 0 ≤ v ∧ v < n)
    (hread : NetRead bo now u v s.net net') (h : PartRead u v s.net net') :
    ExchangeLowers n s (s.move u net') := by
  have hbytes := bytesLeft_partRead hu hv hread h
  obtain ⟨chan, chan', wire, hchan, _, rfl⟩ := h
  refine ExchangeLowers.of_bytes rfl (fun x => ?_) (fun x => ?_) hbytes
  · show (((s.net.setNode u _).setWire v u wire).node x).rts = _
    by_cases hx : x = u
    · rw [hx, Net.node_changed]
      rfl
    · rw [Net.setWire_node, Net.setNode_node_of_ne hx]
  · show (((s.net.setNode u _).setWire v u wire).node x).man.events = _
    by_cases hx : x = u
    · rw [hx, Net.node_changed]
      rfl
    · rw [Net.setWire_node, Net.setNode_node_of_ne hx]

/-- Without ends of handshakes, the next frame of a link is a table. -/
theorem Announces.table_of_cons {frame : Frame} {frames : List Frame} {srcs : List ℤ}
    (h : Announces bo tables False u v (frame :: frames) srcs) :
    ∃ src ∈ srcs, frame.info.kind = MsgKind.rt.toInt ∧ frame.body = packedTable bo tables src ∧
      frame.info.dstId = v := by
  cases h with
  | pong hp _ _ => exact absurd hp id
  | table _ => exact ⟨_, List.mem_cons_self, rfl, rfl, rfl⟩

namespace ExchangeInv

variable (h : ExchangeInv bo n adj tables s a)

include h

/-- The source of a table that is under way. -/
theorem source (hlink : src ∈ a.link u v) : 0 ≤ src ∧ src < n :=
  h.sim.range u src (h.sim.flood.logged (h.sim.flood.link hlink))

/-- **A read lowers the variant**, or leaves everything where it is. -/
theorem read (hpeers : PeersConnected n adj) (htables : TablesOk bo n tables)
    (hu : 0 ≤ u ∧ u < n) {now : ℚ} (hread : NetRead bo now u v s.net net') :
    ExchangeLowers n s (s.move u net') := by
  have hadj : adj u v := by
    obtain ⟨hready, _⟩ := hread
    exact (h.atRest u hu).connected.channels v hready.channel
  have hv := hpeers.range (hpeers.symm hadj)
  obtain ⟨cu, cv, frames, hcu, hcv, _, _, hlink, hann⟩ := h.sim.link v u (hpeers.symm hadj)
  have hlink : LinkOk bo (s.net.node u).nodeId cu.buffQueue (s.net.wire v u) cv frames := by
    rw [(h.atRest u hu).connected.nodeId]
    exact hlink
  cases hread.outcome hcv hlink with
  | part hreads _ =>
      exact ExchangeLowers.of_partRead hu hv hread ⟨cv, _, _, hcv, hreads.buffQueue, rfl⟩
  | @full f _ chan' wire node' hreads hf hdone _ _ hnode =>
      obtain ⟨src, hmem, hrt, hbody, _⟩ := hann.table_of_cons
      have hsrc := h.source hmem
      have hkind : f.info.kind ≠ MsgKind.data.toInt := by
        rw [hrt]
        decide
      have hinfo : chan'.msgInfo.kind = MsgKind.rt.toInt := by
        rw [hdone.msgInfo, Frame.seen_kind, hrt]
      have hhandle := iomanReadDone_msg hkind hdone.msgInfo hnode
      rw [hbody] at hhandle
      rcases commNodeHandleMsg_rt hhandle hinfo (packedTable_eq htables hsrc).2 with
        ⟨hnone, maxWidth, minWidth, rfl⟩ | ⟨_, rfl⟩
      · -- the table is new
        have hsrcpid : 0 ≤ (tables src).srcpid ∧ (tables src).srcpid < n := by
          rw [htables.srcpid src hsrc]
          exact hsrc
        refine ExchangeLowers.of_rts (tables src) hu (fun x hx => ?_) hsrcpid hnone ?_
        · rw [Net.setWire_node, Net.setNode_node_of_ne hx]
        · rw [Net.node_changed]
          rfl
      · exact ExchangeLowers.of_partRead hu hv hread ⟨cv, _, _, hcv, hreads.buffQueue, rfl⟩

/-- **A write lowers the variant**, or leaves everything where it is. -/
theorem write (hpeers : PeersConnected n adj) (hu : 0 ≤ u ∧ u < n) {sent : List Byte}
    (hwrite : NetWrite bo u v s.net sent net') : ExchangeLowers n s (s.move u net') := by
  have hadj : adj u v := by
    obtain ⟨hready, _⟩ := hwrite
    exact (h.atRest u hu).connected.channels v hready.channel
  obtain ⟨cu, _, _, hcu, _, hstate, hwait, _⟩ := h.sim.link u v hadj
  obtain ⟨node₁, rfl, ⟨hsetup, _⟩ | ⟨_, man', rfl, hrun⟩⟩ := hwrite.outcome hcu
  · rw [hstate] at hsetup
    cases hsetup
  obtain ⟨queue, rfl, hbytes⟩ := hrun.of_idle hcu hwait
  refine ExchangeLowers.of_bytes rfl (fun x => ?_) (fun x => ?_)
    (bytesLeft_sent hu (hpeers.range (hpeers.symm hadj)) (Ioman.live_of_heap hcu)
      (PartSent.setBuffQueue hcu hbytes))
  · show (((s.net.setNode u _).setWire u v _).node x).rts = _
    by_cases hx : x = u
    · rw [hx, Net.node_changed]
      rfl
    · rw [Net.setWire_node, Net.setNode_node_of_ne hx]
  · show (((s.net.setNode u _).setWire u v _).node x).man.events = _
    by_cases hx : x = u
    · rw [hx, Net.node_changed]
      rfl
    · rw [Net.setWire_node, Net.setNode_node_of_ne hx]

/-- An event that is taken from a notify pipe is no longer there. -/
theorem event (hu : 0 ≤ u ∧ u < n)
    (hevent : iomanHandleEvent bo (s.net.node u).man = Except.ok man') :
    man'.events.length < (s.net.node u).man.events.length := by
  have hsim := h.sim.node u hu
  unfold iomanHandleEvent at hevent
  split at hevent
  · cases hevent
  rename_i event events hevents
  have hall := hsim.events event (by rw [hevents]; exact List.mem_cons_self)
  have hlt : events.length < (s.net.node u).man.events.length := by
    rw [hevents]
    exact Nat.lt_succ_self _
  rcases hall with rfl | ⟨buff, rfl⟩
  · cases hevent
    exact hlt
  · cases hevent
    obtain ⟨⟨heap, hman⟩, _⟩ := @iomanHandleEventBcastmsg_pids bo adj _ u buff
      { (s.net.node u).man with events := events } MsgKind.rt hsim.channelMap hsim.nodeId
    rw [hman]
    exact hlt

end ExchangeInv

/-- **A step of the exchange lowers the variant, or leaves everything where it is.** -/
theorem ExchangeStep.lowers (hstep : ExchangeStep bo n tables s s') (hn : n ≤ commMaxPeer)
    (hpeers : PeersConnected n adj) (htables : TablesOk bo n tables)
    (h : ExchangeInv bo n adj tables s a) :
    ∃ a', ExchangeInv bo n adj tables s' a' ∧ ExchangeLowers n s s' := by
  obtain ⟨a', hflood, hsim'⟩ := hstep.refines hn hpeers htables h.sim
  refine ⟨a', ⟨hsim', hstep.knows hflood h.sim hsim' h.know,
    hstep.atRest hn hpeers htables h.sim h.atRest⟩, ?_⟩
  clear hflood hsim'
  cases hstep with
  | store hu hcall _ =>
      refine ExchangeLowers.of_call hu ?_
      rw [hcall]
      exact Nat.lt_succ_self 3
  | bcast hu hcall =>
      refine ExchangeLowers.of_call hu ?_
      rw [hcall]
      exact Nat.lt_succ_self 2
  | count hu hcall =>
      refine ExchangeLowers.of_call hu ?_
      rw [hcall]
      decide
  | @wait u _ _ hu hcall _ hwait =>
      unfold commNodeExchangeWait at hwait
      split at hwait
      · -- the thread goes to sleep
        cases hwait
        have hnode : ∀ x, ((s.net.setNode u (commNodeCondWait (s.net.node u)
            (CondWaiter.exchange n))).node x).rts = (s.net.node x).rts ∧
              ((s.net.setNode u (commNodeCondWait (s.net.node u)
                (CondWaiter.exchange n))).node x).man = (s.net.node x).man := by
          intro x
          by_cases hx : x = u
          · rw [hx, Net.setNode_node_self]
            exact ⟨rfl, rfl⟩
          · rw [Net.setNode_node_of_ne hx]
            exact ⟨rfl, rfl⟩
        refine ExchangeLowers.of_bytes ?_ (fun x => (hnode x).1)
          (fun x => congrArg Ioman.events (hnode x).2) (Or.inr ⟨?_, fun _ _ => rfl⟩)
        · exact Function.update_eq_self_iff.2 hcall.symm
        · refine Finset.sum_congr rfl fun e _ => ?_
          unfold linkBytes
          have hman := (hnode e.1).2
          show 2 * unsentBytes ((s.net.setNode u _).node e.1).man (some e.2) + _ = _
          rw [hman]
          rfl
      · cases hwait
        refine ExchangeLowers.of_call hu ?_
        rw [hcall]
        decide
  | event hu hevent => exact ExchangeLowers.of_event hu (h.event hu hevent)
  | read hu hread => exact h.read hpeers htables hu hread
  | write hu hwrite => exact h.write hpeers hu hwrite

end Lowers

/-! ### Handling a table -/

section Handling

variable {bo : ByteOrder} {n : ℕ} {tables : ℤ → OverlayRtable} {node : CommNode (Option ℤ)}
  {c : Option ℤ} {now : ℚ} {rt : OverlayRtable}

theorem CompleteFrom.entry {srcpid : ℤ} {entries : List (Option OverlayRtableEntry)} {k i : ℕ}
    (h : CompleteFrom srcpid k entries) (hi : i < entries.length) (hne : ((k + i : ℕ) : ℤ) ≠ srcpid) :
    ∃ entry, entries[i]? = some (some entry) := by
  induction entries generalizing k i with
  | nil => exact absurd hi (Nat.not_lt_zero i)
  | cons entry entries ih =>
      obtain ⟨hentry, hrest⟩ := h
      cases i with
      | zero =>
          rw [if_neg (by simpa using hne)] at hentry
          obtain ⟨e, rfl, _⟩ := hentry
          exact ⟨e, rfl⟩
      | succ i =>
          have hne' : ((k + 1 + i : ℕ) : ℤ) ≠ srcpid := by
            rw [Nat.add_right_comm]
            exact hne
          exact ih hrest (Nat.lt_of_succ_lt_succ hi) hne'

/-- The loop over the entries of a complete table returns. -/
theorem commNodeRtWidths_ok (h : rt.Complete) (node : CommNode (Option ℤ)) :
    ∃ node', commNodeRtWidths node rt = Except.ok node' := by
  refine foldlM_ok (fun pid hpid node => ?_) node
  have hlt : pid < rt.entries.length := List.mem_range.1 hpid
  split
  · exact ⟨_, rfl⟩
  · rename_i hne
    obtain ⟨entry, hentry⟩ := h.entries.entry hlt (by rwa [Nat.zero_add])
    have hget : overlayRtableGetEntry rt pid = Except.ok (some entry) := by
      unfold overlayRtableGetEntry
      rw [if_neg (by omega), Int.toNat_natCast, hentry]
    rw [hget]
    exact ⟨_, rfl⟩

/-- **Handling a complete table returns.** -/
theorem commNodeHandleMsg_rt_ok {info : MsgInfo} {body : List Byte}
    (hkind : info.kind = MsgKind.rt.toInt)
    (hunpack : ∃ rest, overlayRtableCreateByUnpack bo body = Except.ok (rt, rest))
    (hcomplete : rt.Complete) (hsrc : 0 ≤ rt.srcpid ∧ rt.srcpid < node.man.maxpeers) :
    ∃ node', commNodeHandleMsg bo now node c info body = Except.ok node' := by
  obtain ⟨rest, hunpack⟩ := hunpack
  obtain ⟨node₁, hwidths⟩ := commNodeRtWidths_ok hcomplete { node with
    rts := Function.update node.rts rt.srcpid (some rt), numRts := node.numRts + 1 }
  have hcheck : node.man.checkPeer rt.srcpid = Except.ok () := if_pos hsrc
  have hregister : ∃ updated node', commNodeRegisterRt bo node body =
      Except.ok (updated, node') := by
    unfold commNodeRegisterRt
    rw [hunpack, ok_bind]
    dsimp only
    rw [hcheck, ok_bind]
    split
    · rw [hwidths]
      exact ⟨_, _, rfl⟩
    · exact ⟨_, _, rfl⟩
  obtain ⟨updated, node', hregister⟩ := hregister
  unfold commNodeHandleMsg
  rw [hkind]
  simp only [show MsgKind.rt.toInt ≠ MsgKind.ping0.toInt by decide,
    show MsgKind.rt.toInt ≠ MsgKind.ping1.toInt by decide,
    show MsgKind.rt.toInt ≠ MsgKind.pong0.toInt by decide,
    show MsgKind.rt.toInt ≠ MsgKind.pong1.toInt by decide, if_false, if_true, hregister, ok_bind]
  split
  · exact ⟨_, rfl⟩
  · exact ⟨_, rfl⟩

end Handling

/-! ### Something can move -/

section Work

variable {bo : ByteOrder} {n : ℕ} {adj : ℤ → ℤ → Prop} [∀ u v, Decidable (adj u v)]
  {tables : ℤ → OverlayRtable} {s s' : Exchange} {a : Flood ℤ ℤ} {u v : ℤ}
  {cu cv : Channel (Option ℤ)}

theorem ExchangeStep.work (hstep : ExchangeStep bo n tables s s') (hmoved : ExchangeMoved s s') :
    ∃ s', ExchangeWork bo n tables s s' := ⟨s', s, Relation.ReflTransGen.refl, hstep, hmoved⟩

theorem moved_of_goto {net' : Net} {call : ExchangeCall} (hne : call ≠ s.call u) :
    ExchangeMoved s ((s.move u net').goto u call) := by
  refine ExchangeMoved.call (u := u) ?_
  exact fun he => hne ((Function.update_self _ _ _).symm.trans he)

namespace ExchangeInv

variable (h : ExchangeInv bo n adj tables s a)

include h

/-- A call can store its table. -/
theorem store_ok (hn : n ≤ commMaxPeer) (htables : TablesOk bo n tables) (hu : 0 ≤ u ∧ u < n)
    (hcall : s.call u = ExchangeCall.before) : ∃ buff node',
      commNodeStoreRt bo (s.net.node u) (tables u) = Except.ok (buff, node') := by
  have hsim := h.sim.node u hu
  have hnone : (s.net.node u).rts u = none := by
    rw [hsim.rts, if_neg fun hk => hsim.own.1 hk hcall]
  have hcheck : (s.net.node u).man.checkPeer u = Except.ok () := by
    refine if_pos ?_
    rw [hsim.maxpeers]
    omega
  refine ⟨packedTable bo tables u, { s.net.node u with
    rts := Function.update (s.net.node u).rts u (some (tables u)) }, ?_⟩
  unfold commNodeStoreRt
  rw [(packedTable_eq htables hu).1, ok_bind, htables.srcpid u hu, hcheck, ok_bind, hnone,
    hsim.nodeId]
  simp only [Option.isNone_none, and_self, decide_true, cAssert_true, ok_bind]

/-- A call that has not come to its loop can go on. -/
theorem canCall (hn : n ≤ commMaxPeer) (htables : TablesOk bo n tables) (hu : 0 ≤ u ∧ u < n)
    (hcall : s.call u ≠ ExchangeCall.waiting) (hdone : s.call u ≠ ExchangeCall.done) :
    ∃ s', ExchangeWork bo n tables s s' := by
  cases hc : s.call u with
  | before =>
      obtain ⟨buff, node', hstore⟩ := h.store_ok hn htables hu hc
      refine (ExchangeStep.store hu hc hstore).work (moved_of_goto ?_)
      rw [hc]
      nofun
  | stored buff =>
      refine (ExchangeStep.bcast hu hc).work (moved_of_goto ?_)
      rw [hc]
      nofun
  | sent =>
      refine (ExchangeStep.count hu hc).work (moved_of_goto ?_)
      rw [hc]
      nofun
  | waiting => exact absurd hc hcall
  | done => exact absurd hc hdone

/-- An event can be taken from a notify pipe. -/
theorem canEvent (hu : 0 ≤ u ∧ u < n) (hne : (s.net.node u).man.events ≠ []) :
    ∃ s', ExchangeWork bo n tables s s' := by
  obtain ⟨man', hhandle⟩ := iomanHandleEvent_ok bo hne
  refine (ExchangeStep.event hu hhandle).work (ExchangeMoved.event (u := u) ?_)
  show ((s.net.setNode u ((s.net.node u).setMan man')).node u).man.events.length < _
  rw [Net.setNode_node_self]
  exact h.event hu hhandle

/-- A write that is ready returns. -/
theorem write_ok (hu : 0 ≤ u ∧ u < n) (rooms : List ℕ) (hready : WriteReady s.net u v) :
    ∃ node' sent, iomanProcessChannelWrite bo (s.net.node u) (some v) true (roomScript rooms) =
        Except.ok (true, node', sent) ∧
      ∃ r, channelWrite (s.net.node u).man (some v) (roomScript rooms) = Except.ok r ∧
        r.sent = sent := by
  obtain ⟨cu, hcu, _⟩ := hready.writable
  obtain ⟨hstate, hwait, _⟩ := (h.atRest u hu).channel _ cu hcu
  have hnil : (s.net.node u).man.waitQueue (some v) = [] := (Ioman.waitQueue_eq hcu).trans hwait
  have hunblock : UnblockOk (s.net.node u).man (some v) := by
    refine ⟨Ioman.live_of_heap hcu, ?_, fun w hw => ?_⟩
    · rw [hnil]
      exact List.nodup_nil
    · rw [hnil] at hw
      exact absurd hw List.not_mem_nil
  obtain ⟨r, hwrite, hstat⟩ := channelWrite_ok rooms hunblock
  refine ⟨(s.net.node u).setMan r.man, r.sent, ?_, r, hwrite, rfl⟩
  rw [iomanProcessChannelWrite_sent hcu (Or.inl hstate) hwrite]
  simp [hstat]

/-- Bytes can be sent from a queue. -/
theorem canSend (hpeers : PeersConnected n adj) (hadj : adj u v)
    (hcu : (s.net.node u).man.heap (some v) = some cu) (hq : cu.buffQueue ≠ []) :
    ∃ s', ExchangeWork bo n tables s s' := by
  have hu := hpeers.range hadj
  obtain ⟨buff, bs, hq⟩ := List.exists_cons_of_ne_nil hq
  obtain ⟨_, _, hleft⟩ := (h.atRest u hu).channel _ cu hcu
  have hwritable : channelIsWritable cu := by
    unfold channelIsWritable
    rw [hq]
    simp
  have hready : WriteReady s.net u v :=
    ⟨((h.atRest u hu).connected.known hadj).1, cu, hcu, hwritable⟩
  obtain ⟨node', sent, hprocess, r, hwrite, rfl⟩ := h.write_ok hu [1] hready
  have hsent := channelWrite_sent hcu hq (hleft buff (by rw [hq]; exact List.mem_cons_self))
    Nat.one_pos hwrite
  refine (ExchangeStep.write hu (NetWrite.intro hready hprocess)).work
    (ExchangeMoved.send (u := u) (v := v) ?_)
  have hpos := List.length_pos_iff.2 hsent
  show _ < (((s.net.setNode u _).setWire u v _).wire u v).length
  rw [Net.setWire_wire_self, List.length_append]
  omega

/-- A read that is ready returns. -/
theorem read_ok (hn : n ≤ commMaxPeer) (hpeers : PeersConnected n adj)
    (htables : TablesOk bo n tables) (hu : 0 ≤ u ∧ u < n) (now : ℚ) {bursts : List (List Byte)}
    {rest : List Byte} (hready : ReadReady s.net u v bursts rest) :
    ∃ node' script, iomanProcessChannelRead bo now (s.net.node u) (some v) (dataScript bursts) =
      Except.ok (true, node', script) := by
  have hadj := (h.atRest u hu).connected.channels v hready.channel
  obtain ⟨cu, cv, frames, _, hcv, _, _, hlink, hann⟩ := h.sim.link v u (hpeers.symm hadj)
  have hlink : LinkOk bo (s.net.node u).nodeId cu.buffQueue (s.net.wire v u) cv frames := by
    rw [(h.atRest u hu).connected.nodeId]
    exact hlink
  have hread : LinkRead bo now (s.net.node u) (some v) cv cu.buffQueue rest frames
      (iomanProcessChannelRead bo now (s.net.node u) (some v) (dataScript bursts)) :=
    hready.linkRead hcv hlink
  generalize iomanProcessChannelRead bo now (s.net.node u) (some v) (dataScript bursts) = res
    at hread ⊢
  cases hread with
  | part _ _ => exact ⟨_, _, rfl⟩
  | @full f _ chan' _ _ _ hdone _ _ =>
      obtain ⟨src, hmem, hrt, hbody, hdst⟩ := hann.table_of_cons
      have hsrc := h.source hmem
      have hkind : f.info.kind ≠ MsgKind.data.toInt := by
        rw [hrt]
        decide
      have hhandle : ∃ node', commNodeHandleMsg bo now ((s.net.node u).setMan
          ((s.net.node u).man.put (some v) chan')) (some v) chan'.msgInfo f.body =
            Except.ok node' := by
        rw [hbody]
        refine commNodeHandleMsg_rt_ok (by rw [hdone.msgInfo, Frame.seen_kind, hrt])
          (packedTable_eq htables hsrc).2 (htables.complete src hsrc) ?_
        have hmax : (s.net.node u).man.maxpeers = commMaxPeer := (h.atRest u hu).connected.maxpeers
        show 0 ≤ _ ∧ _ < ((s.net.node u).man.maxpeers : ℤ)
        rw [htables.srcpid src hsrc, hmax]
        omega
      obtain ⟨node', hhandle⟩ := hhandle
      have hdoneOk : iomanReadDone bo now ((s.net.node u).setMan
          ((s.net.node u).man.put (some v) chan')) (some v) chan'
            (f.buff bo (s.net.node u).nodeId f.body) = Except.ok node' := by
        unfold iomanReadDone
        rw [if_neg (by rw [hdone.msgInfo]; exact hkind), Frame.unsent_buff_of_msg hkind, hhandle]
        have hassert : chan'.msgInfo.dstId = ((s.net.node u).setMan
            ((s.net.node u).man.put (some v) chan')).nodeId := by
          rw [hdone.msgInfo, Frame.seen_dstId, hdst]
          exact (h.atRest u hu).connected.nodeId.symm
        simp only [hassert, true_or, decide_true, cAssert_true, ok_bind]
      rw [hdoneOk]
      exact ⟨_, _, rfl⟩

/-- Bytes can be taken from a socket. -/
theorem canTake (hn : n ≤ commMaxPeer) (hpeers : PeersConnected n adj)
    (htables : TablesOk bo n tables) (hadj : adj u v) (hwire : s.net.wire v u ≠ []) :
    ∃ s', ExchangeWork bo n tables s s' := by
  have hu := hpeers.range hadj
  obtain ⟨cu, cv, frames, _, hcv, _, _, hlink, hann⟩ := h.sim.link v u (hpeers.symm hadj)
  have hlink : LinkOk bo (s.net.node u).nodeId cu.buffQueue (s.net.wire v u) cv frames := by
    rw [(h.atRest u hu).connected.nodeId]
    exact hlink
  have hreadable : channelIsReadable cv := by
    unfold channelIsReadable
    rw [((h.atRest u hu).channel _ cv hcv).1]
    rfl
  have hready : ReadReady s.net u v [s.net.wire v u] [] :=
    ⟨((h.atRest u hu).connected.known hadj).1, ⟨cv, hcv, hreadable⟩, by simp, by simpa using hwire⟩
  obtain ⟨node', script, hread⟩ := h.read_ok hn hpeers htables hu 0 hready
  refine (ExchangeStep.read hu (NetRead.intro hready hread)).work
    (ExchangeMoved.take (u := v) (v := u) ?_)
  show (((s.net.setNode u _).setWire v u _).wire v u).length < _
  rw [Net.setWire_wire_self, List.append_nil]
  exact hlink.read_takes hcv hreadable hwire hread

/-- A call can return when its node has all tables. -/
theorem canReturn (hu : 0 ≤ u ∧ u < n) (hcall : s.call u = ExchangeCall.waiting)
    (hknown : a.known u = Finset.Ico 0 (n : ℤ)) : ∃ s', ExchangeWork bo n tables s s' := by
  have hsim := h.sim.node u hu
  have hcount := hsim.count
  rw [hcall, hknown, Int.card_Ico] at hcount
  change (s.net.node u).numRts + 0 = _ at hcount
  have hawake : CondWaiter.exchange n ∉ (s.net.node u).cond := by
    intro hw
    have hlt := (hsim.asleep hw).2
    omega
  have hwait : commNodeExchangeWait (s.net.node u) n = (true, s.net.node u) := by
    unfold commNodeExchangeWait
    rw [if_neg (by omega)]
  refine (ExchangeStep.wait hu hcall hawake hwait).work (moved_of_goto ?_)
  rw [hcall]
  decide

/-- A link without bytes carries no frame. -/
theorem frames_nil (hu : 0 ≤ v ∧ v < n) {frames : List Frame} {queue : List MsgBuff}
    {wire : List Byte} (hcv : (s.net.node v).man.heap (some u) = some cv)
    (hlink : LinkOk bo v queue wire cv frames) (hqueue : queue = []) (hwire : wire = []) :
    frames = [] := by
  obtain ⟨_, r, hreader, hbytes⟩ := hlink
  subst hqueue hwire
  cases frames with
  | nil => rfl
  | cons f frames =>
      have hstate : cv.state ≠ ChannelStatus.blocking := by
        rw [((h.atRest v hu).channel _ cv hcv).1]
        nofun
      have hlt := (hreader.reading_of_active hstate).ne_encode
      have hlen := congrArg List.length hbytes
      simp only [List.append_nil, List.flatMap_nil, List.flatMap_cons, List.length_append] at hlen
      omega

/-- **Something can move until all calls have returned.** -/
theorem work (hn : n ≤ commMaxPeer) (hpeers : PeersConnected n adj)
    (htables : TablesOk bo n tables) :
    ExchangeDone n s ∨ ∃ s', ExchangeWork bo n tables s s' := by
  by_contra hnot
  push Not at hnot
  obtain ⟨hleft, hstuck⟩ := hnot
  have hstuck : ¬ ∃ s', ExchangeWork bo n tables s s' := fun ⟨s', hs'⟩ => hstuck s' hs'
  have hcall : ∀ u : ℤ, 0 ≤ u ∧ u < n →
      s.call u = ExchangeCall.waiting ∨ s.call u = ExchangeCall.done := by
    intro u hu
    by_contra hnot
    push Not at hnot
    exact hstuck (h.canCall hn htables hu hnot.1 hnot.2)
  have hquiet : ExchangeQuiet bo n adj s := by
    refine ⟨fun u hu => ?_, fun u hu buff hmem => ?_, fun u v hadj hway => ?_⟩
    · rcases hcall u hu with hc | hc <;> rw [hc] <;> rfl
    · exact hstuck (h.canEvent hu (List.ne_nil_of_mem hmem))
    · obtain ⟨cu, cv, frames, hcu, hcv, hlink, f, hf, _⟩ := hway
      have hqueue : cu.buffQueue = [] := by
        by_contra hq
        exact hstuck (h.canSend hpeers hadj hcu hq)
      have hwire : s.net.wire u v = [] := by
        by_contra hw
        exact hstuck (h.canTake hn hpeers htables (hpeers.symm hadj) hw)
      rw [h.frames_nil (hpeers.range (hpeers.symm hadj)) hcv hlink hqueue hwire] at hf
      cases hf
  refine hleft fun u hu => ?_
  rcases hcall u hu with hc | hc
  · exact absurd (h.canReturn hu hc (h.sim.all_known hpeers hquiet hu)) hstuck
  · exact hc

end ExchangeInv

/-! ### Runs -/

/-- In the beginning nobody knows a table. -/
theorem HandshakesOver.inv (h : HandshakesOver bo n adj s) :
    ExchangeInv bo n adj tables s floodStart where
  sim := by
    have hsim : ExchangeSim bo n adj tables True s floodStart := h.sim
    refine ⟨hsim.flood, hsim.range, hsim.node, fun u v hadj => ?_, hsim.bcasts⟩
    obtain ⟨cu, _, _, hcu, _, hstate, hwait, _⟩ := hsim.link u v hadj
    obtain ⟨cu', cv, hcu', hcv, hlink⟩ := h.quiet u v hadj
    obtain rfl : cu' = cu := Option.some.inj (hcu'.symm.trans hcu)
    exact ⟨cu', cv, [], hcu', hcv, hstate, hwait, hlink, Announces.nil⟩
  know u _ hdone := by
    rw [h.call u] at hdone
    cases hdone
  atRest := h.atRest

/-- Work lowers the variant. -/
theorem ExchangeWork.lowers (hwork : ExchangeWork bo n tables s s') (hn : n ≤ commMaxPeer)
    (hpeers : PeersConnected n adj) (htables : TablesOk bo n tables)
    (h : ExchangeInv bo n adj tables s a) :
    ∃ a', ExchangeInv bo n adj tables s' a' ∧ exchangeLeft n s' < exchangeLeft n s := by
  obtain ⟨t, hrun, hstep, hmoved⟩ := hwork
  have hrun' : ∃ a', ExchangeInv bo n adj tables t a' ∧ exchangeLeft n t ≤ exchangeLeft n s := by
    clear hstep hmoved
    induction hrun with
    | refl => exact ⟨a, h, le_rfl⟩
    | tail _ hstep ih =>
        obtain ⟨a₁, h₁, hle⟩ := ih
        obtain ⟨a₂, h₂, hlt | ⟨heq, _⟩⟩ := hstep.lowers hn hpeers htables h₁
        · exact ⟨a₂, h₂, hlt.le.trans hle⟩
        · exact ⟨a₂, h₂, heq.le.trans hle⟩
  obtain ⟨a₁, h₁, hle⟩ := hrun'
  obtain ⟨a₂, h₂, hlt | ⟨_, hstill⟩⟩ := hstep.lowers hn hpeers htables h₁
  · exact ⟨a₂, h₂, hlt.trans_le hle⟩
  · exact absurd hmoved hstill.not_moved

/-- In every reachable state the exchange refines a flooding of tables alone. -/
theorem exchangeReach_inv (hn : n ≤ commMaxPeer) (hpeers : PeersConnected n adj)
    (htables : TablesOk bo n tables)
    (h : Reach (HandshakesOver bo n adj) (ExchangeStep bo n tables) s) :
    ∃ a, ExchangeInv bo n adj tables s a := by
  refine Reach.inv (I := fun s => ∃ a, ExchangeInv bo n adj tables s a)
    (fun s hs => ⟨floodStart, hs.inv⟩) (fun s t hinv hstep => ?_) h
  obtain ⟨a, hinv⟩ := hinv
  obtain ⟨a', hinv', _⟩ := hstep.lowers hn hpeers htables hinv
  exact ⟨a', hinv'⟩

theorem ExchangeInv.returns (h : ExchangeInv bo n adj tables s a) (hn : n ≤ commMaxPeer)
    (hpeers : PeersConnected n adj) (htables : TablesOk bo n tables) :
    Inevitable (ExchangeWork bo n tables) (ExchangeDone n) s :=
  Inevitable.of_variant (I := ExchangeInv bo n adj tables) (fun s _ => exchangeLeft n s)
    (fun _ _ hinv => hinv.work hn hpeers htables)
    (fun _ _ _ hinv hwork => hwork.lowers hn hpeers htables hinv) h

/-- All calls return in some run. -/
theorem HandshakesOver.routed (h : HandshakesOver bo n adj s) (hn : n ≤ commMaxPeer)
    (hpeers : PeersConnected n adj) (htables : TablesOk bo n tables) :
    ∃ t, Routed bo n adj tables t := by
  obtain ⟨t, hrun, hdone⟩ := (h.inv.returns hn hpeers htables).reaches
  refine ⟨⟨t.net, []⟩, t, ?_, hdone, rfl⟩
  clear hdone
  induction hrun with
  | refl => exact Reach.init h.toRoutingStart
  | tail _ hwork ih =>
      obtain ⟨t₁, hrun, hstep, _⟩ := hwork
      exact (ih.run hrun).step hstep

theorem ExchangeInv.handles (h : ExchangeInv bo n adj tables s a) (hn : n ≤ commMaxPeer)
    (hpeers : PeersConnected n adj) (htables : TablesOk bo n tables) :
    ExchangeHandles bo n tables s where
  store _ hu hcall := h.store_ok hn htables hu hcall
  read _ _ now _ _ hu hready := h.read_ok hn hpeers htables hu now hready
  write _ _ rooms hu hready := by
    obtain ⟨node', sent, hprocess, _⟩ := h.write_ok hu rooms hready
    exact ⟨node', sent, hprocess⟩
  event _ hne := iomanHandleEvent_ok bo hne

/-- **Every call of `comm_node_exchange_rt` returns**: once the handshakes are over, something can move
as long as one of the calls has not returned, and every run in which something moves again and again
gets to a state in which all have.  No assertion fails on the way. -/
theorem exchange_returns (hn : n ≤ commMaxPeer) (hpeers : PeersConnected n adj)
    (htables : TablesOk bo n tables)
    (h : Reach (HandshakesOver bo n adj) (ExchangeStep bo n tables) s) :
    Inevitable (ExchangeWork bo n tables) (ExchangeDone n) s ∧ ExchangeHandles bo n tables s := by
  obtain ⟨a, hinv⟩ := exchangeReach_inv hn hpeers htables h
  exact ⟨hinv.returns hn hpeers htables, hinv.handles hn hpeers htables⟩

/-- **The chunks that are pushed after the exchange are transported**: when all calls of
`comm_node_exchange_rt` have returned, in whichever order the tables have spread, every chunk that is
pushed is in one place and is delivered at its destination only, in order. -/
theorem exchange_transports (hn : n ≤ commMaxPeer) (hpeers : PeersConnected n adj)
    (htables : TablesOk bo n tables) (hsimple : TablesSimple n tables) {t : Forwarding}
    (h : Reach (Routed bo n adj tables) (ForwardStep bo n) t) :
    ∃ held, Transported bo n adj True t held := by
  have hpeers' : Peers n adj := ⟨hpeers.range, hpeers.symm, hpeers.irrefl⟩
  obtain ⟨placed, hinv⟩ := forwardReach_inv hn hpeers' hsimple
    (h.mono (fun t ht => ht.start hn hpeers htables) fun _ _ hstep => hstep)
  exact ⟨placed.held, hinv.toCarried.transported hsimple⟩

end Work

/-! ### Two nodes -/

theorem pairNode_atRest {u : ℤ} (hu : 0 ≤ u ∧ u < 2) : AtRest pairAdj (pairNode u) u where
  connected := by
    refine ⟨rfl, rfl, rfl, fun _ => rfl, fun v hv => ?_, pairNode_channelsInv hu,
      fun _ he => absurd he List.not_mem_nil⟩
    rw [Option.some.inj (List.mem_singleton.1 hv)]
    unfold pairAdj
    omega
  channel c chan hchan := by
    cases c <;> cases hchan <;> exact ⟨rfl, rfl, fun _ hb => absurd hb List.not_mem_nil⟩
  source := ⟨_, rfl, rfl, rfl⟩
  chunks := rfl

/-- The handshake of the two nodes is over. -/
theorem pairStart_over : HandshakesOver ByteOrder.little 2 pairAdj pairStart where
  toExchangeStart := pairStart_start
  atRest _ hu := pairNode_atRest hu
  quiet _ _ _ := ⟨_, _, rfl, rfl, LinkOk.idle nofun rfl rfl⟩

/-- Their calls will return. -/
theorem exchange_returns_pair : pairStart.call 0 = ExchangeCall.before ∧
    Inevitable (ExchangeWork ByteOrder.little 2 pairTables) (ExchangeDone 2) pairStart ∧
      ExchangeHandles ByteOrder.little 2 pairTables pairStart :=
  ⟨rfl, exchange_returns (by decide) pairAdj_peers pairTables_ok (Reach.init pairStart_over)⟩

/-- When they have returned, the node 0 pushes a chunk. -/
theorem exchange_transports_pair : ∃ t : Forwarding, t.accepted.length = 1 ∧
    ∃ held, Transported ByteOrder.little 2 pairAdj True t held := by
  obtain ⟨t, ht⟩ : ∃ t, Routed ByteOrder.little 2 pairAdj pairTables t :=
    pairStart_over.routed (by decide) pairAdj_peers pairTables_ok
  have hstart := ht.start (by decide) pairAdj_peers pairTables_ok
  obtain ⟨chan, hchan, hempty, _⟩ := hstart.source 0 (by decide)
  have hlocal : (t.net.node 0).man.heap (t.net.node 0).man.localChan = some chan := by
    rw [(hstart.node 0 (by decide)).localChan]
    exact hchan
  have hpush : channelLocalPushChunk chan
      ((iomanSendChunk 0 1 7 1 0 [42]).packed ByteOrder.little) =
        some (chan.appendBuff ((iomanSendChunk 0 1 7 1 0 [42]).packed ByteOrder.little)) := by
    unfold channelLocalPushChunk
    rw [hempty]
    rfl
  have hreach : Reach (Routed ByteOrder.little 2 pairAdj pairTables)
      (ForwardStep ByteOrder.little 2) t := Reach.init ht
  have hpushed := hreach.step (ForwardStep.push (u := 0) (by decide) pairChunk_ok hlocal hpush)
  refine ⟨_, ?_, exchange_transports (by decide) pairAdj_peers pairTables_ok pairTables_simple
    hpushed⟩
  rw [hstart.accepted]
  rfl

end DLFree

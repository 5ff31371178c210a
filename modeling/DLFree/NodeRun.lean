/-
**The runs of one node.**

A node is run by its I/O thread and by user threads, in any order.  The network is not part of this
system: a socket may deliver any bytes, accept any number of bytes, fail, or report the end of the
stream whenever it is read or written, and a connection may succeed or be refused.

When a read or a write fails, the I/O thread removes the channel; between the two, user threads may
run.

`comm_node_async_connect` makes its channel known to the I/O thread before it registers the channel
in the pending table, and holds `node -> lock` all the while.  In between, threads may do whatever
does not take that lock; the messages for which the I/O thread takes it do not touch the table, so
that it makes no difference whether they are handled before or after the registration.

Main definitions:

* `NodeState`, `NodeStep` — a node with its threads, and their steps;
* `NodeInv` — the references of a node while it runs;
* `WaitQueuesOk` — what should hold of the wait queues in every state.

Main results:

* `NodeStep.nodeInv`, `NodeStep.waitInv` — what a step keeps;
* `nodeReach_waitQueues` — **the wait queues are in order in every run that only removes channels
  that wait for nobody else and that nobody else waits for**, and in no other;
* `waitQueues_broken` — a channel that fails while a chunk waits for it breaks them.
-/

import DLFree.CommOk
import DLFree.TransitionRun

set_option relaxedAutoImplicit false
set_option autoImplicit false

namespace DLFree

open TransitionRun

/-- Why a channel is removed: the connection was refused, or a read or a write failed. -/
inductive DeadCause
  | refused
  | broken
  deriving DecidableEq, Repr

/-- A node while it runs.  `dead` is the channel that the I/O thread is about to remove;
`handleOf c` is the handle of the attempt to connect that made the channel `c`; `lost` are the
handles of the attempts whose channels were removed before they were established; `adding` is the
entry that a call of `comm_node_async_connect` is about to register, while it holds `node -> lock`. -/
structure NodeState (κ : Type) where
  node : CommNode κ
  dead : Option (κ × DeadCause)
  handleOf : κ → Option ℕ
  lost : List ℕ
  adding : Option (ℕ × κ)

section System

variable {κ : Type} [DecidableEq κ]

/-- The node changes in one step of its threads. -/
def NodeState.setNode (s : NodeState κ) (node : CommNode κ) : NodeState κ := { s with node }

/-- The channels of the node change in one step of its threads. -/
def NodeState.setMan (s : NodeState κ) (man : Ioman κ) : NodeState κ :=
  s.setNode (s.node.setMan man)

/-- A node right after `comm_node_create`. -/
def NodeState.Init (s : NodeState κ) : Prop :=
  ∃ (nodeId : ℤ) (c : κ), s = ⟨commNodeCreate nodeId c, none, fun _ => none, [], none⟩

/-- The attempts that are lost when the channel `c` is removed. -/
def NodeState.lostWith (s : NodeState κ) (c : κ) : List ℕ :=
  if s.node.man.view Channel.connectState c = some ChannelConnectStatus.inprogress then
    (s.handleOf c).toList ++ s.lost
  else s.lost

/-- One step of a user thread or of the I/O thread.  The I/O thread only takes up something else
after it has removed a dead channel. -/
inductive NodeStep (bo : ByteOrder) (s : NodeState κ) : NodeState κ → Prop
  /-- a user thread calls `comm_node_async_connect`, and `connect` fails at once -/
  | asyncConnectErr (hlock : s.adding = none) :
      NodeStep bo s (s.setNode (commNodeAsyncConnect s.node none).2)
  /-- a user thread calls `comm_node_async_connect`, and makes a channel; `c` is a new name -/
  | newConnection (c : κ) (hlock : s.adding = none) (hnew : s.node.man.heap c = none) :
      NodeStep bo s { s with
        node := (commNodeNewConnection s.node (some c)).2
        handleOf := Function.update s.handleOf c (some s.node.keyC)
        adding := some (s.node.keyC, c) }
  /-- that thread registers the channel -/
  | addPending {handle : ℕ} {c : κ} (hadding : s.adding = some (handle, c)) :
      NodeStep bo s { s with
        node := commNodeAddPending s.node handle (some c)
        adding := none }
  /-- a user thread that is awake takes a round of `comm_node_connect_wait` -/
  | connectWait {handle : ℕ} {ret : ConnectWait} {node' : CommNode κ} (hlock : s.adding = none)
      (hhandle : handle < s.node.keyC) (hawake : CondWaiter.connect handle ∉ s.node.cond)
      (hwait : commNodeConnectWait s.node handle = Except.ok (ret, node')) :
      NodeStep bo s (s.setNode node')
  /-- a user thread appends a chunk to the local queue -/
  | localPush {chan chan' : Channel κ} (minfo : MsgInfo) (body : List Byte)
      (hchan : s.node.man.heap s.node.man.localChan = some chan)
      (hpush : channelLocalPushChunk chan (channelPackBuff bo minfo body) = some chan') :
      NodeStep bo s (s.setMan (s.node.man.put s.node.man.localChan chan'))
  /-- a user thread writes the token of a chunk that is in the local queue -/
  | localToken {chan : Channel κ} (hchan : s.node.man.heap s.node.man.localChan = some chan)
      (hpipe : chan.pipe < chan.buffQueue.length) :
      NodeStep bo s (s.setMan (s.node.man.put s.node.man.localChan (channelLocalPushToken chan)))
  /-- a user thread notifies the I/O thread of a message -/
  | notify : NodeStep bo s (s.setMan (iomanNotifyNewmsg s.node.man))
  /-- a user thread stores the table of the node -/
  | storeRt {rt : OverlayRtable} {buff : List Byte} {node' : CommNode κ}
      (hstore : commNodeStoreRt bo s.node rt = Except.ok (buff, node')) :
      NodeStep bo s (s.setNode node')
  /-- a user thread broadcasts a table -/
  | bcast (buff : List Byte) : NodeStep bo s (s.setNode (commNodeBcastMsg s.node MsgKind.rt buff))
  /-- a user thread counts the table of the node -/
  | countOwnRt (hlock : s.adding = none) : NodeStep bo s (s.setNode (commNodeCountOwnRt s.node))
  /-- a user thread waits for the tables of the peers -/
  | exchangeWait (numPeers : ℕ) (hlock : s.adding = none) :
      NodeStep bo s (s.setNode (commNodeExchangeWait s.node numPeers).2)
  /-- the I/O thread takes an event from the notify pipe -/
  | event {man' : Ioman κ} (hdead : s.dead = none)
      (hevent : iomanHandleEvent bo s.node.man = Except.ok man') :
      NodeStep bo s (s.setMan man')
  /-- the I/O thread accepts a connection; `c` is a new name -/
  | accept (c : κ) (hdead : s.dead = none) (hnew : s.node.man.heap c = none) :
      NodeStep bo s { s with
        node := s.node.setMan (iomanAccept s.node.man c)
        handleOf := Function.update s.handleOf c none }
  /-- the I/O thread reads the local channel -/
  | localRead {chan : Channel κ} {node' : CommNode κ} (hdead : s.dead = none)
      (hchan : s.node.man.heap s.node.man.localChan = some chan) (hready : channelIsReadable chan)
      (hpipe : 0 < chan.pipe)
      (hread : iomanProcessLocalChannelRead bo s.node = Except.ok node') :
      NodeStep bo s (s.setNode node')
  /-- the I/O thread reads a channel -/
  | read {c : κ} {chan : Channel κ} {now : ℚ} {script script' : List RecvEvent} {alive : Bool}
      {node' : CommNode κ} (hdead : s.dead = none) (hc : c ∈ s.node.man.channels)
      (hchan : s.node.man.heap c = some chan) (hready : channelIsReadable chan)
      (hread : iomanProcessChannelRead bo now s.node c script =
        Except.ok (alive, node', script')) :
      NodeStep bo s { s with
        node := node'
        dead := if alive then none else some (c, DeadCause.broken) }
  /-- the I/O thread writes a channel; when the connection is refused, it takes `node -> lock` -/
  | write {c : κ} {chan : Channel κ} {connected : Bool} {script : List SendEvent} {alive : Bool}
      {node' : CommNode κ} {sent : List Byte} (hdead : s.dead = none)
      (hc : c ∈ s.node.man.channels) (hchan : s.node.man.heap c = some chan)
      (hready : channelIsWritable chan)
      (hlock : chan.state = ChannelStatus.setup → alive = false → s.adding = none)
      (hwrite : iomanProcessChannelWrite bo s.node c connected script =
        Except.ok (alive, node', sent)) :
      NodeStep bo s { s with
        node := node'
        dead := if alive then none
          else some (c, if chan.state = ChannelStatus.setup then DeadCause.refused
            else DeadCause.broken) }
  /-- the I/O thread removes a dead channel -/
  | remove {c : κ} {cause : DeadCause} {man' : Ioman κ} (hdead : s.dead = some (c, cause))
      (hremove : iomanRemoveChannel s.node.man c = Except.ok man') :
      NodeStep bo s { s with
        node := s.node.setMan man'
        dead := none
        handleOf := Function.update s.handleOf c none
        lost := s.lostWith c }

/-- The I/O thread removes the channel `c` in the step from `s` to `t`. -/
def NodeState.Removes (s t : NodeState κ) (c : κ) (cause : DeadCause) : Prop :=
  s.dead = some (c, cause) ∧ t.dead = none

/-! ### References -/

/-- The references of a node, with the channel that is about to be removed. -/
structure NodeInv (s : NodeState κ) : Prop where
  channels : ChannelsInv s.node.man
  dead : ∀ c cause, s.dead = some (c, cause) → c ∈ s.node.man.channels

variable {bo : ByteOrder} {s t : NodeState κ}

section

omit [DecidableEq κ]

theorem commNodeConnectWait_cases {node node' : CommNode κ} {handle : ℕ} {ret : ConnectWait}
    (h : commNodeConnectWait node handle = Except.ok (ret, node')) :
    (ret = ConnectWait.failure ∧ channelHashMapFind node.pendingConns handle = none ∧
        node' = { node with pendingConns := channelHashMapPop node.pendingConns handle }) ∨
      ∃ c chan, channelHashMapFind node.pendingConns handle = some c ∧
        node.man.heap c = some chan ∧
        ((chan.connectState = ChannelConnectStatus.established ∧
            ret = ConnectWait.success chan.peerId ∧
            node' = { node with pendingConns := channelHashMapPop node.pendingConns handle }) ∨
          (chan.connectState = ChannelConnectStatus.inprogress ∧ ret = ConnectWait.waiting ∧
            node' = { node with cond := CondWaiter.connect handle :: node.cond })) := by
  unfold commNodeConnectWait at h
  dsimp only at h
  cases hfind : channelHashMapFind node.pendingConns handle with
  | none =>
      rw [hfind] at h
      cases h
      exact Or.inl ⟨rfl, rfl, rfl⟩
  | some c =>
      rw [hfind] at h
      obtain ⟨chan, hchan, h⟩ := bind_eq_ok.1 h
      rw [Ioman.get_eq_ok] at hchan
      refine Or.inr ⟨c, chan, rfl, hchan, ?_⟩
      unfold channelIsEstablished at h
      cases hstate : chan.connectState with
      | established =>
          rw [hstate] at h
          cases h
          exact Or.inl ⟨rfl, rfl, rfl⟩
      | inprogress =>
          rw [hstate] at h
          cases h
          exact Or.inr ⟨rfl, rfl, rfl⟩

theorem commNodeConnectWait_man {node node' : CommNode κ} {handle : ℕ} {ret : ConnectWait}
    (h : commNodeConnectWait node handle = Except.ok (ret, node')) : node'.man = node.man := by
  rcases commNodeConnectWait_cases h with ⟨_, _, rfl⟩ | ⟨_, _, _, _, ⟨_, _, rfl⟩ | ⟨_, _, rfl⟩⟩ <;> rfl

theorem commNodeStoreRt_cases {node node' : CommNode κ} {rt : OverlayRtable} {buff : List Byte}
    (h : commNodeStoreRt bo node rt = Except.ok (buff, node')) :
    overlayRtablePack bo rt = Except.ok buff ∧ node.nodeId = rt.srcpid ∧
      node.rts rt.srcpid = none ∧
      node' = { node with rts := Function.update node.rts rt.srcpid (some rt) } := by
  obtain ⟨_, hpack, h⟩ := bind_eq_ok.1 h
  obtain ⟨_, _, h⟩ := bind_eq_ok.1 h
  obtain ⟨_, hassert, h⟩ := bind_eq_ok.1 h
  simp only [cAssert_eq_ok, decide_eq_true_eq, Option.isNone_iff_eq_none] at hassert
  cases h
  exact ⟨hpack, hassert.1, hassert.2, rfl⟩

theorem commNodeExchangeWait_man (node : CommNode κ) {numPeers : ℕ} :
    (commNodeExchangeWait node numPeers).2.man = node.man := by
  unfold commNodeExchangeWait
  split <;> rfl

/-- Steps that neither touch the list of channels nor find a dead channel. -/
theorem NodeInv.of_channels (hinv : NodeInv s) (hch : ChannelsInv t.node.man)
    (hsame : t.node.man.channels = s.node.man.channels) (hdead : t.dead = s.dead) : NodeInv t where
  channels := hch
  dead c cause h := by
    rw [hdead] at h
    rw [hsame]
    exact hinv.dead c cause h

theorem NodeInv.of_man (hinv : NodeInv s) (hman : t.node.man = s.node.man)
    (hdead : t.dead = s.dead) : NodeInv t :=
  hinv.of_channels (hman ▸ hinv.channels) (by rw [hman]) hdead

end

theorem nodeInv_init (h : s.Init) : NodeInv s := by
  obtain ⟨nodeId, c, rfl⟩ := h
  refine ⟨⟨List.nodup_nil, nofun, ?_, nofun, nofun, nofun⟩, nofun⟩
  unfold Ioman.live commNodeCreate iomanCreate
  simp

/-- **Every step keeps the references of the node.** -/
theorem NodeStep.nodeInv (h : NodeStep bo s t) (hinv : NodeInv s) : NodeInv t := by
  cases h with
  | asyncConnectErr | addPending => exact hinv.of_man rfl rfl
  | newConnection c _ hnew =>
      have hch := commNodeNewConnection_channelsInv (some c) (fun x hx => Option.some.inj hx ▸ hnew)
        hinv.channels
      exact hinv.of_channels hch rfl rfl
  | connectWait _ _ _ hwait => exact hinv.of_man (commNodeConnectWait_man hwait) rfl
  | localPush minfo body hchan hpush =>
      obtain ⟨_, rfl⟩ := channelLocalPushChunk_cases hpush
      have hsteady : Steady s.node.man (s.node.man.put s.node.man.localChan
          (Channel.appendBuff (channelPackBuff bo minfo body) _)) := Steady.put hchan rfl rfl
      exact hinv.of_channels (hinv.channels.samePeers hsteady.toSamePeers) rfl rfl
  | localToken hchan _ =>
      have hsteady : Steady s.node.man (s.node.man.put s.node.man.localChan
          (channelLocalPushToken _)) := Steady.put hchan rfl rfl
      exact hinv.of_channels (hinv.channels.samePeers hsteady.toSamePeers) rfl rfl
  | notify => exact hinv.of_channels (hinv.channels.samePeers (steady_event rfl).toSamePeers) rfl rfl
  | storeRt hstore =>
      obtain ⟨_, _, _, rfl⟩ := commNodeStoreRt_cases hstore
      exact hinv.of_man rfl rfl
  | bcast buff =>
      exact hinv.of_channels (hinv.channels.samePeers (steady_event rfl).toSamePeers) rfl rfl
  | countOwnRt => exact hinv.of_man rfl rfl
  | exchangeWait _ _ => exact hinv.of_man (commNodeExchangeWait_man s.node) rfl
  | event hdead hevent =>
      refine ⟨(iomanHandleEvent_channelsInv hevent hinv.channels).1, fun c cause h => ?_⟩
      replace h : s.dead = some (c, cause) := h
      rw [hdead] at h
      cases h
  | accept c hdead hnew =>
      refine ⟨iomanAccept_channelsInv hnew hinv.channels, fun c cause h => ?_⟩
      rw [hdead] at h
      cases h
  | localRead hdead _ _ _ hread =>
      have hsame := (iomanProcessLocalChannelRead_steady hread).2
      exact hinv.of_channels (hinv.channels.samePeers hsame) hsame.channels rfl
  | @read c _ _ _ _ alive _ hdead hc hchan _ hread =>
      obtain ⟨chan, hchan', hstep⟩ := iomanProcessChannelRead_cases hread
      refine ⟨hstep.channelsInv hchan' hinv.channels hc, fun c' cause h => ?_⟩
      cases alive with
      | true => cases h
      | false =>
          cases h
          rw [(hstep.handled hchan').channels]
          exact hc
  | @write c _ _ _ alive _ _ hdead hc hchan _ _ hwrite =>
      obtain ⟨chan, hchan', hstep⟩ := iomanProcessChannelWrite_cases hwrite
      have hsame := hstep.samePeers hchan'
      refine ⟨hinv.channels.samePeers hsame, fun c' cause h => ?_⟩
      cases alive with
      | true => cases h
      | false =>
          cases h
          rw [hsame.channels]
          exact hc
  | remove hdead hremove =>
      exact ⟨iomanRemoveChannel_channelsInv hremove hinv.channels (hinv.dead _ _ hdead), nofun⟩

/-! ### Wait queues -/

/-- The wait queues of a node are in order: whoever waits is a blocking channel of the node with a
chunk, a blocking channel waits once, for one channel of the node, and that channel has a full
queue. -/
structure WaitQueuesOk (man : Ioman κ) : Prop where
  member : ∀ d, ∀ w ∈ man.waitQueue d, (w ∈ man.channels ∨ w = man.localChan) ∧ man.live w ∧
    man.blocking w ∧ man.holding w
  blocked : ∀ w, man.blocking w → ∃ d, (d ∈ man.channels ∨ d = man.localChan) ∧ man.live d ∧
    (man.waitQueue d).count w = 1 ∧ ∀ d', w ∈ man.waitQueue d' → d' = d
  full : ∀ d, man.waitQueue d ≠ [] → channelMsgQueueLimit ≤ man.queueLen d

theorem WaitInv.waitQueuesOk {man : Ioman κ} (h : WaitInv man) (hch : ChannelsInv man) :
    WaitQueuesOk man where
  member d w hw := by
    have hb := h.waits.blocked_of_mem d w hw
    exact ⟨h.waiter w hb, Ioman.live_of_blocking hb, hb, h.holds w hb⟩
  blocked w hb := by
    obtain ⟨d, hd⟩ := h.waits.exists_queue w hb
    have hchannel := h.channel d (List.ne_nil_of_mem hd)
    exact ⟨d, Or.inl hchannel, hch.channels_live hchannel,
      List.count_eq_one_of_mem (h.waits.nodup d) hd, fun d' hd' => h.waits.unique w d' d hd' hd⟩
  full := h.full

/-- A channel is removed only when nobody else waits for it and it waits for nobody else. -/
def NodeState.RemovesIdle (s t : NodeState κ) : Prop :=
  ∀ c cause, s.Removes t c cause →
    (∀ w ∈ s.node.man.waitQueue c, w = c) ∧ ∀ d, c ∈ s.node.man.waitQueue d → d = c

theorem waitInv_init (h : s.Init) : WaitInv s.node.man := by
  obtain ⟨nodeId, c, rfl⟩ := h
  have hq : ∀ d, (commNodeCreate nodeId c).man.waitQueue d = [] := by
    intro d
    unfold commNodeCreate iomanCreate Ioman.waitQueue Ioman.view
    by_cases hd : d = c
    · subst hd
      simp [channelLocalCreate, baseChannelCreate]
    · simp [hd]
  have hb : ∀ w, ¬ (commNodeCreate nodeId c).man.blocking w := by
    intro w
    unfold commNodeCreate iomanCreate Ioman.blocking Ioman.view
    by_cases hw : w = c
    · subst hw
      simp [channelLocalCreate]
    · simp [hw]
  exact ⟨⟨fun d hd => absurd (hq d) hd, fun w hw => absurd hw (hb w), fun w hw => absurd hw (hb w),
    Waits.empty.congr hq fun w => iff_of_false (hb w) id⟩, fun d hd => absurd (hq d) hd⟩

omit [DecidableEq κ] in
theorem not_blocking_of_readable {man : Ioman κ} {c : κ} {chan : Channel κ}
    (hchan : man.heap c = some chan) (hready : channelIsReadable chan) :
    chan.state ≠ ChannelStatus.blocking ∧ ¬ man.blocking c := by
  have hactive : chan.state = ChannelStatus.active := of_decide_eq_true hready
  rw [Ioman.blocking_iff hchan, hactive]
  exact ⟨nofun, nofun⟩

/-- A step keeps the wait queues in order, unless it removes a channel that waits or that somebody
waits for. -/
theorem NodeStep.waitInv (h : NodeStep bo s t) (hinv : NodeInv s) (hw : WaitInv s.node.man)
    (hidle : s.RemovesIdle t) : WaitInv t.node.man := by
  cases h with
  | asyncConnectErr | addPending => exact hw
  | newConnection c _ hnew =>
      exact hw.calm (commNodeNewConnection_calm (some c) fun x hx => Option.some.inj hx ▸ hnew)
  | connectWait _ _ _ hwait =>
      exact (commNodeConnectWait_man hwait).symm ▸ hw
  | localPush minfo body hchan hpush =>
      obtain ⟨_, rfl⟩ := channelLocalPushChunk_cases hpush
      exact hw.calm (appendBuff_calm hchan)
  | localToken hchan _ => exact hw.calm (channelLocalPushToken_calm hchan)
  | notify => exact hw.calm (Calm.of_heap rfl rfl fun _ h => h)
  | storeRt hstore =>
      obtain ⟨_, _, _, rfl⟩ := commNodeStoreRt_cases hstore
      exact hw
  | bcast buff => exact hw.calm (Calm.of_heap rfl rfl fun _ h => h)
  | countOwnRt => exact hw
  | exchangeWait _ _ =>
      exact (commNodeExchangeWait_man s.node).symm ▸ hw
  | event _ hevent => exact hw.calm (iomanHandleEvent_calm hevent)
  | accept c _ hnew => exact hw.calm (iomanAccept_calm hnew)
  | localRead _ hchan hready _ hread =>
      exact iomanProcessLocalChannelRead_waitInv hread hw hinv.channels
        (not_blocking_of_readable hchan hready).2
  | read _ hc hchan hready hread =>
      obtain ⟨chan, hchan', hstep⟩ := iomanProcessChannelRead_cases hread
      obtain rfl := Option.some.inj (hchan.symm.trans hchan')
      exact hstep.waitInv hchan (not_blocking_of_readable hchan hready).1 hw hinv.channels hc
  | write _ _ _ _ _ hwrite =>
      obtain ⟨chan, hchan', hstep⟩ := iomanProcessChannelWrite_cases hwrite
      exact hstep.waitInv hchan' hw
  | @remove c cause _ hdead hremove =>
      obtain ⟨hwait, hjoin⟩ := hidle c cause ⟨hdead, rfl⟩
      exact iomanRemoveChannel_waitInv hremove hw hwait hjoin

/-- Removing any other channel leaves a waiter behind, or waits on after it is gone. -/
theorem NodeStep.removesIdle (h : NodeStep bo s t) (hw : WaitInv s.node.man)
    (hok : WaitQueuesOk t.node.man) : s.RemovesIdle t := by
  rintro c cause ⟨hdead, hgone⟩
  cases h with
  | asyncConnectErr | newConnection | addPending | connectWait | localPush | localToken | notify
  | storeRt | bcast | countOwnRt | exchangeWait =>
      replace hgone : s.dead = none := hgone
      rw [hdead] at hgone
      cases hgone
  | event hnone | accept _ hnone | localRead hnone | read hnone | write hnone =>
      rw [hdead] at hnone
      cases hnone
  | @remove _ _ man' hdead' hremove =>
      obtain rfl : c = _ := congrArg Prod.fst (Option.some.inj (hdead.symm.trans hdead'))
      replace hok : WaitQueuesOk man' := hok
      refine ⟨fun w hwait => ?_, fun d hjoin => ?_⟩
      · by_contra hne
        have hb := (iomanRemoveChannel_blocking hremove w).2 ⟨hw.waits.blocked_of_mem c w hwait, hne⟩
        obtain ⟨d, _, _, hcount, _⟩ := hok.blocked w hb
        have hmem : w ∈ _ := List.count_pos_iff.1 (by rw [hcount]; exact Nat.one_pos)
        have hd : d ≠ c := by
          rintro rfl
          rw [iomanRemoveChannel_waitQueue hremove] at hmem
          cases hmem
        rw [iomanRemoveChannel_waitQueue_of_ne hremove hd] at hmem
        exact hd (hw.waits.unique w d c hmem hwait)
      · by_contra hne
        rw [← iomanRemoveChannel_waitQueue_of_ne hremove hne] at hjoin
        exact ((iomanRemoveChannel_live hremove).1 (hok.member d c hjoin).2.1).1 rfl

/-- What holds in the runs that only remove idle channels. -/
theorem nodeReach_inv
    (h : Reach NodeState.Init (Guarded (NodeStep bo) NodeState.RemovesIdle) s) :
    NodeInv s ∧ WaitInv s.node.man :=
  h.inv (I := fun s => NodeInv s ∧ WaitInv s.node.man)
    (fun _ h => ⟨nodeInv_init h, waitInv_init h⟩)
    fun _ _ hs hst => ⟨hst.1.nodeInv hs.1, hst.1.waitInv hs.1 hs.2 hst.2⟩

/-- **The wait queues are in order in every run that only removes channels that wait for nobody else
and that nobody else waits for**, and the first step that removes another channel breaks them. -/
theorem nodeReach_waitQueues (bo : ByteOrder) (s : NodeState κ)
    (h : Reach NodeState.Init (Guarded (NodeStep bo) NodeState.RemovesIdle) s) :
    WaitQueuesOk s.node.man ∧
      ∀ t, NodeStep bo s t → (WaitQueuesOk t.node.man ↔ s.RemovesIdle t) := by
  have hinv := nodeReach_inv h
  refine ⟨hinv.2.waitQueuesOk hinv.1.channels, fun t hst => ⟨hst.removesIdle hinv.2, fun hidle => ?_⟩⟩
  exact (hst.waitInv hinv.1 hinv.2 hidle).waitQueuesOk (hst.nodeInv hinv.1).channels

end System

/-! ### A channel that fails while a chunk waits for it -/

section Congestion

/-- The first message of a handshake with the node 1. -/
def pingFromOne : List Byte :=
  packHeader ByteOrder.little
    { msgInfoCreate with kind := MsgKind.ping0.toInt, srcId := 1, len := 0 }

/-- The table of the node 0, which has a link to the node 1. -/
def tableOfZero : OverlayRtable := ⟨0, [none, some ⟨1, [0, 1], 1, 1⟩]⟩

/-- The header of a chunk of one byte from the node 0 to the node 1. -/
def infoZeroToOne : MsgInfo :=
  { msgInfoCreate with
    kind := MsgKind.data.toInt, dstId := 1, srcId := 0, len := 1, sid := 0, totLen := 1, seq := 0 }

/-- That chunk. -/
def chunkZeroToOne : MsgBuff := channelPackBuff ByteOrder.little infoZeroToOne [0]

/-- The runs that only remove idle channels. -/
abbrev ReachIdle (s : NodeState ℕ) : Prop :=
  Reach NodeState.Init (Guarded (NodeStep ByteOrder.little) NodeState.RemovesIdle) s

/-- A state in which the local channel holds the chunks `q` with `p` tokens, and `n` buffers wait to
be sent to the node 1. -/
structure Filling (n : ℕ) (q : List MsgBuff) (p : ℕ) (s : NodeState ℕ) : Prop where
  reach : ReachIdle s
  dead : s.dead = none
  localChan : s.node.man.localChan = 0
  channels : s.node.man.channels = [1]
  maxpeers : s.node.man.maxpeers = commMaxPeer
  lookup : commNodeLookupRt s.node.nodeId s.node.rts 0 1 = Except.ok 1
  mapped : s.node.man.channelMap 1 = some 1
  source : ∃ chan, s.node.man.heap 0 = some chan ∧ chan.state = ChannelStatus.active ∧
    chan.buffQueue = q ∧ chan.pipe = p
  out : ∃ chan, s.node.man.heap 1 = some chan ∧ chan.state = ChannelStatus.active ∧
    chan.buffQueue.length = n ∧ (∀ b ∈ chan.buffQueue, msgBuffSendLen b ≠ 0) ∧
    chan.waitQueue = [] ∧ chan.peerId = 1

/-- A state in which the local channel waits for the channel of the node 1, whose queue is full. -/
structure Congested (s : NodeState ℕ) : Prop where
  reach : ReachIdle s
  dead : s.dead = none
  channels : s.node.man.channels = [1]
  maxpeers : s.node.man.maxpeers = commMaxPeer
  mapped : s.node.man.channelMap 1 = some 1
  source : ∃ chan, s.node.man.heap 0 = some chan ∧ chan.currBuff = some chunkZeroToOne
  out : ∃ chan buff next bs, s.node.man.heap 1 = some chan ∧ chan.state = ChannelStatus.active ∧
    chan.buffQueue = buff :: next :: bs ∧ bs.length + 2 = channelMsgQueueLimit ∧
    msgBuffSendLen buff ≠ 0 ∧ msgBuffSendLen next ≠ 0 ∧ chan.waitQueue = [0] ∧ chan.peerId = 1

/-- A step that removes no channel. -/
theorem reachIdle_step {s t : NodeState ℕ} (h : ReachIdle s) (hst : NodeStep ByteOrder.little s t)
    (hdead : s.dead = none) : ReachIdle t :=
  h.step ⟨hst, fun c cause hremoves => by
    have := hremoves.1
    rw [hdead] at this
    cases this⟩

set_option maxRecDepth 10000 in
theorem filling_one : ∃ s, Filling 1 [] 0 s := by
  have h0 : ReachIdle ⟨commNodeCreate 0 (0 : ℕ), none, fun _ => none, [], none⟩ :=
    Reach.init ⟨0, 0, rfl⟩
  have h1 := reachIdle_step h0 (NodeStep.accept 1 rfl rfl) rfl
  have h2 := reachIdle_step h1 (NodeStep.read rfl List.mem_cons_self rfl rfl
    (show iomanProcessChannelRead ByteOrder.little 1 _ 1 [RecvEvent.data pingFromOne] =
      Except.ok (true, _, []) from rfl)) rfl
  have h3 := reachIdle_step h2 (NodeStep.storeRt
    (show commNodeStoreRt ByteOrder.little _ tableOfZero = Except.ok (_, _) from rfl)) rfl
  exact ⟨_, h3, rfl, rfl, rfl, rfl, rfl, rfl, ⟨_, rfl, rfl, rfl, rfl⟩,
    ⟨_, rfl, rfl, rfl, by decide, rfl, rfl⟩⟩

/-- A user thread pushes a chunk and writes its token. -/
theorem filling_push {n : ℕ} {s : NodeState ℕ} (h : Filling n [] 0 s) :
    ∃ t, Filling n [chunkZeroToOne] 1 t := by
  obtain ⟨chan, hchan, hactive, hq, hpipe⟩ := h.source
  have hlocal : s.node.man.heap s.node.man.localChan = some chan := h.localChan ▸ hchan
  have hpush : channelLocalPushChunk chan (channelPackBuff ByteOrder.little infoZeroToOne [0]) =
      some (chan.appendBuff chunkZeroToOne) := by
    unfold channelLocalPushChunk
    rw [hq]
    rfl
  have h1 := reachIdle_step h.reach (NodeStep.localPush infoZeroToOne [0] hlocal hpush) h.dead
  have h2 := reachIdle_step h1 (NodeStep.localToken Ioman.heap_put_self (by simp [hq, hpipe])) h.dead
  refine ⟨_, h2, h.dead, h.localChan, h.channels, h.maxpeers, h.lookup, h.mapped, ?_, ?_⟩
  · refine ⟨channelLocalPushToken (chan.appendBuff chunkZeroToOne), ?_, hactive, ?_, ?_⟩
    · exact h.localChan ▸ Ioman.heap_put_self
    · simp [channelLocalPushToken, hq]
    · simp [channelLocalPushToken, hpipe]
  · obtain ⟨out, hout, hrest⟩ := h.out
    refine ⟨out, ?_, hrest⟩
    have hne : (1 : ℕ) ≠ s.node.man.localChan := by rw [h.localChan]; decide
    exact (Ioman.heap_put_of_ne hne).trans ((Ioman.heap_put_of_ne hne).trans hout)

/-- The I/O thread reads the chunk from the local channel. -/
theorem filling_read {n : ℕ} {s : NodeState ℕ} (h : Filling n [chunkZeroToOne] 1 s) :
    ∃ man : Ioman ℕ, ReachIdle (s.setMan (if n < channelMsgQueueLimit then
        man.moveChunk 0 1 chunkZeroToOne else man.joinWaitQueue 0 1)) ∧
      ∃ chan, man = s.node.man.put 0 chan ∧ chan.buffQueue = [] ∧ chan.pipe = 0 ∧
        chan.currBuff = some chunkZeroToOne := by
  obtain ⟨chan, hchan, hactive, hq, hpipe⟩ := h.source
  obtain ⟨out, hout, _, hlen, _, _, _⟩ := h.out
  have hlocal : s.node.man.heap s.node.man.localChan = some chan := h.localChan ▸ hchan
  obtain ⟨rest, hunpack⟩ := msgInfoUnpack_packHeader ByteOrder.little
    (show infoZeroToOne.Fits by constructor <;> decide) [0]
  rw [← unsent_channelPackBuff] at hunpack
  have hread := iomanProcessLocalChannelRead_eq hlocal (by rw [hpipe]; decide) hq hunpack
    (by decide) h.lookup (by decide) (by rw [h.maxpeers]; decide) h.mapped hout
    (by rw [h.localChan]; decide)
  have hstep := reachIdle_step h.reach (NodeStep.localRead h.dead hlocal
    (by simp [channelIsReadable, hactive]) (by rw [hpipe]; decide) hread) h.dead
  rw [hlen, h.localChan] at hstep
  exact ⟨_, hstep, _, rfl, rfl, by simp [Channel.popped, hpipe], rfl⟩

/-- While there is room, the chunk moves on to the channel of the node 1. -/
theorem filling_succ {n : ℕ} {s : NodeState ℕ} (h : Filling n [] 0 s)
    (hn : n < channelMsgQueueLimit) : ∃ t, Filling (n + 1) [] 0 t := by
  obtain ⟨t, ht⟩ := filling_push h
  obtain ⟨man, hreach, chan, rfl, hq, hpipe, _⟩ := filling_read ht
  rw [if_pos hn] at hreach
  refine ⟨_, hreach, ht.dead, ht.localChan, ht.channels, ht.maxpeers, ht.lookup, ht.mapped, ?_, ?_⟩
  · refine ⟨(chan.setState ChannelStatus.active).setCurrBuff none, ?_, rfl, hq, hpipe⟩
    simp [NodeState.setMan, NodeState.setNode, CommNode.setMan, Ioman.moveChunk, Ioman.modify,
      Ioman.put]
  · obtain ⟨out, hout, hstate, hlen, hsend, hwait, hpeer⟩ := ht.out
    refine ⟨out.appendBuff chunkZeroToOne, ?_, hstate, ?_, fun b hb => ?_, hwait, hpeer⟩
    · simp [NodeState.setMan, NodeState.setNode, CommNode.setMan, Ioman.moveChunk, Ioman.modify,
        Ioman.put, hout]
    · simp [hlen]
    · rcases List.mem_append.1 hb with hb | hb
      · exact hsend b hb
      · rw [List.mem_singleton.1 hb]
        decide

theorem filling_full : ∃ s, Filling channelMsgQueueLimit [] 0 s := by
  have hfill : ∀ n, n + 1 ≤ channelMsgQueueLimit → ∃ s, Filling (n + 1) [] 0 s := by
    intro n
    induction n with
    | zero => exact fun _ => filling_one
    | succ n ih =>
        intro hn
        obtain ⟨s, hs⟩ := ih (by omega)
        exact filling_succ hs (by omega)
  exact hfill 99 le_rfl

/-- One more chunk has to wait. -/
theorem exists_congested : ∃ s, Congested s := by
  obtain ⟨s, hs⟩ := filling_full
  obtain ⟨t, ht⟩ := filling_push hs
  obtain ⟨man, hreach, chan, rfl, _, _, hcurr⟩ := filling_read ht
  rw [if_neg (lt_irrefl _)] at hreach
  obtain ⟨out, hout, hstate, hlen, hsend, hwait, hpeer⟩ := ht.out
  obtain ⟨buff, next, bs, hbs⟩ : ∃ buff next bs, out.buffQueue = buff :: next :: bs := by
    match hq : out.buffQueue with
    | [] => simp [hq, channelMsgQueueLimit] at hlen
    | [_] => simp [hq, channelMsgQueueLimit] at hlen
    | buff :: next :: bs => exact ⟨buff, next, bs, rfl⟩
  rw [hbs] at hlen hsend
  refine ⟨_, hreach, ht.dead, ht.channels, ht.maxpeers, ht.mapped,
    ⟨chan.setState ChannelStatus.blocking, ?_, hcurr⟩, ⟨out.appendWaiter 0, buff, next, bs, ?_, hstate,
      hbs, hlen, hsend buff (by simp), hsend next (by simp), ?_, hpeer⟩⟩
  · simp [NodeState.setMan, NodeState.setNode, CommNode.setMan, Ioman.joinWaitQueue, Ioman.modify,
      Ioman.put]
  · simp [NodeState.setMan, NodeState.setNode, CommNode.setMan, Ioman.joinWaitQueue, Ioman.modify,
      Ioman.put, hout]
  · simp [hwait]

/-- A write that fails. -/
theorem channelWriteLoop_err {man : Ioman ℕ} {c : ℕ} {chan : Channel ℕ} {buff : MsgBuff}
    {bs : List MsgBuff} (fuel : ℕ) (unblock : Bool) (hchan : man.heap c = some chan)
    (hq : chan.buffQueue = buff :: bs) (hsend : msgBuffSendLen buff ≠ 0) :
    channelWriteLoop c (fuel + 1) man unblock [SendEvent.err] = Except.ok
      ⟨ChannelWriteStatus.err, unblock, man.modify c (Channel.setBuffQueue (buff :: bs)), []⟩ := by
  have hget := Ioman.get_eq_ok.2 hchan
  simp [channelWriteLoop, hget, bind, Except.bind, hq, sendBuff, hsend]

/-- A channel that waits moves its chunk when there is room. -/
theorem channelUnblock_one {man : Ioman ℕ} {c w : ℕ} {chan wchan : Channel ℕ} {chunk : MsgBuff}
    (hwc : w ≠ c) (hchan : man.heap c = some chan) (hwchan : man.heap w = some wchan)
    (hcurr : wchan.currBuff = some chunk) (hroom : chan.buffQueue.length < channelMsgQueueLimit) :
    channelUnblock man c [w] = Except.ok (true,
      (man.modify c (Channel.setWaitQueue [])).moveChunk w c chunk) := by
  have hpipeline := channelPipelineChunk_eq ((Ioman.heap_modify_of_ne hwc).trans hwchan) hcurr
    (Ioman.heap_modify_eq (f := Channel.setWaitQueue []) hchan)
  rw [show (Channel.setWaitQueue [] chan).buffQueue = chan.buffQueue from rfl, if_pos hroom]
    at hpipeline
  simp [channelUnblock, Ioman.get_eq_ok.2 hchan, hroom, hpipeline, bind, Except.bind]

/-- A write that sends one buffer, which lets the local channel go on, and then fails. -/
theorem Congested.drain {s : NodeState ℕ} (h : Congested s) : ∃ script r,
    channelWrite s.node.man 1 script = Except.ok r ∧ r.stat = ChannelWriteStatus.err ∧
      ∃ chan, r.man.heap 1 = some chan ∧ chan.state = ChannelStatus.active ∧
        chan.waitQueue = [] := by
  obtain ⟨out, buff, next, bs, hout, hstate, hq, hlen, hsend, hnext, hwait, -⟩ := h.out
  obtain ⟨chan, hchan, hcurr⟩ := h.source
  -- what is left when the first buffer has been sent, and when the chunk has moved
  obtain ⟨man, hman⟩ : ∃ man, man = s.node.man.modify 1 (Channel.setBuffQueue (next :: bs)) :=
    ⟨_, rfl⟩
  have hout₁ : man.heap 1 = some (out.setBuffQueue (next :: bs)) := by
    rw [hman]
    exact Ioman.heap_modify_eq hout
  have hchan₁ : man.heap 0 = some chan := by
    rw [hman]
    exact (Ioman.heap_modify_of_ne Nat.zero_ne_one).trans hchan
  have hunblock := channelUnblock_one Nat.zero_ne_one hout₁ hchan₁ hcurr
    (show (next :: bs).length < channelMsgQueueLimit by rw [List.length_cons]; omega)
  obtain ⟨man', hman'⟩ : ∃ man', man' =
      (man.modify 1 (Channel.setWaitQueue [])).moveChunk 0 1 chunkZeroToOne := ⟨_, rfl⟩
  rw [← hman'] at hunblock
  have hout₂ : man'.heap 1 = some (((out.setBuffQueue (next :: bs)).setWaitQueue []).appendBuff
      chunkZeroToOne) := by
    rw [hman']
    simp [Ioman.moveChunk, Ioman.modify, hout₁]
  have hfail := channelWriteLoop_err (bs.length + 1) true hout₂
    (show _ = next :: (bs ++ [chunkZeroToOne]) from rfl) hnext
  have hsent : sendBuff [SendEvent.room (msgBuffSendLen buff), SendEvent.err] buff =
      (ChannelWriteStatus.ok, { buff with head := buff.head + msgBuffSendLen buff },
        [SendEvent.err], buff.unsent.take (msgBuffSendLen buff) ++ []) := by
    have hdone : msgBuffSendLen { buff with head := buff.head + msgBuffSendLen buff } = 0 := by
      unfold msgBuffSendLen
      dsimp only
      omega
    simp only [sendBuff, if_neg hsend, min_self, if_pos hdone]
  refine ⟨[SendEvent.room (msgBuffSendLen buff), SendEvent.err],
    ⟨ChannelWriteStatus.err, true, man'.modify 1 (Channel.setBuffQueue (next :: (bs ++
      [chunkZeroToOne]))), buff.unsent.take (msgBuffSendLen buff) ++ [] ++ []⟩, ?_, rfl, ?_⟩
  · unfold channelWrite
    rw [Ioman.get_eq_ok.2 hout, ok_bind, hq, hwait]
    show channelWriteLoop 1 (bs.length + 2 + 1) _ _ _ = _
    unfold channelWriteLoop
    simp only [Ioman.get_eq_ok.2 hout, ok_bind, hq, hwait, hsent, if_true, ← hman, hunblock,
      Bool.false_or, hfail]
  · exact ⟨_, Ioman.heap_modify_eq hout₂, hstate, rfl⟩

/-- The channel of the node 1 can be removed after a write to it has failed. -/
theorem Congested.failed {s : NodeState ℕ} (h : Congested s) {script : List SendEvent}
    {r : ChannelWrite ℕ} (hwrite : channelWrite s.node.man 1 script = Except.ok r)
    (herr : r.stat = ChannelWriteStatus.err) :
    NodeStep ByteOrder.little s
        ⟨s.node.setMan r.man, some (1, DeadCause.broken), s.handleOf, s.lost, s.adding⟩ ∧
      ∃ man', iomanRemoveChannel r.man 1 = Except.ok man' ∧ man'.channels = [] := by
  obtain ⟨out, buff, next, bs, hout, hstate, hq, -, -, -, -, hpeer⟩ := h.out
  have hsteady := channelWrite_steady hwrite
  have hget := Ioman.get_eq_ok.2 hout
  have hactive : ¬ ChannelStatus.active = ChannelStatus.setup := nofun
  have hprocess : iomanProcessChannelWrite ByteOrder.little s.node 1 true script =
      Except.ok (false, s.node.setMan r.man, r.sent) := by
    simp [iomanProcessChannelWrite, hget, hstate, hwrite, herr, bind, Except.bind, CommNode.setMan]
  have hstep := NodeStep.write h.dead (h.channels ▸ List.mem_cons_self) hout
    (by simp [channelIsWritable, hq]) (fun hsetup => absurd (hstate.symm.trans hsetup) hactive)
    hprocess
  rw [if_neg Bool.false_ne_true, if_neg (by rw [hstate]; exact hactive)] at hstep
  refine ⟨hstep, ?_⟩
  obtain ⟨out', hout', hpeer'⟩ : ∃ out', r.man.heap 1 = some out' ∧ out'.peerId = 1 :=
    Option.map_eq_some_iff.1 ((hsteady.peerId 1).trans ((Ioman.view_eq hout).trans (by rw [hpeer])))
  obtain ⟨man', hremove⟩ := iomanRemoveChannel_ok hout' (by rw [hpeer']; decide)
    (by rw [hpeer', hsteady.maxpeers, h.maxpeers]; decide)
    (by rw [hpeer', hsteady.channelMap]; exact h.mapped)
  refine ⟨man', hremove, ?_⟩
  obtain ⟨_, _, _, _, _, _, hchannels, _, _⟩ := iomanRemoveChannel_cases hremove
  rw [hchannels, hsteady.channels, h.channels]
  rfl

/-- The local channel waits for the channel of the node 1.  A write to that channel sends one buffer,
so that the local channel goes on, and then fails; and the channel is removed. -/
theorem nodeReach_waitQueues_drained : ∃ s t : NodeState ℕ, 0 ∈ s.node.man.waitQueue 1 ∧
    Reach (fun r => r = s) (NodeStep ByteOrder.little) t ∧ t.node.man.channels = [] ∧
    WaitQueuesOk t.node.man ∧
      ∀ u, NodeStep ByteOrder.little t u → (WaitQueuesOk u.node.man ↔ t.RemovesIdle u) := by
  obtain ⟨s, hs⟩ := exists_congested
  obtain ⟨script, r, hwrite, herr, chan, hchan, hactive, hempty⟩ := hs.drain
  obtain ⟨hfails, man', hremove, hchannels⟩ := hs.failed hwrite herr
  obtain ⟨out, _, _, _, hout, -, -, -, -, -, hwait, -⟩ := hs.out
  have hreach := reachIdle_step hs.reach hfails hs.dead
  have hstep := @NodeStep.remove ℕ _ ByteOrder.little ⟨s.node.setMan r.man,
    some (1, DeadCause.broken), s.handleOf, s.lost, s.adding⟩ 1 DeadCause.broken man' rfl hremove
  have hidle := hreach.step ⟨hstep, by
    rintro c cause ⟨hdead, _⟩
    cases hdead
    refine ⟨fun w hw => ?_, fun d hd => ?_⟩
    · replace hw : w ∈ r.man.waitQueue 1 := hw
      rw [Ioman.waitQueue_eq hchan, hempty] at hw
      cases hw
    · have hblocking : r.man.blocking 1 := (nodeReach_inv hreach).2.waits.blocked_of_mem d 1 hd
      rw [Ioman.blocking_iff hchan, hactive] at hblocking
      cases hblocking⟩
  have hinit : Reach (fun r => r = s) (NodeStep ByteOrder.little) s := Reach.init rfl
  refine ⟨s, _, ?_, (hinit.step hfails).step hstep, hchannels,
    nodeReach_waitQueues ByteOrder.little _ hidle⟩
  rw [Ioman.waitQueue_eq hout, hwait]
  exact List.mem_cons_self

/-- The channel of the node 1 fails while a chunk of the local channel waits for it. -/
theorem waitQueues_broken : ∃ s : NodeState ℕ,
    Reach NodeState.Init (NodeStep ByteOrder.little) s ∧ ¬ WaitQueuesOk s.node.man := by
  obtain ⟨s, hs⟩ := exists_congested
  obtain ⟨out, buff, next, bs, hout, -, hq, -, hsend, -, hwait, -⟩ := hs.out
  have hwrite : channelWrite s.node.man 1 [SendEvent.err] = Except.ok ⟨ChannelWriteStatus.err, false,
      s.node.man.modify 1 (Channel.setBuffQueue (buff :: next :: bs)), []⟩ := by
    unfold channelWrite
    rw [Ioman.get_eq_ok.2 hout, ok_bind, hq, hwait]
    exact channelWriteLoop_err _ false hout hq hsend
  obtain ⟨hfails, man', hremove, -⟩ := hs.failed hwrite rfl
  have hreach := reachIdle_step hs.reach hfails hs.dead
  have hstep := @NodeStep.remove ℕ _ ByteOrder.little ⟨s.node.setMan _,
    some (1, DeadCause.broken), s.handleOf, s.lost, s.adding⟩ 1 DeadCause.broken man' rfl hremove
  refine ⟨_, (hreach.mono (fun _ h => h) fun _ _ h => h.1).step hstep, fun hok => ?_⟩
  -- the local channel still waits for the channel that is removed
  have hidle := (hstep.removesIdle (nodeReach_inv hreach).2 hok 1 _ ⟨rfl, rfl⟩).1 0
  refine Nat.zero_ne_one (hidle ?_)
  show 0 ∈ (s.node.man.modify 1 (Channel.setBuffQueue (buff :: next :: bs))).waitQueue 1
  rw [Ioman.waitQueue_eq (Ioman.heap_modify_eq hout)]
  simp [hwait]

end Congestion
end DLFree

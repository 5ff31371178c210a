/-
**The steps of the I/O thread.**

Each step of `comm/ioman.c` and `comm/comm.c` is taken apart into what it does to the channels of
the node, and shown to keep the invariants of `IomanInv`.

Main definitions:

* `Reads` — what reading leaves alone in a channel;
* `ReadStep`, `WriteStep` — the outcomes of reading and writing a channel;
* `CommNode.Handled` — what handling a message leaves alone in a node.

Main results:

* `iomanProcessChannelRead_cases`, `iomanProcessChannelWrite_cases` — **a read and a write have one
  of these outcomes**;
* `commNodeHandleMsg_calm`, `commNodeHandleMsg_channelsInv`, `commNodeHandleMsg_handled` — handling
  a message;
* `iomanHandleEvent_calm`, `iomanHandleEvent_channelsInv` — events of the notify pipe;
* `iomanRemoveChannel_waitInv`, `iomanRemoveChannel_channelsInv` — **removing a channel** keeps the
  wait queues in order when nobody else waits for it and it waits for nobody else.
-/

import DLFree.IomanInv

set_option relaxedAutoImplicit false
set_option autoImplicit false

namespace DLFree

section Reading

variable {κ : Type}

/-! ### Reading leaves the queues alone -/

/-- What reading leaves alone in a channel. -/
structure Reads (chan chan' : Channel κ) : Prop where
  connectState : chan'.connectState = chan.connectState
  peerId : chan'.peerId = chan.peerId
  buffQueue : chan'.buffQueue = chan.buffQueue
  state : chan'.state = chan.state
  waitQueue : chan'.waitQueue = chan.waitQueue
  pipe : chan'.pipe = chan.pipe

variable {chan chan' chan'' : Channel κ} {bo : ByteOrder} {script script' : List RecvEvent}
  {stat : ChannelReadStatus} {msg : Option MsgBuff}

theorem Reads.refl (chan : Channel κ) : Reads chan chan := ⟨rfl, rfl, rfl, rfl, rfl, rfl⟩

theorem Reads.trans (h : Reads chan chan') (h' : Reads chan' chan'') : Reads chan chan'' where
  connectState := h'.connectState.trans h.connectState
  peerId := h'.peerId.trans h.peerId
  buffQueue := h'.buffQueue.trans h.buffQueue
  state := h'.state.trans h.state
  waitQueue := h'.waitQueue.trans h.waitQueue
  pipe := h'.pipe.trans h.pipe

theorem channelReadHeader_reads
    (h : channelReadHeader bo chan script = Except.ok (stat, chan', script')) :
    Reads chan chan' := by
  unfold channelReadHeader at h
  cases hrecv : sockTryRecvN script (channelMsgHeaderlen - chan.headerOff) with
  | mk status rest =>
      rw [hrecv] at h
      cases status with
      | err | eof | eagain =>
          simp only [Except.ok.injEq, Prod.mk.injEq] at h
          obtain ⟨_, rfl, _⟩ := h
          exact Reads.refl chan
      | ok bytes =>
          dsimp only at h
          split at h
          · split at h
            · cases h
            · obtain ⟨_, _, h⟩ := bind_eq_ok.1 h
              simp only [Except.ok.injEq, Prod.mk.injEq] at h
              obtain ⟨_, rfl, _⟩ := h
              exact ⟨rfl, rfl, rfl, rfl, rfl, rfl⟩
          · simp only [Except.ok.injEq, Prod.mk.injEq] at h
            obtain ⟨_, rfl, _⟩ := h
            exact ⟨rfl, rfl, rfl, rfl, rfl, rfl⟩

theorem channelSetupBuff_reads {size : ℤ} {data : List Byte}
    (h : channelSetupBuff chan size data = Except.ok chan') : Reads chan chan' := by
  obtain ⟨_, _, h⟩ := bind_eq_ok.1 h
  split at h
  · cases h
  · simp only [Except.ok.injEq] at h
    subst h
    exact ⟨rfl, rfl, rfl, rfl, rfl, rfl⟩

theorem iomanSetupRead_reads {nodeId : ℤ} (h : iomanSetupRead nodeId chan = Except.ok chan') :
    Reads chan chan' := by
  unfold iomanSetupRead at h
  split at h
  · split at h
    · obtain ⟨_, _, h⟩ := bind_eq_ok.1 h
      obtain ⟨_, _, h⟩ := bind_eq_ok.1 h
      exact channelSetupBuff_reads h
    · obtain ⟨_, _, h⟩ := bind_eq_ok.1 h
      exact channelSetupBuff_reads h
  · exact channelSetupBuff_reads h

theorem channelReadMsg_reads
    (h : channelReadMsg chan script = Except.ok (stat, msg, chan', script')) : Reads chan chan' := by
  unfold channelReadMsg at h
  split at h
  · cases h
  · obtain ⟨r, _, h⟩ := bind_eq_ok.1 h
    split at h <;>
    · simp only [Except.ok.injEq, Prod.mk.injEq] at h
      obtain ⟨_, _, rfl, _⟩ := h
      exact ⟨rfl, rfl, rfl, rfl, rfl, rfl⟩

theorem channelReadChunk_reads
    (h : channelReadChunk chan script = Except.ok (stat, msg, chan', script')) :
    Reads chan chan' := by
  unfold channelReadChunk at h
  split at h
  · cases h
  · obtain ⟨_, _, h⟩ := bind_eq_ok.1 h
    obtain ⟨r, _, h⟩ := bind_eq_ok.1 h
    split at h <;>
    · simp only [Except.ok.injEq, Prod.mk.injEq] at h
      obtain ⟨_, _, rfl, _⟩ := h
      exact ⟨rfl, rfl, rfl, rfl, rfl, rfl⟩

theorem channelReadBody_reads
    (h : channelReadBody chan script = Except.ok (stat, msg, chan', script')) :
    Reads chan chan' := by
  unfold channelReadBody at h
  split at h
  · exact channelReadChunk_reads h
  · exact channelReadMsg_reads h

end Reading

section Steps

variable {κ : Type} [DecidableEq κ] {bo : ByteOrder} {now : ℚ} {man man' : Ioman κ}
  {node node' node'' : CommNode κ} {c d : κ} {chan chan' : Channel κ}

theorem Reads.steady (h : Reads chan chan') (hc : man.heap c = some chan) :
    Steady man (man.put c chan') :=
  Steady.put hc h.peerId h.connectState

theorem Reads.calm (h : Reads chan chan') (hc : man.heap c = some chan)
    (hidle : chan.state ≠ ChannelStatus.blocking) : Calm man (man.put c chan') := by
  refine Calm.put hc h.waitQueue hidle ?_ fun _ => le_of_eq ?_
  · rw [h.state]
    exact hidle
  · rw [h.buffQueue]

/-! ### Reading a channel -/

/-- The outcomes of reading the channel `c`: more bytes are needed or the socket fails, a chunk is
delivered, a chunk is passed on, or a message is handled. -/
inductive ReadStep (bo : ByteOrder) (now : ℚ) (node : CommNode κ) (c : κ) (chan : Channel κ) :
    Bool → CommNode κ → Prop
  | part {chan' : Channel κ} (alive : Bool) (hreads : Reads chan chan') :
      ReadStep bo now node c chan alive { node with man := node.man.put c chan' }
  | deliver {chan' : Channel κ} {chunk : MsgBuff} {node₁ : CommNode κ} (hreads : Reads chan chan')
      (hchunk : commNodeHandleChunk { node with man := node.man.put c chan' } chan'.msgInfo chunk =
        Except.ok node₁) :
      ReadStep bo now node c chan true
        { node₁ with man := node₁.man.modify c (Channel.setCurrBuff none) }
  | pipe {chan' : Channel κ} {next : κ} {moved : Bool} {man' : Ioman κ} (hreads : Reads chan chan')
      (hnext : iomanGetNexthopChannel { node with man := node.man.put c chan' } chan'.msgInfo.srcId
        chan'.msgInfo.dstId = Except.ok next)
      (hpipe : channelPipelineChunk (node.man.put c chan') c next = Except.ok (moved, man')) :
      ReadStep bo now node c chan true { node with man := man' }
  | handle {chan' : Channel κ} {body : List Byte} {node' : CommNode κ} (hreads : Reads chan chan')
      (hmsg : commNodeHandleMsg bo now { node with man := node.man.put c chan' } c chan'.msgInfo
        body = Except.ok node') :
      ReadStep bo now node c chan true node'

theorem ReadStep.of_reads {alive : Bool} (h : ReadStep bo now node c chan' alive node')
    (hreads : Reads chan chan') : ReadStep bo now node c chan alive node' := by
  cases h with
  | part alive h => exact ReadStep.part alive (hreads.trans h)
  | deliver h hchunk => exact ReadStep.deliver (hreads.trans h) hchunk
  | pipe h hnext hpipe => exact ReadStep.pipe (hreads.trans h) hnext hpipe
  | handle h hmsg => exact ReadStep.handle (hreads.trans h) hmsg

theorem iomanReadDone_cases {msg : MsgBuff} (hreads : Reads chan chan')
    (h : iomanReadDone bo now (node.setMan (node.man.put c chan')) c chan' msg =
      Except.ok node') : ReadStep bo now node c chan true node' := by
  unfold iomanReadDone at h
  split at h
  · split at h
    · obtain ⟨node₁, hchunk, h⟩ := bind_eq_ok.1 h
      obtain ⟨_, _, h⟩ := bind_eq_ok.1 h
      cases h
      exact ReadStep.deliver hreads hchunk
    · obtain ⟨next, hnext, h⟩ := bind_eq_ok.1 h
      obtain ⟨⟨moved, man'⟩, hpipe, h⟩ := bind_eq_ok.1 h
      obtain ⟨_, _, h⟩ := bind_eq_ok.1 h
      cases h
      exact ReadStep.pipe hreads hnext hpipe
  · obtain ⟨_, _, h⟩ := bind_eq_ok.1 h
    exact ReadStep.handle hreads h

theorem iomanReadBody_cases {script script' : List RecvEvent} {alive : Bool}
    (h : iomanReadBody bo now node c chan script = Except.ok (alive, node', script')) :
    ReadStep bo now node c chan alive node' := by
  obtain ⟨⟨stat, msg, chan', script₁⟩, hread, h⟩ := bind_eq_ok.1 h
  have hreads := channelReadBody_reads hread
  cases msg with
  | none =>
      simp only [Except.ok.injEq, Prod.mk.injEq] at h
      obtain ⟨_, rfl, _⟩ := h
      exact ReadStep.part alive hreads
  | some msg =>
      obtain ⟨node₁, hdone, h⟩ := bind_eq_ok.1 h
      simp only [Except.ok.injEq, Prod.mk.injEq] at h
      obtain ⟨rfl, rfl, _⟩ := h
      exact iomanReadDone_cases hreads hdone

/-- **A read has one of the outcomes of `ReadStep`.** -/
theorem iomanProcessChannelRead_cases {script script' : List RecvEvent} {alive : Bool}
    (h : iomanProcessChannelRead bo now node c script = Except.ok (alive, node', script')) :
    ∃ chan, node.man.heap c = some chan ∧ ReadStep bo now node c chan alive node' := by
  obtain ⟨chan, hchan, h⟩ := bind_eq_ok.1 h
  rw [Ioman.get_eq_ok] at hchan
  refine ⟨chan, hchan, ?_⟩
  split at h
  · obtain ⟨⟨stat, chan₁, script₁⟩, hread, h⟩ := bind_eq_ok.1 h
    have hreads := channelReadHeader_reads hread
    dsimp only at h
    split at h
    · obtain ⟨chan₂, hsetup, h⟩ := bind_eq_ok.1 h
      exact (iomanReadBody_cases h).of_reads (hreads.trans (iomanSetupRead_reads hsetup))
    · simp only [Except.ok.injEq, Prod.mk.injEq] at h
      obtain ⟨_, rfl, _⟩ := h
      exact ReadStep.part alive hreads
  · exact iomanReadBody_cases h

/-! ### Sending a message -/

omit [DecidableEq κ] in
theorem channelSendMsg_eq (minfo : MsgInfo) (body : List Byte) :
    channelSendMsg (κ := κ) bo minfo body = Channel.appendBuff (channelPackBuff bo minfo body) :=
  rfl

theorem channelSendMsg_steady {minfo : MsgInfo} {body : List Byte} :
    Steady man (man.modify c (channelSendMsg bo minfo body)) :=
  Steady.modify _ (fun _ => rfl) fun _ => rfl

theorem channelSendMsg_calm {minfo : MsgInfo} {body : List Byte} :
    Calm man (man.modify c (channelSendMsg bo minfo body)) :=
  Calm.modify _ (fun _ => rfl) (fun _ => rfl) (fun _ => rfl) fun _ => by
    simp [channelSendMsg_eq]

omit [DecidableEq κ] in
/-- An event that announces no channel. -/
theorem steady_event {event : IomanEvent κ} (h : newchans [event] = []) :
    Steady man { man with events := man.events ++ [event] } :=
  Steady.of_events (by rw [newchans_append, h, List.append_nil])

theorem iomanSendMsg_steady {kind : MsgKind} {dstId : ℤ} {body : List Byte}
    (h : iomanSendMsg bo man kind dstId body = Except.ok man') : Steady man man' := by
  obtain ⟨x, _, h⟩ := bind_eq_ok.1 h
  simp only [Except.ok.injEq] at h
  subst h
  exact channelSendMsg_steady.trans (steady_event rfl)

theorem iomanSendMsg_calm {kind : MsgKind} {dstId : ℤ} {body : List Byte}
    (h : iomanSendMsg bo man kind dstId body = Except.ok man') : Calm man man' := by
  obtain ⟨x, _, h⟩ := bind_eq_ok.1 h
  simp only [Except.ok.injEq] at h
  subst h
  exact channelSendMsg_calm.trans (Calm.of_heap rfl rfl fun _ h => h)

/-! ### Registering a channel -/

theorem iomanRegisterChannel_cases {dstId : ℤ}
    (h : iomanRegisterChannel man dstId c = Except.ok man') :
    0 ≤ dstId ∧ dstId < man.maxpeers ∧ man.channelMap dstId = none ∧
      man.view Channel.peerId c = some channelPeerUnknown ∧
      man' = { man with channelMap := Function.update man.channelMap dstId (some c) }.modify c
        (Channel.setPeerId dstId) := by
  obtain ⟨_, hpeer, h⟩ := bind_eq_ok.1 h
  obtain ⟨_, hmap, h⟩ := bind_eq_ok.1 h
  obtain ⟨chan, hchan, h⟩ := bind_eq_ok.1 h
  obtain ⟨_, hunknown, h⟩ := bind_eq_ok.1 h
  simp only [cAssert_eq_ok, Option.isNone_iff_eq_none, decide_eq_true_eq] at hmap hunknown
  rw [Ioman.get_eq_ok] at hchan
  simp only [Except.ok.injEq] at h
  unfold Ioman.checkPeer at hpeer
  split at hpeer
  · rename_i hrange
    refine ⟨hrange.1, hrange.2, hmap, ?_, h.symm⟩
    rw [Ioman.view_eq hchan, hunknown]
  · cases hpeer

theorem iomanRegisterChannel_calm {dstId : ℤ}
    (h : iomanRegisterChannel man dstId c = Except.ok man') : Calm man man' := by
  obtain ⟨_, _, _, _, rfl⟩ := iomanRegisterChannel_cases h
  refine Calm.trans ?_ (Calm.modify (Channel.setPeerId dstId) (fun _ => rfl) (fun _ => rfl)
    (fun _ => rfl) fun _ => le_rfl)
  exact Calm.of_heap rfl rfl fun _ h => h

theorem iomanRegisterChannel_channelsInv {dstId : ℤ}
    (h : iomanRegisterChannel man dstId c = Except.ok man') (hinv : ChannelsInv man)
    (hc : c ∈ man.channels) : ChannelsInv man' := by
  obtain ⟨hpos, _, hnone, hunknown, rfl⟩ := iomanRegisterChannel_cases h
  have hlive := hinv.channels_live hc
  obtain ⟨chan, hchan⟩ := Ioman.exists_of_live hlive
  have hself : (man.modify c (Channel.setPeerId dstId)).view Channel.peerId c = some dstId := by
    rw [Ioman.view_eq (Ioman.heap_modify_eq hchan)]
    rfl
  have hother : ∀ x, x ≠ c →
      (man.modify c (Channel.setPeerId dstId)).view Channel.peerId x =
        man.view Channel.peerId x := by
    intro x hx
    unfold Ioman.view
    rw [Ioman.heap_modify_of_ne hx]
  have hknown : dstId ≠ channelPeerUnknown := by
    unfold channelPeerUnknown
    omega
  refine ⟨hinv.nodup, fun x hx => Ioman.live_modify.2 (hinv.live x hx),
    Ioman.live_modify.2 hinv.localLive, hinv.localOut, fun pid x hx => ?_, fun x hx pid hpid hne => ?_⟩
  · by_cases hpd : pid = dstId
    · subst hpd
      obtain rfl : c = x := by simpa [Ioman.modify] using hx
      exact ⟨hc, hknown, hself⟩
    · have hx' : man.channelMap pid = some x := by simpa [Ioman.modify, hpd] using hx
      obtain ⟨hmem, hpne, hview⟩ := hinv.mapped pid x hx'
      have hxc : x ≠ c := by
        rintro rfl
        rw [hunknown, Option.some.injEq] at hview
        exact hpne hview.symm
      exact ⟨hmem, hpne, (hother x hxc).trans hview⟩
  · by_cases hxc : x = c
    · subst hxc
      obtain rfl : dstId = pid := Option.some.inj (hself.symm.trans hpid)
      simp [Ioman.modify]
    · have hpid' := (hother x hxc).symm.trans hpid
      have hmap := hinv.registered x hx pid hpid' hne
      have hpd : pid ≠ dstId := by
        rintro rfl
        rw [hnone] at hmap
        cases hmap
      simpa [Ioman.modify, hpd] using hmap

/-! ### Handling a message -/

/-- The attempts to connect of a node stay as they are: a thread sleeps on only while no connection
changes. -/
structure CommNode.SameConns (node node' : CommNode κ) : Prop where
  roster : node'.man.roster = node.man.roster
  live : ∀ x, node'.man.live x ↔ node.man.live x
  pendingConns : node'.pendingConns = node.pendingConns
  keyC : node'.keyC = node.keyC
  conns : (node'.cond = node.cond ∧
    ∀ x, node'.man.view Channel.connectState x = node.man.view Channel.connectState x) ∨
    node'.cond = []

/-- What handling a message leaves alone in a node. -/
structure CommNode.Handled (node node' : CommNode κ) : Prop extends node.SameConns node' where
  channels : node'.man.channels = node.man.channels

omit [DecidableEq κ] in
theorem CommNode.Handled.refl (node : CommNode κ) : node.Handled node :=
  ⟨⟨rfl, fun _ => Iff.rfl, rfl, rfl, Or.inl ⟨rfl, fun _ => rfl⟩⟩, rfl⟩

omit [DecidableEq κ] in
theorem CommNode.Handled.trans (h : node.Handled node') (h' : node'.Handled node'') :
    node.Handled node'' where
  roster := h'.roster.trans h.roster
  channels := h'.channels.trans h.channels
  live x := (h'.live x).trans (h.live x)
  pendingConns := h'.pendingConns.trans h.pendingConns
  keyC := h'.keyC.trans h.keyC
  conns := by
    rcases h'.conns with ⟨hcond', hconn'⟩ | hcond'
    · rcases h.conns with ⟨hcond, hconn⟩ | hcond
      · exact Or.inl ⟨hcond'.trans hcond, fun x => (hconn' x).trans (hconn x)⟩
      · exact Or.inr (hcond'.trans hcond)
    · exact Or.inr hcond'

omit [DecidableEq κ] in
theorem Steady.handled (h : Steady man man') (hman : node.man = man) :
    node.Handled { node with man := man' } := by
  subst hman
  exact ⟨⟨h.roster, h.live, rfl, rfl, Or.inl ⟨rfl, h.connectState⟩⟩, h.channels⟩

theorem iomanRegisterChannel_handled (node : CommNode κ) {dstId : ℤ}
    (h : iomanRegisterChannel node.man dstId c = Except.ok man') :
    node.Handled { node with man := man' } := by
  obtain ⟨_, _, _, _, rfl⟩ := iomanRegisterChannel_cases h
  exact ⟨⟨rfl, fun _ => Ioman.live_modify, rfl, rfl,
    Or.inl ⟨rfl, fun _ => Ioman.view_modify (Channel.setPeerId dstId) fun _ => rfl⟩⟩, rfl⟩

omit [DecidableEq κ] in
theorem commNodeRttMeasureStart_cases {dstId : ℤ}
    (h : commNodeRttMeasureStart node dstId now = Except.ok node') :
    ∃ rtts, node' = { node with rtts := rtts } := by
  obtain ⟨_, _, h⟩ := bind_eq_ok.1 h
  obtain ⟨_, _, h⟩ := bind_eq_ok.1 h
  simp only [Except.ok.injEq] at h
  exact ⟨_, h.symm⟩

omit [DecidableEq κ] in
theorem commNodeRttMeasureEnd_cases {dstId : ℤ}
    (h : commNodeRttMeasureEnd node dstId now = Except.ok node') :
    ∃ rtts, node' = { node with rtts := rtts } := by
  obtain ⟨_, _, h⟩ := bind_eq_ok.1 h
  obtain ⟨_, _, h⟩ := bind_eq_ok.1 h
  obtain ⟨_, _, h⟩ := bind_eq_ok.1 h
  simp only [Except.ok.injEq] at h
  exact ⟨_, h.symm⟩

theorem commNodeNotifySuccess_cases (h : commNodeNotifySuccess node c = Except.ok node') :
    node.man.view Channel.connectState c = some ChannelConnectStatus.inprogress ∧
      node' = { node with
        man := node.man.modify c (Channel.setConnectState ChannelConnectStatus.established)
        cond := [] } := by
  obtain ⟨chan, hchan, h⟩ := bind_eq_ok.1 h
  rw [Ioman.get_eq_ok] at hchan
  obtain ⟨established, hest, h⟩ := bind_eq_ok.1 h
  obtain ⟨_, hassert, hest⟩ := bind_eq_ok.1 hest
  simp only [cAssert_eq_ok, decide_eq_true_eq] at hassert
  simp only [Except.ok.injEq] at h hest
  subst hest
  refine ⟨by rw [Ioman.view_eq hchan, hassert], ?_⟩
  rw [← h, Ioman.put_apply (Channel.setConnectState _) hchan]
  rfl

omit [DecidableEq κ] in
/-- The loop over the entries of a table only changes the widths. -/
theorem commNodeRtWidths_cases {rt : OverlayRtable} (h : commNodeRtWidths node rt = Except.ok node') :
    ∃ maxWidth minWidth, node' = { node with maxWidth := maxWidth, minWidth := minWidth } := by
  refine foldlM_keeps (P := fun node' => ∃ maxWidth minWidth,
    node' = { node with maxWidth := maxWidth, minWidth := minWidth }) ?_ ⟨_, _, rfl⟩ h
  rintro pid _ node₂ ⟨maxWidth, minWidth, rfl⟩ hstep
  dsimp only at hstep
  split at hstep
  · cases hstep
    exact ⟨_, _, rfl⟩
  · obtain ⟨entry, _, hstep⟩ := bind_eq_ok.1 hstep
    cases entry with
    | none => cases hstep
    | some entry =>
        simp only [Except.ok.injEq] at hstep
        exact ⟨_, _, hstep.symm⟩

omit [DecidableEq κ] in
/-- A table that is new is stored; another one changes nothing. -/
theorem commNodeRegisterRt_cases {body : List Byte} {updated : Bool}
    (h : commNodeRegisterRt bo node body = Except.ok (updated, node')) :
    ∃ rt rest, overlayRtableCreateByUnpack bo body = Except.ok (rt, rest) ∧
      ((updated = true ∧ node.rts rt.srcpid = none ∧ ∃ maxWidth minWidth, node' = { node with
          rts := Function.update node.rts rt.srcpid (some rt)
          numRts := node.numRts + 1
          maxWidth := maxWidth
          minWidth := minWidth
          cond := [] }) ∨
        (updated = false ∧ node.rts rt.srcpid ≠ none ∧ node' = node)) := by
  obtain ⟨⟨rt, rest⟩, hrt, h⟩ := bind_eq_ok.1 h
  obtain ⟨_, _, h⟩ := bind_eq_ok.1 h
  refine ⟨rt, rest, hrt, ?_⟩
  split at h
  · rename_i hnone
    obtain ⟨node₁, hwidths, h⟩ := bind_eq_ok.1 h
    obtain ⟨maxWidth, minWidth, rfl⟩ := commNodeRtWidths_cases hwidths
    simp only [Except.ok.injEq, Prod.mk.injEq] at h
    exact Or.inl ⟨h.1.symm, Option.isNone_iff_eq_none.1 hnone, _, _, h.2.symm⟩
  · rename_i hsome
    simp only [Except.ok.injEq, Prod.mk.injEq] at h
    refine Or.inr ⟨h.1.symm, fun hnone => hsome ?_, h.2.symm⟩
    rw [hnone]
    rfl

/-- What `comm_node_handle_msg` does with a message of each kind. -/
inductive HandleMsg (bo : ByteOrder) (now : ℚ) (node : CommNode κ) (c : κ) (msgInfo : MsgInfo)
    (buff : List Byte) : CommNode κ → Prop
  | ping {man₁ man₂ : Ioman κ} {node₁ : CommNode κ} {reply : MsgKind}
      (hkind : (msgInfo.kind = MsgKind.ping0.toInt ∧ reply = MsgKind.ping1) ∨
        (msgInfo.kind = MsgKind.ping1.toInt ∧ reply = MsgKind.pong0))
      (hreg : iomanRegisterChannel node.man msgInfo.srcId c = Except.ok man₁)
      (hrtt : commNodeRttMeasureStart { node with man := man₁ } msgInfo.srcId now =
        Except.ok node₁)
      (hsend : iomanSendMsg bo node₁.man reply msgInfo.srcId [] = Except.ok man₂) :
      HandleMsg bo now node c msgInfo buff { node₁ with man := man₂ }
  | pong0 {man₂ : Ioman κ} {node₁ : CommNode κ}
      (hkind : msgInfo.kind = MsgKind.pong0.toInt)
      (hrtt : commNodeRttMeasureEnd node msgInfo.srcId now = Except.ok node₁)
      (hsend : iomanSendMsg bo node₁.man MsgKind.pong1 msgInfo.srcId [] = Except.ok man₂) :
      HandleMsg bo now node c msgInfo buff { node₁ with man := man₂ }
  | pong1 {node₁ node₂ : CommNode κ}
      (hkind : msgInfo.kind = MsgKind.pong1.toInt)
      (hrtt : commNodeRttMeasureEnd node msgInfo.srcId now = Except.ok node₁)
      (hnotify : commNodeNotifySuccess node₁ c = Except.ok node₂) :
      HandleMsg bo now node c msgInfo buff node₂
  | rtNew {node₁ : CommNode κ} (hkind : msgInfo.kind = MsgKind.rt.toInt)
      (hrt : commNodeRegisterRt bo node buff = Except.ok (true, node₁)) :
      HandleMsg bo now node c msgInfo buff (commNodeBcastMsg node₁ MsgKind.rt buff)
  | rtKnown {node₁ : CommNode κ} (hkind : msgInfo.kind = MsgKind.rt.toInt)
      (hrt : commNodeRegisterRt bo node buff = Except.ok (false, node₁)) :
      HandleMsg bo now node c msgInfo buff node₁

theorem commNodeHandleMsg_cases {msgInfo : MsgInfo} {buff : List Byte}
    (h : commNodeHandleMsg bo now node c msgInfo buff = Except.ok node') :
    HandleMsg bo now node c msgInfo buff node' := by
  unfold commNodeHandleMsg at h
  split at h
  · rename_i hkind
    obtain ⟨man₁, hreg, h⟩ := bind_eq_ok.1 h
    obtain ⟨node₁, hrtt, h⟩ := bind_eq_ok.1 h
    obtain ⟨man₂, hsend, h⟩ := bind_eq_ok.1 h
    cases h
    exact HandleMsg.ping (Or.inl ⟨hkind, rfl⟩) hreg hrtt hsend
  split at h
  · rename_i hkind
    obtain ⟨man₁, hreg, h⟩ := bind_eq_ok.1 h
    obtain ⟨node₁, hrtt, h⟩ := bind_eq_ok.1 h
    obtain ⟨man₂, hsend, h⟩ := bind_eq_ok.1 h
    cases h
    exact HandleMsg.ping (Or.inr ⟨hkind, rfl⟩) hreg hrtt hsend
  split at h
  · rename_i hkind
    obtain ⟨node₁, hrtt, h⟩ := bind_eq_ok.1 h
    obtain ⟨man₂, hsend, h⟩ := bind_eq_ok.1 h
    cases h
    exact HandleMsg.pong0 hkind hrtt hsend
  split at h
  · rename_i hkind
    obtain ⟨node₁, hrtt, h⟩ := bind_eq_ok.1 h
    exact HandleMsg.pong1 hkind hrtt h
  split at h
  · rename_i hkind
    obtain ⟨⟨updated, node₁⟩, hrt, h⟩ := bind_eq_ok.1 h
    cases updated with
    | true =>
        cases h
        exact HandleMsg.rtNew hkind hrt
    | false =>
        cases h
        exact HandleMsg.rtKnown hkind hrt
  · cases h

theorem commNodeHandleMsg_calm {msgInfo : MsgInfo} {buff : List Byte}
    (h : commNodeHandleMsg bo now node c msgInfo buff = Except.ok node') :
    Calm node.man node'.man := by
  cases commNodeHandleMsg_cases h with
  | ping _ hreg hrtt hsend =>
      obtain ⟨_, rfl⟩ := commNodeRttMeasureStart_cases hrtt
      exact (iomanRegisterChannel_calm hreg).trans (iomanSendMsg_calm hsend)
  | pong0 _ hrtt hsend =>
      obtain ⟨_, rfl⟩ := commNodeRttMeasureEnd_cases hrtt
      exact iomanSendMsg_calm hsend
  | pong1 _ hrtt hnotify =>
      obtain ⟨_, rfl⟩ := commNodeRttMeasureEnd_cases hrtt
      obtain ⟨_, rfl⟩ := commNodeNotifySuccess_cases hnotify
      exact Calm.modify (Channel.setConnectState _) (fun _ => rfl) (fun _ => rfl) (fun _ => rfl)
        fun _ => le_rfl
  | rtNew _ hrt =>
      obtain ⟨_, _, _, ⟨_, _, _, _, rfl⟩ | ⟨hfalse, _, _⟩⟩ := commNodeRegisterRt_cases hrt
      · exact Calm.of_heap rfl rfl fun _ h => h
      · cases hfalse
  | rtKnown _ hrt =>
      obtain ⟨_, _, _, ⟨hfalse, _⟩ | ⟨_, _, rfl⟩⟩ := commNodeRegisterRt_cases hrt
      · cases hfalse
      · exact Calm.refl _

theorem commNodeHandleMsg_channelsInv {msgInfo : MsgInfo} {buff : List Byte}
    (h : commNodeHandleMsg bo now node c msgInfo buff = Except.ok node')
    (hinv : ChannelsInv node.man) (hc : c ∈ node.man.channels) : ChannelsInv node'.man := by
  cases commNodeHandleMsg_cases h with
  | ping _ hreg hrtt hsend =>
      obtain ⟨_, rfl⟩ := commNodeRttMeasureStart_cases hrtt
      exact (iomanRegisterChannel_channelsInv hreg hinv hc).samePeers
        (iomanSendMsg_steady hsend).toSamePeers
  | pong0 _ hrtt hsend =>
      obtain ⟨_, rfl⟩ := commNodeRttMeasureEnd_cases hrtt
      exact hinv.samePeers (iomanSendMsg_steady hsend).toSamePeers
  | pong1 _ hrtt hnotify =>
      obtain ⟨_, rfl⟩ := commNodeRttMeasureEnd_cases hrtt
      obtain ⟨_, rfl⟩ := commNodeNotifySuccess_cases hnotify
      exact hinv.samePeers ⟨rfl, rfl, rfl, rfl, rfl, rfl,
        fun _ => Ioman.view_modify (Channel.setConnectState _) fun _ => rfl⟩
  | rtNew _ hrt =>
      obtain ⟨_, _, _, ⟨_, _, _, _, rfl⟩ | ⟨hfalse, _, _⟩⟩ := commNodeRegisterRt_cases hrt
      · exact hinv.samePeers (steady_event rfl).toSamePeers
      · cases hfalse
  | rtKnown _ hrt =>
      obtain ⟨_, _, _, ⟨hfalse, _⟩ | ⟨_, _, rfl⟩⟩ := commNodeRegisterRt_cases hrt
      · cases hfalse
      · exact hinv

theorem commNodeHandleMsg_handled {msgInfo : MsgInfo} {buff : List Byte}
    (h : commNodeHandleMsg bo now node c msgInfo buff = Except.ok node') :
    node.Handled node' := by
  cases commNodeHandleMsg_cases h with
  | ping _ hreg hrtt hsend =>
      obtain ⟨_, rfl⟩ := commNodeRttMeasureStart_cases hrtt
      have hreg' := iomanRegisterChannel_handled node hreg
      have hsend' := iomanSendMsg_steady hsend
      exact ⟨⟨hsend'.roster.trans hreg'.roster, fun x => (hsend'.live x).trans (hreg'.live x),
        rfl, rfl, hreg'.conns.imp
          (fun hc => ⟨rfl, fun x => (hsend'.connectState x).trans (hc.2 x)⟩) id⟩,
        hsend'.channels.trans hreg'.channels⟩
  | pong0 _ hrtt hsend =>
      obtain ⟨_, rfl⟩ := commNodeRttMeasureEnd_cases hrtt
      have hsend' := iomanSendMsg_steady hsend
      exact ⟨⟨hsend'.roster, hsend'.live, rfl, rfl, Or.inl ⟨rfl, hsend'.connectState⟩⟩,
        hsend'.channels⟩
  | pong1 _ hrtt hnotify =>
      obtain ⟨_, rfl⟩ := commNodeRttMeasureEnd_cases hrtt
      obtain ⟨_, rfl⟩ := commNodeNotifySuccess_cases hnotify
      exact ⟨⟨rfl, fun _ => Ioman.live_modify, rfl, rfl, Or.inr rfl⟩, rfl⟩
  | rtNew _ hrt =>
      obtain ⟨_, _, _, ⟨_, _, _, _, rfl⟩ | ⟨hfalse, _, _⟩⟩ := commNodeRegisterRt_cases hrt
      · exact ⟨⟨(steady_event rfl).roster, fun _ => Iff.rfl, rfl, rfl, Or.inr rfl⟩, rfl⟩
      · cases hfalse
  | rtKnown _ hrt =>
      obtain ⟨_, _, _, ⟨hfalse, _⟩ | ⟨_, _, rfl⟩⟩ := commNodeRegisterRt_cases hrt
      · cases hfalse
      · exact CommNode.Handled.refl _

/-! ### Reading keeps the invariants -/

theorem setCurrBuff_calm {b : Option MsgBuff} (hidle : ¬ man.blocking c) :
    Calm man (man.modify c (Channel.setCurrBuff b)) where
  channels _ h := h
  localChan := rfl
  waitQueue _ := Ioman.waitQueue_modify (Channel.setCurrBuff b) fun _ => rfl
  blocking _ := Ioman.blocking_modify (Channel.setCurrBuff b) fun _ => rfl
  holding w hb hh := by
    have hne : w ≠ c := fun he => hidle (he ▸ hb)
    exact (holding_setCurrBuff hne).2 hh
  queueLen _ _ := le_of_eq (Ioman.queueLen_modify (Channel.setCurrBuff b) fun _ => rfl).symm

omit [DecidableEq κ] in
theorem commNodeHandleChunk_cases {header : MsgInfo} {chunk : MsgBuff}
    (h : commNodeHandleChunk node header chunk = Except.ok node') :
    node' = { node with chunks := node.chunks ++ [(header, chunk.data)] } := by
  obtain ⟨_, _, h⟩ := bind_eq_ok.1 h
  cases h
  rfl

omit [DecidableEq κ] in
theorem iomanGetNexthopChannel_mapped {srcId dstId : ℤ} {next : κ}
    (h : iomanGetNexthopChannel node srcId dstId = Except.ok next) :
    ∃ pid, commNodeLookupRt node.nodeId node.rts srcId dstId = Except.ok pid ∧
      node.man.channelMap pid = some next := by
  obtain ⟨pid, hpid, h⟩ := bind_eq_ok.1 h
  obtain ⟨_, _, h⟩ := bind_eq_ok.1 h
  obtain ⟨_, _, h⟩ := bind_eq_ok.1 h
  refine ⟨pid, hpid, ?_⟩
  cases hmap : node.man.channelMap pid with
  | none =>
      rw [hmap] at h
      cases h
  | some x =>
      rw [hmap] at h
      cases h
      rfl

section Read

variable {alive : Bool} (h : ReadStep bo now node c chan alive node')
  (hchan : node.man.heap c = some chan) (hidle : chan.state ≠ ChannelStatus.blocking)

include h hchan hidle

theorem ReadStep.waitInv (hinv : WaitInv node.man) (hch : ChannelsInv node.man)
    (hc : c ∈ node.man.channels) : WaitInv node'.man := by
  cases h with
  | part _ hreads => exact hinv.calm (hreads.calm hchan hidle)
  | deliver hreads hchunk =>
      rw [commNodeHandleChunk_cases hchunk]
      refine hinv.calm ((hreads.calm hchan hidle).trans (setCurrBuff_calm ?_))
      rw [(hreads.calm hchan hidle).blocking, Ioman.blocking_iff hchan]
      exact hidle
  | @pipe chan' next moved man' hreads hnext hpipe =>
      have hcalm := hreads.calm hchan hidle
      obtain ⟨pid, _, hmap⟩ := iomanGetNexthopChannel_mapped hnext
      refine channelPipelineChunk_waitInv hpipe (hinv.calm hcalm) (Or.inl hc) ?_
        (hch.mapped pid next hmap).1
      rw [hcalm.blocking, Ioman.blocking_iff hchan]
      exact hidle
  | handle hreads hmsg =>
      exact hinv.calm ((hreads.calm hchan hidle).trans (commNodeHandleMsg_calm hmsg))

omit hidle in
theorem ReadStep.channelsInv (hch : ChannelsInv node.man) (hc : c ∈ node.man.channels) :
    ChannelsInv node'.man := by
  cases h with
  | part _ hreads => exact hch.samePeers (hreads.steady hchan).toSamePeers
  | deliver hreads hchunk =>
      rw [commNodeHandleChunk_cases hchunk]
      exact hch.samePeers ((hreads.steady hchan).trans
        (Steady.modify (Channel.setCurrBuff none) (fun _ => rfl) fun _ => rfl)).toSamePeers
  | pipe hreads _ hpipe =>
      exact hch.samePeers
        ((hreads.steady hchan).trans (channelPipelineChunk_steady hpipe)).toSamePeers
  | handle hreads hmsg =>
      exact commNodeHandleMsg_channelsInv hmsg (hch.samePeers (hreads.steady hchan).toSamePeers) hc

omit hidle in
theorem ReadStep.handled : node.Handled node' := by
  cases h with
  | part _ hreads => exact (hreads.steady hchan).handled rfl
  | deliver hreads hchunk =>
      rw [commNodeHandleChunk_cases hchunk]
      have hsteady := (hreads.steady hchan).trans
        (Steady.modify (Channel.setCurrBuff none) (c := c) (fun _ => rfl) fun _ => rfl)
      exact ⟨⟨hsteady.roster, hsteady.live, rfl, rfl, Or.inl ⟨rfl, hsteady.connectState⟩⟩,
        hsteady.channels⟩
  | pipe hreads _ hpipe =>
      exact ((hreads.steady hchan).trans (channelPipelineChunk_steady hpipe)).handled rfl
  | handle hreads hmsg =>
      exact ((hreads.steady hchan).handled rfl).trans (commNodeHandleMsg_handled hmsg)

end Read

/-! ### Reading the local channel -/

theorem iomanProcessLocalChannelRead_cases
    (h : iomanProcessLocalChannelRead bo node = Except.ok node') :
    ∃ chan chunk chan' next moved man', node.man.heap node.man.localChan = some chan ∧
      channelLocalPopChunk bo chan = Except.ok (chunk, chan') ∧
      iomanGetNexthopChannel node chan'.msgInfo.srcId chan'.msgInfo.dstId = Except.ok next ∧
      channelPipelineChunk (node.man.put node.man.localChan (chan'.setCurrBuff (some chunk)))
        node.man.localChan next = Except.ok (moved, man') ∧
      node' = { node with man := man' } := by
  obtain ⟨chan, hchan, h⟩ := bind_eq_ok.1 h
  rw [Ioman.get_eq_ok] at hchan
  obtain ⟨⟨chunk, chan'⟩, hpop, h⟩ := bind_eq_ok.1 h
  obtain ⟨_, _, h⟩ := bind_eq_ok.1 h
  obtain ⟨next, hnext, h⟩ := bind_eq_ok.1 h
  obtain ⟨⟨moved, man'⟩, hpipe, h⟩ := bind_eq_ok.1 h
  cases h
  exact ⟨chan, chunk, chan', next, moved, man', hchan, hpop, hnext, hpipe, rfl⟩

omit [DecidableEq κ] in
/-- What `channel_local_pop_chunk` does. -/
theorem channelLocalPopChunk_cases {chunk : MsgBuff}
    (h : channelLocalPopChunk bo chan = Except.ok (chunk, chan')) :
    ∃ buffQueue msgInfo rest, chan.pipe ≠ 0 ∧ chan.buffQueue = chunk :: buffQueue ∧
      msgInfoUnpack bo chunk.unsent = some (msgInfo, rest) ∧
      chan' = { chan with
        pipe := chan.pipe - 1
        buffQueue := buffQueue
        msgInfo := { msgInfo with remain := 0 } } := by
  unfold channelLocalPopChunk at h
  split at h
  · cases h
  · rename_i hpipe
    cases hq : chan.buffQueue with
    | nil =>
        rw [hq] at h
        cases h
    | cons first buffQueue =>
        rw [hq] at h
        dsimp only at h
        cases hunpack : msgInfoUnpack bo first.unsent with
        | none =>
            rw [hunpack] at h
            cases h
        | some unpacked =>
            rw [hunpack] at h
            obtain ⟨msgInfo, rest⟩ := unpacked
            simp only [Except.ok.injEq, Prod.mk.injEq] at h
            obtain ⟨rfl, rfl⟩ := h
            exact ⟨buffQueue, msgInfo, rest, hpipe, rfl, hunpack, rfl⟩

omit [DecidableEq κ] in
theorem channelLocalPopChunk_keeps {chunk : MsgBuff}
    (h : channelLocalPopChunk bo chan = Except.ok (chunk, chan')) :
    chan'.connectState = chan.connectState ∧ chan'.peerId = chan.peerId ∧
      chan'.state = chan.state ∧ chan'.waitQueue = chan.waitQueue := by
  obtain ⟨_, _, _, _, _, _, rfl⟩ := channelLocalPopChunk_cases h
  exact ⟨rfl, rfl, rfl, rfl⟩

theorem iomanProcessLocalChannelRead_steady
    (h : iomanProcessLocalChannelRead bo node = Except.ok node') : node.Handled node' ∧
      SamePeers node.man node'.man := by
  obtain ⟨chan, chunk, chan', next, moved, man', hchan, hpop, _, hpipe, rfl⟩ :=
    iomanProcessLocalChannelRead_cases h
  obtain ⟨hconn, hpeer, _, _⟩ := channelLocalPopChunk_keeps hpop
  have hput : Steady node.man
      (node.man.put node.man.localChan (chan'.setCurrBuff (some chunk))) :=
    Steady.put hchan hpeer hconn
  have hsteady := hput.trans (channelPipelineChunk_steady hpipe)
  exact ⟨hsteady.handled rfl, hsteady.toSamePeers⟩

theorem iomanProcessLocalChannelRead_waitInv
    (h : iomanProcessLocalChannelRead bo node = Except.ok node') (hinv : WaitInv node.man)
    (hch : ChannelsInv node.man) (hidle : ¬ node.man.blocking node.man.localChan) :
    WaitInv node'.man := by
  obtain ⟨chan, chunk, chan', next, moved, man', hchan, hpop, hnext, hpipe, rfl⟩ :=
    iomanProcessLocalChannelRead_cases h
  obtain ⟨_, _, hstate', hwait⟩ := channelLocalPopChunk_keeps hpop
  obtain ⟨pid, _, hmap⟩ := iomanGetNexthopChannel_mapped hnext
  have hstate : chan.state ≠ ChannelStatus.blocking := fun he =>
    hidle ((Ioman.blocking_iff hchan).2 he)
  -- nobody waits for the local channel, so its queue may shrink
  have hnobody : chan.waitQueue = [] := by
    by_contra hne
    rw [← Ioman.waitQueue_eq hchan] at hne
    exact hch.ne_localChan (hinv.channel _ hne) rfl
  have hcalm : Calm node.man
      (node.man.put node.man.localChan (chan'.setCurrBuff (some chunk))) :=
    Calm.put hchan hwait hstate (fun he => hstate (hstate'.symm.trans he))
      fun hne => absurd hnobody hne
  refine channelPipelineChunk_waitInv hpipe (hinv.calm hcalm) (Or.inr rfl) ?_
    (hch.mapped pid next hmap).1
  rw [hcalm.blocking]
  exact hidle

/-! ### Pushing to the local channel -/

omit [DecidableEq κ] in
theorem channelLocalPushChunk_cases {chunk : MsgBuff}
    (h : channelLocalPushChunk chan chunk = some chan') :
    chan.buffQueue.length < channelMsgQueueLimit ∧ chan' = chan.appendBuff chunk := by
  unfold channelLocalPushChunk at h
  split at h
  · cases h
  · rename_i hlen
    cases h
    exact ⟨not_le.1 hlen, rfl⟩

theorem appendBuff_calm {buff : MsgBuff} (hchan : man.heap c = some chan) :
    Calm man (man.put c (chan.appendBuff buff)) := by
  rw [Ioman.put_apply (Channel.appendBuff buff) hchan]
  exact Calm.modify _ (fun _ => rfl) (fun _ => rfl) (fun _ => rfl) fun _ => by simp

theorem channelLocalPushToken_calm (hchan : man.heap c = some chan) :
    Calm man (man.put c (channelLocalPushToken chan)) := by
  rw [Ioman.put_apply channelLocalPushToken hchan]
  exact Calm.modify _ (fun _ => rfl) (fun _ => rfl) (fun _ => rfl) fun _ => le_rfl

/-! ### Writing a channel -/

/-- The outcomes of writing the channel `c`: the connection is made or refused, or buffers are
sent. -/
inductive WriteStep (bo : ByteOrder) (node : CommNode κ) (c : κ) (chan : Channel κ) :
    Bool → CommNode κ → Prop
  | connected (hsetup : chan.state = ChannelStatus.setup) :
      WriteStep bo node c chan true (commNodeNotifyConnect bo
        { node with man := node.man.put c (chan.setState ChannelStatus.active) } c)
  | refused (hsetup : chan.state = ChannelStatus.setup) :
      WriteStep bo node c chan false
        (commNodeNotifyFailure { node with man := node.man.put c chan } c)
  | sent {script : List SendEvent} {r : ChannelWrite κ} (hsetup : chan.state ≠ ChannelStatus.setup)
      (hwrite : channelWrite node.man c script = Except.ok r) :
      WriteStep bo node c chan (r.stat ≠ ChannelWriteStatus.err) { node with man := r.man }

/-- **A write has one of the outcomes of `WriteStep`.** -/
theorem iomanProcessChannelWrite_cases {connected alive : Bool} {script : List SendEvent}
    {sent : List Byte}
    (h : iomanProcessChannelWrite bo node c connected script = Except.ok (alive, node', sent)) :
    ∃ chan, node.man.heap c = some chan ∧ WriteStep bo node c chan alive node' := by
  obtain ⟨chan, hchan, h⟩ := bind_eq_ok.1 h
  rw [Ioman.get_eq_ok] at hchan
  refine ⟨chan, hchan, ?_⟩
  cases hstate : chan.state with
  | init =>
      simp only [hstate] at h
      cases h
  | setup =>
      simp only [hstate] at h
      obtain ⟨⟨isActive, chan₁⟩, hactive, h⟩ := bind_eq_ok.1 h
      obtain ⟨_, _, hactive⟩ := bind_eq_ok.1 hactive
      cases connected with
      | true =>
          cases hactive
          cases h
          exact WriteStep.connected hstate
      | false =>
          cases hactive
          cases h
          exact WriteStep.refused hstate
  | active | blocking =>
      simp only [hstate] at h
      obtain ⟨r, hwrite, h⟩ := bind_eq_ok.1 h
      cases h
      refine WriteStep.sent ?_ hwrite
      rw [hstate]
      nofun

section Write

variable {alive : Bool} (h : WriteStep bo node c chan alive node')
  (hchan : node.man.heap c = some chan)

include h hchan

theorem WriteStep.waitInv (hinv : WaitInv node.man) : WaitInv node'.man := by
  cases h with
  | connected hsetup =>
      have hput : Calm node.man (node.man.put c (chan.setState ChannelStatus.active)) :=
        Calm.put hchan rfl (by rw [hsetup]; nofun) nofun fun _ => le_rfl
      exact hinv.calm (hput.trans channelSendMsg_calm)
  | refused hsetup =>
      refine hinv.calm (Calm.put hchan rfl ?_ ?_ fun _ => le_rfl) <;>
      · rw [hsetup]
        nofun
  | sent _ hwrite => exact channelWrite_waitInv hwrite hinv

theorem WriteStep.samePeers : SamePeers node.man node'.man := by
  cases h with
  | connected _ =>
      have hput : Steady node.man (node.man.put c (chan.setState ChannelStatus.active)) :=
        Steady.put hchan rfl rfl
      exact (hput.trans channelSendMsg_steady).toSamePeers
  | refused _ => exact (Steady.put hchan rfl rfl).toSamePeers
  | sent _ hwrite => exact (channelWrite_steady hwrite).toSamePeers

end Write

/-! ### Events -/

theorem iomanHandleEventBcastmsg_induct {P : Ioman κ → Prop} {kind : MsgKind} {body : List Byte}
    (hsend : ∀ man c (pid : ℕ), P man → P (iomanSysSendMsg bo man c kind pid body)) (h : P man) :
    P (iomanHandleEventBcastmsg bo man kind body) := by
  unfold iomanHandleEventBcastmsg
  generalize List.range man.maxpeers = pids
  induction pids generalizing man with
  | nil => exact h
  | cons pid pids ih =>
      rw [List.foldl_cons]
      refine ih ?_
      cases man.channelMap pid with
      | none => exact h
      | some c => exact hsend man c pid h

theorem iomanHandleEventBcastmsg_steady {kind : MsgKind} {body : List Byte} :
    Steady man (iomanHandleEventBcastmsg bo man kind body) :=
  iomanHandleEventBcastmsg_induct (fun _ _ _ h => h.trans channelSendMsg_steady) (Steady.refl man)

theorem iomanHandleEventBcastmsg_calm {kind : MsgKind} {body : List Byte} :
    Calm man (iomanHandleEventBcastmsg bo man kind body) :=
  iomanHandleEventBcastmsg_induct (fun _ _ _ h => h.trans channelSendMsg_calm) (Calm.refl man)

theorem iomanHandleEvent_calm (h : iomanHandleEvent bo man = Except.ok man') : Calm man man' := by
  unfold iomanHandleEvent at h
  split at h
  · cases h
  · rename_i event events _
    cases event with
    | newchan c =>
        cases h
        exact Calm.of_heap rfl rfl fun _ => List.mem_append_left _
    | newmsg =>
        cases h
        exact Calm.of_heap rfl rfl fun _ h => h
    | bcastmsg kind body =>
        cases h
        refine Calm.trans ?_ iomanHandleEventBcastmsg_calm
        exact Calm.of_heap rfl rfl fun _ h => h

theorem iomanHandleEvent_channelsInv (h : iomanHandleEvent bo man = Except.ok man')
    (hinv : ChannelsInv man) : ChannelsInv man' ∧ man'.roster = man.roster := by
  unfold iomanHandleEvent at h
  split at h
  · cases h
  · rename_i event events hevents
    cases event with
    | newchan c =>
        cases h
        have hroster : ∀ m : Ioman κ, m.channels = man.channels ++ [c] → m.events = events →
            m.roster = man.roster := by
          intro m hm he
          unfold Ioman.roster
          rw [hm, he, hevents, newchans, List.append_assoc]
          rfl
        have hroster := hroster { man with channels := man.channels ++ [c], events := events } rfl rfl
        refine ⟨⟨?_, ?_, hinv.localLive, ?_, fun pid x hx => ?_, ?_⟩, hroster⟩
        · rw [hroster]
          exact hinv.nodup
        · rw [hroster]
          exact hinv.live
        · rw [hroster]
          exact hinv.localOut
        · exact (hinv.mapped pid x hx).imp_left fun hm => List.mem_append_left _ hm
        · rw [hroster]
          exact hinv.registered
    | newmsg =>
        cases h
        have hsteady : Steady man { man with events := events } :=
          Steady.of_events (by rw [hevents]; rfl)
        exact ⟨hinv.samePeers hsteady.toSamePeers, hsteady.roster⟩
    | bcastmsg kind body =>
        cases h
        have hsteady : Steady man (iomanHandleEventBcastmsg bo { man with events := events } kind
            body) :=
          (Steady.of_events (by rw [hevents]; rfl)).trans iomanHandleEventBcastmsg_steady
        exact ⟨hinv.samePeers hsteady.toSamePeers, hsteady.roster⟩

theorem iomanHandleEvent_keeps (h : iomanHandleEvent bo man = Except.ok man') :
    (∀ x, man'.live x ↔ man.live x) ∧
      ∀ x, man'.view Channel.connectState x = man.view Channel.connectState x := by
  unfold iomanHandleEvent at h
  split at h
  · cases h
  · rename_i event events _
    cases event with
    | newchan c | newmsg =>
        cases h
        exact ⟨fun _ => Iff.rfl, fun _ => rfl⟩
    | bcastmsg kind body =>
        cases h
        have hsteady : Steady { man with events := events }
            (iomanHandleEventBcastmsg bo { man with events := events } kind body) :=
          iomanHandleEventBcastmsg_steady
        exact ⟨hsteady.live, hsteady.connectState⟩

/-! ### New channels -/

theorem view_new_of_ne (hheap : man'.heap = Function.update man.heap c (some chan)) {α : Type}
    {g : Channel κ → α} {x : κ} (hx : x ≠ c) : man'.view g x = man.view g x := by
  unfold Ioman.view
  rw [hheap, Function.update_of_ne hx]

theorem heap_new (hheap : man'.heap = Function.update man.heap c (some chan)) :
    man'.heap c = some chan := by
  rw [hheap, Function.update_self]

section NewChannel

variable (hc : man.heap c = none) (hheap : man'.heap = Function.update man.heap c (some chan))
include hc hheap

/-- A new channel joins no wait queue. -/
theorem newChannel_calm (hlocal : man'.localChan = man.localChan) (hwait : chan.waitQueue = [])
    (hidle : chan.state ≠ ChannelStatus.blocking) (hsub : man.channels ⊆ man'.channels) :
    Calm man man' := by
  have hnew := heap_new hheap
  have hview : ∀ {α : Type} (g : Channel κ → α) (x : κ), x ≠ c → man'.view g x = man.view g x :=
    fun g x hx => view_new_of_ne hheap hx
  have hblock : ¬ man.blocking c := fun hb => by
    have := Ioman.live_of_blocking hb
    unfold Ioman.live at this
    rw [hc] at this
    cases this
  refine ⟨hsub, hlocal, fun d => ?_, fun w => ?_, fun w hb hh => ?_, fun d _ => ?_⟩
  · by_cases hd : d = c
    · subst hd
      rw [Ioman.waitQueue_eq hnew, hwait]
      simp [Ioman.waitQueue, Ioman.view, hc]
    · unfold Ioman.waitQueue
      rw [hview _ d hd]
  · by_cases hw : w = c
    · subst hw
      rw [Ioman.blocking_iff hnew]
      exact iff_of_false hidle hblock
    · unfold Ioman.blocking
      rw [hview _ w hw]
  · have hw : w ≠ c := fun he => hblock (he ▸ hb)
    unfold Ioman.holding at *
    rwa [hview _ w hw]
  · by_cases hd : d = c
    · subst hd
      simp [Ioman.queueLen, Ioman.view, hc]
    · unfold Ioman.queueLen
      rw [hview _ d hd]

/-- A new channel without a known peer. -/
theorem newChannel_channelsInv (hinv : ChannelsInv man) (hlocal : man'.localChan = man.localChan)
    (hpeer : chan.peerId = channelPeerUnknown) (hmap : man'.channelMap = man.channelMap)
    (hroster : man'.roster.Perm (c :: man.roster)) (hsub : man.channels ⊆ man'.channels) :
    ChannelsInv man' := by
  have hnew := heap_new hheap
  obtain ⟨hfresh, hnelocal⟩ := hinv.fresh hc
  have hlive : ∀ x, man.live x → man'.live x := by
    intro x hx
    unfold Ioman.live at *
    by_cases hxc : x = c
    · subst hxc
      rw [hnew]
      rfl
    · rw [hheap, Function.update_of_ne hxc]
      exact hx
  refine ⟨?_, fun x hx => ?_, ?_, ?_, fun pid x hx => ?_, fun x hx pid hpid hne => ?_⟩
  · exact hroster.nodup_iff.2 (List.nodup_cons.2 ⟨hfresh, hinv.nodup⟩)
  · rcases List.mem_cons.1 (hroster.mem_iff.1 hx) with rfl | hx
    · exact Ioman.live_of_heap hnew
    · exact hlive x (hinv.live x hx)
  · rw [hlocal]
    exact hlive _ hinv.localLive
  · rw [hlocal, hroster.mem_iff, List.mem_cons]
    rintro (he | hm)
    · exact hnelocal he.symm
    · exact hinv.localOut hm
  · rw [hmap] at hx
    obtain ⟨hm, hpne, hview⟩ := hinv.mapped pid x hx
    have hxc : x ≠ c := fun he => hfresh (he ▸ List.mem_append_left _ hm)
    exact ⟨hsub hm, hpne, (view_new_of_ne hheap hxc).trans hview⟩
  · rcases List.mem_cons.1 (hroster.mem_iff.1 hx) with rfl | hx
    · rw [Ioman.view_eq hnew, hpeer, Option.some.injEq] at hpid
      exact absurd hpid.symm hne
    · have hxc : x ≠ c := fun he => hfresh (he ▸ hx)
      rw [view_new_of_ne hheap hxc] at hpid
      rw [hmap]
      exact hinv.registered x hx pid hpid hne

end NewChannel

theorem iomanAccept_calm (hc : man.heap c = none) : Calm man (iomanAccept man c) :=
  newChannel_calm hc rfl rfl rfl nofun fun _ => List.mem_append_left _

theorem iomanAccept_channelsInv (hc : man.heap c = none) (hinv : ChannelsInv man) :
    ChannelsInv (iomanAccept man c) := by
  refine newChannel_channelsInv hc rfl hinv rfl rfl rfl ?_ fun _ => List.mem_append_left _
  unfold Ioman.roster iomanAccept
  rw [List.append_assoc]
  exact List.perm_middle

theorem commNodeNewConnection_calm (new : Option κ) (hnew : ∀ x ∈ new, node.man.heap x = none) :
    Calm node.man (commNodeNewConnection node new).2.man := by
  cases new with
  | none => exact Calm.refl _
  | some x => exact newChannel_calm (hnew x rfl) rfl rfl rfl nofun fun _ h => h

theorem commNodeNewConnection_channelsInv (new : Option κ)
    (hnew : ∀ x ∈ new, node.man.heap x = none) (hinv : ChannelsInv node.man) :
    ChannelsInv (commNodeNewConnection node new).2.man := by
  cases new with
  | none => exact hinv
  | some x =>
      refine newChannel_channelsInv (hnew x rfl) rfl hinv rfl rfl rfl ?_ fun _ h => h
      unfold Ioman.roster commNodeNewConnection
      dsimp only
      rw [newchans_append, ← List.append_assoc]
      exact List.perm_append_singleton x _

/-! ### Removing a channel -/

theorem iomanRemoveChannel_cases (h : iomanRemoveChannel man c = Except.ok man') :
    ∃ chan, man.heap c = some chan ∧ man'.nodeId = man.nodeId ∧ man'.maxpeers = man.maxpeers ∧
      man'.localChan = man.localChan ∧ man'.events = man.events ∧
      man'.channels = man.channels.erase c ∧ man'.heap = Function.update man.heap c none ∧
      ((chan.peerId = channelPeerUnknown ∧ man'.channelMap = man.channelMap) ∨
        (chan.peerId ≠ channelPeerUnknown ∧ man.channelMap chan.peerId = some c ∧
          man'.channelMap = Function.update man.channelMap chan.peerId none)) := by
  obtain ⟨chan, hchan, h⟩ := bind_eq_ok.1 h
  rw [Ioman.get_eq_ok] at hchan
  refine ⟨chan, hchan, ?_⟩
  split at h
  · rename_i hpeer
    obtain ⟨_, _, h⟩ := bind_eq_ok.1 h
    obtain ⟨_, hmap, h⟩ := bind_eq_ok.1 h
    simp only [cAssert_eq_ok, decide_eq_true_eq] at hmap
    cases h
    exact ⟨rfl, rfl, rfl, rfl, rfl, rfl, Or.inr ⟨hpeer, hmap, rfl⟩⟩
  · rename_i hpeer
    cases h
    exact ⟨rfl, rfl, rfl, rfl, rfl, rfl, Or.inl ⟨not_not.1 hpeer, rfl⟩⟩

section Remove

variable (h : iomanRemoveChannel man c = Except.ok man')

include h

theorem iomanRemoveChannel_view {α : Type} {g : Channel κ → α} {x : κ} (hx : x ≠ c) :
    man'.view g x = man.view g x := by
  obtain ⟨_, _, _, _, _, _, _, hheap, _⟩ := iomanRemoveChannel_cases h
  unfold Ioman.view
  rw [hheap, Function.update_of_ne hx]

theorem iomanRemoveChannel_live {x : κ} : man'.live x ↔ x ≠ c ∧ man.live x := by
  obtain ⟨_, _, _, _, _, _, _, hheap, _⟩ := iomanRemoveChannel_cases h
  unfold Ioman.live
  by_cases hx : x = c
  · subst hx
    simp [hheap]
  · simp [hheap, hx]

theorem iomanRemoveChannel_waitQueue : man'.waitQueue c = [] := by
  obtain ⟨_, _, _, _, _, _, _, hheap, _⟩ := iomanRemoveChannel_cases h
  simp [Ioman.waitQueue, Ioman.view, hheap]

theorem iomanRemoveChannel_waitQueue_of_ne (hd : d ≠ c) : man'.waitQueue d = man.waitQueue d := by
  unfold Ioman.waitQueue
  rw [iomanRemoveChannel_view h hd]

theorem iomanRemoveChannel_blocking (w : κ) : man'.blocking w ↔ man.blocking w ∧ w ≠ c := by
  by_cases hw : w = c
  · subst hw
    refine iff_of_false (fun hb => ?_) fun hb => hb.2 rfl
    exact ((iomanRemoveChannel_live h).1 (Ioman.live_of_blocking hb)).1 rfl
  · unfold Ioman.blocking
    rw [iomanRemoveChannel_view h hw]
    simp [hw]

/-- **Removing a channel** that waits for nobody else, and that nobody else waits for, keeps the wait
queues in order. -/
theorem iomanRemoveChannel_waitInv (hinv : WaitInv man) (hwait : ∀ w ∈ man.waitQueue c, w = c)
    (hjoin : ∀ d, c ∈ man.waitQueue d → d = c) : WaitInv man' := by
  have hview := fun (α : Type) (g : Channel κ → α) x (hx : x ≠ c) =>
    iomanRemoveChannel_view h (g := g) hx
  have hb := iomanRemoveChannel_blocking h
  have hself := iomanRemoveChannel_waitQueue h
  have hq := fun d (hd : d ≠ c) => iomanRemoveChannel_waitQueue_of_ne h hd
  obtain ⟨_, _, _, _, hlocal, _, hchannels, _, _⟩ := iomanRemoveChannel_cases h
  have hne : ∀ d, man'.waitQueue d ≠ [] → d ≠ c := fun d hd he => hd (he ▸ hself)
  have hmem : ∀ x ∈ man.channels, x ≠ c → x ∈ man'.channels := by
    intro x hx hne
    rw [hchannels]
    exact (List.mem_erase_of_ne hne).2 hx
  refine ⟨⟨fun d hd => ?_, fun w hw => ?_, fun w hw => ?_,
    hinv.waits.remove hwait hjoin hself hq hb⟩, fun d hd => ?_⟩
  · have hdc := hne d hd
    rw [hq d hdc] at hd
    exact hmem d (hinv.channel d hd) hdc
  · obtain ⟨hw, hwc⟩ := (hb w).1 hw
    rw [hlocal]
    exact (hinv.waiter w hw).imp_left fun hm => hmem w hm hwc
  · obtain ⟨hw, hwc⟩ := (hb w).1 hw
    have hholds := hinv.holds w hw
    unfold Ioman.holding at *
    rwa [hview _ _ w hwc]
  · have hdc := hne d hd
    rw [hq d hdc] at hd
    have hfull := hinv.full d hd
    unfold Ioman.queueLen at *
    rwa [hview _ _ d hdc]

theorem iomanRemoveChannel_roster (hinv : ChannelsInv man) (hc : c ∈ man.channels) (x : κ) :
    x ∈ man'.roster ↔ x ≠ c ∧ x ∈ man.roster := by
  obtain ⟨_, _, _, _, _, hevents, hchannels, _, _⟩ := iomanRemoveChannel_cases h
  have hnodup := hinv.nodup
  unfold Ioman.roster at *
  rw [hchannels, hevents, List.mem_append, List.mem_append,
    (List.nodup_append.1 hnodup).1.mem_erase_iff]
  have hnew : c ∉ newchans man.events := fun hm => (List.nodup_append.1 hnodup).2.2 c hc c hm rfl
  constructor
  · rintro (⟨hne, hx⟩ | hx)
    · exact ⟨hne, Or.inl hx⟩
    · exact ⟨fun he => hnew (he ▸ hx), Or.inr hx⟩
  · rintro ⟨hne, hx | hx⟩
    · exact Or.inl ⟨hne, hx⟩
    · exact Or.inr hx

theorem iomanRemoveChannel_channelsInv (hinv : ChannelsInv man) (hc : c ∈ man.channels) :
    ChannelsInv man' := by
  have hmem := iomanRemoveChannel_roster h hinv hc
  have hlive := fun x => iomanRemoveChannel_live h (x := x)
  have hview := fun x (hx : x ≠ c) => iomanRemoveChannel_view h (g := Channel.peerId) hx
  obtain ⟨chan, hchan, _, _, hlocal, hevents, hchannels, _, hmap⟩ := iomanRemoveChannel_cases h
  refine ⟨?_, fun x hx => ?_, ?_, ?_, fun pid x hx => ?_, fun x hx pid hpid hne => ?_⟩
  · unfold Ioman.roster
    rw [hchannels, hevents]
    exact hinv.nodup.sublist (List.Sublist.append_right List.erase_sublist _)
  · obtain ⟨hne, hx⟩ := (hmem x).1 hx
    exact (hlive x).2 ⟨hne, hinv.live x hx⟩
  · rw [hlocal, hlive]
    exact ⟨fun he => hinv.ne_localChan hc he.symm, hinv.localLive⟩
  · rw [hlocal, hmem]
    exact fun hm => hinv.localOut hm.2
  · have hold : man.channelMap pid = some x ∧ pid ≠ chan.peerId := by
      rcases hmap with ⟨hunknown, hmap⟩ | ⟨_, _, hmap⟩
      · rw [hmap] at hx
        refine ⟨hx, ?_⟩
        rw [hunknown]
        exact (hinv.mapped pid x hx).2.1
      · rw [hmap] at hx
        by_cases hp : pid = chan.peerId
        · simp [hp] at hx
        · exact ⟨by simpa [hp] using hx, hp⟩
    obtain ⟨hm, hpne, hpeer⟩ := hinv.mapped pid x hold.1
    have hxc : x ≠ c := by
      rintro rfl
      rw [Ioman.view_eq hchan, Option.some.injEq] at hpeer
      exact hold.2 hpeer.symm
    refine ⟨?_, hpne, (hview x hxc).trans hpeer⟩
    rw [hchannels]
    exact (List.mem_erase_of_ne hxc).2 hm
  · obtain ⟨hxc, hx⟩ := (hmem x).1 hx
    have hreg := hinv.registered x hx pid ((hview x hxc).symm.trans hpid) hne
    rcases hmap with ⟨_, hmap⟩ | ⟨_, hself, hmap⟩
    · rw [hmap]
      exact hreg
    · have hp : pid ≠ chan.peerId := by
        rintro rfl
        rw [hself, Option.some.injEq] at hreg
        exact hxc hreg.symm
      rw [hmap, Function.update_of_ne hp]
      exact hreg

end Remove

end Steps

end DLFree

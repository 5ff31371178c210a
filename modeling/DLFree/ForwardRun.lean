/-
**Lossless forwarding in order.**

The steps of a network that forwards chunks are taken apart into the moves of `Forwarding`.  They
refine items that move along routes of queues: the chunks are the items, and the places on the path
of a chunk are its route.

Main definitions:

* `Carried`, `ForwardInv` — the network and the chunks in its places, within and between steps;
* `Transported` — what is promised of a network that forwards chunks.

Main results:

* `ForwardStep.refines` — **every step moves chunks along their routes**;
* `forwarding_transports` — **every accepted chunk is in one place, is delivered at its destination
  only, and the chunks between two nodes are delivered in the order in which they were pushed**.
-/

import DLFree.Forwarding

set_option relaxedAutoImplicit false
set_option autoImplicit false

namespace DLFree

open FifoPlaces TransitionRun

section Plain

variable {bo : ByteOrder} {n : ℕ} {adj : ℤ → ℤ → Prop} [∀ u v, Decidable (adj u v)]
  {control : Prop} {tables : ℤ → OverlayRtable} {node node' : CommNode (Option ℤ)} {u v : ℤ}
  {c : Option ℤ} {chan : Channel (Option ℤ)} {man' : Ioman (Option ℤ)} {now : ℚ} {info : MsgInfo}
  {body : List Byte}

/-! ### Steps that do not concern the chunks -/

/-- A node that has registered its peers; it need not have their tables. -/
structure Connected (adj : ℤ → ℤ → Prop) [∀ u v, Decidable (adj u v)] (control : Prop)
    (node : CommNode (Option ℤ)) (u : ℤ) : Prop where
  nodeId : node.nodeId = u
  maxpeers : node.man.maxpeers = commMaxPeer
  localChan : node.man.localChan = none
  channelMap : ∀ v, node.man.channelMap v = if adj u v then some (some v) else none
  channels : ∀ v, some v ∈ node.man.channels → adj u v
  channelsInv : ChannelsInv node.man
  events : ∀ e ∈ node.man.events, e.Plain control

theorem Forwards.connected (h : Forwards n adj control tables node u) :
    Connected adj control node u :=
  ⟨h.nodeId, h.maxpeers, h.localChan, h.channelMap, h.channels, h.channelsInv, h.events⟩

theorem Connected.mapped (h : Connected adj control node u) {x : ℤ} {d : Option ℤ}
    (hd : node.man.channelMap x = some d) : adj u x ∧ d = some x := by
  rw [h.channelMap] at hd
  split at hd
  · rename_i hadj
    exact ⟨hadj, (Option.some.inj hd).symm⟩
  · cases hd

/-- The peer at the other end of a channel is known. -/
theorem Connected.known (h : Connected adj control node u) (hv : adj u v) :
    some v ∈ node.man.channels ∧ v ≠ channelPeerUnknown ∧
      node.man.view Channel.peerId (some v) = some v := by
  refine h.channelsInv.mapped v (some v) ?_
  rw [h.channelMap, if_pos hv]

theorem Connected.fits (h : Connected adj control node u) (hn : n ≤ commMaxPeer)
    (hu : 0 ≤ u ∧ u < n) : FitsInt node.nodeId := by
  rw [h.nodeId]
  exact fitsInt_of_peer (by omega)

/-- The channels stay, and the events are old ones or plain. -/
theorem Connected.samePeers (h : Connected adj control node u)
    (hsame : SamePeers node.man node'.man)
    (hevents : ∀ e ∈ node'.man.events, e ∈ node.man.events ∨ e.Plain control) :
    Connected adj control node' u where
  nodeId := hsame.nodeId.trans h.nodeId
  maxpeers := hsame.maxpeers.trans h.maxpeers
  localChan := hsame.localChan.trans h.localChan
  channelMap v := (congrFun hsame.channelMap v).trans (h.channelMap v)
  channels v hv := h.channels v (by rw [← hsame.channels]; exact hv)
  channelsInv := h.channelsInv.samePeers hsame
  events e he := (hevents e he).elim (h.events e) id

/-- A step that does not concern the chunks, nor the local channel. -/
structure MessageStep (bo : ByteOrder) (control : Prop) (node node' : CommNode (Option ℤ)) : Prop
    extends PlainStep bo control node node' where
  source : node'.man.heap none = node.man.heap none

/-- A step that leaves the channels and the events alone. -/
theorem messageStep_of_man (hman : node'.man = node.man)
    (hrts : ∀ src rt, node.rts src = some rt → node'.rts src = some rt)
    (hchunks : node'.chunks = node.chunks) : MessageStep bo control node node' where
  peers := by
    rw [hman]
    exact (Steady.refl node.man).toSamePeers
  events e he := Or.inl (by rw [← hman]; exact he)
  rts := hrts
  chunks := hchunks
  channel c chan hchan :=
    ⟨chan, [], by rw [hman]; exact hchan, Appends.refl chan, fun _ => rfl, nofun⟩
  source := by rw [hman]

theorem PlainStep.trans {node'' : CommNode (Option ℤ)} (h : PlainStep bo control node node')
    (h' : PlainStep bo control node' node'') : PlainStep bo control node node'' where
  peers := ⟨h'.peers.nodeId.trans h.peers.nodeId, h'.peers.channels.trans h.peers.channels,
    h'.peers.channelMap.trans h.peers.channelMap, h'.peers.maxpeers.trans h.peers.maxpeers,
    h'.peers.localChan.trans h.peers.localChan, h'.peers.newchans.trans h.peers.newchans,
    fun x => (h'.peers.peerId x).trans (h.peers.peerId x)⟩
  events e he := (h'.events e he).elim (h.events e) Or.inr
  rts src rt hrt := h'.rts src rt (h.rts src rt hrt)
  chunks := h'.chunks.trans h.chunks
  channel c chan hchan := by
    obtain ⟨chan', frames, hchan', happ, hnil, hok⟩ := h.channel c chan hchan
    obtain ⟨chan'', frames', hchan'', happ', hnil', hok'⟩ := h'.channel c chan' hchan'
    refine ⟨chan'', frames ++ frames', hchan'', ⟨⟨happ'.reader.state.trans happ.reader.state,
      happ'.reader.currBuff.trans happ.reader.currBuff,
      happ'.reader.headerOff.trans happ.reader.headerOff,
      happ'.reader.headerBuff.trans happ.reader.headerBuff,
      happ'.reader.msgInfo.trans happ.reader.msgInfo⟩, happ'.waitQueue.trans happ.waitQueue, ?_⟩,
      fun hc => ?_, fun f hf => (List.mem_append.1 hf).elim (hok f) (hok' f)⟩
    · rw [happ'.queue, happ.queue, List.map_append, List.append_assoc]
    · rw [hnil hc, hnil' hc]
      rfl

theorem MessageStep.trans {node'' : CommNode (Option ℤ)} (h : MessageStep bo control node node')
    (h' : MessageStep bo control node' node'') : MessageStep bo control node node'' :=
  ⟨h.toPlainStep.trans h'.toPlainStep, h'.source.trans h.source⟩

/-- A field of the local channel, or of the connection, changes. -/
theorem plainStep_modify (f : Channel (Option ℤ) → Channel (Option ℤ))
    (hpeer : ∀ chan, (f chan).peerId = chan.peerId)
    (hreader : ∀ chan, SameReader chan (f chan))
    (hwait : ∀ chan, (f chan).waitQueue = chan.waitQueue)
    (hqueue : ∀ chan, (f chan).buffQueue = chan.buffQueue) :
    PlainStep bo control node (node.setMan (node.man.modify c f)) where
  peers := ⟨rfl, rfl, rfl, rfl, rfl, rfl, fun _ => Ioman.view_modify f hpeer⟩
  events _ he := Or.inl he
  rts _ _ h := h
  chunks := rfl
  channel d chan hchan := by
    by_cases hd : d = c
    · subst hd
      refine ⟨f chan, [], Ioman.heap_modify_eq hchan, ⟨hreader chan, hwait chan, ?_⟩,
        fun _ => rfl, nofun⟩
      rw [hqueue]
      exact (List.append_nil _).symm
    · exact ⟨chan, [], (Ioman.heap_modify_of_ne hd).trans hchan, Appends.refl chan, fun _ => rfl,
        nofun⟩

/-- An event is written into the notify pipe. -/
theorem messageStep_event {e : IomanEvent (Option ℤ)} (he : e.Plain control) :
    MessageStep bo control node
      (node.setMan { node.man with events := node.man.events ++ [e] }) where
  peers := by
    refine (steady_event ?_).toSamePeers
    rcases he with rfl | ⟨_, buff, rfl, _⟩ <;> rfl
  events e' he' := by
    rcases List.mem_append.1 he' with he' | he'
    · exact Or.inl he'
    · rw [List.mem_singleton.1 he']
      exact Or.inr he
  rts _ _ h := h
  chunks := rfl
  channel c chan hchan := ⟨chan, [], hchan, Appends.refl chan, fun _ => rfl, nofun⟩
  source := rfl

/-- A message that is no chunk is sent to a peer. -/
theorem messageStep_send {f : Frame} {x : ℤ} (hok : f.Ok) (hkind : ¬ f.IsChunk)
    (hcontrol : control) :
    MessageStep bo control node
      (node.setMan (node.man.modify (some x) (channelSendMsg bo f.info f.body))) where
  peers := channelSendMsg_steady.toSamePeers
  events _ he := Or.inl he
  rts _ _ h := h
  chunks := rfl
  channel d chan hchan := by
    by_cases hd : d = some x
    · subst hd
      exact ⟨_, [f], Ioman.heap_modify_eq hchan, appends_send f chan, nofun,
        by simp [hok, hkind, hcontrol]⟩
    · exact ⟨chan, [], (Ioman.heap_modify_of_ne hd).trans hchan, Appends.refl chan, fun _ => rfl,
        nofun⟩
  source := Ioman.heap_modify_of_ne nofun

theorem messageFrame_not_chunk {kind : MsgKind} {srcId dstId : ℤ} (h : kind ≠ MsgKind.data) :
    ¬ (messageFrame kind srcId dstId body).IsChunk :=
  fun hc => h (MsgKind.toInt_injective hc)

/-- **Handling a message is such a step** where all peers are known. -/
theorem commNodeHandleMsg_message
    (h : commNodeHandleMsg bo now node (some v) info body = Except.ok node')
    (hnode : Connected adj control node u) (hn : n ≤ commMaxPeer) (hu : 0 ≤ u ∧ u < n)
    (hv : adj u v) (hcontrol : control) (hbody : FitsInt body.length) :
    MessageStep bo control node node' := by
  cases commNodeHandleMsg_cases h with
  | ping _ hreg _ _ =>
      -- the channel has been registered before
      obtain ⟨_, _, _, hunknown, _⟩ := iomanRegisterChannel_cases hreg
      obtain ⟨_, hne, hpeer⟩ := hnode.known hv
      rw [hpeer] at hunknown
      exact absurd (Option.some.inj hunknown) hne
  | pong0 _ hrtt hsend =>
      obtain ⟨rtts, rfl⟩ := commNodeRttMeasureEnd_cases hrtt
      obtain ⟨d, hd, hsend⟩ := bind_eq_ok.1 hsend
      obtain ⟨_, hcheck, hd⟩ := bind_eq_ok.1 hd
      have hsrc : 0 ≤ info.srcId ∧ info.srcId < node.man.maxpeers := checkPeer_bounds hcheck
      rw [hnode.maxpeers] at hsrc
      split at hd
      · cases hd
      rename_i hmapped
      cases hd
      cases hsend
      obtain ⟨_, rfl⟩ := hnode.mapped hmapped
      have hok : (messageFrame MsgKind.pong1 node.nodeId info.srcId []).Ok :=
        messageFrame_ok (by decide) (by decide) (hnode.fits hn hu) (fitsInt_of_peer hsrc)
          (by decide)
      have hmeasured : MessageStep bo control node { node with rtts := rtts } :=
        messageStep_of_man rfl (fun _ _ h => h) rfl
      exact (hmeasured.trans (messageStep_send hok (messageFrame_not_chunk (by decide))
        hcontrol)).trans (messageStep_event (Or.inl rfl))
  | pong1 _ hrtt hnotify =>
      obtain ⟨rtts, rfl⟩ := commNodeRttMeasureEnd_cases hrtt
      obtain ⟨_, rfl⟩ := commNodeNotifySuccess_cases hnotify
      have hestablished : MessageStep bo control node (node.setMan (node.man.modify (some v)
          (Channel.setConnectState ChannelConnectStatus.established))) :=
        ⟨plainStep_modify _ (fun _ => rfl) (fun _ => ⟨rfl, rfl, rfl, rfl, rfl⟩) (fun _ => rfl)
          fun _ => rfl, Ioman.heap_modify_of_ne nofun⟩
      exact hestablished.trans (messageStep_of_man rfl (fun _ _ h => h) rfl)
  | rtNew _ hrt =>
      obtain ⟨rt, _, _, ⟨_, hnone, _, _, rfl⟩ | ⟨hfalse, _, _⟩⟩ := commNodeRegisterRt_cases hrt
      · refine (messageStep_event (Or.inr ⟨hcontrol, body, rfl, hbody⟩)).trans
          (messageStep_of_man rfl (fun src rt' hrt' => ?_) rfl)
        have hsrc : src ≠ rt.srcpid := by
          rintro rfl
          rw [show node.rts rt.srcpid = some rt' from hrt'] at hnone
          cases hnone
        exact (Function.update_of_ne hsrc _ _).trans hrt'
      · cases hfalse
  | rtKnown _ hrt =>
      obtain ⟨_, _, _, ⟨hfalse, _⟩ | ⟨_, _, rfl⟩⟩ := commNodeRegisterRt_cases hrt
      · cases hfalse
      · exact messageStep_of_man rfl (fun _ _ h => h) rfl

/-- A broadcast sends messages that are no chunks. -/
theorem bcastmsg_message (hnode : Connected adj control node u) (hn : n ≤ commMaxPeer)
    (hu : 0 ≤ u ∧ u < n) (hcontrol : control) (hbody : FitsInt body.length) :
    MessageStep bo control node
      (node.setMan (iomanHandleEventBcastmsg bo node.man MsgKind.rt body)) := by
  unfold iomanHandleEventBcastmsg
  have hpids : ∀ pid ∈ List.range node.man.maxpeers, pid < commMaxPeer := fun pid hpid => by
    rw [← hnode.maxpeers]
    exact List.mem_range.1 hpid
  generalize List.range node.man.maxpeers = pids at hpids
  induction pids generalizing node with
  | nil => exact messageStep_of_man rfl (fun _ _ h => h) rfl
  | cons pid pids ih =>
      have hrest : ∀ p ∈ pids, p < commMaxPeer := fun p hp => hpids p (List.mem_cons_of_mem _ hp)
      rw [List.foldl_cons]
      cases hmap : node.man.channelMap pid with
      | none => exact ih hnode hrest
      | some d =>
          obtain ⟨_, rfl⟩ := hnode.mapped hmap
          have hok : (messageFrame MsgKind.rt node.nodeId pid body).Ok :=
            messageFrame_ok (by decide) (by decide) (hnode.fits hn hu)
              (fitsInt_of_peer ⟨by omega, by exact_mod_cast hpids pid List.mem_cons_self⟩) hbody
          have hsend : MessageStep bo control node
              (node.setMan (iomanSysSendMsg bo node.man (some (pid : ℤ)) MsgKind.rt pid body)) :=
            messageStep_send hok (messageFrame_not_chunk (by decide)) hcontrol
          have hnode' := hnode.samePeers hsend.peers hsend.events
          exact hsend.trans (ih hnode' hrest)

/-- **Events of the notify pipe do not concern the chunks.** -/
theorem iomanHandleEvent_message (h : iomanHandleEvent bo node.man = Except.ok man')
    (hnode : Connected adj control node u) (hn : n ≤ commMaxPeer) (hu : 0 ≤ u ∧ u < n) :
    MessageStep bo control node (node.setMan man') := by
  unfold iomanHandleEvent at h
  split at h
  · cases h
  rename_i event events hevents
  have hall := hnode.events
  rw [hevents] at hall
  have hpopped : MessageStep bo control node (node.setMan { node.man with events := events }) := by
    refine ⟨⟨(Steady.of_events ?_).toSamePeers, fun e he => Or.inl ?_, fun _ _ h => h, rfl,
      fun c chan hchan => ⟨chan, [], hchan, Appends.refl chan, fun _ => rfl, nofun⟩⟩, rfl⟩
    · rw [hevents]
      rcases hall event List.mem_cons_self with rfl | ⟨_, buff, rfl, _⟩ <;> rfl
    · rw [hevents]
      exact List.mem_cons_of_mem _ he
  rcases hall event List.mem_cons_self with rfl | ⟨hcontrol, buff, rfl, hbuff⟩
  · cases h
    exact hpopped
  · cases h
    exact hpopped.trans (bcastmsg_message (hnode.samePeers hpopped.peers hpopped.events) hn hu
      hcontrol hbuff)

end Plain

/-! ### The chunks in their places -/

/-- The route of a chunk, with its number among the accepted ones. -/
def itemRoute (tables : ℤ → OverlayRtable) (x : Frame × ℕ) : List ChunkPlace :=
  chunkRoute tables x.1

/-- A frame that `channel_local_push_chunk` accepts at one of the nodes `0, …, n - 1`. -/
structure Frame.Pushed (n : ℕ) (f : Frame) : Prop where
  ok : f.Ok
  chunk : f.IsChunk
  src : 0 ≤ f.info.srcId ∧ f.info.srcId < n

/-- The network holds the accepted chunks in its places; the channel that is `busy` is passing its
chunk on. -/
structure Carried (bo : ByteOrder) (n : ℕ) (adj : ℤ → ℤ → Prop) [∀ u v, Decidable (adj u v)]
    (control : Prop) (tables : ℤ → OverlayRtable) (s : Forwarding) (busy : Option (ℤ × Option ℤ))
    (placed : Placed ChunkPlace (Frame × ℕ)) : Prop where
  holds : NetHolds bo n adj control tables s.net busy placed.held
  places : PlaceInv (itemRoute tables) placed
  entered : placed.entered = s.accepted.zipIdx
  pushed : ∀ f ∈ s.accepted, f.Pushed n

/-- What holds between two steps: nothing is being passed on, and the wait queues are in order. -/
structure ForwardInv (bo : ByteOrder) (n : ℕ) (adj : ℤ → ℤ → Prop) [∀ u v, Decidable (adj u v)]
    (control : Prop) (tables : ℤ → OverlayRtable) (s : Forwarding)
    (placed : Placed ChunkPlace (Frame × ℕ)) : Prop
    extends Carried bo n adj control tables s none placed where
  waitInv : ∀ u : ℤ, 0 ≤ u ∧ u < n → WaitInv (s.net.node u).man

/-- The chunks have moved along their routes, any number of them. -/
abbrev Moves (tables : ℤ → OverlayRtable) :
    Placed ChunkPlace (Frame × ℕ) → Placed ChunkPlace (Frame × ℕ) → Prop :=
  Relation.ReflTransGen (PlaceStep (itemRoute tables))

/-- The chunks have moved along their routes, at least one of them. -/
abbrev Advances (tables : ℤ → OverlayRtable) :
    Placed ChunkPlace (Frame × ℕ) → Placed ChunkPlace (Frame × ℕ) → Prop :=
  Relation.TransGen (PlaceStep (itemRoute tables))

/-- Chunks have moved along their routes, or they are where they were and `other` holds. -/
def AdvancesOr (tables : ℤ → OverlayRtable) (other : Prop)
    (placed placed' : Placed ChunkPlace (Frame × ℕ)) : Prop :=
  Advances tables placed placed' ∨ (placed' = placed ∧ other)

theorem AdvancesOr.moves {tables : ℤ → OverlayRtable} {other : Prop}
    {placed placed' : Placed ChunkPlace (Frame × ℕ)} (h : AdvancesOr tables other placed placed') :
    Moves tables placed placed' := by
  rcases h with h | ⟨rfl, _⟩
  · exact h.to_reflTransGen
  · exact Relation.ReflTransGen.refl

theorem AdvancesOr.trans {tables : ℤ → OverlayRtable} {other other' other'' : Prop}
    {placed placed' placed'' : Placed ChunkPlace (Frame × ℕ)}
    (h : AdvancesOr tables other placed placed') (h' : AdvancesOr tables other' placed' placed'')
    (hboth : other → other' → other'') : AdvancesOr tables other'' placed placed'' := by
  rcases h with h | ⟨rfl, hother⟩
  · exact Or.inl (Relation.TransGen.trans_left h h'.moves)
  · exact h'.imp id fun h' => ⟨h'.1, hboth hother h'.2⟩

/-- The node `u` has taken bytes of a frame, which is not complete yet. -/
def PartRead (u v : ℤ) (net net' : Net) : Prop :=
  ∃ chan chan' wire, (net.node u).man.heap (some v) = some chan ∧
    chan'.buffQueue = chan.buffQueue ∧
    net' = (net.setNode u ((net.node u).setMan
      ((net.node u).man.put (some v) chan'))).setWire v u wire

/-- The channel `c` has sent bytes of its queue, and the other channels are as they were. -/
structure PartSent (c : Option ℤ) (man : Ioman (Option ℤ)) (bytes : List Byte)
    (man' : Ioman (Option ℤ)) : Prop where
  queue : ∀ chan, man.heap c = some chan → ∃ chan', man'.heap c = some chan' ∧
    bytes ++ chan'.buffQueue.flatMap MsgBuff.unsent = chan.buffQueue.flatMap MsgBuff.unsent
  others : ∀ d, d ≠ c → man'.heap d = man.heap d

theorem PartSent.refl (c : Option ℤ) (man : Ioman (Option ℤ)) : PartSent c man [] man :=
  ⟨fun chan hchan => ⟨chan, hchan, rfl⟩, fun _ _ => rfl⟩

theorem PartSent.trans {c : Option ℤ} {man man' man'' : Ioman (Option ℤ)}
    {bytes bytes' : List Byte} (h : PartSent c man bytes man') (h' : PartSent c man' bytes' man'') :
    PartSent c man (bytes ++ bytes') man'' := by
  refine ⟨fun chan hchan => ?_, fun d hd => (h'.others d hd).trans (h.others d hd)⟩
  obtain ⟨chan', hchan', hbytes⟩ := h.queue chan hchan
  obtain ⟨chan'', hchan'', hbytes'⟩ := h'.queue chan' hchan'
  exact ⟨chan'', hchan'', by rw [List.append_assoc, hbytes', hbytes]⟩

theorem PartSent.setBuffQueue {c : Option ℤ} {man : Ioman (Option ℤ)} {chan : Channel (Option ℤ)}
    {bytes : List Byte} {queue : List MsgBuff} (hchan : man.heap c = some chan)
    (hbytes : bytes ++ queue.flatMap MsgBuff.unsent = chan.buffQueue.flatMap MsgBuff.unsent) :
    PartSent c man bytes (man.modify c (Channel.setBuffQueue queue)) := by
  refine ⟨fun chan₁ hchan₁ => ⟨_, Ioman.heap_modify_eq hchan₁, ?_⟩, fun d hd =>
    Ioman.heap_modify_of_ne hd⟩
  obtain rfl := Option.some.inj (hchan.symm.trans hchan₁)
  exact hbytes

section Moves

variable {bo : ByteOrder} {n : ℕ} {adj : ℤ → ℤ → Prop} [∀ u v, Decidable (adj u v)]
  {control : Prop} {tables : ℤ → OverlayRtable} {s s' : Forwarding} {net' : Net}
  {busy busy' : Option (ℤ × Option ℤ)} {placed : Placed ChunkPlace (Frame × ℕ)} {u v : ℤ}
  {c : Option ℤ} {chan chan' : Channel (Option ℤ)} {man' : Ioman (Option ℤ)} {p q : ChunkPlace}
  {x : Frame × ℕ} {rest : List (Frame × ℕ)} {node' : CommNode (Option ℤ)}

namespace Carried

/-- A chunk in some place has been accepted. -/
theorem accepted_of_held (h : Carried bo n adj control tables s busy placed)
    (hx : x ∈ placed.held p) : x.1 ∈ s.accepted := by
  have hentered := (h.places.entered x).2 ⟨p, hx⟩
  rw [h.entered] at hentered
  exact List.fst_mem_of_mem_zipIdx hentered

theorem pushed_of_held (h : Carried bo n adj control tables s busy placed)
    (hx : x ∈ placed.held p) : x.1.Pushed n := h.pushed _ (h.accepted_of_held hx)

theorem mem_route (h : Carried bo n adj control tables s busy placed) (hx : x ∈ placed.held p) :
    p ∈ chunkRoute tables x.1 := h.places.onRoute x p hx

/-- A chunk in the local queue is at its source. -/
theorem src_of_localQueue (h : Carried bo n adj control tables s busy placed)
    (hx : x ∈ placed.held (ChunkPlace.localQueue u)) : x.1.info.srcId = u := by
  rcases List.mem_cons.1 (h.mem_route hx) with he | he
  · exact (ChunkPlace.localQueue.inj he).symm
  · exact absurd he localQueue_not_mem_placesFrom

/-- The places hold the same chunks as before. -/
theorem same (h : Carried bo n adj control tables s busy placed)
    (hholds : NetHolds bo n adj control tables net' busy' placed.held) :
    Carried bo n adj control tables { s with net := net' } busy' placed :=
  ⟨hholds, h.places, h.entered, h.pushed⟩

/-- **The first chunk of a place moves on.** -/
theorem move (h : Carried bo n adj control tables s busy placed) (hsimple : TablesSimple n tables)
    (hheld : placed.held p = x :: rest) (hnext : [p, q] <:+: chunkRoute tables x.1)
    (hholds : NetHolds bo n adj control tables net' busy' (moved placed.held p q x rest)) :
    Advances tables placed ⟨placed.entered, moved placed.held p q x rest⟩ ∧
      Carried bo n adj control tables { s with net := net' } busy'
        ⟨placed.entered, moved placed.held p q x rest⟩ := by
  have hpushed := h.pushed_of_held (show x ∈ placed.held p by rw [hheld]; exact List.mem_cons_self)
  have hstep : PlaceStep (itemRoute tables) placed
      ⟨placed.entered, moved placed.held p q x rest⟩ :=
    PlaceStep.move (chunkRoute_nodup hsimple hpushed.src) hheld hnext
  exact ⟨Relation.TransGen.single hstep, hholds, hstep.inv h.places, h.entered, h.pushed⟩

/-- A node or a channel of a node has its place in the network. -/
theorem placeIn_of_channel (h : Carried bo n adj control tables s busy placed) (hu : 0 ≤ u ∧ u < n)
    (hc : c ∈ (s.net.node u).man.channels ∨ c = (s.net.node u).man.localChan) :
    PlaceIn n adj (ChunkPlace.currBuff u c) := by
  rw [placeIn_currBuff]
  have hnode := h.holds.node u hu
  cases c with
  | none => exact Or.inl ⟨rfl, hu⟩
  | some v =>
      refine Or.inr ⟨v, rfl, hc.elim (hnode.channels v) fun he => ?_⟩
      rw [hnode.localChan] at he
      cases he

/-- The chunk that a channel holds. -/
theorem exists_held (h : Carried bo n adj control tables s busy placed)
    (hc : PlaceIn n adj (ChunkPlace.currBuff u c))
    (hchan : (s.net.node u).man.heap c = some chan) (hfull : Full busy u c chan) :
    ∃ x, placed.held (ChunkPlace.currBuff u c) = [x] ∧
      chan.currBuff = some (x.1.packed bo) := by
  obtain ⟨chan₁, hchan₁, -, hheld⟩ := h.holds.place _ hc
  obtain rfl : chan₁ = chan := Option.some.inj (hchan₁.symm.trans hchan)
  exact (hheld.resolve_right fun hn => hn.1 hfull).2

/-! ### Passing a chunk on -/

/-- **A held chunk moves to the queue of the next hop.** -/
theorem pass (h : Carried bo n adj control tables s busy placed) (hpeers : Peers n adj)
    (hsimple : TablesSimple n tables) (hu : 0 ≤ u ∧ u < n)
    (hc : PlaceIn n adj (ChunkPlace.currBuff u c)) (hv : adj u v)
    (hbusy : busy = none ∨ busy = some (u, c))
    (hx : placed.held (ChunkPlace.currBuff u c) = [x])
    (hnext : [ChunkPlace.currBuff u c, ChunkPlace.link u v] <:+: chunkRoute tables x.1) :
    ∃ placed', Advances tables placed placed' ∧ Carried bo n adj control tables
      (s.setMan u ((s.net.node u).man.moveChunk c (some v) (x.1.packed bo))) none placed' := by
  have hpushed := h.pushed_of_held
    (show x ∈ placed.held (ChunkPlace.currBuff u c) by rw [hx]; exact List.mem_cons_self)
  exact ⟨_, h.move hsimple hx hnext (h.holds.pass hpeers hu hc hv
    (chunkRoute_ne hsimple hpushed.src hnext) hbusy hx hpushed.ok hpushed.chunk)⟩

/-- **`channel_pipeline_chunk`** moves the chunk that is being passed on, or lets it wait. -/
theorem pipeline (h : Carried bo n adj control tables s (some (u, c)) placed) (hpeers : Peers n adj)
    (hsimple : TablesSimple n tables) (hu : 0 ≤ u ∧ u < n)
    (hc : PlaceIn n adj (ChunkPlace.currBuff u c)) (hv : adj u v)
    (hchan : (s.net.node u).man.heap c = some chan)
    (hx : placed.held (ChunkPlace.currBuff u c) = [x]) (huv : [u, v] <:+: chunkPath tables x.1)
    {isMoved : Bool}
    (hpipe : channelPipelineChunk (s.net.node u).man c (some v) = Except.ok (isMoved, man')) :
    ∃ placed', Moves tables placed placed' ∧
      Carried bo n adj control tables (s.setMan u man') none placed' := by
  have hcurr : chan.currBuff = some (x.1.packed bo) := by
    obtain ⟨y, hy, hcurr⟩ := h.exists_held hc hchan (Or.inr rfl)
    obtain rfl : y = x := by simpa [hx] using hy.symm
    exact hcurr
  have hmem : x ∈ placed.held (ChunkPlace.currBuff u c) := by
    rw [hx]
    exact List.mem_cons_self
  have hpushed := h.pushed_of_held hmem
  have hnext := chunkRoute_send hsimple hpushed.src (h.mem_route hmem) huv
  obtain ⟨chan₁, buff, _, hchan₁, hbuff₁, _, ⟨_, _, rfl⟩ | ⟨_, _, rfl⟩⟩ :=
    channelPipelineChunk_cases hpipe
  · obtain rfl : chan₁ = chan := Option.some.inj (hchan₁.symm.trans hchan)
    obtain rfl : buff = x.1.packed bo := Option.some.inj (hbuff₁.symm.trans hcurr)
    obtain ⟨placed', hmoves, hcarried⟩ := h.pass hpeers hsimple hu hc hv (Or.inr rfl) hx hnext
    exact ⟨placed', hmoves.to_reflTransGen, hcarried⟩
  · exact ⟨placed, Relation.ReflTransGen.refl, h.same (h.holds.join hpeers hu hc hv
      (chunkRoute_ne hsimple hpushed.src hnext) hx hnext)⟩

/-- The next hop of a chunk is a peer, and follows on its path. -/
theorem nexthop (h : Carried bo n adj control tables s busy placed) (hpeers : Peers n adj)
    (hu : 0 ≤ u ∧ u < n) {f : Frame} (hsrc : 0 ≤ f.info.srcId ∧ f.info.srcId < n) {next : Option ℤ}
    (hnext : iomanGetNexthopChannel (s.net.node u) f.info.srcId f.info.dstId = Except.ok next) :
    ∃ v, next = some v ∧ adj u v ∧ [u, v] <:+: chunkPath tables f := by
  have hnode := h.holds.node u hu
  obtain ⟨pid, hlookup, hmap⟩ := iomanGetNexthopChannel_mapped hnext
  obtain ⟨hadj, rfl⟩ := hnode.connected.mapped hmap
  have hpos := (hpeers.range (hpeers.symm hadj)).1
  rw [hnode.nodeId] at hlookup
  exact ⟨pid, rfl, hadj, lookup_next (hnode.rts _ hsrc) hlookup (by omega)⟩

end Carried

/-! ### Chunks that are read -/

theorem put_modify {κ : Type} [DecidableEq κ] {man : Ioman κ} {d : κ} {chan : Channel κ}
    (f : Channel κ → Channel κ) : (man.put d chan).modify d f = man.put d (f chan) := by
  have hput : (man.put d chan).heap d = some chan := Ioman.heap_put_self
  rw [← Ioman.put_apply f hput]
  unfold Ioman.put
  simp

/-- The header of a chunk in a queue is read as it is received. -/
theorem packed_info {f : Frame} (hok : f.Ok) {minfo : MsgInfo} {body : List Byte}
    (h : msgInfoUnpack bo (f.packed bo).unsent = some (minfo, body)) : minfo = f.info.onWire := by
  obtain ⟨body', hpack⟩ := msgInfoUnpack_packHeader bo hok.fits f.body
  rw [show f.packed bo = channelPackBuff bo f.info f.body from rfl, unsent_channelPackBuff,
    hpack] at h
  exact (Prod.mk.inj (Option.some.inj h)).1.symm

/-- A chunk that is passed on is in the buffer of its reader as it was packed. -/
theorem buff_eq_packed {f : Frame} (hkind : f.IsChunk) (hdst : f.info.dstId ≠ u) :
    f.buff bo u f.body = f.packed bo := by
  unfold Frame.buff Frame.packed channelPackBuff
  rw [Frame.start_of_pass hkind hdst, packHeader_length]

/-- The first frame of a link is its first chunk, or is none. -/
theorem first_chunk {f : Frame} {frames : List Frame} {xs : List (Frame × ℕ)}
    (h : (f :: frames).filter (fun g => g.IsChunk) = xs.map Prod.fst) (hf : f.IsChunk) :
    ∃ k rest, xs = (f, k) :: rest ∧ frames.filter (fun g => g.IsChunk) = rest.map Prod.fst := by
  rw [List.filter_cons_of_pos (by simpa using hf)] at h
  obtain ⟨⟨g, k⟩, rest, rfl, hg, hrest⟩ := List.map_eq_cons_iff.1 h.symm
  obtain rfl : g = f := hg
  exact ⟨k, rest, rfl, hrest.symm⟩

/-- **What a read does when a chunk for this node is complete.** -/
theorem iomanReadDone_deliver {node node' : CommNode (Option ℤ)} {now : ℚ} {msg : MsgBuff}
    (hkind : chan.msgInfo.kind = MsgKind.data.toInt) (hdst : chan.msgInfo.dstId = node.nodeId)
    (h : iomanReadDone bo now node c chan msg = Except.ok node') :
    node' = { node with
      man := node.man.modify c (Channel.setCurrBuff none)
      chunks := node.chunks ++ [(chan.msgInfo, msg.data)] } := by
  unfold iomanReadDone at h
  rw [if_pos hkind, if_pos hdst] at h
  obtain ⟨node₁, hchunk, h⟩ := bind_eq_ok.1 h
  obtain ⟨_, _, h⟩ := bind_eq_ok.1 h
  cases h
  rw [commNodeHandleChunk_cases hchunk]
  rfl

/-- **What a read does when a chunk for another node is complete.** -/
theorem iomanReadDone_pipeline {node node' : CommNode (Option ℤ)} {now : ℚ} {msg : MsgBuff}
    (hkind : chan.msgInfo.kind = MsgKind.data.toInt) (hdst : chan.msgInfo.dstId ≠ node.nodeId)
    (h : iomanReadDone bo now node c chan msg = Except.ok node') :
    ∃ next isMoved man',
      iomanGetNexthopChannel node chan.msgInfo.srcId chan.msgInfo.dstId = Except.ok next ∧
      channelPipelineChunk node.man c next = Except.ok (isMoved, man') ∧
      node' = node.setMan man' := by
  unfold iomanReadDone at h
  rw [if_pos hkind, if_neg hdst] at h
  obtain ⟨next, hnext, h⟩ := bind_eq_ok.1 h
  obtain ⟨⟨isMoved, man'⟩, hpipe, h⟩ := bind_eq_ok.1 h
  obtain ⟨_, _, h⟩ := bind_eq_ok.1 h
  cases h
  exact ⟨next, isMoved, man', hnext, hpipe, rfl⟩

/-! ### The steps of user threads -/

theorem setNode_setNode (net : Net) (u : ℤ) (node node' : CommNode (Option ℤ)) :
    (net.setNode u node).setNode u node' = net.setNode u node' := by
  unfold Net.setNode
  rw [Function.update_idem]

/-- The wait queues of the other nodes are as before. -/
theorem waitInv_setNode (h : ∀ x : ℤ, 0 ≤ x ∧ x < n → WaitInv (s.net.node x).man)
    (hnode : WaitInv node'.man) :
    ∀ x : ℤ, 0 ≤ x ∧ x < n → WaitInv ((s.net.setNode u node').node x).man := by
  intro x hx
  by_cases hxu : x = u
  · rw [hxu, Net.setNode_node_self]
    exact hnode
  · rw [Net.setNode_node_of_ne hxu]
    exact h x hx

namespace ForwardInv

/-- A step that does not concern the chunks. -/
theorem plain (h : ForwardInv bo n adj control tables s placed) (hpeers : Peers n adj)
    (hu : 0 ≤ u ∧ u < n) (hstep : PlainStep bo control (s.net.node u) node')
    (hcalm : Calm (s.net.node u).man node'.man) :
    ForwardInv bo n adj control tables { s with net := s.net.setNode u node' } placed where
  toCarried := h.same (h.holds.plain hpeers hu hstep)
  waitInv := waitInv_setNode h.waitInv ((h.waitInv u hu).calm hcalm)

/-- **A chunk is pushed.** -/
theorem push (h : ForwardInv bo n adj control tables s placed) (hpeers : Peers n adj)
    (hu : 0 ≤ u ∧ u < n) {f : Frame} (hok : f.Ok) (hkind : f.IsChunk) (hsrc : f.info.srcId = u)
    (hchan : (s.net.node u).man.heap none = some chan) :
    ∃ placed', Moves tables placed placed' ∧ ForwardInv bo n adj control tables
      { s.setMan u ((s.net.node u).man.put none (chan.appendBuff (f.packed bo))) with
        accepted := s.accepted ++ [f] } placed' := by
  have hnew : (f, s.accepted.length) ∉ placed.entered := by
    intro hm
    rw [h.entered] at hm
    have := List.snd_lt_of_mem_zipIdx hm
    simp at this
  have hfirst : (itemRoute tables (f, s.accepted.length)).head? =
      some (ChunkPlace.localQueue u) := by
    rw [← hsrc]
    rfl
  have hstep : PlaceStep (itemRoute tables) placed ⟨placed.entered ++ [(f, s.accepted.length)],
      added placed.held (ChunkPlace.localQueue u) (f, s.accepted.length)⟩ :=
    PlaceStep.enter hnew hfirst
  refine ⟨_, Relation.ReflTransGen.single hstep, ⟨?_, hstep.inv h.places, ?_, fun g hg => ?_⟩, ?_⟩
  · exact h.holds.push hpeers hu hchan (f, s.accepted.length)
  · rw [h.entered, List.zipIdx_append]
    simp
  · rcases List.mem_append.1 hg with hg | hg
    · exact h.pushed g hg
    · rw [List.mem_singleton.1 hg]
      exact ⟨hok, hkind, by rw [hsrc]; exact hu⟩
  · exact waitInv_setNode h.waitInv ((h.waitInv u hu).calm (appendBuff_calm hchan))

/-! ### Reading the local channel -/

theorem ready (h : ForwardInv bo n adj control tables s placed) (hu : 0 ≤ u ∧ u < n)
    (hchan : (s.net.node u).man.heap c = some chan) (hready : channelIsReadable chan) :
    Reader.Ready s.net u c chan :=
  ⟨hchan, active_of_readable hready, fun d hd => (not_blocking_of_readable hchan hready).2
    ((h.waitInv u hu).waits.blocked_of_mem d c hd)⟩

/-- **The first chunk of the local queue** goes to the local channel; its next hop is a peer. -/
theorem pop (h : ForwardInv bo n adj control tables s placed) (hpeers : Peers n adj)
    (hsimple : TablesSimple n tables) (hu : 0 ≤ u ∧ u < n)
    (hready : Reader.Ready s.net u none chan) {chunk : MsgBuff} {next : Option ℤ}
    (hpop : channelLocalPopChunk bo chan = Except.ok (chunk, chan'))
    (hnext : iomanGetNexthopChannel (s.net.node u) chan'.msgInfo.srcId chan'.msgInfo.dstId =
      Except.ok next) :
    ∃ v x placed', next = some v ∧ adj u v ∧ [u, v] <:+: chunkPath tables x.1 ∧
      Advances tables placed placed' ∧ placed'.held (ChunkPlace.currBuff u none) = [x] ∧
      Carried bo n adj control tables (s.setMan u ((s.net.node u).man.put none
        (chan'.setCurrBuff (some chunk)))) (some (u, none)) placed' := by
  obtain ⟨queue, minfo, _, _, hq, hunpack, rfl⟩ := channelLocalPopChunk_cases hpop
  -- the first chunk of the queue is the first one of the place
  obtain ⟨chan₂, hchan₂, hplace⟩ := h.holds.place (ChunkPlace.localQueue u) hu
  obtain rfl : chan₂ = chan := Option.some.inj (hchan₂.symm.trans hready.heap)
  rw [hq] at hplace
  obtain ⟨x, rest, hx, rfl, hrest⟩ := List.map_eq_cons_iff.1 hplace.symm
  have hmem : x ∈ placed.held (ChunkPlace.localQueue u) := by
    rw [hx]
    exact List.mem_cons_self
  have hpushed := h.pushed_of_held hmem
  have hsrc := h.src_of_localQueue hmem
  obtain rfl := packed_info hpushed.ok hunpack
  obtain ⟨v, rfl, hv, huv⟩ := h.nexthop hpeers hu hpushed.src hnext
  have henter := chunkRoute_enter hsimple hpushed.src (by rw [hsrc]; exact huv)
  rw [hsrc] at henter
  generalize hnew : Channel.setCurrBuff (some (x.1.packed bo)) _ = chan'
  have hpopped : chan'.peerId = chan₂.peerId ∧ chan'.connectState = chan₂.connectState ∧
      chan'.state = chan₂.state ∧ chan'.waitQueue = chan₂.waitQueue ∧ chan'.buffQueue = queue ∧
      chan'.currBuff = some (x.1.packed bo) := by
    rw [← hnew]
    exact ⟨rfl, rfl, rfl, rfl, rfl, rfl⟩
  obtain ⟨hpeer, hconn, hstate, hwait, hqueue, hcurr⟩ := hpopped
  obtain ⟨hmoves, hcarried⟩ := h.move hsimple hx henter (h.holds.pop hpeers hu hready hpeer hconn
    (hstate.trans hready.active) hwait (hqueue.trans hrest.symm) hcurr)
  have hself : moved placed.held (ChunkPlace.localQueue u) (ChunkPlace.currBuff u none) x rest
      (ChunkPlace.currBuff u none) = [x] := moved_nil nofun (h.holds.curr_ready hu hready)
  exact ⟨v, x, _, rfl, hv, huv, hmoves, hself, hcarried⟩

/-- **The I/O thread reads the local channel.** -/
theorem localRead (h : ForwardInv bo n adj control tables s placed) (hpeers : Peers n adj)
    (hsimple : TablesSimple n tables) (hu : 0 ≤ u ∧ u < n)
    (hchan : (s.net.node u).man.heap (s.net.node u).man.localChan = some chan)
    (hready : channelIsReadable chan)
    (hread : iomanProcessLocalChannelRead bo (s.net.node u) = Except.ok node') :
    ∃ placed', Advances tables placed placed' ∧
      ForwardInv bo n adj control tables { s with net := s.net.setNode u node' } placed' := by
  have hnode := h.holds.node u hu
  have hwait := iomanProcessLocalChannelRead_waitInv hread (h.waitInv u hu) hnode.channelsInv
    (not_blocking_of_readable hchan hready).2
  obtain ⟨chan₁, chunk, chan', next, _, man', hchan₁, hpop, hnext, hpipe, rfl⟩ :=
    iomanProcessLocalChannelRead_cases hread
  obtain rfl : chan₁ = chan := Option.some.inj (hchan₁.symm.trans hchan)
  rw [hnode.localChan] at hchan hpipe
  obtain ⟨v, x, placed', rfl, hv, huv, hmoves, hx, hcarried⟩ :=
    h.pop hpeers hsimple hu (h.ready hu hchan hready) hpop hnext
  unfold Forwarding.setMan at hcarried
  have hheap : ((s.net.node u).man.put none (chan'.setCurrBuff (some chunk))).heap none =
      some (chan'.setCurrBuff (some chunk)) := Ioman.heap_put_self
  obtain ⟨placed'', hmoves', hcarried'⟩ := hcarried.pipeline hpeers hsimple hu hu hv
    (by rw [Net.setNode_node_self]; exact hheap) hx huv
    (by rw [Net.setNode_node_self]; exact hpipe)
  refine ⟨placed'', hmoves.trans_left hmoves', ?_, waitInv_setNode h.waitInv hwait⟩
  unfold Forwarding.setMan at hcarried'
  rw [Net.setNode_node_self, setNode_setNode] at hcarried'
  exact hcarried'

/-! ### Reading a channel -/

/-- A read of `u` concerns the wait queues of `u`. -/
theorem read_waitInv (h : ForwardInv bo n adj control tables s placed) (hu : 0 ≤ u ∧ u < n)
    {now : ℚ} (hread : NetRead bo now u v s.net net') :
    ∀ x : ℤ, 0 ≤ x ∧ x < n → WaitInv (net'.node x).man := by
  obtain ⟨hready, hread⟩ := hread
  obtain ⟨chan, hchan, hstep⟩ := iomanProcessChannelRead_cases hread
  obtain ⟨chan₁, hchan₁, hreadable⟩ := hready.readable
  obtain rfl : chan₁ = chan := Option.some.inj (hchan₁.symm.trans hchan)
  exact waitInv_setNode h.waitInv (hstep.waitInv hchan
    (not_blocking_of_readable hchan hreadable).1 (h.waitInv u hu)
    (h.holds.node u hu).channelsInv hready.channel)

/-- **A chunk for this node is delivered.** -/
theorem deliver (h : ForwardInv bo n adj control tables s placed) (hpeers : Peers n adj)
    (hsimple : TablesSimple n tables) (hv : adj u v) (hready : Reader.Ready s.net u (some v) chan)
    {cu : Channel (Option ℤ)} (hcu : (s.net.node v).man.heap (some u) = some cu) {f : Frame}
    {frames : List Frame} {wire : List Byte} {now : ℚ} (hreads : Reads chan chan')
    (hdone : f.Done bo u chan') (hok : ∀ g ∈ frames, g.Ok)
    (hbytes : wire ++ cu.buffQueue.flatMap MsgBuff.unsent = frames.flatMap (Frame.encode bo))
    (hqueue : QueueOk control cu.buffQueue (f :: frames))
    (hheld : (f :: frames).filter (fun g => g.IsChunk) =
      (placed.held (ChunkPlace.link v u)).map Prod.fst)
    (hkind : f.IsChunk) (hdst : f.info.dstId = u)
    (hread : iomanReadDone bo now ((s.net.node u).setMan ((s.net.node u).man.put (some v) chan'))
      (some v) chan' (f.buff bo u f.body) = Except.ok node') :
    ∃ placed', Advances tables placed placed' ∧ Carried bo n adj control tables
      { s with net := (s.net.setNode u node').setWire v u wire } none placed' := by
  have hu := hpeers.range hv
  obtain ⟨k, rest, hlink, hrest⟩ := first_chunk hheld hkind
  have hmem : (f, k) ∈ placed.held (ChunkPlace.link v u) := by
    rw [hlink]
    exact List.mem_cons_self
  have hnext := chunkRoute_deliver hsimple (h.pushed_of_held hmem).src (h.mem_route hmem) hdst
  have hinfo := hdone.msgInfo
  have hnode := iomanReadDone_deliver (by rw [hinfo]; exact hkind)
    (by rw [hinfo]; exact hdst.trans (h.holds.node u hu).nodeId.symm) hread
  have hdata : (f.buff bo u f.body).data = f.body := by
    unfold Frame.buff
    rw [Frame.start_of_dst hdst]
    rfl
  obtain rfl : node' = { s.net.node u with
      man := (s.net.node u).man.put (some v) (chan'.setCurrBuff none)
      chunks := (s.net.node u).chunks ++ [f.handed] } := by
    rw [hnode, hinfo, hdata, ← put_modify]
    rfl
  have hreads' : Reads chan (chan'.setCurrBuff none) :=
    ⟨hreads.connectState, hreads.peerId, hreads.buffQueue, hreads.state, hreads.waitQueue,
      hreads.pipe⟩
  exact ⟨_, h.move hsimple hlink hnext (h.holds.deliver (x := (f, k)) hpeers hv hready hreads' hcu
    hdone.headerOff rfl hok hbytes hqueue.tail hrest)⟩

/-- **A chunk for another node is passed on**, or waits. -/
theorem arrive (h : ForwardInv bo n adj control tables s placed) (hpeers : Peers n adj)
    (hsimple : TablesSimple n tables) (hv : adj u v) (hready : Reader.Ready s.net u (some v) chan)
    {cu : Channel (Option ℤ)} (hcu : (s.net.node v).man.heap (some u) = some cu) {f : Frame}
    {frames : List Frame} {wire : List Byte} {now : ℚ} (hreads : Reads chan chan')
    (hdone : f.Done bo u chan') (hok : ∀ g ∈ frames, g.Ok)
    (hbytes : wire ++ cu.buffQueue.flatMap MsgBuff.unsent = frames.flatMap (Frame.encode bo))
    (hqueue : QueueOk control cu.buffQueue (f :: frames))
    (hheld : (f :: frames).filter (fun g => g.IsChunk) =
      (placed.held (ChunkPlace.link v u)).map Prod.fst)
    (hkind : f.IsChunk) (hdst : f.info.dstId ≠ u)
    (hread : iomanReadDone bo now ((s.net.node u).setMan ((s.net.node u).man.put (some v) chan'))
      (some v) chan' (f.buff bo u f.body) = Except.ok node') :
    ∃ placed', Advances tables placed placed' ∧ Carried bo n adj control tables
      { s with net := (s.net.setNode u node').setWire v u wire } none placed' := by
  have hu := hpeers.range hv
  obtain ⟨k, rest, hlink, hrest⟩ := first_chunk hheld hkind
  have hmem : (f, k) ∈ placed.held (ChunkPlace.link v u) := by
    rw [hlink]
    exact List.mem_cons_self
  have hsrc := (h.pushed_of_held hmem).src
  have harrive := chunkRoute_arrive hsimple hsrc (h.mem_route hmem) hdst
  have hinfo := hdone.msgInfo
  obtain ⟨next, isMoved, man', hnext, hpipe, rfl⟩ := iomanReadDone_pipeline
    (by rw [hinfo]; exact hkind)
    (by rw [hinfo]; exact fun he => hdst (he.trans (h.holds.node u hu).nodeId)) hread
  have hcurr : chan'.currBuff = some (f.packed bo) := by
    rw [← buff_eq_packed hkind hdst]
    exact hdone.currBuff.trans (if_pos hkind)
  -- the chunk is held by the channel, which is being read
  obtain ⟨hmoves, hcarried⟩ := h.move hsimple hlink harrive (h.holds.arrive (x := (f, k)) hpeers hv
    hready hreads hcu hdone.headerOff hcurr hok hbytes hqueue.tail hrest)
  have hnode : ((s.net.setNode u ((s.net.node u).setMan
      ((s.net.node u).man.put (some v) chan'))).setWire v u wire).node u =
        (s.net.node u).setMan ((s.net.node u).man.put (some v) chan') := Net.node_changed
  have hself : moved placed.held (ChunkPlace.link v u) (ChunkPlace.currBuff u (some v)) (f, k) rest
      (ChunkPlace.currBuff u (some v)) = [(f, k)] := moved_nil nofun (h.holds.curr_ready hv hready)
  rw [hinfo, ← hnode] at hnext
  obtain ⟨w, rfl, hw, huw⟩ := hcarried.nexthop hpeers hu hsrc hnext
  obtain ⟨placed', hmoves', hcarried'⟩ := hcarried.pipeline hpeers hsimple hu hv hw
    (by rw [hnode]; exact Ioman.heap_put_self) hself huw (by rw [hnode]; exact hpipe)
  refine ⟨placed', hmoves.trans_left hmoves', ?_⟩
  unfold Forwarding.setMan at hcarried'
  rw [hnode] at hcarried'
  dsimp only at hcarried'
  rw [setNode_setWire_setNode] at hcarried'
  exact hcarried'

/-- **A message that is no chunk is handled.** -/
theorem message (h : ForwardInv bo n adj control tables s placed) (hn : n ≤ commMaxPeer)
    (hpeers : Peers n adj) (hv : adj u v) (hready : Reader.Ready s.net u (some v) chan)
    {cu : Channel (Option ℤ)} (hcu : (s.net.node v).man.heap (some u) = some cu) {f : Frame}
    {frames : List Frame} {wire : List Byte} {now : ℚ} (hreads : Reads chan chan') (hf : f.Ok)
    (hdone : f.Done bo u chan') (hok : ∀ g ∈ frames, g.Ok)
    (hbytes : wire ++ cu.buffQueue.flatMap MsgBuff.unsent = frames.flatMap (Frame.encode bo))
    (hqueue : QueueOk control cu.buffQueue (f :: frames))
    (hheld : (f :: frames).filter (fun g => g.IsChunk) =
      (placed.held (ChunkPlace.link v u)).map Prod.fst) (hkind : ¬ f.IsChunk)
    (hread : iomanReadDone bo now ((s.net.node u).setMan ((s.net.node u).man.put (some v) chan'))
      (some v) chan' (f.buff bo u f.body) = Except.ok node') :
    Carried bo n adj control tables { s with net := (s.net.setNode u node').setWire v u wire } none
      placed := by
  have hu := hpeers.range hv
  have hcurr : chan'.currBuff = none := hdone.currBuff.trans (if_neg hkind)
  have hlink : LinkOk bo u cu.buffQueue wire chan' frames :=
    LinkOk.of_read hok hbytes hdone.headerOff fun _ => hcurr
  rw [List.filter_cons_of_neg (by simpa using hkind)] at hheld
  have hholds := h.holds.reader hpeers hv hready hreads hcu hlink hqueue.tail hheld
  have hnode : ((s.net.setNode u ((s.net.node u).setMan
      ((s.net.node u).man.put (some v) chan'))).setWire v u wire).node u =
        (s.net.node u).setMan ((s.net.node u).man.put (some v) chan') := Net.node_changed
  have hforwards := hholds.node u hu
  rw [hnode] at hforwards
  have hplain : PlainStep bo control ((s.net.node u).setMan ((s.net.node u).man.put (some v) chan'))
      node' := by
    refine (commNodeHandleMsg_message (iomanReadDone_msg hkind hdone.msgInfo hread)
      hforwards.connected hn hu hv ((hqueue.chunks f List.mem_cons_self).resolve_left hkind)
        ?_).toPlainStep
    rw [← hf.len]
    exact hf.fits.len
  rw [← hnode] at hplain
  have hnew := hholds.plain hpeers hu hplain
  rw [setNode_setWire_setNode] at hnew
  exact h.same hnew

/-- **The I/O thread reads a channel**: chunks move on, or a part of a frame is read, or a message
that is no chunk is handled. -/
theorem read (h : ForwardInv bo n adj control tables s placed) (hn : n ≤ commMaxPeer)
    (hpeers : Peers n adj) (hsimple : TablesSimple n tables) (hu : 0 ≤ u ∧ u < n) {now : ℚ}
    (hread : NetRead bo now u v s.net net') :
    ∃ placed', AdvancesOr tables (control ∨ PartRead u v s.net net') placed placed' ∧
      ForwardInv bo n adj control tables { s with net := net' } placed' := by
  have hnode := h.holds.node u hu
  have hwait := h.read_waitInv hu hread
  have hstart : adj u v ∧ ∃ chan, Reader.Ready s.net u (some v) chan := by
    obtain ⟨hready, _⟩ := hread
    obtain ⟨chan, hchan, hreadable⟩ := hready.readable
    exact ⟨hnode.channels v hready.channel, chan, h.ready hu hchan hreadable⟩
  obtain ⟨hv, chan, hready⟩ := hstart
  obtain ⟨cu, frames, hcu, hlink, hqueue, hheld⟩ := h.holds.link_ready hpeers hv hready
  have hlinkOk : LinkOk bo (s.net.node u).nodeId cu.buffQueue (s.net.wire v u) chan frames := by
    rw [hnode.nodeId]
    exact hlink
  cases hread.outcome hready.heap hlinkOk with
  | part hreads hlink' =>
      rw [hnode.nodeId] at hlink'
      exact ⟨placed, Or.inr ⟨rfl, Or.inr ⟨chan, _, _, hready.heap, hreads.buffQueue, rfl⟩⟩,
        h.same (h.holds.reader hpeers hv hready hreads hcu hlink' hqueue hheld), hwait⟩
  | @full f _ _ _ _ hreads hf hdone hok hbytes hdoneRead =>
      rw [hnode.nodeId] at hdone hdoneRead
      by_cases hkind : f.IsChunk
      · by_cases hdst : f.info.dstId = u
        · obtain ⟨placed', hmoves, hcarried⟩ := h.deliver hpeers hsimple hv hready hcu hreads hdone
            hok hbytes hqueue hheld hkind hdst hdoneRead
          exact ⟨placed', Or.inl hmoves, hcarried, hwait⟩
        · obtain ⟨placed', hmoves, hcarried⟩ := h.arrive hpeers hsimple hv hready hcu hreads hdone
            hok hbytes hqueue hheld hkind hdst hdoneRead
          exact ⟨placed', Or.inl hmoves, hcarried, hwait⟩
      · have hcontrol : control := (hqueue.chunks f List.mem_cons_self).resolve_left hkind
        exact ⟨placed, Or.inr ⟨rfl, Or.inl hcontrol⟩, h.message hn hpeers hv hready hcu hreads hf
          hdone hok hbytes hqueue hheld hkind hdoneRead, hwait⟩

end ForwardInv

/-! ### Writing a channel -/

/-- The node `u` has sent bytes to `v`. -/
def Net.sent (net : Net) (u v : ℤ) (man : Ioman (Option ℤ)) (bytes : List Byte) : Net :=
  (net.setNode u ((net.node u).setMan man)).setWire u v (net.wire u v ++ bytes)

theorem sent_self (net : Net) (u v : ℤ) : net.sent u v (net.node u).man [] = net := by
  unfold Net.sent Net.setNode Net.setWire
  have hnode : (net.node u).setMan (net.node u).man = net.node u := rfl
  have hwire : (fun x y => if x = u ∧ y = v then net.wire u v ++ [] else net.wire x y) =
      net.wire := by
    funext x y
    split
    · rename_i hxy
      rw [hxy.1, hxy.2, List.append_nil]
    · rfl
  rw [hnode, Function.update_eq_self]
  dsimp only
  rw [hwire]

theorem sent_nil (net : Net) (u v : ℤ) (man : Ioman (Option ℤ)) :
    net.sent u v man [] = net.setNode u ((net.node u).setMan man) := by
  have h := sent_self (net.setNode u ((net.node u).setMan man)) u v
  unfold Net.sent at h ⊢
  rw [Net.setNode_node_self, setNode_setNode] at h
  exact h

theorem sent_sent (net : Net) (u v : ℤ) (man man' : Ioman (Option ℤ)) (bytes bytes' : List Byte) :
    (net.sent u v man bytes).sent u v man' bytes' = net.sent u v man' (bytes ++ bytes') := by
  have hnode : (net.sent u v man bytes).setNode u ((net.node u).setMan man') =
      (net.setNode u ((net.node u).setMan man')).setWire u v (net.wire u v ++ bytes) := by
    unfold Net.sent Net.setNode Net.setWire
    dsimp only
    rw [Function.update_idem]
  unfold Net.sent at hnode ⊢
  rw [Net.node_changed, Net.setWire_wire_self, List.append_assoc]
  refine (congrArg (fun net => Net.setWire net u v _) hnode).trans ?_
  unfold Net.setWire
  congr 1
  funext x y
  split
  · rfl
  · rename_i hxy
    exact if_neg hxy

theorem sent_man (net : Net) (u v : ℤ) (man : Ioman (Option ℤ)) (bytes : List Byte) :
    ((net.sent u v man bytes).node u).man = man := by
  unfold Net.sent
  rw [Net.node_changed]
  rfl

namespace Carried

/-- **A waiting channel is released**: its chunk moves to the queue. -/
theorem release (h : Carried bo n adj control tables s none placed) (hpeers : Peers n adj)
    (hsimple : TablesSimple n tables) (hv : adj u v) (hcore : WaitCore (s.net.node u).man)
    (hrelease : Release (some v) (s.net.node u).man man') :
    ∃ placed', Advances tables placed placed' ∧
      Carried bo n adj control tables { s with net := s.net.sent u v man' [] } none placed' := by
  have hu := hpeers.range hv
  obtain ⟨w, ws, buff, _, hwq, hwlive, hbuff, _, rfl⟩ := hrelease
  have hmem : w ∈ (s.net.node u).man.waitQueue (some v) := by
    rw [hwq]
    exact List.mem_cons_self
  have hblocking := hcore.waits.blocked_of_mem (some v) w hmem
  have hplace := h.placeIn_of_channel hu (hcore.waiter w hblocking)
  obtain ⟨chan, hchan⟩ := Ioman.exists_of_live hwlive
  obtain ⟨x, hx, hcurr⟩ := h.exists_held hplace hchan
    (Or.inl ((Ioman.blocking_iff hchan).1 hblocking))
  obtain rfl : buff = x.1.packed bo := by
    rw [Ioman.view_eq hchan, hcurr] at hbuff
    exact (Option.some.inj (Option.some.inj hbuff)).symm
  have hnext := h.holds.waits u hu v w hmem x (by rw [hx]; exact List.mem_singleton_self x)
  have hws : ∀ y ∈ ws, y ∈ (s.net.node u).man.waitQueue (some v) := fun y hy => by
    rw [hwq]
    exact List.mem_cons_of_mem _ hy
  have hdropped := h.same (h.holds.dropWaiters hpeers hu hws)
  obtain ⟨placed', hmoves, hcarried⟩ := hdropped.pass hpeers hsimple hu hplace hv (Or.inl rfl) hx
    hnext
  refine ⟨placed', hmoves, ?_⟩
  unfold Forwarding.setMan at hcarried
  rw [Net.setNode_node_self, setNode_setNode] at hcarried
  rw [sent_nil]
  exact hcarried

/-- One step of a write. -/
theorem writeMicro (h : Carried bo n adj control tables s none placed) (hpeers : Peers n adj)
    (hsimple : TablesSimple n tables) (hv : adj u v) (hcore : WaitCore (s.net.node u).man)
    {bytes : List Byte} (hmicro : WriteMicro (some v) (s.net.node u).man bytes man') :
    WaitCore man' ∧ ∃ placed',
      AdvancesOr tables (PartSent (some v) (s.net.node u).man bytes man') placed placed' ∧
      Carried bo n adj control tables { s with net := s.net.sent u v man' bytes } none placed' := by
  cases hmicro with
  | @part chan buff buff' bs _ hchan hq hbytes hne =>
      have hsent : bytes ++ (buff' :: bs).flatMap MsgBuff.unsent =
          chan.buffQueue.flatMap MsgBuff.unsent := by
        rw [hq, List.flatMap_cons, List.flatMap_cons, hbytes, List.append_assoc]
      refine ⟨hcore.setBuffQueue, placed, Or.inr ⟨rfl, PartSent.setBuffQueue hchan hsent⟩,
        h.same (h.holds.send hpeers hv hchan hsent fun b hb => ?_)⟩
      · rcases List.mem_cons.1 hb with rfl | hb
        · exact Or.inr hne
        · exact Or.inl (by rw [hq]; exact List.mem_cons_of_mem _ hb)
  | @whole chan buff bs hchan hq =>
      have hsent : buff.unsent ++ bs.flatMap MsgBuff.unsent =
          chan.buffQueue.flatMap MsgBuff.unsent := by
        rw [hq, List.flatMap_cons]
      refine ⟨hcore.setBuffQueue, placed, Or.inr ⟨rfl, PartSent.setBuffQueue hchan hsent⟩,
        h.same (h.holds.send hpeers hv hchan hsent fun b hb => ?_)⟩
      · exact Or.inl (by rw [hq]; exact List.mem_cons_of_mem _ hb)
  | release hrelease =>
      obtain ⟨placed', hmoves, hcarried⟩ := h.release hpeers hsimple hv hcore hrelease
      exact ⟨hrelease.waitCore hcore, placed', Or.inl hmoves, hcarried⟩

/-- **A run of `channel_write`** moves the chunks of the channels that it releases, or it sends bytes
only. -/
theorem writeRun (hpeers : Peers n adj) (hsimple : TablesSimple n tables) (hv : adj u v)
    {man : Ioman (Option ℤ)} {bytes : List Byte} (hrun : WriteRun (some v) man bytes man')
    (h : Carried bo n adj control tables s none placed) (hman : (s.net.node u).man = man)
    (hcore : WaitCore man) :
    ∃ placed', AdvancesOr tables (PartSent (some v) man bytes man') placed placed' ∧
      Carried bo n adj control tables { s with net := s.net.sent u v man' bytes } none placed' := by
  induction hrun generalizing s placed with
  | refl man =>
      subst hman
      rw [sent_self]
      exact ⟨placed, Or.inr ⟨rfl, PartSent.refl _ _⟩, h⟩
  | @step man man₁ man₂ bytes bytes' hmicro _ ih =>
      subst hman
      obtain ⟨hcore₁, placed₁, hmoves, hcarried⟩ := h.writeMicro hpeers hsimple hv hcore hmicro
      obtain ⟨placed', hmoves', hcarried'⟩ := ih hcarried (sent_man s.net u v man₁ bytes) hcore₁
      rw [sent_sent] at hcarried'
      exact ⟨placed', hmoves.trans hmoves' fun hsent hsent' => hsent.trans hsent', hcarried'⟩

end Carried

/-- **The I/O thread writes a channel.** -/
theorem ForwardInv.write (h : ForwardInv bo n adj control tables s placed) (hpeers : Peers n adj)
    (hsimple : TablesSimple n tables) (hu : 0 ≤ u ∧ u < n) {sent : List Byte}
    (hwrite : NetWrite bo u v s.net sent net') :
    ∃ placed', AdvancesOr tables (∃ man', net' = s.net.sent u v man' sent ∧
        PartSent (some v) (s.net.node u).man sent man') placed placed' ∧
      ForwardInv bo n adj control tables { s with net := net' } placed' := by
  have hstart : adj u v ∧ ∃ chan, (s.net.node u).man.heap (some v) = some chan := by
    obtain ⟨hready, _⟩ := hwrite
    obtain ⟨chan, hchan, _⟩ := hready.writable
    exact ⟨(h.holds.node u hu).channels v hready.channel, chan, hchan⟩
  obtain ⟨hv, chan, hchan⟩ := hstart
  have hwait : ∀ x : ℤ, 0 ≤ x ∧ x < n → WaitInv (net'.node x).man := by
    obtain ⟨hready, hwrite⟩ := hwrite
    obtain ⟨chan₁, hchan₁, hstep⟩ := iomanProcessChannelWrite_cases hwrite
    exact waitInv_setNode h.waitInv (hstep.waitInv hchan₁ (h.waitInv u hu))
  obtain ⟨node', rfl, ⟨hsetup, _⟩ | ⟨_, man', rfl, hrun⟩⟩ := hwrite.outcome hchan
  · -- the connection has been made before
    obtain ⟨chan₁, hchan₁, hstate, _⟩ := h.holds.place (ChunkPlace.currBuff u (some v)) hv
    obtain rfl : chan₁ = chan := Option.some.inj (hchan₁.symm.trans hchan)
    rw [hsetup] at hstate
    rcases hstate with hs | hs <;> cases hs
  · obtain ⟨placed', hmoves, hcarried⟩ := Carried.writeRun hpeers hsimple hv hrun h.toCarried rfl
      (h.waitInv u hu).toWaitCore
    exact ⟨placed', hmoves.imp id fun hsame => ⟨hsame.1, man', rfl, hsame.2⟩, hcarried, hwait⟩

/-! ### Runs -/

theorem ForwardIoStep.refines (hstep : ForwardIoStep bo n s s') (hn : n ≤ commMaxPeer)
    (hpeers : Peers n adj) (hsimple : TablesSimple n tables)
    (h : ForwardInv bo n adj control tables s placed) :
    ∃ placed', Moves tables placed placed' ∧ ForwardInv bo n adj control tables s' placed' := by
  cases hstep with
  | localRead hu hchan hready _ hread =>
      obtain ⟨placed', hmoves, hinv⟩ := h.localRead hpeers hsimple hu hchan hready hread
      exact ⟨placed', hmoves.to_reflTransGen, hinv⟩
  | read hu hread =>
      obtain ⟨placed', hmoves, hinv⟩ := h.read hn hpeers hsimple hu hread
      exact ⟨placed', hmoves.moves, hinv⟩
  | write hu hwrite =>
      obtain ⟨placed', hmoves, hinv⟩ := h.write hpeers hsimple hu hwrite
      exact ⟨placed', hmoves.moves, hinv⟩

/-- **Every step moves chunks along their routes.** -/
theorem ForwardStep.refines (hstep : ForwardStep bo n s s') (hn : n ≤ commMaxPeer)
    (hpeers : Peers n adj) (hsimple : TablesSimple n tables)
    (h : ForwardInv bo n adj control tables s placed) :
    ∃ placed', Moves tables placed placed' ∧ ForwardInv bo n adj control tables s' placed' := by
  cases hstep with
  | push hu hok hchan hpush =>
      obtain ⟨_, rfl⟩ := channelLocalPushChunk_cases hpush
      rw [(h.holds.node _ hu).localChan] at hchan ⊢
      exact h.push hpeers hu hok rfl rfl hchan
  | token hu hchan _ =>
      have hcalm := channelLocalPushToken_calm hchan
      refine ⟨placed, Relation.ReflTransGen.refl, h.plain hpeers hu ?_ hcalm⟩
      rw [Ioman.put_apply channelLocalPushToken hchan]
      exact plainStep_modify _ (fun _ => rfl) (fun _ => ⟨rfl, rfl, rfl, rfl, rfl⟩) (fun _ => rfl)
        fun _ => rfl
  | notify hu =>
      exact ⟨placed, Relation.ReflTransGen.refl, h.plain hpeers hu
        (messageStep_event (Or.inl rfl)).toPlainStep (Calm.of_heap rfl rfl fun _ he => he)⟩
  | event hu hevent =>
      exact ⟨placed, Relation.ReflTransGen.refl, h.plain hpeers hu
        (iomanHandleEvent_message hevent (h.holds.node _ hu).connected hn hu).toPlainStep
        (iomanHandleEvent_calm hevent)⟩
  | io hio => exact hio.refines hn hpeers hsimple h

/-- In the beginning the places are empty. -/
theorem ForwardStart.inv (h : ForwardStart bo n adj control tables s) (hpeers : Peers n adj) :
    ForwardInv bo n adj control tables s placedStart where
  holds := by
    refine ⟨h.node, fun p hp => ?_, fun _ _ => rfl, fun _ _ _ _ _ _ hx => by cases hx⟩
    have hcurr : ∀ (u : ℤ) c, 0 ≤ u ∧ u < n → ∀ chan, (s.net.node u).man.heap c = some chan →
        ¬ Full none u c chan := fun u c hu chan hchan => not_full_none (h.idle u hu c chan hchan).1
    cases p with
    | localQueue u =>
        obtain ⟨chan, hchan, hq, _⟩ := h.source u hp
        exact ⟨chan, hchan, hq⟩
    | currBuff u c =>
        have hlive : 0 ≤ u ∧ u < n ∧ ∃ chan, (s.net.node u).man.heap c = some chan := by
          rcases placeIn_currBuff.1 hp with ⟨rfl, hu⟩ | ⟨v, rfl, hv⟩
          · obtain ⟨chan, hchan, _⟩ := h.source u hu
            exact ⟨hu.1, hu.2, chan, hchan⟩
          · obtain ⟨cu, _, _, hcu, _⟩ := h.link u v hv
            have hu := hpeers.range hv
            exact ⟨hu.1, hu.2, cu, hcu⟩
        obtain ⟨hlo, hhi, chan, hchan⟩ := hlive
        exact ⟨chan, hchan, Or.inl (h.idle u ⟨hlo, hhi⟩ c chan hchan).1,
          Or.inr ⟨hcurr u c ⟨hlo, hhi⟩ chan hchan, rfl⟩⟩
    | link u v =>
        obtain ⟨cu, cv, frames, hcu, hcv, hlink, hqueue, hnone⟩ := h.link u v hp
        refine ⟨cu, cv, frames, hcu, hcv,
          LinkCarries.reading (hcurr v _ (hpeers.range (hpeers.symm hp)) cv hcv) hlink, hqueue, ?_⟩
        exact List.filter_eq_nil_iff.2 fun f hf => by simpa using hnone f hf
    | delivered u => exact h.chunks u hp
  places := placeInv_start
  entered := by rw [h.accepted]; rfl
  pushed := by
    rw [h.accepted]
    exact fun f hf => absurd hf List.not_mem_nil
  waitInv u hu := by
    have hblocking : ∀ w, ¬ (s.net.node u).man.blocking w := by
      intro w hw
      obtain ⟨chan, hchan⟩ := Ioman.exists_of_live (Ioman.live_of_blocking hw)
      rw [Ioman.blocking_iff hchan, (h.idle u hu w chan hchan).1] at hw
      cases hw
    have hqueue : ∀ d, (s.net.node u).man.waitQueue d = [] := by
      intro d
      cases hd : (s.net.node u).man.heap d with
      | none => simp [Ioman.waitQueue, Ioman.view, hd]
      | some chan => rw [Ioman.waitQueue_eq hd, (h.idle u hu d chan hd).2]
    exact ⟨⟨fun d hd => absurd (hqueue d) hd, fun w hw => absurd hw (hblocking w),
      fun w hw => absurd hw (hblocking w), Waits.empty.congr hqueue fun w =>
        iff_of_false (hblocking w) not_false⟩, fun d hd => absurd (hqueue d) hd⟩

/-- Every reachable state holds its chunks in places. -/
theorem forwardReach_inv (hn : n ≤ commMaxPeer) (hpeers : Peers n adj)
    (hsimple : TablesSimple n tables)
    (h : Reach (ForwardStart bo n adj control tables) (ForwardStep bo n) s) :
    ∃ placed, ForwardInv bo n adj control tables s placed := by
  refine Reach.inv (I := fun s => ∃ placed, ForwardInv bo n adj control tables s placed)
    (fun s hs => ⟨placedStart, hs.inv hpeers⟩) (fun s t hinv hstep => ?_) h
  obtain ⟨placed, hinv⟩ := hinv
  obtain ⟨placed', _, hinv'⟩ := hstep.refines hn hpeers hsimple hinv
  exact ⟨placed', hinv'⟩

/-! ### What is promised -/

/-- What is promised of a network that forwards chunks: the places hold what they say, each accepted
chunk is in one of them, once, it is delivered at its destination only, and the chunks from one node
to another are delivered in the order in which they were accepted. -/
structure Transported (bo : ByteOrder) (n : ℕ) (adj : ℤ → ℤ → Prop) (control : Prop)
    (s : Forwarding) (held : ChunkPlace → List (Frame × ℕ)) : Prop where
  holds : ∀ p, PlaceIn n adj p → PlaceHolds bo control s.net none p (held p)
  outside : ∀ p, ¬ PlaceIn n adj p → held p = []
  accepted : ∀ p, ∀ x ∈ held p, x ∈ s.accepted.zipIdx
  one : ∀ x ∈ s.accepted.zipIdx, ∃! p, x ∈ held p
  once : ∀ p, (held p).Nodup
  destination : ∀ v, ∀ x ∈ held (ChunkPlace.delivered v), x.1.info.dstId = v
  order : ∀ src dst : ℤ, 0 ≤ dst ∧ dst < n →
    (s.net.node dst).chunks.filter (fun chunk => chunk.1.srcId = src) <+:
      (s.accepted.filter fun f => f.Between src dst).map Frame.handed

namespace Carried

variable (h : Carried bo n adj control tables s none placed) (hsimple : TablesSimple n tables)

include h hsimple

/-- A delivered chunk is at its destination. -/
theorem destination (hx : x ∈ placed.held (ChunkPlace.delivered v)) : x.1.info.dstId = v :=
  dst_of_delivered hsimple (h.pushed_of_held hx).src (h.mem_route hx)

/-- **The chunks from one node to another arrive in the order in which they were accepted.** -/
theorem arrived (src dst : ℤ) :
    (placed.held (ChunkPlace.delivered dst)).filter (fun x => x.1.Between src dst) <+:
      placed.entered.filter fun x => x.1.Between src dst := by
  cases hfirst : (placed.held (ChunkPlace.delivered dst)).filter
      (fun x => x.1.Between src dst) with
  | nil => exact List.nil_prefix
  | cons x rest =>
      rw [← hfirst]
      have hx : x ∈ (placed.held (ChunkPlace.delivered dst)).filter
          (fun x => x.1.Between src dst) := by
        rw [hfirst]
        exact List.mem_cons_self
      obtain ⟨hmem, hbetween⟩ := List.mem_filter.1 hx
      have hbetween : x.1.Between src dst := of_decide_eq_true hbetween
      -- all these chunks have the route of the first one
      refine h.places.arrived (r := itemRoute tables x)
        (chunkRoute_nodup hsimple (h.pushed_of_held hmem).src) (fun y hy => ?_)
        (chunkRoute_getLast (h.mem_route hmem))
      have hy : y.1.Between src dst := of_decide_eq_true hy
      unfold itemRoute chunkRoute
      rw [hy.1, hy.2, hbetween.1, hbetween.2]

omit hsimple in
/-- The accepted chunks from one node to another, with their numbers. -/
theorem accepted_between (src dst : ℤ) : (s.accepted.filter fun f => f.Between src dst).map
    Frame.handed = (placed.entered.filter fun x => x.1.Between src dst).map
      fun x => x.1.handed := by
  have hfst : s.accepted = s.accepted.zipIdx.map Prod.fst := (List.zipIdx_map_fst 0 _).symm
  rw [h.entered, hfst, List.filter_map, List.map_map, ← hfst]
  rfl

/-- The delivered chunks from one node to another, with their numbers. -/
theorem chunks_from (src : ℤ) {dst : ℤ} (hdst : 0 ≤ dst ∧ dst < n) :
    (s.net.node dst).chunks.filter (fun chunk => chunk.1.srcId = src) =
      ((placed.held (ChunkPlace.delivered dst)).filter fun x => x.1.Between src dst).map
        fun x => x.1.handed := by
  have hchunks : (s.net.node dst).chunks =
      (placed.held (ChunkPlace.delivered dst)).map fun x => x.1.handed :=
    h.holds.place (ChunkPlace.delivered dst) hdst
  rw [hchunks, List.filter_map]
  refine congrArg _ (List.filter_congr fun x hx => ?_)
  have hiff : x.1.handed.1.srcId = src ↔ x.1.Between src dst :=
    ⟨fun he => ⟨he, h.destination hsimple hx⟩, fun he => he.1⟩
  simpa using hiff

/-- **The chunks are transported.** -/
theorem transported : Transported bo n adj control s placed.held where
  holds := h.holds.place
  outside := h.holds.outside
  accepted p x hx := by
    rw [← h.entered]
    exact (h.places.entered x).2 ⟨p, hx⟩
  one x hx := by
    rw [← h.entered] at hx
    obtain ⟨p, hp⟩ := (h.places.entered x).1 hx
    exact ⟨p, hp, fun q hq => h.places.unique x q p hq hp⟩
  once := h.places.once
  destination v x hx := h.destination hsimple hx
  order src dst hdst := by
    rw [h.chunks_from hsimple src hdst, h.accepted_between src dst]
    exact (h.arrived hsimple src dst).map _

end Carried

/-- **Chunk transport is lossless, free of duplicates, and in order**: in every reachable state each
accepted chunk is in one place, is delivered at its destination only, and the chunks from one node
to another are delivered in the order in which they were accepted. -/
theorem forwarding_transports (hn : n ≤ commMaxPeer) (hpeers : Peers n adj)
    (hsimple : TablesSimple n tables)
    (h : Reach (ForwardStart bo n adj control tables) (ForwardStep bo n) s) :
    ∃ held, Transported bo n adj control s held := by
  obtain ⟨placed, hinv⟩ := forwardReach_inv hn hpeers hsimple h
  exact ⟨placed.held, hinv.toCarried.transported hsimple⟩

end Moves

/-! ### Two nodes -/

/-- The two nodes 0 and 1, with the tables of both. -/
def pairForwarding : Forwarding where
  net := ⟨fun u => { pairNode u with rts := fun src => some (pairTables src) }, fun _ _ => []⟩
  accepted := []

/-- Each table has one entry, and its path is the channel to the other node. -/
theorem pairTables_path {src dst : ℤ} {entry : OverlayRtableEntry} (hsrc : 0 ≤ src ∧ src < 2)
    (h : overlayRtableGetEntry (pairTables src) dst = Except.ok (some entry)) :
    dst = 1 - src ∧ entry.path = [src, 1 - src] := by
  have hget : (pairTables src).entries[dst.toNat]? = some (some entry) ∧ 0 ≤ dst := by
    unfold overlayRtableGetEntry at h
    split at h
    · cases h
    · rename_i hpos
      split at h
      · cases h
      · rename_i heq
        rw [heq, Except.ok.inj h]
        exact ⟨rfl, not_lt.1 hpos⟩
  obtain ⟨hget, hpos⟩ := hget
  have hlt := (List.getElem?_eq_some_iff.1 hget).1
  have hlen : (pairTables src).entries.length = 2 := by
    unfold pairTables
    split <;> rfl
  obtain rfl | rfl : src = 0 ∨ src = 1 := by omega
  · obtain rfl | rfl : dst = 0 ∨ dst = 1 := by omega
    · cases hget
    · cases hget
      exact ⟨rfl, rfl⟩
  · obtain rfl | rfl : dst = 0 ∨ dst = 1 := by omega
    · cases hget
      exact ⟨rfl, rfl⟩
    · cases hget

theorem pairTables_simple : TablesSimple 2 pairTables := by
  intro src hsrc dst entry hentry
  obtain ⟨rfl, hpath⟩ := pairTables_path hsrc hentry
  rw [hpath]
  refine ⟨?_, rfl, rfl⟩
  simp only [List.nodup_cons, List.mem_singleton, List.not_mem_nil, not_false_eq_true,
    List.nodup_nil, and_true]
  omega

theorem pairNode_channelsInv {u : ℤ} (hu : 0 ≤ u ∧ u < 2) : ChannelsInv (pairNode u).man := by
  have hroster : (pairNode u).man.roster = [some (1 - u)] := rfl
  refine ⟨by rw [hroster]; exact List.nodup_singleton _, fun c hc => ?_, rfl, nofun,
    fun pid c hc => ?_, fun c hc pid hpid _ => ?_⟩
  · rw [hroster, List.mem_singleton] at hc
    rw [hc]
    rfl
  · have hmap : (pairNode u).man.channelMap pid =
        if pairAdj u pid then some (some pid) else none := rfl
    rw [hmap] at hc
    split at hc
    · rename_i hadj
      obtain rfl := Option.some.inj hc
      obtain rfl : pid = 1 - u := by
        unfold pairAdj at hadj
        omega
      exact ⟨List.mem_singleton_self _, by unfold channelPeerUnknown; omega, rfl⟩
    · cases hc
  · rw [hroster, List.mem_singleton] at hc
    subst hc
    obtain rfl : 1 - u = pid := Option.some.inj hpid
    refine if_pos ?_
    unfold pairAdj
    omega

theorem pairForwarding_start (control : Prop) :
    ForwardStart ByteOrder.little 2 pairAdj control pairTables pairForwarding where
  node u hu := by
    refine ⟨rfl, rfl, rfl, fun _ => rfl, fun v hv => ?_, pairNode_channelsInv hu, nofun,
      fun _ _ => rfl⟩
    rw [Option.some.inj (List.mem_singleton.1 hv)]
    unfold pairAdj
    omega
  idle u hu c chan hchan := by
    cases c <;> cases hchan <;> exact ⟨rfl, rfl⟩
  source u hu := ⟨_, rfl, rfl, rfl⟩
  link u v huv := ⟨_, _, [], rfl, rfl, LinkOk.idle nofun rfl rfl, ⟨nofun, nofun⟩, nofun⟩
  chunks _ _ := rfl
  accepted := rfl

/-- A chunk of one byte for the node 1. -/
theorem pairChunk_ok : (iomanSendChunk 0 1 7 1 0 [42]).Ok :=
  ⟨⟨by decide, by decide, by decide, by decide, by decide, by decide⟩, rfl, by decide,
    fun _ => ⟨by decide, by decide⟩⟩

/-- A chunk for the node 1 has left the local channel of the node 0. -/
theorem forwarding_transports_pair : ∃ s : Forwarding, s.accepted.length = 1 ∧
    (s.net.node 0).man.queueLen (some 1) = 1 ∧
    ∃ held, Transported ByteOrder.little 2 pairAdj False s held := by
  have hstart : Reach (ForwardStart ByteOrder.little 2 pairAdj False pairTables)
      (ForwardStep ByteOrder.little 2) pairForwarding := Reach.init (pairForwarding_start False)
  have hpushed := hstart.step (ForwardStep.push (u := 0) (by decide) pairChunk_ok rfl rfl)
  have htoken := hpushed.step (ForwardStep.token (u := 0) (by decide) rfl (by decide))
  have hread := htoken.step (ForwardStep.io
    (ForwardIoStep.localRead (u := 0) (by decide) rfl rfl (by decide) rfl))
  exact ⟨_, rfl, rfl, forwarding_transports (by decide)
    ⟨pairAdj_peers.range, pairAdj_peers.symm, pairAdj_peers.irrefl⟩ pairTables_simple hread⟩

end DLFree

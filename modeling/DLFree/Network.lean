/-
**Networks of nodes.**

Every node has at most one channel to every other node, and this channel is named after the node at
its other end; the local channel is `none`.  The two ends of a connection are joined by a reliable
socket: bytes that one node sends are received by the other in the same order, in pieces of any
size.

Main definitions:

* `Net` — the nodes, and the bytes in their sockets;
* `NetRead`, `NetWrite` — a node reads or writes a channel.

Main results:

* `NetRead.outcome` — **what a read does to a link** that carries frames;
* `NetWrite.outcome` — a write makes the connection, or is a run of `channel_write`.
-/

import DLFree.Links

set_option relaxedAutoImplicit false
set_option autoImplicit false

namespace DLFree

/-- A network: `wire u v` are the bytes that `u` has sent to `v` and `v` has not received. -/
structure Net where
  node : ℤ → CommNode (Option ℤ)
  wire : ℤ → ℤ → List Byte

namespace Net

/-- The node `u` changes. -/
def setNode (net : Net) (u : ℤ) (node : CommNode (Option ℤ)) : Net where
  node := Function.update net.node u node
  wire := net.wire

/-- The socket from `u` to `v` changes. -/
def setWire (net : Net) (u v : ℤ) (bytes : List Byte) : Net where
  node := net.node
  wire := fun x y => if x = u ∧ y = v then bytes else net.wire x y

variable {net : Net} {u v x y : ℤ} {node : CommNode (Option ℤ)} {bytes : List Byte}

@[simp] theorem setNode_node_self : (net.setNode u node).node u = node := by simp [setNode]

@[simp] theorem setNode_node_of_ne (h : x ≠ u) : (net.setNode u node).node x = net.node x := by
  simp [setNode, h]

@[simp] theorem setNode_wire : (net.setNode u node).wire = net.wire := rfl

@[simp] theorem setWire_node : (net.setWire u v bytes).node = net.node := rfl

@[simp] theorem setWire_wire_self : (net.setWire u v bytes).wire u v = bytes := by simp [setWire]

theorem node_changed : ((net.setNode u node).setWire x y bytes).node u = node := by simp

theorem setWire_wire_of_ne (h : ¬ (x = u ∧ y = v)) :
    (net.setWire u v bytes).wire x y = net.wire x y := if_neg h

end Net

/-! ### Reading and writing -/

/-- The node `u` may read the channel to `v`, whose socket gives it the bytes `bursts` and keeps
`rest`. -/
structure ReadReady (net : Net) (u v : ℤ) (bursts : List (List Byte)) (rest : List Byte) : Prop where
  channel : some v ∈ (net.node u).man.channels
  readable : ∃ chan, (net.node u).man.heap (some v) = some chan ∧ channelIsReadable chan
  wire : net.wire v u = bursts.flatten ++ rest
  bytes : bursts.flatten ≠ []

/-- The node `u` may write the channel to `v`. -/
structure WriteReady (net : Net) (u v : ℤ) : Prop where
  channel : some v ∈ (net.node u).man.channels
  writable : ∃ chan, (net.node u).man.heap (some v) = some chan ∧ channelIsWritable chan

/-- The node `u` reads the channel to `v`. -/
inductive NetRead (bo : ByteOrder) (now : ℚ) (u v : ℤ) (net : Net) : Net → Prop
  | intro {bursts : List (List Byte)} {rest : List Byte} {node' : CommNode (Option ℤ)}
      {script : List RecvEvent} (hready : ReadReady net u v bursts rest)
      (hread : iomanProcessChannelRead bo now (net.node u) (some v) (dataScript bursts) =
        Except.ok (true, node', script)) :
      NetRead bo now u v net ((net.setNode u node').setWire v u (recvBytes script ++ rest))

/-- The node `u` writes the channel to `v`; a connection that is made succeeds. -/
inductive NetWrite (bo : ByteOrder) (u v : ℤ) (net : Net) : List Byte → Net → Prop
  | intro {rooms : List ℕ} {node' : CommNode (Option ℤ)} {sent : List Byte}
      (hready : WriteReady net u v)
      (hwrite : iomanProcessChannelWrite bo (net.node u) (some v) true (roomScript rooms) =
        Except.ok (true, node', sent)) :
      NetWrite bo u v net sent ((net.setNode u node').setWire u v (net.wire u v ++ sent))

/-- The outcomes of a read of `u` from `v`: the link still carries the frames, or the first one has
been handled. -/
inductive ReadOutcome (bo : ByteOrder) (now : ℚ) (u v : ℤ) (net : Net) (queue : List MsgBuff)
    (chan : Channel (Option ℤ)) : List Frame → Net → Prop
  | part {frames : List Frame} {chan' : Channel (Option ℤ)} {wire : List Byte}
      (hreads : Reads chan chan')
      (hlink : LinkOk bo (net.node u).nodeId queue wire chan' frames) :
      ReadOutcome bo now u v net queue chan frames ((net.setNode u ((net.node u).setMan
        ((net.node u).man.put (some v) chan'))).setWire v u wire)
  | full {f : Frame} {frames : List Frame} {chan' : Channel (Option ℤ)} {wire : List Byte}
      {node' : CommNode (Option ℤ)} (hreads : Reads chan chan') (hf : f.Ok)
      (hdone : f.Done bo (net.node u).nodeId chan') (hok : ∀ f ∈ frames, f.Ok)
      (hbytes : wire ++ queue.flatMap MsgBuff.unsent = frames.flatMap (Frame.encode bo))
      (hnode : iomanReadDone bo now ((net.node u).setMan ((net.node u).man.put (some v) chan'))
        (some v) chan' (f.buff bo (net.node u).nodeId f.body) = Except.ok node') :
      ReadOutcome bo now u v net queue chan (f :: frames)
        ((net.setNode u node').setWire v u wire)

section Outcome

variable {bo : ByteOrder} {now : ℚ} {u v : ℤ} {net net' : Net} {chan : Channel (Option ℤ)}
  {queue : List MsgBuff} {frames : List Frame} {bursts : List (List Byte)} {rest sent : List Byte}

theorem active_of_readable (h : channelIsReadable chan) : chan.state = ChannelStatus.active := by
  unfold channelIsReadable at h
  exact of_decide_eq_true h

/-- A read that is ready is a read of a link. -/
theorem ReadReady.linkRead (h : ReadReady net u v bursts rest)
    (hchan : (net.node u).man.heap (some v) = some chan)
    (hlink : LinkOk bo (net.node u).nodeId queue (net.wire v u) chan frames) :
    LinkRead bo now (net.node u) (some v) chan queue rest frames
      (iomanProcessChannelRead bo now (net.node u) (some v) (dataScript bursts)) := by
  obtain ⟨chan₁, hchan₁, hreadable⟩ := h.readable
  obtain rfl : chan₁ = chan := Option.some.inj (hchan₁.symm.trans hchan)
  rw [h.wire] at hlink
  refine hlink.read bursts hchan ?_ h.bytes
  rw [active_of_readable hreadable]
  nofun

/-- **What a read does to a link.** -/
theorem NetRead.outcome (h : NetRead bo now u v net net')
    (hchan : (net.node u).man.heap (some v) = some chan)
    (hlink : LinkOk bo (net.node u).nodeId queue (net.wire v u) chan frames) :
    ReadOutcome bo now u v net queue chan frames net' := by
  obtain ⟨hready, hread⟩ := h
  rename_i bursts rest node' script
  have houtcome : LinkRead bo now (net.node u) (some v) chan queue rest frames
      (iomanProcessChannelRead bo now (net.node u) (some v) (dataScript bursts)) :=
    hready.linkRead hchan hlink
  rw [hread] at houtcome
  generalize hres : Except.ok (true, node', script) = res at houtcome
  cases houtcome with
  | part hreads hlink' =>
      cases hres
      rw [recvBytes_dataScript]
      exact ReadOutcome.part hreads hlink'
  | full hreads hf hdone hok hbytes =>
      obtain ⟨node₁, hnode, hres⟩ := bind_eq_ok.1 hres.symm
      cases hres
      rw [recvBytes_dataScript]
      exact ReadOutcome.full hreads hf hdone hok hbytes hnode

/-- What a write does: it makes the connection, or sends buffers. -/
theorem iomanProcessChannelWrite_run {κ : Type} [DecidableEq κ] {node node' : CommNode κ} {c : κ}
    {chan : Channel κ} {script : List SendEvent} {alive : Bool}
    (h : iomanProcessChannelWrite bo node c true script = Except.ok (alive, node', sent))
    (hchan : node.man.heap c = some chan) :
    (chan.state = ChannelStatus.setup ∧ sent = [] ∧ node' = commNodeNotifyConnect bo
        (node.setMan (node.man.put c (chan.setState ChannelStatus.active))) c) ∨
      (chan.state ≠ ChannelStatus.setup ∧ ∃ man', node' = node.setMan man' ∧
        WriteRun c node.man sent man') := by
  obtain ⟨chan₁, hchan₁, h⟩ := bind_eq_ok.1 h
  obtain rfl : chan₁ = chan := Option.some.inj ((Ioman.get_eq_ok.1 hchan₁).symm.trans hchan)
  cases hstate : chan₁.state with
  | init =>
      simp only [hstate] at h
      cases h
  | setup =>
      simp only [hstate, channelMakeActive, decide_true, cAssert_true, ok_bind, if_true] at h
      cases h
      exact Or.inl ⟨rfl, rfl, rfl⟩
  | active | blocking =>
      simp only [hstate] at h
      obtain ⟨r, hwrite, h⟩ := bind_eq_ok.1 h
      cases h
      exact Or.inr ⟨nofun, r.man, rfl, channelWrite_run hwrite⟩

theorem NetWrite.outcome (h : NetWrite bo u v net sent net')
    (hchan : (net.node u).man.heap (some v) = some chan) :
    ∃ node', net' = (net.setNode u node').setWire u v (net.wire u v ++ sent) ∧
      ((chan.state = ChannelStatus.setup ∧ sent = [] ∧ node' = commNodeNotifyConnect bo
          ((net.node u).setMan
            ((net.node u).man.put (some v) (chan.setState ChannelStatus.active))) (some v)) ∨
        (chan.state ≠ ChannelStatus.setup ∧ ∃ man', node' = (net.node u).setMan man' ∧
          WriteRun (some v) (net.node u).man sent man')) := by
  obtain ⟨_, hwrite⟩ := h
  exact ⟨_, rfl, iomanProcessChannelWrite_run hwrite hchan⟩

theorem NetRead.channelsInv (h : NetRead bo now u v net net')
    (hinv : ChannelsInv (net.node u).man) : ChannelsInv (net'.node u).man := by
  obtain ⟨hready, hread⟩ := h
  obtain ⟨chan, hchan, hstep⟩ := iomanProcessChannelRead_cases hread
  rw [Net.setWire_node, Net.setNode_node_self]
  exact hstep.channelsInv hchan hinv hready.channel

theorem NetWrite.channelsInv (h : NetWrite bo u v net sent net')
    (hinv : ChannelsInv (net.node u).man) : ChannelsInv (net'.node u).man := by
  obtain ⟨_, hwrite⟩ := h
  obtain ⟨chan, hchan, hstep⟩ := iomanProcessChannelWrite_cases hwrite
  rw [Net.setWire_node, Net.setNode_node_self]
  exact hinv.samePeers (hstep.samePeers hchan)

/-! ### Writing when nobody waits -/

/-- Without waiters a write only moves bytes of its own queue; of a buffer that is sent in part some
are left. -/
theorem WriteRun.left_of_idle {κ : Type} [DecidableEq κ] {c : κ} {man man' : Ioman κ}
    {chan : Channel κ} (h : WriteRun c man sent man') (hchan : man.heap c = some chan)
    (hwait : chan.waitQueue = []) :
    ∃ queue', man' = man.modify c (Channel.setBuffQueue queue') ∧
      sent ++ queue'.flatMap MsgBuff.unsent = chan.buffQueue.flatMap MsgBuff.unsent ∧
      ((∀ buff ∈ chan.buffQueue, buff.unsent ≠ []) → ∀ buff ∈ queue', buff.unsent ≠ []) := by
  induction h generalizing chan with
  | refl man =>
      refine ⟨chan.buffQueue, ?_, rfl, id⟩
      rw [← Ioman.put_apply _ hchan, Ioman.put]
      have hput : Function.update man.heap c (some (Channel.setBuffQueue chan.buffQueue chan)) =
          man.heap := Function.update_eq_self_iff.2 hchan.symm
      rw [hput]
  | @step man man₁ man₂ bytes bytes' hmicro hrun ih =>
      cases hmicro with
      | @part chan₁ buff buff' bs _ hchan₁ hq hbytes hne =>
          obtain rfl : chan₁ = chan := Option.some.inj (hchan₁.symm.trans hchan)
          obtain ⟨queue', rfl, hflat, hleft⟩ := ih (Ioman.heap_modify_eq hchan) hwait
          refine ⟨queue', Ioman.modify_modify _ _, ?_, fun hqueue => hleft ?_⟩
          · rw [List.append_assoc, hflat, hq]
            simp [hbytes]
          · rw [hq] at hqueue
            exact List.forall_mem_cons.2 ⟨hne, (List.forall_mem_cons.1 hqueue).2⟩
      | @whole chan₁ buff bs hchan₁ hq =>
          obtain rfl : chan₁ = chan := Option.some.inj (hchan₁.symm.trans hchan)
          obtain ⟨queue', rfl, hflat, hleft⟩ := ih (Ioman.heap_modify_eq hchan) hwait
          refine ⟨queue', Ioman.modify_modify _ _, ?_, fun hqueue => hleft ?_⟩
          · rw [List.append_assoc, hflat, hq]
            simp
          · rw [hq] at hqueue
            exact (List.forall_mem_cons.1 hqueue).2
      | release h =>
          obtain ⟨_, _, _, _, hwq, _⟩ := h
          rw [Ioman.waitQueue_eq hchan, hwait] at hwq
          cases hwq

/-- Without waiters a write only moves bytes of its own queue. -/
theorem WriteRun.of_idle {κ : Type} [DecidableEq κ] {c : κ} {man man' : Ioman κ} {chan : Channel κ}
    (h : WriteRun c man sent man') (hchan : man.heap c = some chan) (hwait : chan.waitQueue = []) :
    ∃ queue', man' = man.modify c (Channel.setBuffQueue queue') ∧
      sent ++ queue'.flatMap MsgBuff.unsent = chan.buffQueue.flatMap MsgBuff.unsent := by
  obtain ⟨queue', hman, hflat, _⟩ := h.left_of_idle hchan hwait
  exact ⟨queue', hman, hflat⟩

end Outcome

end DLFree

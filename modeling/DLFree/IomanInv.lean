/-
**The channels of a node and their wait queues.**

This module states the invariants of `struct ioman` and shows which operations keep them.  The
channels of the list, of the map and of the pending events are channels that exist.  A channel
stands in a wait queue exactly while it is blocking, it then holds a chunk, and the channel it waits
for has a full queue.

Main definitions:

* `ChannelsInv` — the references of a node;
* `WaitCore`, `WaitInv` — the wait queues, without and with full queues;
* `Steady`, `Calm` — what most operations leave alone.

Main results:

* `channelPipelineChunk_waitInv`, `channelWrite_waitInv` — **moving chunks keeps the wait queues in
  order**.
-/

import DLFree.Comm
import DLFree.Waits

set_option relaxedAutoImplicit false
set_option autoImplicit false

namespace DLFree

section Views

variable {κ : Type} [DecidableEq κ] {α : Type}

/-! ### Views of the heap -/

namespace Ioman

/-- What `g` sees of the channel `x`. -/
def view (man : Ioman κ) (g : Channel κ → α) (x : κ) : Option α := (man.heap x).map g

/-- The channel exists. -/
def live (man : Ioman κ) (x : κ) : Prop := (man.heap x).isSome

/-- The channels that wait for `d`. -/
def waitQueue (man : Ioman κ) (d : κ) : List κ := (man.view Channel.waitQueue d).getD []

/-- The number of buffers in the queue of `d`. -/
def queueLen (man : Ioman κ) (d : κ) : ℕ :=
  (man.view (fun chan => chan.buffQueue.length) d).getD 0

/-- The channel cannot pass its chunk on. -/
def blocking (man : Ioman κ) (w : κ) : Prop :=
  man.view Channel.state w = some ChannelStatus.blocking

/-- The channel holds a buffer. -/
def holding (man : Ioman κ) (w : κ) : Prop :=
  man.view (fun chan => chan.currBuff.isSome) w = some true

variable {man man' : Ioman κ} {c d w : κ} {chan chan' : Channel κ} {f : Channel κ → Channel κ}
  {g : Channel κ → α}

section

omit [DecidableEq κ]

theorem get_eq_ok : man.get c = Except.ok chan ↔ man.heap c = some chan := by
  unfold Ioman.get
  cases man.heap c <;> simp

theorem live_of_heap (h : man.heap c = some chan) : man.live c := by
  unfold live
  rw [h]
  rfl

theorem exists_of_live (h : man.live c) : ∃ chan, man.heap c = some chan :=
  Option.isSome_iff_exists.1 h

theorem view_eq (h : man.heap c = some chan) : man.view g c = some (g chan) := by
  unfold view
  rw [h]
  rfl

theorem waitQueue_eq (h : man.heap d = some chan) : man.waitQueue d = chan.waitQueue := by
  unfold waitQueue
  rw [view_eq h]
  rfl

theorem queueLen_eq (h : man.heap d = some chan) : man.queueLen d = chan.buffQueue.length := by
  unfold queueLen
  rw [view_eq h]
  rfl

theorem blocking_iff (h : man.heap w = some chan) :
    man.blocking w ↔ chan.state = ChannelStatus.blocking := by
  unfold blocking
  rw [view_eq h, Option.some.injEq]

theorem holding_iff (h : man.heap w = some chan) : man.holding w ↔ chan.currBuff.isSome := by
  unfold holding
  rw [view_eq h, Option.some.injEq]

theorem live_of_blocking (h : man.blocking w) : man.live w := by
  unfold blocking view at h
  unfold live
  cases hw : man.heap w with
  | none =>
      rw [hw] at h
      cases h
  | some chan => rfl

/-- Managers with one heap have one view. -/
theorem view_congr (h : man'.heap = man.heap) : man'.view g = man.view g := by
  unfold view
  rw [h]

end

/-! ### The heap after an assignment -/

theorem heap_modify_self : (man.modify c f).heap c = (man.heap c).map f := by
  simp [Ioman.modify]

theorem heap_modify_eq (h : man.heap c = some chan) : (man.modify c f).heap c = some (f chan) := by
  rw [heap_modify_self, h]
  rfl

theorem heap_modify_of_ne (h : d ≠ c) : (man.modify c f).heap d = man.heap d := by
  simp [Ioman.modify, h]

theorem modify_modify (f g : Channel κ → Channel κ) :
    (man.modify c f).modify c g = man.modify c fun chan => g (f chan) := by
  unfold Ioman.modify
  congr 1
  funext x
  by_cases hx : x = c
  · simp only [hx, if_true, Option.map_map]
    rfl
  · simp [hx]

@[simp] theorem view_modify (f : Channel κ → Channel κ) (hf : ∀ chan, g (f chan) = g chan) :
    (man.modify c f).view g d = man.view g d := by
  unfold view
  by_cases hd : d = c
  · subst hd
    rw [heap_modify_self, Option.map_map]
    exact congrArg (fun g => (man.heap d).map g) (funext hf)
  · rw [heap_modify_of_ne hd]

theorem live_modify : (man.modify c f).live d ↔ man.live d := by
  unfold live
  by_cases hd : d = c
  · subst hd
    rw [heap_modify_self, Option.isSome_map]
  · rw [heap_modify_of_ne hd]

/-- A channel that exists is replaced. -/
theorem put_apply (f : Channel κ → Channel κ) (h : man.heap c = some chan) :
    man.put c (f chan) = man.modify c f := by
  unfold Ioman.put Ioman.modify
  congr 1
  funext x
  by_cases hx : x = c
  · subst hx
    simp [h]
  · simp [hx]

theorem heap_put_self : (man.put c chan).heap c = some chan := by simp [Ioman.put]

theorem heap_put_of_ne (h : d ≠ c) : (man.put c chan).heap d = man.heap d := by
  simp [Ioman.put, h]

theorem view_put (h : man.heap c = some chan) (hg : g chan' = g chan) :
    (man.put c chan').view g d = man.view g d := by
  unfold view
  by_cases hd : d = c
  · subst hd
    rw [heap_put_self, h, Option.map_some, Option.map_some, hg]
  · rw [heap_put_of_ne hd]

theorem live_put (h : man.heap c = some chan) : (man.put c chan').live d ↔ man.live d := by
  rw [put_apply (fun _ => chan') h]
  exact live_modify

@[simp] theorem waitQueue_modify (f : Channel κ → Channel κ)
    (hf : ∀ chan, (f chan).waitQueue = chan.waitQueue) :
    (man.modify c f).waitQueue d = man.waitQueue d := by
  unfold waitQueue
  rw [view_modify f hf]

@[simp] theorem blocking_modify (f : Channel κ → Channel κ)
    (hf : ∀ chan, (f chan).state = chan.state) :
    (man.modify c f).blocking w ↔ man.blocking w := by
  unfold blocking
  rw [view_modify f hf]

@[simp] theorem holding_modify (f : Channel κ → Channel κ)
    (hf : ∀ chan, (f chan).currBuff = chan.currBuff) :
    (man.modify c f).holding w ↔ man.holding w := by
  unfold holding
  rw [view_modify f fun chan => by rw [hf chan]]

@[simp] theorem queueLen_modify (f : Channel κ → Channel κ)
    (hf : ∀ chan, (f chan).buffQueue.length = chan.buffQueue.length) :
    (man.modify c f).queueLen d = man.queueLen d := by
  unfold queueLen
  rw [view_modify f hf]

theorem queueLen_le_modify (f : Channel κ → Channel κ)
    (hf : ∀ chan, chan.buffQueue.length ≤ (f chan).buffQueue.length) :
    man.queueLen d ≤ (man.modify c f).queueLen d := by
  by_cases hd : d = c
  · subst hd
    cases hc : man.heap d with
    | none => simp [queueLen, view, hc]
    | some chan =>
        rw [queueLen_eq hc, queueLen_eq (heap_modify_eq hc)]
        exact hf chan
  · unfold queueLen view
    rw [heap_modify_of_ne hd]

end Ioman

/-! ### References -/

/-- The channels that events of the notify pipe announce. -/
def newchans : List (IomanEvent κ) → List κ
  | [] => []
  | IomanEvent.newchan c :: events => c :: newchans events
  | _ :: events => newchans events

omit [DecidableEq κ] in
theorem newchans_append (events events' : List (IomanEvent κ)) :
    newchans (events ++ events') = newchans events ++ newchans events' := by
  induction events with
  | nil => rfl
  | cons event events ih => cases event <;> simp [newchans, ih]

/-- The channels of the list, and those that are announced. -/
def Ioman.roster (man : Ioman κ) : List κ := man.channels ++ newchans man.events

/-- The channels in the list and in the events are different channels that exist, and the map takes
a known peer to its channel. -/
structure ChannelsInv (man : Ioman κ) : Prop where
  nodup : man.roster.Nodup
  live : ∀ c ∈ man.roster, man.live c
  localLive : man.live man.localChan
  localOut : man.localChan ∉ man.roster
  mapped : ∀ pid c, man.channelMap pid = some c →
    c ∈ man.channels ∧ pid ≠ channelPeerUnknown ∧ man.view Channel.peerId c = some pid
  registered : ∀ c ∈ man.roster, ∀ pid, man.view Channel.peerId c = some pid →
    pid ≠ channelPeerUnknown → man.channelMap pid = some c

/-- The channels stay, with their peers. -/
structure SamePeers (man man' : Ioman κ) : Prop where
  nodeId : man'.nodeId = man.nodeId
  channels : man'.channels = man.channels
  channelMap : man'.channelMap = man.channelMap
  maxpeers : man'.maxpeers = man.maxpeers
  localChan : man'.localChan = man.localChan
  newchans : newchans man'.events = newchans man.events
  peerId : ∀ x, man'.view Channel.peerId x = man.view Channel.peerId x

/-- The channels stay, with their peers and the states of their connections. -/
structure Steady (man man' : Ioman κ) : Prop extends SamePeers man man' where
  connectState : ∀ x, man'.view Channel.connectState x = man.view Channel.connectState x

variable {man man' man'' : Ioman κ} {c d w : κ} {chan chan' : Channel κ}
  {f : Channel κ → Channel κ}

omit [DecidableEq κ] in
theorem Steady.refl (man : Ioman κ) : Steady man man :=
  ⟨⟨rfl, rfl, rfl, rfl, rfl, rfl, fun _ => rfl⟩, fun _ => rfl⟩

omit [DecidableEq κ] in
theorem Steady.trans (h : Steady man man') (h' : Steady man' man'') : Steady man man'' where
  nodeId := h'.nodeId.trans h.nodeId
  channels := h'.channels.trans h.channels
  channelMap := h'.channelMap.trans h.channelMap
  maxpeers := h'.maxpeers.trans h.maxpeers
  localChan := h'.localChan.trans h.localChan
  newchans := h'.newchans.trans h.newchans
  peerId x := (h'.peerId x).trans (h.peerId x)
  connectState x := (h'.connectState x).trans (h.connectState x)

theorem Steady.modify (f : Channel κ → Channel κ) (hpeer : ∀ chan, (f chan).peerId = chan.peerId)
    (hconn : ∀ chan, (f chan).connectState = chan.connectState) :
    Steady man (man.modify c f) :=
  ⟨⟨rfl, rfl, rfl, rfl, rfl, rfl, fun _ => Ioman.view_modify f hpeer⟩,
    fun _ => Ioman.view_modify f hconn⟩

theorem Steady.put (h : man.heap c = some chan) (hpeer : chan'.peerId = chan.peerId)
    (hconn : chan'.connectState = chan.connectState) : Steady man (man.put c chan') :=
  ⟨⟨rfl, rfl, rfl, rfl, rfl, rfl, fun _ => Ioman.view_put h hpeer⟩,
    fun _ => Ioman.view_put h hconn⟩

section

omit [DecidableEq κ]

/-- An event that announces no channel. -/
theorem Steady.of_events {events : List (IomanEvent κ)}
    (he : DLFree.newchans events = DLFree.newchans man.events) :
    Steady man { man with events := events } :=
  ⟨⟨rfl, rfl, rfl, rfl, rfl, he, fun _ => rfl⟩, fun _ => rfl⟩

theorem SamePeers.roster (h : SamePeers man man') : man'.roster = man.roster := by
  unfold Ioman.roster
  rw [h.channels, h.newchans]

theorem SamePeers.live (h : SamePeers man man') (x : κ) : man'.live x ↔ man.live x := by
  have hx := congrArg Option.isSome (h.peerId x)
  unfold Ioman.view at hx
  rw [Option.isSome_map, Option.isSome_map] at hx
  unfold Ioman.live
  rw [hx]

theorem ChannelsInv.samePeers (hinv : ChannelsInv man) (h : SamePeers man man') :
    ChannelsInv man' where
  nodup := by
    rw [h.roster]
    exact hinv.nodup
  live x hx := by
    rw [h.roster] at hx
    exact (h.live x).2 (hinv.live x hx)
  localLive := by
    rw [h.live, h.localChan]
    exact hinv.localLive
  localOut := by
    rw [h.roster, h.localChan]
    exact hinv.localOut
  mapped pid x hx := by
    rw [h.channelMap] at hx
    rw [h.channels, h.peerId]
    exact hinv.mapped pid x hx
  registered x hx pid hpid hne := by
    rw [h.roster] at hx
    rw [h.peerId] at hpid
    rw [h.channelMap]
    exact hinv.registered x hx pid hpid hne

/-- A new name is not a channel of the node. -/
theorem ChannelsInv.fresh (h : ChannelsInv man) (hc : man.heap c = none) :
    c ∉ man.roster ∧ c ≠ man.localChan := by
  have hdead : ¬ man.live c := by
    unfold Ioman.live
    rw [hc]
    exact Bool.false_ne_true
  exact ⟨fun hm => hdead (h.live c hm), fun he => hdead (he ▸ h.localLive)⟩

theorem ChannelsInv.channels_live (h : ChannelsInv man) (hc : c ∈ man.channels) : man.live c :=
  h.live c (List.mem_append_left _ hc)

theorem ChannelsInv.ne_localChan (h : ChannelsInv man) (hc : c ∈ man.channels) :
    c ≠ man.localChan := fun he => h.localOut (he ▸ List.mem_append_left _ hc)

end

/-! ### Wait queues -/

/-- The wait queues are those of channels of the list, and hold exactly the blocking channels, each
with a chunk. -/
structure WaitCore (man : Ioman κ) : Prop where
  channel : ∀ d, man.waitQueue d ≠ [] → d ∈ man.channels
  waiter : ∀ w, man.blocking w → w ∈ man.channels ∨ w = man.localChan
  holds : ∀ w, man.blocking w → man.holding w
  waits : Waits man.waitQueue man.blocking

/-- A channel with waiters has a full queue. -/
def WaitFull (man : Ioman κ) (d : κ) : Prop :=
  man.waitQueue d ≠ [] → channelMsgQueueLimit ≤ man.queueLen d

/-- The invariant of the wait queues. -/
structure WaitInv (man : Ioman κ) : Prop extends WaitCore man where
  full : ∀ d, WaitFull man d

/-- No channel joins or leaves a wait queue, and no queue that is waited for shrinks. -/
structure Calm (man man' : Ioman κ) : Prop where
  channels : man.channels ⊆ man'.channels
  localChan : man'.localChan = man.localChan
  waitQueue : ∀ d, man'.waitQueue d = man.waitQueue d
  blocking : ∀ w, man'.blocking w ↔ man.blocking w
  holding : ∀ w, man.blocking w → man.holding w → man'.holding w
  queueLen : ∀ d, man.waitQueue d ≠ [] → man.queueLen d ≤ man'.queueLen d

omit [DecidableEq κ] in
theorem Calm.refl (man : Ioman κ) : Calm man man :=
  ⟨fun _ h => h, rfl, fun _ => rfl, fun _ => Iff.rfl, fun _ _ h => h, fun _ _ => le_rfl⟩

omit [DecidableEq κ] in
theorem Calm.trans (h : Calm man man') (h' : Calm man' man'') : Calm man man'' where
  channels _ hx := h'.channels (h.channels hx)
  localChan := h'.localChan.trans h.localChan
  waitQueue d := (h'.waitQueue d).trans (h.waitQueue d)
  blocking w := (h'.blocking w).trans (h.blocking w)
  holding w hb hh := h'.holding w ((h.blocking w).2 hb) (h.holding w hb hh)
  queueLen d hd := by
    refine (h.queueLen d hd).trans (h'.queueLen d ?_)
    rw [h.waitQueue]
    exact hd

omit [DecidableEq κ] in
/-- The heap and the list of channels decide whether an operation is calm. -/
theorem Calm.of_heap (hheap : man'.heap = man.heap) (hlocal : man'.localChan = man.localChan)
    (hsub : man.channels ⊆ man'.channels) : Calm man man' := by
  refine ⟨hsub, hlocal, fun d => ?_, fun w => ?_, fun w _ h => ?_, fun d _ => ?_⟩
  · unfold Ioman.waitQueue
    rw [Ioman.view_congr hheap]
  · unfold Ioman.blocking
    rw [Ioman.view_congr hheap]
  · unfold Ioman.holding at *
    rwa [Ioman.view_congr hheap]
  · unfold Ioman.queueLen
    rw [Ioman.view_congr hheap]

/-- An assignment to a channel that leaves its state, buffer and wait queue alone. -/
theorem Calm.modify (f : Channel κ → Channel κ) (hwait : ∀ chan, (f chan).waitQueue = chan.waitQueue)
    (hstate : ∀ chan, (f chan).state = chan.state)
    (hcurr : ∀ chan, (f chan).currBuff = chan.currBuff)
    (hqueue : ∀ chan, chan.buffQueue.length ≤ (f chan).buffQueue.length) :
    Calm man (man.modify c f) where
  channels _ h := h
  localChan := rfl
  waitQueue _ := Ioman.waitQueue_modify f hwait
  blocking _ := Ioman.blocking_modify f hstate
  holding _ _ h := (Ioman.holding_modify f hcurr).2 h
  queueLen _ _ := Ioman.queueLen_le_modify f hqueue

/-- A channel that is not blocking is replaced by one that is not blocking. -/
theorem Calm.put (h : man.heap c = some chan) (hwait : chan'.waitQueue = chan.waitQueue)
    (hstate : chan.state ≠ ChannelStatus.blocking) (hstate' : chan'.state ≠ ChannelStatus.blocking)
    (hqueue : chan.waitQueue ≠ [] → chan.buffQueue.length ≤ chan'.buffQueue.length) :
    Calm man (man.put c chan') where
  channels _ h := h
  localChan := rfl
  waitQueue d := by
    unfold Ioman.waitQueue
    rw [Ioman.view_put h hwait]
  blocking w := by
    by_cases hw : w = c
    · subst hw
      rw [Ioman.blocking_iff h, Ioman.blocking_iff Ioman.heap_put_self]
      exact iff_of_false hstate' hstate
    · unfold Ioman.blocking Ioman.view
      rw [Ioman.heap_put_of_ne hw]
  holding w hb hh := by
    by_cases hw : w = c
    · subst hw
      exact absurd ((Ioman.blocking_iff h).1 hb) hstate
    · unfold Ioman.holding Ioman.view at *
      rwa [Ioman.heap_put_of_ne hw]
  queueLen d hne := by
    by_cases hd : d = c
    · subst hd
      rw [Ioman.waitQueue_eq h] at hne
      rw [Ioman.queueLen_eq h, Ioman.queueLen_eq Ioman.heap_put_self]
      exact hqueue hne
    · unfold Ioman.queueLen Ioman.view
      rw [Ioman.heap_put_of_ne hd]

omit [DecidableEq κ] in
theorem WaitCore.calm (h : WaitCore man) (hc : Calm man man') : WaitCore man' where
  channel d hd := by
    rw [hc.waitQueue] at hd
    exact hc.channels (h.channel d hd)
  waiter w hw := by
    rw [hc.localChan]
    exact (h.waiter w ((hc.blocking w).1 hw)).imp_left fun hm => hc.channels hm
  holds w hw := by
    rw [hc.blocking] at hw
    exact hc.holding w hw (h.holds w hw)
  waits := h.waits.congr hc.waitQueue hc.blocking

omit [DecidableEq κ] in
theorem WaitInv.calm (h : WaitInv man) (hc : Calm man man') : WaitInv man' where
  toWaitCore := h.toWaitCore.calm hc
  full d hd := by
    rw [hc.waitQueue] at hd
    exact (h.full d hd).trans (hc.queueLen d hd)

/-! ### Passing a chunk on -/

/-- What `channel_pipeline_chunk` does. -/
theorem channelPipelineChunk_cases {next : κ} {stat : Bool}
    (h : channelPipelineChunk man c next = Except.ok (stat, man')) :
    ∃ chan buff nextChan, man.heap c = some chan ∧ chan.currBuff = some buff ∧
      man.heap next = some nextChan ∧
      ((nextChan.buffQueue.length < channelMsgQueueLimit ∧ stat = true ∧
          man' = man.moveChunk c next buff) ∨
        (channelMsgQueueLimit ≤ nextChan.buffQueue.length ∧ stat = false ∧
          man' = man.joinWaitQueue c next)) := by
  obtain ⟨chan, hchan, h⟩ := bind_eq_ok.1 h
  rw [Ioman.get_eq_ok] at hchan
  cases hbuff : chan.currBuff with
  | none =>
      rw [hbuff] at h
      cases h
  | some buff =>
      rw [hbuff] at h
      obtain ⟨nextChan, hnext, h⟩ := bind_eq_ok.1 h
      rw [Ioman.get_eq_ok] at hnext
      refine ⟨chan, buff, nextChan, hchan, hbuff, hnext, ?_⟩
      by_cases hlen : nextChan.buffQueue.length < channelMsgQueueLimit
      · rw [if_pos hlen, Except.ok.injEq, Prod.mk.injEq] at h
        exact Or.inl ⟨hlen, h.1.symm, h.2.symm⟩
      · rw [if_neg hlen, Except.ok.injEq, Prod.mk.injEq] at h
        exact Or.inr ⟨not_lt.1 hlen, h.1.symm, h.2.symm⟩

section MoveChunk

variable {next : κ} {buff : MsgBuff}

theorem moveChunk_steady : Steady man (man.moveChunk c next buff) :=
  ((Steady.modify (Channel.setState _) (fun _ => rfl) fun _ => rfl).trans
    (Steady.modify (Channel.appendBuff _) (fun _ => rfl) fun _ => rfl)).trans
      (Steady.modify (Channel.setCurrBuff _) (fun _ => rfl) fun _ => rfl)

theorem joinWaitQueue_steady : Steady man (man.joinWaitQueue c next) :=
  (Steady.modify (Channel.setState _) (fun _ => rfl) fun _ => rfl).trans
    (Steady.modify (Channel.appendWaiter _) (fun _ => rfl) fun _ => rfl)

theorem waitQueue_moveChunk : (man.moveChunk c next buff).waitQueue d = man.waitQueue d := by
  simp [Ioman.moveChunk]

theorem blocking_setState {s : ChannelStatus} (hc : man.live c) :
    (man.modify c (Channel.setState s)).blocking w ↔
      (w = c ∧ s = ChannelStatus.blocking) ∨ (w ≠ c ∧ man.blocking w) := by
  by_cases hw : w = c
  · subst hw
    obtain ⟨chan, hchan⟩ := Ioman.exists_of_live hc
    rw [Ioman.blocking_iff (Ioman.heap_modify_eq hchan)]
    simp
  · unfold Ioman.blocking Ioman.view
    rw [Ioman.heap_modify_of_ne hw]
    simp [hw]

theorem blocking_moveChunk (hc : man.live c) :
    (man.moveChunk c next buff).blocking w ↔ man.blocking w ∧ w ≠ c := by
  simp [Ioman.moveChunk, blocking_setState hc, and_comm]

theorem holding_setCurrBuff {b : Option MsgBuff} (hw : w ≠ c) :
    (man.modify c (Channel.setCurrBuff b)).holding w ↔ man.holding w := by
  unfold Ioman.holding Ioman.view
  rw [Ioman.heap_modify_of_ne hw]

theorem holding_moveChunk (hw : w ≠ c) :
    (man.moveChunk c next buff).holding w ↔ man.holding w := by
  simp [Ioman.moveChunk, holding_setCurrBuff hw]

theorem queueLen_moveChunk : man.queueLen d ≤ (man.moveChunk c next buff).queueLen d := by
  unfold Ioman.moveChunk
  rw [Ioman.queueLen_modify (Channel.setCurrBuff none) fun _ => rfl]
  refine le_trans (le_of_eq ?_) (Ioman.queueLen_le_modify (Channel.appendBuff buff) fun _ => by simp)
  rw [Ioman.queueLen_modify (Channel.setState _) fun _ => rfl]

theorem queueLen_moveChunk_self (hnext : man.live next) :
    (man.moveChunk c next buff).queueLen next = man.queueLen next + 1 := by
  unfold Ioman.moveChunk
  rw [Ioman.queueLen_modify (Channel.setCurrBuff none) fun _ => rfl]
  have hlive : (man.modify c (Channel.setState ChannelStatus.active)).live next :=
    Ioman.live_modify.2 hnext
  obtain ⟨chan, hchan⟩ := Ioman.exists_of_live hlive
  have hlen : man.queueLen next = chan.buffQueue.length := by
    rw [← Ioman.queueLen_eq hchan, Ioman.queueLen_modify (Channel.setState _) fun _ => rfl]
  rw [Ioman.queueLen_eq (Ioman.heap_modify_eq hchan), hlen]
  simp

theorem moveChunk_calm (hc : man.live c) (hidle : ¬ man.blocking c) :
    Calm man (man.moveChunk c next buff) where
  channels _ h := h
  localChan := rfl
  waitQueue _ := waitQueue_moveChunk
  blocking w := by
    rw [blocking_moveChunk hc]
    exact ⟨fun h => h.1, fun h => ⟨h, fun he => hidle (he ▸ h)⟩⟩
  holding w hb hh := by
    have hne : w ≠ c := fun he => hidle (he ▸ hb)
    exact (holding_moveChunk hne).2 hh
  queueLen _ _ := queueLen_moveChunk

theorem waitQueue_appendWaiter (hnext : man.live next) :
    (man.modify next (Channel.appendWaiter c)).waitQueue next = man.waitQueue next ++ [c] := by
  obtain ⟨chan, hchan⟩ := Ioman.exists_of_live hnext
  rw [Ioman.waitQueue_eq hchan, Ioman.waitQueue_eq (Ioman.heap_modify_eq hchan)]
  rfl

theorem waitQueue_appendWaiter_of_ne (hd : d ≠ next) :
    (man.modify next (Channel.appendWaiter c)).waitQueue d = man.waitQueue d := by
  unfold Ioman.waitQueue Ioman.view
  rw [Ioman.heap_modify_of_ne hd]

/-- A channel that waits for `next` joins a queue; nothing else changes. -/
theorem joinWaitQueue_waitInv (hinv : WaitInv man) (hc : c ∈ man.channels ∨ c = man.localChan)
    (hlive : man.live c) (hidle : ¬ man.blocking c) (hholds : man.holding c)
    (hnext : next ∈ man.channels) (hnextLive : man.live next)
    (hfull : channelMsgQueueLimit ≤ man.queueLen next) : WaitInv (man.joinWaitQueue c next) := by
  have hb : ∀ w, (man.joinWaitQueue c next).blocking w ↔ man.blocking w ∨ w = c := by
    intro w
    unfold Ioman.joinWaitQueue
    rw [Ioman.blocking_modify (Channel.appendWaiter c) fun _ => rfl, blocking_setState hlive]
    by_cases hw : w = c <;> simp [hw]
  have hh : ∀ w, (man.joinWaitQueue c next).holding w ↔ man.holding w := by
    intro w
    simp [Ioman.joinWaitQueue]
  have hqnext : (man.joinWaitQueue c next).waitQueue next = man.waitQueue next ++ [c] := by
    unfold Ioman.joinWaitQueue
    rw [waitQueue_appendWaiter (Ioman.live_modify.2 hnextLive),
      Ioman.waitQueue_modify (Channel.setState _) fun _ => rfl]
  have hq : ∀ d, d ≠ next → (man.joinWaitQueue c next).waitQueue d = man.waitQueue d := by
    intro d hd
    unfold Ioman.joinWaitQueue
    rw [waitQueue_appendWaiter_of_ne hd, Ioman.waitQueue_modify (Channel.setState _) fun _ => rfl]
  have hl : ∀ d, (man.joinWaitQueue c next).queueLen d = man.queueLen d := by
    intro d
    simp [Ioman.joinWaitQueue]
  refine ⟨⟨fun d hd => ?_, fun w hw => ?_, fun w hw => ?_, hinv.waits.enqueue hidle hqnext hq hb⟩,
    fun d hd => ?_⟩
  · by_cases hdn : d = next
    · exact hdn ▸ hnext
    · rw [hq d hdn] at hd
      exact hinv.channel d hd
  · rcases (hb w).1 hw with hw | rfl
    · exact hinv.waiter w hw
    · exact hc
  · rw [hh]
    rcases (hb w).1 hw with hw | rfl
    · exact hinv.holds w hw
    · exact hholds
  · rw [hl]
    by_cases hdn : d = next
    · exact hdn ▸ hfull
    · rw [hq d hdn] at hd
      exact hinv.full d hd

end MoveChunk

theorem channelPipelineChunk_steady {next : κ} {stat : Bool}
    (h : channelPipelineChunk man c next = Except.ok (stat, man')) : Steady man man' := by
  obtain ⟨_, _, _, _, _, _, ⟨_, _, rfl⟩ | ⟨_, _, rfl⟩⟩ := channelPipelineChunk_cases h
  · exact moveChunk_steady
  · exact joinWaitQueue_steady

/-- **Passing a chunk on**: the channel moves it, or joins a wait queue. -/
theorem channelPipelineChunk_waitInv {next : κ} {stat : Bool}
    (h : channelPipelineChunk man c next = Except.ok (stat, man')) (hinv : WaitInv man)
    (hc : c ∈ man.channels ∨ c = man.localChan) (hidle : ¬ man.blocking c)
    (hnext : next ∈ man.channels) : WaitInv man' := by
  obtain ⟨chan, buff, nextChan, hchan, hbuff, hnextChan, ⟨_, _, rfl⟩ | ⟨hfull, _, rfl⟩⟩ :=
    channelPipelineChunk_cases h
  · exact hinv.calm (moveChunk_calm (Ioman.live_of_heap hchan) hidle)
  · refine joinWaitQueue_waitInv hinv hc (Ioman.live_of_heap hchan) hidle ?_ hnext
      (Ioman.live_of_heap hnextChan) ?_
    · rw [Ioman.holding_iff hchan, hbuff]
      rfl
    · rw [Ioman.queueLen_eq hnextChan]
      exact hfull

/-! ### Releasing producers -/

/-- One round of the loop that releases producers: the first waiter of `c` moves its chunk. -/
def Release (c : κ) (man man' : Ioman κ) : Prop :=
  ∃ waiter ws buff, man.live c ∧ man.waitQueue c = waiter :: ws ∧ man.live waiter ∧
    man.view Channel.currBuff waiter = some (some buff) ∧
    man.queueLen c < channelMsgQueueLimit ∧
    man' = (man.modify c (Channel.setWaitQueue ws)).moveChunk waiter c buff

theorem Release.steady (h : Release c man man') : Steady man man' := by
  obtain ⟨_, _, _, _, _, _, _, _, rfl⟩ := h
  exact (Steady.modify (Channel.setWaitQueue _) (fun _ => rfl) fun _ => rfl).trans moveChunk_steady

theorem Release.waitQueue_of_ne (h : Release c man man') (hd : d ≠ c) :
    man'.waitQueue d = man.waitQueue d := by
  obtain ⟨_, _, _, _, _, _, _, _, rfl⟩ := h
  rw [waitQueue_moveChunk]
  unfold Ioman.waitQueue Ioman.view
  rw [Ioman.heap_modify_of_ne hd]

theorem Release.queueLen_le (h : Release c man man') (d : κ) : man.queueLen d ≤ man'.queueLen d := by
  obtain ⟨_, _, _, _, _, _, _, _, rfl⟩ := h
  refine le_trans (le_of_eq ?_) queueLen_moveChunk
  rw [Ioman.queueLen_modify (Channel.setWaitQueue _) fun _ => rfl]

theorem Release.waitCore (h : Release c man man') (hinv : WaitCore man) : WaitCore man' := by
  have hother := fun d hd => h.waitQueue_of_ne (d := d) hd
  obtain ⟨waiter, ws, buff, hlive, hwq, hwlive, _, _, rfl⟩ := h
  have hq : ((man.modify c (Channel.setWaitQueue ws)).moveChunk waiter c buff).waitQueue c = ws := by
    obtain ⟨chan, hchan⟩ := Ioman.exists_of_live hlive
    rw [waitQueue_moveChunk, Ioman.waitQueue_eq (Ioman.heap_modify_eq hchan)]
    rfl
  have hb : ∀ w, ((man.modify c (Channel.setWaitQueue ws)).moveChunk waiter c buff).blocking w ↔
      man.blocking w ∧ w ≠ waiter := by
    intro w
    rw [blocking_moveChunk (Ioman.live_modify.2 hwlive),
      Ioman.blocking_modify (Channel.setWaitQueue ws) fun _ => rfl]
  refine ⟨fun d hd => ?_, fun w hw => ?_, fun w hw => ?_, hinv.waits.dequeue hwq hq hother hb⟩
  · by_cases hdc : d = c
    · subst hdc
      exact hinv.channel d (by rw [hwq]; exact List.cons_ne_nil _ _)
    · rw [hother d hdc] at hd
      exact hinv.channel d hd
  · exact hinv.waiter w ((hb w).1 hw).1
  · rw [holding_moveChunk ((hb w).1 hw).2, Ioman.holding_modify (Channel.setWaitQueue ws) fun _ => rfl]
    exact hinv.holds w ((hb w).1 hw).1

/-- The loop that releases producers takes such rounds until the queue is full or nobody waits. -/
theorem channelUnblock_spec :
    ∀ {ws : List κ} {man : Ioman κ} {stat : Bool} {man' : Ioman κ},
      channelUnblock man c ws = Except.ok (stat, man') → man.waitQueue c = ws →
        Relation.ReflTransGen (Release c) man man' ∧ WaitFull man' c := by
  intro ws
  induction ws with
  | nil =>
      intro man stat man' h hws
      simp only [channelUnblock, Except.ok.injEq, Prod.mk.injEq] at h
      obtain ⟨_, rfl⟩ := h
      exact ⟨Relation.ReflTransGen.refl, fun hne => absurd hws hne⟩
  | cons waiter ws ih =>
      intro man stat man' h hws
      unfold channelUnblock at h
      obtain ⟨chan, hchan, h⟩ := bind_eq_ok.1 h
      rw [Ioman.get_eq_ok] at hchan
      by_cases hlen : chan.buffQueue.length < channelMsgQueueLimit
      · rw [if_pos hlen] at h
        obtain ⟨⟨ok, man₁⟩, hpipe, h⟩ := bind_eq_ok.1 h
        obtain ⟨_, hok, h⟩ := bind_eq_ok.1 h
        obtain ⟨⟨_, man₂⟩, hrest, h⟩ := bind_eq_ok.1 h
        simp only [Except.ok.injEq, Prod.mk.injEq] at h
        obtain ⟨_, rfl⟩ := h
        rw [cAssert_eq_ok] at hok
        subst hok
        obtain ⟨wchan, buff, _, hwchan, hbuff, _, ⟨_, _, rfl⟩ | ⟨_, hfalse, _⟩⟩ :=
          channelPipelineChunk_cases hpipe
        · have hstep : Release c man
              ((man.modify c (Channel.setWaitQueue ws)).moveChunk waiter c buff) := by
            refine ⟨waiter, ws, buff, Ioman.live_of_heap hchan, hws,
              Ioman.live_modify.1 (Ioman.live_of_heap hwchan), ?_, ?_, rfl⟩
            · rw [← Ioman.view_modify (c := c) (Channel.setWaitQueue ws) fun _ => rfl,
                Ioman.view_eq hwchan, hbuff]
            · rw [Ioman.queueLen_eq hchan]
              exact hlen
          have hq : ((man.modify c (Channel.setWaitQueue ws)).moveChunk waiter c buff).waitQueue c =
              ws := by
            rw [waitQueue_moveChunk, Ioman.waitQueue_eq (Ioman.heap_modify_eq hchan)]
            rfl
          obtain ⟨hsteps, hfull⟩ := ih hrest hq
          exact ⟨Relation.ReflTransGen.head hstep hsteps, hfull⟩
        · cases hfalse
      · rw [if_neg hlen] at h
        simp only [Except.ok.injEq, Prod.mk.injEq] at h
        obtain ⟨_, rfl⟩ := h
        refine ⟨Relation.ReflTransGen.refl, fun _ => ?_⟩
        rw [Ioman.queueLen_eq hchan]
        exact not_lt.1 hlen

theorem channelUnblock_steady {ws : List κ} {stat : Bool}
    (h : channelUnblock man c ws = Except.ok (stat, man')) (hws : man.waitQueue c = ws) :
    Steady man man' := by
  obtain ⟨hsteps, -⟩ := channelUnblock_spec h hws
  clear h hws
  induction hsteps with
  | refl => exact Steady.refl man
  | tail _ hstep ih => exact ih.trans hstep.steady

/-- The loop restores the invariant when only the queue of `c` may have got room. -/
theorem channelUnblock_waitInv {ws : List κ} {stat : Bool}
    (h : channelUnblock man c ws = Except.ok (stat, man')) (hws : man.waitQueue c = ws)
    (hinv : WaitCore man) (hfull : ∀ d, d ≠ c → WaitFull man d) : WaitInv man' := by
  obtain ⟨hsteps, hc⟩ := channelUnblock_spec h hws
  have hrest : WaitCore man' ∧ ∀ d, d ≠ c → WaitFull man' d := by
    clear h hws hc
    induction hsteps with
    | refl => exact ⟨hinv, hfull⟩
    | tail _ hstep ih =>
        refine ⟨hstep.waitCore ih.1, fun d hd hne => ?_⟩
        rw [hstep.waitQueue_of_ne hd] at hne
        exact (ih.2 d hd hne).trans (hstep.queueLen_le d)
  refine ⟨hrest.1, fun d => ?_⟩
  by_cases hd : d = c
  · exact hd ▸ hc
  · exact hrest.2 d hd

/-! ### Writing -/

theorem waitFull_setBuffQueue_of_ne {bs : List MsgBuff} (hd : d ≠ c) (h : WaitFull man d) :
    WaitFull (man.modify c (Channel.setBuffQueue bs)) d := by
  intro hne
  rw [Ioman.waitQueue_modify (Channel.setBuffQueue bs) fun _ => rfl] at hne
  refine (h hne).trans (le_of_eq ?_)
  unfold Ioman.queueLen Ioman.view
  rw [Ioman.heap_modify_of_ne hd]

theorem WaitCore.setBuffQueue {bs : List MsgBuff} (h : WaitCore man) :
    WaitCore (man.modify c (Channel.setBuffQueue bs)) where
  channel d hd := by
    rw [Ioman.waitQueue_modify (Channel.setBuffQueue bs) fun _ => rfl] at hd
    exact h.channel d hd
  waiter w hw := by
    rw [Ioman.blocking_modify (Channel.setBuffQueue bs) fun _ => rfl] at hw
    exact h.waiter w hw
  holds w hw := by
    rw [Ioman.blocking_modify (Channel.setBuffQueue bs) fun _ => rfl] at hw
    rw [Ioman.holding_modify (Channel.setBuffQueue bs) fun _ => rfl]
    exact h.holds w hw
  waits := h.waits.congr
    (fun _ => Ioman.waitQueue_modify (Channel.setBuffQueue bs) fun _ => rfl)
    fun _ => Ioman.blocking_modify (Channel.setBuffQueue bs) fun _ => rfl

/-- What holds around the loop of `channel_write`: its body either sends a part of the first buffer,
or sends it whole and releases producers. -/
theorem channelWriteLoop_induct {P : Ioman κ → Prop} (c : κ)
    (hsend : ∀ man buff buff' bs chan, P man → man.heap c = some chan →
      chan.buffQueue = buff :: bs → P (man.modify c (Channel.setBuffQueue (buff' :: bs))))
    (hpop : ∀ man buff bs chan stat man', P man → man.heap c = some chan →
      chan.buffQueue = buff :: bs →
      channelUnblock (man.modify c (Channel.setBuffQueue bs)) c chan.waitQueue =
        Except.ok (stat, man') → P man') :
    ∀ {fuel : ℕ} {man : Ioman κ} {unblock : Bool} {script : List SendEvent} {r : ChannelWrite κ},
      channelWriteLoop c fuel man unblock script = Except.ok r → P man → P r.man := by
  intro fuel
  induction fuel with
  | zero =>
      intro man unblock script r h hP
      unfold channelWriteLoop at h
      obtain ⟨chan, hchan, h⟩ := bind_eq_ok.1 h
      cases hq : chan.buffQueue with
      | nil =>
          simp only [hq, Except.ok.injEq] at h
          subst h
          exact hP
      | cons buff bs =>
          simp only [hq] at h
          cases h
  | succ fuel ih =>
      intro man unblock script r h hP
      unfold channelWriteLoop at h
      obtain ⟨chan, hchan, h⟩ := bind_eq_ok.1 h
      rw [Ioman.get_eq_ok] at hchan
      cases hq : chan.buffQueue with
      | nil =>
          simp only [hq, Except.ok.injEq] at h
          subst h
          exact hP
      | cons buff bs =>
          simp only [hq] at h
          by_cases hstat : (sendBuff script buff).1 = ChannelWriteStatus.ok
          · rw [if_pos hstat] at h
            obtain ⟨⟨released, man₁⟩, hun, h⟩ := bind_eq_ok.1 h
            obtain ⟨r', hr', h⟩ := bind_eq_ok.1 h
            simp only [Except.ok.injEq] at h
            subst h
            exact ih (r := r') hr' (hpop man buff bs chan released man₁ hP hchan hq hun)
          · rw [if_neg hstat] at h
            simp only [Except.ok.injEq] at h
            subst h
            exact hsend man buff _ bs chan hP hchan hq

theorem channelWrite_steady {script : List SendEvent} {r : ChannelWrite κ}
    (h : channelWrite man c script = Except.ok r) : Steady man r.man := by
  obtain ⟨chan, _, h⟩ := bind_eq_ok.1 h
  refine channelWriteLoop_induct (P := Steady man) c (fun man₁ _ _ _ _ hP _ _ => ?_)
    (fun man₁ _ bs chan _ _ hP hchan _ hun => ?_) h (Steady.refl man)
  · exact hP.trans (Steady.modify (Channel.setBuffQueue _) (fun _ => rfl) fun _ => rfl)
  · refine (hP.trans (Steady.modify (Channel.setBuffQueue bs) (fun _ => rfl)
      fun _ => rfl)).trans (channelUnblock_steady hun ?_)
    rw [Ioman.waitQueue_modify (Channel.setBuffQueue bs) fun _ => rfl, Ioman.waitQueue_eq hchan]

/-- **Writing keeps the wait queues in order**: a producer is released as soon as there is room. -/
theorem channelWrite_waitInv {script : List SendEvent} {r : ChannelWrite κ}
    (h : channelWrite man c script = Except.ok r) (hinv : WaitInv man) : WaitInv r.man := by
  obtain ⟨chan, _, h⟩ := bind_eq_ok.1 h
  refine channelWriteLoop_induct (P := WaitInv) c (fun man₁ buff buff' bs chan hP hchan hq => ?_)
    (fun man₁ _ bs chan _ _ hP hchan _ hun => ?_) h hinv
  · refine ⟨hP.toWaitCore.setBuffQueue, fun d => ?_⟩
    by_cases hd : d = c
    · subst hd
      intro hne
      rw [Ioman.waitQueue_modify (Channel.setBuffQueue _) fun _ => rfl] at hne
      have hlen := hP.full d hne
      rw [Ioman.queueLen_eq hchan, hq] at hlen
      rw [Ioman.queueLen_eq (Ioman.heap_modify_eq hchan)]
      exact hlen
    · exact waitFull_setBuffQueue_of_ne hd (hP.full d)
  · refine channelUnblock_waitInv hun ?_ hP.toWaitCore.setBuffQueue fun d hd =>
      waitFull_setBuffQueue_of_ne hd (hP.full d)
    rw [Ioman.waitQueue_modify (Channel.setBuffQueue bs) fun _ => rfl, Ioman.waitQueue_eq hchan]

end Views

end DLFree

/-
**Links: what is between the queue of a sender and the handling of the receiver.**

A link leads from a channel of one node to the channel at the other end of the socket.  Frames enter
it when a buffer is appended to the send queue, and leave it when the receiver has read all their
bytes.  In between, their bytes are in the queue, in the socket, or in a channel that has read a part
of a frame.

Main definitions:

* `WriteRun` — what `channel_write` does: it sends buffers and releases producers;
* `Reader` — how far the receiver is;
* `LinkOk` — a link carries a list of frames.

Main results:

* `channelWrite_run` — **every write is such a run**;
* `channelWrite_le`, `channelWrite_sent` — a socket takes no more bytes than it has room for, and some
  if it has room;
* `LinkOk.append`, `LinkOk.send` — frames enter a link, and move into the socket;
* `LinkOk.read` — **a read leaves the frames on the link, or takes the first one off it**.
-/

import DLFree.Frames

set_option relaxedAutoImplicit false
set_option autoImplicit false

namespace DLFree

/-! ### Sending a buffer -/

theorem MsgBuff.length_unsent (buff : MsgBuff) : buff.unsent.length = msgBuffSendLen buff := by
  simp [MsgBuff.unsent, msgBuffSendLen]

theorem MsgBuff.unsent_advance (buff : MsgBuff) (n : ℕ) :
    ({ buff with head := buff.head + n } : MsgBuff).unsent = buff.unsent.drop n := by
  simp [MsgBuff.unsent, List.drop_drop]

/-- The script of a socket that has room for these numbers of bytes. -/
def roomScript (rooms : List ℕ) : List SendEvent := rooms.map SendEvent.room

/-- A buffer is sent whole, or a part of it is left. -/
theorem sendBuff_spec (script : List SendEvent) :
    ∀ {buff buff' : MsgBuff} {stat : ChannelWriteStatus} {script' : List SendEvent}
      {sent : List Byte}, sendBuff script buff = (stat, buff', script', sent) →
      (stat = ChannelWriteStatus.ok ∧ sent = buff.unsent) ∨
        (stat ≠ ChannelWriteStatus.ok ∧ buff.unsent = sent ++ buff'.unsent ∧
          buff'.unsent ≠ []) := by
  induction script with
  | nil =>
      intro buff buff' stat script' sent h
      unfold sendBuff at h
      rw [← buff.length_unsent] at h
      split at h
      · rename_i hlen
        cases h
        exact Or.inl ⟨rfl, (List.length_eq_zero_iff.1 hlen).symm⟩
      · rename_i hlen
        cases h
        exact Or.inr ⟨nofun, rfl, mt List.length_eq_zero_iff.2 hlen⟩
  | cons event script ih =>
      intro buff buff' stat script' sent h
      unfold sendBuff at h
      rw [← buff.length_unsent] at h
      split at h
      · rename_i hlen
        cases h
        exact Or.inl ⟨rfl, (List.length_eq_zero_iff.1 hlen).symm⟩
      · rename_i hlen
        have hne := mt List.length_eq_zero_iff.2 hlen
        cases event with
        | err =>
            cases h
            exact Or.inr ⟨nofun, rfl, hne⟩
        | room k =>
            dsimp only at h
            split at h
            · cases h
              exact Or.inr ⟨nofun, rfl, hne⟩
            · rcases hrest : sendBuff script
                { buff with head := buff.head + min k buff.unsent.length } with
                ⟨stat₁, buff₁, script₁, sent₁⟩
              rw [hrest] at h
              cases h
              have := ih hrest
              rw [buff.unsent_advance] at this
              refine this.imp (fun hwhole => ⟨hwhole.1, ?_⟩) fun hpart => ⟨hpart.1, ?_, hpart.2.2⟩
              · rw [hwhole.2, List.take_append_drop]
              · rw [List.append_assoc, ← hpart.2.1, List.take_append_drop]

/-- A socket without errors leaves no error, and what it still offers is room. -/
theorem sendBuff_room (rooms : List ℕ) : ∀ (buff : MsgBuff), ∃ rooms',
    (sendBuff (roomScript rooms) buff).1 ≠ ChannelWriteStatus.err ∧
      (sendBuff (roomScript rooms) buff).2.2.1 = roomScript rooms' := by
  induction rooms with
  | nil =>
      intro buff
      rw [show roomScript [] = [] from rfl, sendBuff]
      split <;> exact ⟨[], nofun, rfl⟩
  | cons k rooms ih =>
      intro buff
      rw [show roomScript (k :: rooms) = SendEvent.room k :: roomScript rooms from rfl, sendBuff]
      split
      · exact ⟨k :: rooms, nofun, rfl⟩
      · dsimp only
        split
        · exact ⟨rooms, nofun, rfl⟩
        · exact ih _

/-- A socket with room takes a byte. -/
theorem sendBuff_sent {k : ℕ} (hk : 0 < k) (script : List SendEvent) {buff : MsgBuff}
    (hne : buff.unsent ≠ []) : (sendBuff (SendEvent.room k :: script) buff).2.2.2 ≠ [] := by
  have hlen : 0 < msgBuffSendLen buff := by
    rw [← buff.length_unsent]
    exact List.length_pos_iff.2 hne
  unfold sendBuff
  rw [if_neg (by omega)]
  dsimp only
  rw [if_neg (by omega)]
  intro h
  have := congrArg List.length (List.append_eq_nil_iff.1 h).1
  rw [List.length_take, buff.length_unsent, List.length_nil] at this
  omega

/-- A socket takes no more bytes of a buffer than it has room for. -/
theorem sendBuff_le (rooms : List ℕ) : ∀ (buff : MsgBuff), ∃ rooms',
    (sendBuff (roomScript rooms) buff).2.2.1 = roomScript rooms' ∧
      (sendBuff (roomScript rooms) buff).2.2.2.length + rooms'.sum ≤ rooms.sum := by
  induction rooms with
  | nil =>
      intro buff
      rw [show roomScript [] = [] from rfl, sendBuff]
      split <;> exact ⟨[], rfl, le_rfl⟩
  | cons k rooms ih =>
      intro buff
      rw [show roomScript (k :: rooms) = SendEvent.room k :: roomScript rooms from rfl, sendBuff]
      split
      · exact ⟨k :: rooms, rfl, (Nat.zero_add _).le⟩
      · dsimp only
        split
        · exact ⟨rooms, rfl, by simp⟩
        · obtain ⟨rooms', hscript, hsum⟩ := ih
            { buff with head := buff.head + min k (msgBuffSendLen buff) }
          refine ⟨rooms', hscript, ?_⟩
          rw [List.length_append, List.length_take, List.sum_cons]
          omega

/-! ### Writing -/

section Write

variable {κ : Type} [DecidableEq κ] {c : κ} {man man' man'' : Ioman κ}

/-- What `channel_write` does at a time: it sends a part of the first buffer, or all of it, or
releases a producer. -/
inductive WriteMicro (c : κ) (man : Ioman κ) : List Byte → Ioman κ → Prop
  | part {chan : Channel κ} {buff buff' : MsgBuff} {bs : List MsgBuff} {bytes : List Byte}
      (hchan : man.heap c = some chan) (hq : chan.buffQueue = buff :: bs)
      (hbytes : buff.unsent = bytes ++ buff'.unsent) (hne : buff'.unsent ≠ []) :
      WriteMicro c man bytes (man.modify c (Channel.setBuffQueue (buff' :: bs)))
  | whole {chan : Channel κ} {buff : MsgBuff} {bs : List MsgBuff}
      (hchan : man.heap c = some chan) (hq : chan.buffQueue = buff :: bs) :
      WriteMicro c man buff.unsent (man.modify c (Channel.setBuffQueue bs))
  | release {man' : Ioman κ} (h : Release c man man') : WriteMicro c man [] man'

/-- A run of `channel_write`, with the bytes it sends. -/
inductive WriteRun (c : κ) : Ioman κ → List Byte → Ioman κ → Prop
  | refl (man : Ioman κ) : WriteRun c man [] man
  | step {man man' man'' : Ioman κ} {bytes bytes' : List Byte} (h : WriteMicro c man bytes man')
      (hrun : WriteRun c man' bytes' man'') : WriteRun c man (bytes ++ bytes') man''

theorem WriteRun.of_releases {bytes : List Byte}
    (h : Relation.ReflTransGen (Release c) man man') (hrun : WriteRun c man' bytes man'') :
    WriteRun c man bytes man'' := by
  induction h using Relation.ReflTransGen.head_induction_on with
  | refl => exact hrun
  | head hstep _ ih => exact WriteRun.step (WriteMicro.release hstep) ih

theorem channelWriteLoop_run :
    ∀ {fuel : ℕ} {man : Ioman κ} {unblock : Bool} {script : List SendEvent} {r : ChannelWrite κ},
      channelWriteLoop c fuel man unblock script = Except.ok r → WriteRun c man r.sent r.man := by
  intro fuel
  induction fuel with
  | zero =>
      intro man unblock script r h
      unfold channelWriteLoop at h
      obtain ⟨chan, hchan, h⟩ := bind_eq_ok.1 h
      cases hq : chan.buffQueue with
      | nil =>
          simp only [hq, Except.ok.injEq] at h
          subst h
          exact WriteRun.refl man
      | cons buff bs =>
          simp only [hq] at h
          cases h
  | succ fuel ih =>
      intro man unblock script r h
      unfold channelWriteLoop at h
      obtain ⟨chan, hchan, h⟩ := bind_eq_ok.1 h
      rw [Ioman.get_eq_ok] at hchan
      cases hq : chan.buffQueue with
      | nil =>
          simp only [hq, Except.ok.injEq] at h
          subst h
          exact WriteRun.refl man
      | cons buff bs =>
          simp only [hq] at h
          rcases hsend : sendBuff script buff with ⟨stat, buff', script', sent⟩
          rw [hsend] at h
          dsimp only at h
          rcases sendBuff_spec script hsend with ⟨rfl, rfl⟩ | ⟨hstat, hbytes, hne⟩
          · rw [if_pos rfl] at h
            obtain ⟨⟨released, man₁⟩, hun, h⟩ := bind_eq_ok.1 h
            obtain ⟨r', hr', h⟩ := bind_eq_ok.1 h
            simp only [Except.ok.injEq] at h
            subst h
            obtain ⟨hreleases, _⟩ := channelUnblock_spec hun (by
              rw [Ioman.waitQueue_modify (Channel.setBuffQueue bs) fun _ => rfl,
                Ioman.waitQueue_eq hchan])
            exact WriteRun.step (WriteMicro.whole hchan hq) (WriteRun.of_releases hreleases (ih hr'))
          · rw [if_neg hstat] at h
            simp only [Except.ok.injEq] at h
            subst h
            have := WriteRun.step (WriteMicro.part hchan hq hbytes hne) (WriteRun.refl _)
            rwa [List.append_nil] at this

/-- **Every write is a run of sending buffers and releasing producers.** -/
theorem channelWrite_run {script : List SendEvent} {r : ChannelWrite κ}
    (h : channelWrite man c script = Except.ok r) : WriteRun c man r.sent r.man := by
  obtain ⟨_, _, h⟩ := bind_eq_ok.1 h
  exact channelWriteLoop_run h

/-! ### When a write returns -/

/-- The channels that wait for `c` hold chunks that can be moved. -/
structure UnblockOk (man : Ioman κ) (c : κ) : Prop where
  live : man.live c
  nodup : (man.waitQueue c).Nodup
  holding : ∀ w ∈ man.waitQueue c, man.holding w

theorem channelUnblock_ok :
    ∀ {ws : List κ} {man : Ioman κ}, man.waitQueue c = ws → UnblockOk man c →
      ∃ stat man', channelUnblock man c ws = Except.ok (stat, man') ∧ UnblockOk man' c ∧
        man'.queueLen c + (man'.waitQueue c).length = man.queueLen c + ws.length := by
  intro ws
  induction ws with
  | nil =>
      intro man hws hok
      exact ⟨false, man, rfl, hok, by rw [hws]⟩
  | cons waiter ws ih =>
      intro man hws hok
      obtain ⟨chan, hchan⟩ := Ioman.exists_of_live hok.live
      have hget := Ioman.get_eq_ok.2 hchan
      unfold channelUnblock
      rw [hget, ok_bind]
      by_cases hlen : chan.buffQueue.length < channelMsgQueueLimit
      · rw [if_pos hlen]
        have hhold : (man.modify c (Channel.setWaitQueue ws)).holding waiter := by
          rw [Ioman.holding_modify (Channel.setWaitQueue ws) fun _ => rfl]
          exact hok.holding waiter (by rw [hws]; exact List.mem_cons_self)
        obtain ⟨wchan, hwchan⟩ : ∃ wchan, (man.modify c (Channel.setWaitQueue ws)).heap waiter =
            some wchan := by
          unfold Ioman.holding Ioman.view at hhold
          obtain ⟨wchan, hwchan, _⟩ := Option.map_eq_some_iff.1 hhold
          exact ⟨wchan, hwchan⟩
        obtain ⟨buff, hbuff⟩ := Option.isSome_iff_exists.1 ((Ioman.holding_iff hwchan).1 hhold)
        have hnodup := hok.nodup
        rw [hws, List.nodup_cons] at hnodup
        have hnext : (man.modify c (Channel.setWaitQueue ws)).heap c =
            some (chan.setWaitQueue ws) := Ioman.heap_modify_eq hchan
        have hwq : ((man.modify c (Channel.setWaitQueue ws)).moveChunk waiter c buff).waitQueue c =
            ws := by
          rw [waitQueue_moveChunk, Ioman.waitQueue_eq hnext]
          rfl
        have hok' : UnblockOk ((man.modify c (Channel.setWaitQueue ws)).moveChunk waiter c buff) c := by
          refine ⟨(moveChunk_steady.live c).2 (Ioman.live_modify.2 hok.live), ?_, fun w hw => ?_⟩
          · rw [hwq]
            exact hnodup.2
          · rw [hwq] at hw
            have hne : w ≠ waiter := fun he => hnodup.1 (he ▸ hw)
            rw [holding_moveChunk hne, Ioman.holding_modify (Channel.setWaitQueue ws) fun _ => rfl]
            exact hok.holding w (by rw [hws]; exact List.mem_cons_of_mem _ hw)
        obtain ⟨stat, man', hrest, hok'', hlen'⟩ := ih hwq hok'
        refine ⟨true, man', ?_, hok'', ?_⟩
        · dsimp only
          rw [channelPipelineChunk_eq hwchan hbuff hnext]
          rw [if_pos (show (chan.setWaitQueue ws).buffQueue.length < channelMsgQueueLimit from hlen)]
          rw [ok_bind]
          dsimp only
          rw [cAssert_true, ok_bind, hrest]
          rfl
        · rw [hlen', queueLen_moveChunk_self (Ioman.live_of_heap hnext),
            Ioman.queueLen_modify (Channel.setWaitQueue ws) fun _ => rfl, List.length_cons]
          omega
      · rw [if_neg hlen]
        exact ⟨false, man, rfl, hok, by rw [hws]⟩

theorem UnblockOk.setBuffQueue (bs : List MsgBuff) (h : UnblockOk man c) :
    UnblockOk (man.modify c (Channel.setBuffQueue bs)) c := by
  have hwq : (man.modify c (Channel.setBuffQueue bs)).waitQueue c = man.waitQueue c :=
    Ioman.waitQueue_modify (Channel.setBuffQueue bs) fun _ => rfl
  refine ⟨Ioman.live_modify.2 h.live, ?_, fun w hw => ?_⟩
  · rw [hwq]
    exact h.nodup
  · rw [hwq] at hw
    rw [Ioman.holding_modify (Channel.setBuffQueue bs) fun _ => rfl]
    exact h.holding w hw

/-- The loop ends, since each round takes a buffer or a producer. -/
theorem channelWriteLoop_ok :
    ∀ {fuel : ℕ} {man : Ioman κ} (unblock : Bool) (rooms : List ℕ), UnblockOk man c →
      man.queueLen c + (man.waitQueue c).length ≤ fuel →
      ∃ r, channelWriteLoop c fuel man unblock (roomScript rooms) = Except.ok r ∧
        r.stat ≠ ChannelWriteStatus.err := by
  intro fuel
  induction fuel with
  | zero =>
      intro man unblock rooms hok hfuel
      obtain ⟨chan, hchan⟩ := Ioman.exists_of_live hok.live
      have hq : chan.buffQueue = [] := by
        rw [Ioman.queueLen_eq hchan] at hfuel
        exact List.length_eq_zero_iff.1 (by omega)
      unfold channelWriteLoop
      rw [Ioman.get_eq_ok.2 hchan, ok_bind, hq]
      exact ⟨_, rfl, ChannelWriteStatus.noConfusion⟩
  | succ fuel ih =>
      intro man unblock rooms hok hfuel
      obtain ⟨chan, hchan⟩ := Ioman.exists_of_live hok.live
      unfold channelWriteLoop
      rw [Ioman.get_eq_ok.2 hchan, ok_bind]
      cases hq : chan.buffQueue with
      | nil => exact ⟨_, rfl, ChannelWriteStatus.noConfusion⟩
      | cons buff bs =>
          obtain ⟨rooms', herr, hscript⟩ := sendBuff_room rooms buff
          dsimp only
          by_cases hstat : (sendBuff (roomScript rooms) buff).1 = ChannelWriteStatus.ok
          · obtain ⟨stat, man', hun, hok', hlen⟩ := channelUnblock_ok
              (Ioman.waitQueue_modify (Channel.setBuffQueue bs) fun _ => rfl)
              (hok.setBuffQueue bs)
            rw [Ioman.queueLen_eq (Ioman.heap_modify_eq hchan)] at hlen
            rw [Ioman.queueLen_eq hchan, hq, List.length_cons] at hfuel
            obtain ⟨r, hr, hrstat⟩ := ih (unblock || stat) rooms' hok'
              (by rw [hlen]; simp only [Channel.setBuffQueue_buffQueue]; omega)
            rw [if_pos hstat, ← Ioman.waitQueue_eq hchan, hun, ok_bind]
            dsimp only
            rw [hscript, hr]
            exact ⟨_, rfl, hrstat⟩
          · rw [if_neg hstat]
            exact ⟨_, rfl, herr⟩

/-- **A write to a socket without errors returns.** -/
theorem channelWrite_ok (rooms : List ℕ) (hok : UnblockOk man c) :
    ∃ r, channelWrite man c (roomScript rooms) = Except.ok r ∧
      r.stat ≠ ChannelWriteStatus.err := by
  obtain ⟨chan, hchan⟩ := Ioman.exists_of_live hok.live
  unfold channelWrite
  rw [Ioman.get_eq_ok.2 hchan, ok_bind]
  refine channelWriteLoop_ok false rooms hok (le_of_eq ?_)
  rw [Ioman.queueLen_eq hchan, Ioman.waitQueue_eq hchan]

/-- A socket with little room takes a part of the first buffer. -/
theorem channelWrite_part {man : Ioman κ} {chan : Channel κ} {buff : MsgBuff} {bs : List MsgBuff}
    (hchan : man.heap c = some chan) (hq : chan.buffQueue = buff :: bs) {k : ℕ} (hpos : 0 < k)
    (hk : k < msgBuffSendLen buff) :
    channelWrite man c (roomScript [k]) = Except.ok ⟨ChannelWriteStatus.eagain, false,
      man.modify c (Channel.setBuffQueue ({ buff with head := buff.head + k } :: bs)),
      buff.unsent.take k⟩ := by
  have hleft : ¬ msgBuffSendLen { buff with head := buff.head + k } = 0 := by
    unfold msgBuffSendLen at hk ⊢
    dsimp only
    omega
  have hsend : sendBuff (roomScript [k]) buff = (ChannelWriteStatus.eagain,
      { buff with head := buff.head + k }, [], buff.unsent.take k) := by
    rw [show roomScript [k] = [SendEvent.room k] from rfl, sendBuff, if_neg (by omega)]
    dsimp only
    rw [Nat.min_eq_left hk.le, if_neg hpos.ne', sendBuff, if_neg hleft, List.append_nil]
  unfold channelWrite
  rw [Ioman.get_eq_ok.2 hchan, ok_bind, hq, List.length_cons, Nat.add_right_comm]
  unfold channelWriteLoop
  rw [Ioman.get_eq_ok.2 hchan, ok_bind, hq]
  dsimp only
  rw [hsend]
  rfl

/-- A socket with enough room takes the only buffer of a channel. -/
theorem channelWrite_whole {chan : Channel κ} {buff : MsgBuff} {k : ℕ}
    (hchan : man.heap c = some chan) (hq : chan.buffQueue = [buff]) (hwait : chan.waitQueue = [])
    (hne : buff.unsent ≠ []) (hk : buff.unsent.length ≤ k) :
    channelWrite man c (roomScript [k]) = Except.ok ⟨ChannelWriteStatus.ok, false,
      man.modify c (Channel.setBuffQueue []), buff.unsent⟩ := by
  have hpos := List.length_pos_iff.2 hne
  have hmin : min k buff.unsent.length = buff.unsent.length := Nat.min_eq_right hk
  have hrest : msgBuffSendLen { buff with head := buff.head + buff.unsent.length } = 0 := by
    rw [← MsgBuff.length_unsent, buff.unsent_advance, List.drop_length, List.length_nil]
  have hsend : sendBuff (roomScript [k]) buff = (ChannelWriteStatus.ok,
      { buff with head := buff.head + buff.unsent.length }, [], buff.unsent) := by
    simp [roomScript, sendBuff, ← buff.length_unsent, hmin, hpos.ne', hrest]
  have hget := Ioman.get_eq_ok.2 hchan
  have hget' : (man.modify c (Channel.setBuffQueue [])).get c =
      Except.ok (chan.setBuffQueue []) := Ioman.get_eq_ok.2 (Ioman.heap_modify_eq hchan)
  unfold channelWrite
  rw [hget, ok_bind, hq, hwait]
  unfold channelWriteLoop
  rw [hget, ok_bind, hq, hwait]
  dsimp only [List.length_singleton, List.length_nil]
  rw [hsend]
  dsimp only
  rw [if_pos rfl]
  unfold channelUnblock
  rw [ok_bind]
  dsimp only
  unfold channelWriteLoop
  rw [hget', ok_bind]
  simp [ok_bind]

/-! ### How much is written -/

theorem channelWriteLoop_le :
    ∀ {fuel : ℕ} {man : Ioman κ} {unblock : Bool} {rooms : List ℕ} {r : ChannelWrite κ},
      channelWriteLoop c fuel man unblock (roomScript rooms) = Except.ok r →
        r.sent.length ≤ rooms.sum := by
  intro fuel
  induction fuel with
  | zero =>
      intro man unblock rooms r h
      unfold channelWriteLoop at h
      obtain ⟨chan, _, h⟩ := bind_eq_ok.1 h
      cases hq : chan.buffQueue with
      | nil =>
          rw [hq] at h
          cases h
          exact Nat.zero_le _
      | cons buff bs =>
          rw [hq] at h
          cases h
  | succ fuel ih =>
      intro man unblock rooms r h
      unfold channelWriteLoop at h
      obtain ⟨chan, _, h⟩ := bind_eq_ok.1 h
      cases hq : chan.buffQueue with
      | nil =>
          rw [hq] at h
          cases h
          exact Nat.zero_le _
      | cons buff bs =>
          rw [hq] at h
          obtain ⟨rooms', hscript, hsum⟩ := sendBuff_le rooms buff
          rcases hsend : sendBuff (roomScript rooms) buff with ⟨stat, buff', script, sent⟩
          dsimp only at h
          rw [hsend] at h hscript hsum
          dsimp only at h hscript hsum
          subst hscript
          split at h
          · obtain ⟨⟨_, man₁⟩, _, h⟩ := bind_eq_ok.1 h
            obtain ⟨r', hr', h⟩ := bind_eq_ok.1 h
            cases h
            have hrest := ih hr'
            rw [List.length_append]
            omega
          · cases h
            exact le_trans (Nat.le_add_right _ _) hsum

/-- **A socket takes no more bytes than it has room for.** -/
theorem channelWrite_le {man : Ioman κ} {rooms : List ℕ} {r : ChannelWrite κ}
    (h : channelWrite man c (roomScript rooms) = Except.ok r) : r.sent.length ≤ rooms.sum := by
  obtain ⟨_, _, h⟩ := bind_eq_ok.1 h
  exact channelWriteLoop_le h

/-- **A socket with room takes a byte of a queue.** -/
theorem channelWrite_sent {man : Ioman κ} {chan : Channel κ} {buff : MsgBuff} {bs : List MsgBuff}
    {k : ℕ} {r : ChannelWrite κ} (hchan : man.heap c = some chan) (hq : chan.buffQueue = buff :: bs)
    (hne : buff.unsent ≠ []) (hk : 0 < k)
    (h : channelWrite man c (roomScript [k]) = Except.ok r) : r.sent ≠ [] := by
  have hsent := sendBuff_sent hk [] hne
  obtain ⟨_, hget, h⟩ := bind_eq_ok.1 h
  obtain rfl := Option.some.inj ((Ioman.get_eq_ok.1 hget).symm.trans hchan)
  rw [hq, List.length_cons, Nat.add_right_comm] at h
  unfold channelWriteLoop at h
  rw [hget, ok_bind, hq] at h
  dsimp only at h
  split at h
  · obtain ⟨⟨_, man₁⟩, _, h⟩ := bind_eq_ok.1 h
    obtain ⟨r', _, h⟩ := bind_eq_ok.1 h
    cases h
    exact List.append_ne_nil_of_left_ne_nil hsent _
  · cases h
    exact hsent

end Write

/-! ### Links -/

section Link

variable {κ : Type} {bo : ByteOrder} {nodeId : ℤ} {chan chan' : Channel κ} {f : Frame}
  {frames : List Frame} {r wire : List Byte} {queue queue' : List MsgBuff}

/-- The receiver is between two frames, or has read the bytes `r` of the first one, or waits with a
chunk that it could not pass on. -/
inductive Reader (bo : ByteOrder) (nodeId : ℤ) (chan : Channel κ) : List Frame → List Byte → Prop
  | idle {frames : List Frame} (hstate : chan.state ≠ ChannelStatus.blocking)
      (hcurr : chan.currBuff = none) (hoff : chan.headerOff = 0) : Reader bo nodeId chan frames []
  | reading {f : Frame} {frames : List Frame} {r : List Byte}
      (hstate : chan.state ≠ ChannelStatus.blocking) (h : Reading bo nodeId chan f r) :
      Reader bo nodeId chan (f :: frames) r
  | held {frames : List Frame} (hstate : chan.state = ChannelStatus.blocking)
      (hoff : chan.headerOff = 0) : Reader bo nodeId chan frames []

/-- The link with the send queue `queue`, the bytes `wire` in the socket and the receiver `chan`
carries these frames. -/
structure LinkOk (bo : ByteOrder) (nodeId : ℤ) (queue : List MsgBuff) (wire : List Byte)
    (chan : Channel κ) (frames : List Frame) : Prop where
  ok : ∀ f ∈ frames, f.Ok
  carries : ∃ r, Reader bo nodeId chan frames r ∧
    r ++ wire ++ queue.flatMap MsgBuff.unsent = frames.flatMap (Frame.encode bo)

theorem Reading.ne_encode (h : Reading bo nodeId chan f r) : r.length < (f.encode bo).length := by
  rw [Frame.encode_length]
  cases h with
  | header _ _ hlt _ => omega
  | body _ _ _ hlt =>
      rw [List.length_append, packHeader_length]
      omega

/-- A receiver that is between two frames has read nothing of the next one. -/
theorem Reader.reading_of_active (h : Reader bo nodeId chan (f :: frames) r)
    (hstate : chan.state ≠ ChannelStatus.blocking) : Reading bo nodeId chan f r := by
  cases h with
  | idle _ hcurr hoff => exact Reading.header hcurr hoff (by decide) rfl
  | reading _ h => exact h
  | held hblocking _ => exact absurd hblocking hstate

/-- Fields of a channel that its reader does not look at may change. -/
theorem Reader.congr (h : Reader bo nodeId chan frames r)
    (hstate : chan'.state = ChannelStatus.blocking ↔ chan.state = ChannelStatus.blocking)
    (hcurr : chan'.currBuff = chan.currBuff) (hoff : chan'.headerOff = chan.headerOff)
    (hbuff : chan'.headerBuff = chan.headerBuff) (hinfo : chan'.msgInfo = chan.msgInfo) :
    Reader bo nodeId chan' frames r := by
  cases h with
  | idle hs hc ho => exact Reader.idle (mt hstate.1 hs) (hcurr.trans hc) (hoff.trans ho)
  | reading hs h =>
      refine Reader.reading (mt hstate.1 hs) ?_
      cases h with
      | header hc ho hlt htake =>
          exact Reading.header (hcurr.trans hc) (hoff.trans ho) hlt (by rw [hbuff, htake])
      | body hc ho hi hlt =>
          exact Reading.body (hcurr.trans hc) (hoff.trans ho) (hinfo.trans hi) hlt
  | held hs ho => exact Reader.held (hstate.2 hs) (hoff.trans ho)

namespace LinkOk

theorem congr (h : LinkOk bo nodeId queue wire chan frames)
    (hstate : chan'.state = ChannelStatus.blocking ↔ chan.state = ChannelStatus.blocking)
    (hcurr : chan'.currBuff = chan.currBuff) (hoff : chan'.headerOff = chan.headerOff)
    (hbuff : chan'.headerBuff = chan.headerBuff) (hinfo : chan'.msgInfo = chan.msgInfo) :
    LinkOk bo nodeId queue wire chan' frames := by
  obtain ⟨hok, r, hreader, hbytes⟩ := h
  exact ⟨hok, r, hreader.congr hstate hcurr hoff hbuff hinfo, hbytes⟩

/-- A link between idle channels carries nothing. -/
theorem idle (hstate : chan.state ≠ ChannelStatus.blocking) (hcurr : chan.currBuff = none)
    (hoff : chan.headerOff = 0) : LinkOk bo nodeId [] [] chan [] :=
  ⟨nofun, [], Reader.idle hstate hcurr hoff, rfl⟩

/-- **A frame enters the link.** -/
theorem append (h : LinkOk bo nodeId queue wire chan frames) {buff : MsgBuff}
    (hf : f.Ok) (hbuff : buff.unsent = f.encode bo) :
    LinkOk bo nodeId (queue ++ [buff]) wire chan (frames ++ [f]) := by
  obtain ⟨hok, r, hreader, hbytes⟩ := h
  refine ⟨fun g hg => ?_, r, ?_, ?_⟩
  · rcases List.mem_append.1 hg with hg | hg
    · exact hok g hg
    · rw [List.mem_singleton.1 hg]
      exact hf
  · cases hreader with
    | idle hs hc ho => exact Reader.idle hs hc ho
    | reading hs h => exact Reader.reading hs h
    | held hs ho => exact Reader.held hs ho
  · rw [List.flatMap_append, List.flatMap_append, ← List.append_assoc, hbytes]
    simp [hbuff]

/-- **Bytes move from the queue into the socket.** -/
theorem send (h : LinkOk bo nodeId queue wire chan frames) {sent : List Byte}
    (hsent : sent ++ queue'.flatMap MsgBuff.unsent = queue.flatMap MsgBuff.unsent) :
    LinkOk bo nodeId queue' (wire ++ sent) chan frames := by
  obtain ⟨hok, r, hreader, hbytes⟩ := h
  refine ⟨hok, r, hreader, ?_⟩
  rw [← hbytes, ← hsent]
  simp only [List.append_assoc]

/-- Bytes in the socket belong to a frame, unless the receiver waits. -/
theorem exists_frame (h : LinkOk bo nodeId queue wire chan frames) (hne : wire ≠ []) :
    ∃ f frames', frames = f :: frames' := by
  obtain ⟨_, r, _, hbytes⟩ := h
  cases frames with
  | nil =>
      rw [List.flatMap_nil, List.append_eq_nil_iff, List.append_eq_nil_iff] at hbytes
      exact absurd hbytes.1.2 hne
  | cons f frames => exact ⟨f, frames, rfl⟩

/-- The receiver has handled a frame, and is between two frames or waits. -/
theorem of_read (hok : ∀ f ∈ frames, f.Ok)
    (hbytes : wire ++ queue.flatMap MsgBuff.unsent = frames.flatMap (Frame.encode bo))
    (hoff : chan.headerOff = 0)
    (hcurr : chan.state ≠ ChannelStatus.blocking → chan.currBuff = none) :
    LinkOk bo nodeId queue wire chan frames := by
  refine ⟨hok, [], ?_, hbytes⟩
  by_cases hstate : chan.state = ChannelStatus.blocking
  · exact Reader.held hstate hoff
  · exact Reader.idle hstate (hcurr hstate) hoff

end LinkOk

end Link

/-! ### Reading from a link -/

section Read

variable {κ : Type} [DecidableEq κ] {bo : ByteOrder} {now : ℚ} {node : CommNode κ} {c : κ}
  {chan : Channel κ} {frames : List Frame} {rest : List Byte} {queue : List MsgBuff}

/-- What a read of the channel `c` does that is given the bytes `bursts`, while `rest` stays in the
socket: the link still carries the frames, or the first of them is handled. -/
inductive LinkRead (bo : ByteOrder) (now : ℚ) (node : CommNode κ) (c : κ) (chan : Channel κ)
    (queue : List MsgBuff) (rest : List Byte) :
    List Frame → Except Abort (Bool × CommNode κ × List RecvEvent) → Prop
  | part {frames : List Frame} {chan' : Channel κ} {bursts' : List (List Byte)}
      (hreads : Reads chan chan')
      (hlink : LinkOk bo node.nodeId queue (bursts'.flatten ++ rest) chan' frames) :
      LinkRead bo now node c chan queue rest frames
        (Except.ok (true, node.setMan (node.man.put c chan'), dataScript bursts'))
  | full {f : Frame} {frames : List Frame} {chan' : Channel κ} {bursts' : List (List Byte)}
      (hreads : Reads chan chan') (hf : f.Ok) (hdone : f.Done bo node.nodeId chan')
      (hok : ∀ f ∈ frames, f.Ok)
      (hbytes : bursts'.flatten ++ rest ++ queue.flatMap MsgBuff.unsent =
        frames.flatMap (Frame.encode bo)) :
      LinkRead bo now node c chan queue rest (f :: frames)
        (iomanReadDone bo now (node.setMan (node.man.put c chan')) c chan'
          (f.buff bo node.nodeId f.body) >>= fun node' =>
            Except.ok (true, node', dataScript bursts'))

/-- **A read leaves the frames on the link, or takes the first one off it.** -/
theorem LinkOk.read (bursts : List (List Byte))
    (h : LinkOk bo node.nodeId queue (bursts.flatten ++ rest) chan frames)
    (hchan : node.man.heap c = some chan) (hstate : chan.state ≠ ChannelStatus.blocking)
    (hne : bursts.flatten ≠ []) :
    LinkRead bo now node c chan queue rest frames
      (iomanProcessChannelRead bo now node c (dataScript bursts)) := by
  obtain ⟨f, frames', rfl⟩ := h.exists_frame fun h => hne (List.append_eq_nil_iff.1 h).1
  obtain ⟨hok, r, hreader, hbytes⟩ := h
  have hf := hok f List.mem_cons_self
  have hreading := hreader.reading_of_active hstate
  have hframe : r ++ bursts.flatten ++ (rest ++ queue.flatMap MsgBuff.unsent) =
      f.encode bo ++ frames'.flatMap (Frame.encode bo) := by
    rw [List.flatMap_cons] at hbytes
    rw [← hbytes]
    simp only [List.append_assoc]
  have hread : ReadFrame bo now node c chan f r bursts
      (iomanProcessChannelRead bo now node c (dataScript bursts)) :=
    iomanProcessChannelRead_data hf bursts hchan hreading hframe
  generalize iomanProcessChannelRead bo now node c (dataScript bursts) = res at hread ⊢
  cases hread with
  | part hreads hreading' hflat =>
      refine LinkRead.part hreads ⟨hok, _, Reader.reading ?_ hreading', ?_⟩
      · rw [hreads.state]
        exact hstate
      · rw [← List.append_assoc, ← hflat, ← hbytes]
        simp only [List.append_assoc]
  | full hreads hdone hflat =>
      refine LinkRead.full hreads hf hdone (fun g hg => hok g (List.mem_cons_of_mem _ hg)) ?_
      rw [hflat, List.append_assoc, List.append_cancel_left_eq] at hframe
      rw [← hframe, List.append_assoc]

end Read

end DLFree

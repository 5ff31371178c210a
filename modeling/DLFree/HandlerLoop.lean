/-
**The loop of the I/O thread and its cache of descriptor sets: `ioman_handler_loop`.**

Each round of the loop asks `ioman_set_fds` for the descriptors to wait for, calls `select`, and
handles the descriptors that are ready: the notify pipe, the listening socket, the local channel,
and then every channel that can be read and every channel that can be written.  `ioman_set_fds`
keeps the sets that it has computed and computes them again only when the cache has been
invalidated.  Between the steps of the I/O thread user threads run.

A message that is queued by `ioman_send_msg` does not invalidate the cache; it writes an event to
the notify pipe.  The loop keeps a note with every event, which says for which channel it was
written; no step of the code reads the notes.

Main definitions:

* `Descriptors`, `FdsetCache` — the numbers of the descriptors, and the cached sets;
* `iomanSetFds` — `ioman_set_fds`;
* `LoopState`, `LoopStep` — the loop, one step for each descriptor that is looked at;
* `FullSets`, `CacheOk` — what a full computation gives, and what the cache holds.

Main results:

* `iomanSetFds_full` — a full computation gives the channels that can be read and written;
* `LoopStep.inv` — a step keeps the cache;
* `handlerLoop_cache` — **the cache hides no work** in any round of the loop.
-/

import Mathlib.Data.Finset.Insert
import DLFree.NodeRun
import DLFree.Framing

set_option relaxedAutoImplicit false
set_option autoImplicit false

namespace DLFree

open TransitionRun

/-! ### Descriptor sets -/

/-- The descriptors of a node: the notify pipe, the listening socket, and the sockets of the
channels. -/
structure Descriptors (κ : Type) where
  pipeR : ℕ
  lsock : ℕ
  sock : κ → ℕ

/-- The cache of `struct ioman`: `maxfd`, `R_fds`, `W_fds` and whether `fdset_valid` is
`IOMAN_FDSET_CACHE_VALID`. -/
structure FdsetCache where
  maxfd : ℤ
  rFds : Finset ℕ
  wFds : Finset ℕ
  valid : Bool
  deriving DecidableEq

/-- The cache after `ioman_create`. -/
def fdsetCacheCreate : FdsetCache where
  maxfd := -1
  rFds := ∅
  wFds := ∅
  valid := false

/-- `man -> fdset_valid = IOMAN_FDSET_CACHE_INVALID`. -/
def FdsetCache.invalidate (cache : FdsetCache) : FdsetCache := { cache with valid := false }

/-- `FD_SET(fd, R_fds)` and `SetMax(*maxfd, *maxfd, fd)`. -/
def FdsetCache.setR (cache : FdsetCache) (fd : ℕ) : FdsetCache :=
  { cache with rFds := insert fd cache.rFds, maxfd := max cache.maxfd fd }

/-- `FD_SET(fd, W_fds)` and `SetMax(*maxfd, *maxfd, fd)`. -/
def FdsetCache.setW (cache : FdsetCache) (fd : ℕ) : FdsetCache :=
  { cache with wFds := insert fd cache.wFds, maxfd := max cache.maxfd fd }

section Code

variable {κ : Type} [DecidableEq κ]

/-- The round of the loop of `ioman_set_fds` for the channel `c`. -/
def iomanSetFdsChannel (fds : Descriptors κ) (man : Ioman κ) (sets : FdsetCache) (c : κ) :
    Except Abort FdsetCache := do
  let chan ← man.get c
  let sets := if channelIsReadable chan then sets.setR (fds.sock c) else sets
  Except.ok (if channelIsWritable chan then sets.setW (fds.sock c) else sets)

/-- `ioman_set_fds`: the sets for `select`, which are also what the cache holds afterwards. -/
def iomanSetFds (fds : Descriptors κ) (man : Ioman κ) (cache : FdsetCache) :
    Except Abort FdsetCache :=
  if cache.valid then Except.ok cache
  else do
    let sets : FdsetCache := ⟨fds.pipeR, {fds.pipeR}, ∅, true⟩
    let sets := sets.setR fds.lsock
    let chan ← man.get man.localChan
    let sets := if channelIsReadable chan then sets.setR (fds.sock man.localChan) else sets
    man.channels.foldlM (iomanSetFdsChannel fds man) sets

/-- Whether `ioman_process_channel_read` invalidates the cache: it has passed a chunk on. -/
def iomanReadInvalidates (bo : ByteOrder) (node : CommNode κ) (c : κ) (script : List RecvEvent) :
    Bool :=
  match iomanMessage bo node c script with
  | none => false
  | some (msgInfo, _) => msgInfo.kind = MsgKind.data.toInt ∧ msgInfo.dstId ≠ node.nodeId

/-- Whether `ioman_process_channel_write` invalidates the cache: the connection is made, the queue
is empty, or a producer was released. -/
def iomanWriteInvalidates (man : Ioman κ) (c : κ) (connected : Bool) (script : List SendEvent) :
    Bool :=
  match man.heap c with
  | none => false
  | some chan =>
      if chan.state = ChannelStatus.setup then connected
      else
        match channelWrite man c script with
        | Except.error _ => false
        | Except.ok r => r.stat ≠ ChannelWriteStatus.err ∧
            (r.stat = ChannelWriteStatus.ok ∨ r.unblock)

/-! ### The loop -/

/-- Where the I/O thread is in a round of the loop; `rest` are the channels that it has not looked at
yet. -/
inductive LoopPhase (κ : Type)
  | top
  | event
  | accept
  | localRead
  | reads (rest : List κ)
  | writes (rest : List κ)

/-- The channels that are still to be looked at. -/
def LoopPhase.rest : LoopPhase κ → List κ
  | LoopPhase.reads rest => rest
  | LoopPhase.writes rest => rest
  | _ => []

/-- A node in its handler loop: `rFds` and `wFds` are the sets that `select` has left, and `notes`
says for every event in the notify pipe for which channel it was written by `ioman_send_msg`. -/
structure LoopState (κ : Type) where
  run : NodeState κ
  cache : FdsetCache
  rFds : Finset ℕ
  wFds : Finset ℕ
  phase : LoopPhase κ
  notes : List (Option κ)

/-- The channels of the node. -/
def LoopState.man (s : LoopState κ) : Ioman κ := s.run.node.man

/-- The note of an event that was written while a message was queued on `target`. -/
def noteOf (target : Option κ) : IomanEvent κ → Option κ
  | IomanEvent.newmsg => target
  | _ => none

/-- The notes of the events that are in the pipe of `man'` and were not in that of `man`. -/
def newNotes (target : Option κ) (man man' : Ioman κ) : List (Option κ) :=
  (man'.events.drop man.events.length).map (noteOf target)

/-- The node takes a step that may write events. -/
def LoopState.move (s : LoopState κ) (target : Option κ) (run : NodeState κ) : LoopState κ :=
  { s with run := run, notes := s.notes ++ newNotes target s.man run.node.man }

/-- The cache is invalidated. -/
def LoopState.invalidate (s : LoopState κ) : LoopState κ := { s with cache := s.cache.invalidate }

/-- The I/O thread goes on. -/
def LoopState.goto (s : LoopState κ) (phase : LoopPhase κ) : LoopState κ := { s with phase := phase }

/-- The next phase when the descriptor that is looked at is not in its set. -/
def LoopState.skip (fds : Descriptors κ) (s : LoopState κ) : Option (LoopPhase κ) :=
  match s.phase with
  | LoopPhase.top => none
  | LoopPhase.event => if fds.pipeR ∈ s.rFds then none else some LoopPhase.accept
  | LoopPhase.accept => if fds.lsock ∈ s.rFds then none else some LoopPhase.localRead
  | LoopPhase.localRead =>
      if fds.sock s.man.localChan ∈ s.rFds then none else some (LoopPhase.reads s.man.channels)
  | LoopPhase.reads [] => some (LoopPhase.writes s.man.channels)
  | LoopPhase.reads (c :: rest) =>
      if fds.sock c ∈ s.rFds then none else some (LoopPhase.reads rest)
  | LoopPhase.writes [] => some LoopPhase.top
  | LoopPhase.writes (c :: rest) =>
      if fds.sock c ∈ s.wFds then none else some (LoopPhase.writes rest)

/-- The channel for which a read queues a message: that of the node whose message is handled. -/
def iomanReadTarget (bo : ByteOrder) (node : CommNode κ) (c : κ) (script : List RecvEvent)
    (man' : Ioman κ) : Option κ :=
  match iomanMessage bo node c script with
  | none => none
  | some (msgInfo, _) => man'.channelMap msgInfo.srcId

/-- A new socket gets a descriptor that no open one has. -/
structure Descriptors.Fresh (fds : Descriptors κ) (man : Ioman κ) (c : κ) : Prop where
  pipeR : fds.sock c ≠ fds.pipeR
  lsock : fds.sock c ≠ fds.lsock
  sock : ∀ x, man.live x → fds.sock x ≠ fds.sock c

/-- One step of a user thread. -/
inductive UserStep (bo : ByteOrder) (fds : Descriptors κ) (s : NodeState κ) : NodeState κ → Prop
  /-- a step that does not touch the channels and the notify pipe -/
  | idle {t : NodeState κ} (h : NodeStep bo s t) (hman : t.node.man = s.node.man)
      (hdead : t.dead = s.dead) : UserStep bo fds s t
  /-- `ioman_new_connection` in `comm_node_async_connect` -/
  | newConnection (c : κ) (hlock : s.adding = none) (hnew : s.node.man.heap c = none)
      (hfd : fds.Fresh s.node.man c) :
      UserStep bo fds s { s with
        node := (commNodeNewConnection s.node (some c)).2
        handleOf := Function.update s.handleOf c (some s.node.keyC)
        adding := some (s.node.keyC, c) }
  /-- the part of `ioman_send_chunk` under the lock -/
  | localPush {chan chan' : Channel κ} (minfo : MsgInfo) (body : List Byte)
      (hchan : s.node.man.heap s.node.man.localChan = some chan)
      (hpush : channelLocalPushChunk chan (channelPackBuff bo minfo body) = some chan') :
      UserStep bo fds s (s.setMan (s.node.man.put s.node.man.localChan chan'))
  /-- the token of a chunk -/
  | localToken {chan : Channel κ} (hchan : s.node.man.heap s.node.man.localChan = some chan)
      (hpipe : chan.pipe < chan.buffQueue.length) :
      UserStep bo fds s (s.setMan (s.node.man.put s.node.man.localChan (channelLocalPushToken chan)))
  /-- the event of a chunk -/
  | notify : UserStep bo fds s (s.setMan (iomanNotifyNewmsg s.node.man))
  /-- `ioman_bcast_msg` -/
  | bcast (buff : List Byte) :
      UserStep bo fds s (s.setNode (commNodeBcastMsg s.node MsgKind.rt buff))

/-- One step of the I/O thread in its loop, or of a user thread.  `select` leaves any part of the
sets that it is given. -/
inductive LoopStep (bo : ByteOrder) (fds : Descriptors κ) (s : LoopState κ) : LoopState κ → Prop
  | user {t : NodeState κ} (h : UserStep bo fds s.run t) : LoopStep bo fds s (s.move none t)
  | select {cache : FdsetCache} {rFds wFds : Finset ℕ} (hdead : s.run.dead = none)
      (hphase : s.phase = LoopPhase.top) (hset : iomanSetFds fds s.man s.cache = Except.ok cache)
      (hr : rFds ⊆ cache.rFds) (hw : wFds ⊆ cache.wFds) :
      LoopStep bo fds s { s with
        cache := cache
        rFds := rFds
        wFds := wFds
        phase := LoopPhase.event }
  | skip {phase : LoopPhase κ} (hdead : s.run.dead = none) (hskip : s.skip fds = some phase) :
      LoopStep bo fds s (s.goto phase)
  | event {man' : Ioman κ} (hdead : s.run.dead = none) (hphase : s.phase = LoopPhase.event)
      (hfd : fds.pipeR ∈ s.rFds) (hevent : iomanHandleEvent bo s.man = Except.ok man') :
      LoopStep bo fds s { s.invalidate.goto LoopPhase.accept with
        run := s.run.setMan man'
        notes := s.notes.tail }
  | accept (c : κ) (hdead : s.run.dead = none) (hphase : s.phase = LoopPhase.accept)
      (hfd : fds.lsock ∈ s.rFds) (hnew : s.man.heap c = none) (hfresh : fds.Fresh s.man c) :
      LoopStep bo fds s ((s.move none { s.run with
        node := s.run.node.setMan (iomanAccept s.man c)
        handleOf := Function.update s.run.handleOf c none }).invalidate.goto LoopPhase.localRead)
  | localRead {node' : CommNode κ} (hdead : s.run.dead = none)
      (hphase : s.phase = LoopPhase.localRead) (hfd : fds.sock s.man.localChan ∈ s.rFds)
      (hread : iomanProcessLocalChannelRead bo s.run.node = Except.ok node') :
      LoopStep bo fds s ((s.move none (s.run.setNode node')).invalidate.goto
        (LoopPhase.reads s.man.channels))
  | read {c : κ} {rest : List κ} {now : ℚ} {script script' : List RecvEvent} {alive : Bool}
      {node' : CommNode κ} (hdead : s.run.dead = none)
      (hphase : s.phase = LoopPhase.reads (c :: rest)) (hfd : fds.sock c ∈ s.rFds)
      (hread : iomanProcessChannelRead bo now s.run.node c script =
        Except.ok (alive, node', script')) :
      LoopStep bo fds s { s.move (iomanReadTarget bo s.run.node c script node'.man)
          { s.run with
            node := node'
            dead := if alive then none else some (c, DeadCause.broken) } with
        cache := if iomanReadInvalidates bo s.run.node c script then s.cache.invalidate else s.cache
        phase := LoopPhase.reads rest }
  | write {c : κ} {rest : List κ} {chan : Channel κ} {connected : Bool} {script : List SendEvent}
      {alive : Bool} {node' : CommNode κ} {sent : List Byte} (hdead : s.run.dead = none)
      (hphase : s.phase = LoopPhase.writes (c :: rest)) (hfd : fds.sock c ∈ s.wFds)
      (hchan : s.man.heap c = some chan)
      (hlock : chan.state = ChannelStatus.setup → alive = false → s.run.adding = none)
      (hwrite : iomanProcessChannelWrite bo s.run.node c connected script =
        Except.ok (alive, node', sent)) :
      LoopStep bo fds s { s.move none
          { s.run with
            node := node'
            dead := if alive then none
              else some (c, if chan.state = ChannelStatus.setup then DeadCause.refused
                else DeadCause.broken) } with
        cache := if iomanWriteInvalidates s.man c connected script then s.cache.invalidate
          else s.cache
        phase := LoopPhase.writes rest }
  | remove {c : κ} {cause : DeadCause} {man' : Ioman κ} (hdead : s.run.dead = some (c, cause))
      (hremove : iomanRemoveChannel s.man c = Except.ok man') :
      LoopStep bo fds s (s.move none { s.run with
        node := s.run.node.setMan man'
        dead := none
        handleOf := Function.update s.run.handleOf c none
        lost := s.run.lostWith c }).invalidate

/-- A node whose I/O thread has just started; the local channel has a descriptor of its own. -/
structure LoopState.Init (fds : Descriptors κ) (s : LoopState κ) : Prop where
  run : s.run.Init
  cache : s.cache = fdsetCacheCreate
  phase : s.phase = LoopPhase.top
  notes : s.notes = []
  pipeR : fds.sock s.man.localChan ≠ fds.pipeR
  lsock : fds.sock s.man.localChan ≠ fds.lsock

end Code

/-! ### What a full computation gives -/

section Sets

variable {κ : Type} [DecidableEq κ] {fds : Descriptors κ} {man man' : Ioman κ} {c : κ}
  {chan : Channel κ} {cache full sets : FdsetCache} {notes notes' : List (Option κ)}

namespace Ioman

/-- The channel can be read. -/
def readable (man : Ioman κ) (c : κ) : Prop := man.view Channel.state c = some ChannelStatus.active

/-- The channel can be written. -/
def writable (man : Ioman κ) (c : κ) : Prop :=
  0 < man.queueLen c ∨ man.view Channel.state c = some ChannelStatus.setup

omit [DecidableEq κ] in
theorem readable_iff (h : man.heap c = some chan) : man.readable c ↔ channelIsReadable chan := by
  unfold readable channelIsReadable
  rw [view_eq h, Option.some.injEq, decide_eq_true_eq]

omit [DecidableEq κ] in
theorem writable_iff (h : man.heap c = some chan) : man.writable c ↔ channelIsWritable chan := by
  unfold writable channelIsWritable
  rw [view_eq h, queueLen_eq h, Option.some.injEq, decide_eq_true_eq]

end Ioman

/-- `maxfd` is the largest descriptor in the sets. -/
def FdsetCache.MaxfdOk (sets : FdsetCache) : Prop :=
  IsGreatest {m : ℤ | ∃ n, (n ∈ sets.rFds ∨ n ∈ sets.wFds) ∧ (n : ℤ) = m} sets.maxfd

theorem FdsetCache.MaxfdOk.setR (h : sets.MaxfdOk) (fd : ℕ) : (sets.setR fd).MaxfdOk := by
  obtain ⟨⟨n, hn, hmax⟩, hle⟩ := h
  constructor
  · rcases le_total sets.maxfd fd with hfd | hfd
    · exact ⟨fd, Or.inl (Finset.mem_insert_self _ _), (max_eq_right hfd).symm⟩
    · exact ⟨n, hn.imp_left Finset.mem_insert_of_mem, hmax.trans (max_eq_left hfd).symm⟩
  · rintro m ⟨k, hk, rfl⟩
    have hk : k = fd ∨ k ∈ sets.rFds ∨ k ∈ sets.wFds := by
      rwa [FdsetCache.setR, Finset.mem_insert, or_assoc] at hk
    rcases hk with rfl | hk
    · exact le_max_right _ _
    · exact (hle ⟨k, hk, rfl⟩).trans (le_max_left _ _)

theorem FdsetCache.MaxfdOk.setW (h : sets.MaxfdOk) (fd : ℕ) : (sets.setW fd).MaxfdOk := by
  obtain ⟨⟨n, hn, hmax⟩, hle⟩ := h
  constructor
  · rcases le_total sets.maxfd fd with hfd | hfd
    · exact ⟨fd, Or.inr (Finset.mem_insert_self _ _), (max_eq_right hfd).symm⟩
    · exact ⟨n, hn.imp_right Finset.mem_insert_of_mem, hmax.trans (max_eq_left hfd).symm⟩
  · rintro m ⟨k, hk, rfl⟩
    have hk : k = fd ∨ k ∈ sets.rFds ∨ k ∈ sets.wFds := by
      rwa [FdsetCache.setW, Finset.mem_insert, or_left_comm] at hk
    rcases hk with rfl | hk
    · exact le_max_right _ _
    · exact (hle ⟨k, hk, rfl⟩).trans (le_max_left _ _)

/-- The sets of a full computation: the notify pipe, the listening socket and whatever can be read,
and whatever can be written. -/
structure FullSets (fds : Descriptors κ) (man : Ioman κ) (sets : FdsetCache) : Prop where
  valid : sets.valid = true
  reads : ∀ n, n ∈ sets.rFds ↔ n = fds.pipeR ∨ n = fds.lsock ∨
    ∃ c ∈ man.localChan :: man.channels, man.readable c ∧ fds.sock c = n
  writes : ∀ n, n ∈ sets.wFds ↔ ∃ c ∈ man.channels, man.writable c ∧ fds.sock c = n
  maxfd : sets.MaxfdOk

section

omit [DecidableEq κ]

/-- What the round for a channel adds to the sets. -/
theorem iomanSetFdsChannel_spec (h : iomanSetFdsChannel fds man sets c = Except.ok full) :
    full.valid = sets.valid ∧ (sets.MaxfdOk → full.MaxfdOk) ∧
      (∀ n, n ∈ full.rFds ↔ n ∈ sets.rFds ∨ (man.readable c ∧ fds.sock c = n)) ∧
      ∀ n, n ∈ full.wFds ↔ n ∈ sets.wFds ∨ (man.writable c ∧ fds.sock c = n) := by
  obtain ⟨chan, hchan, h⟩ := bind_eq_ok.1 h
  rw [Ioman.get_eq_ok] at hchan
  have hr := Ioman.readable_iff hchan
  have hw := Ioman.writable_iff hchan
  cases h
  by_cases hread : channelIsReadable chan <;> by_cases hwrite : channelIsWritable chan
  · refine ⟨by simp [hread, hwrite, FdsetCache.setR, FdsetCache.setW], fun h => ?_, ?_, ?_⟩
    · simp only [hread, hwrite, if_true]
      exact (h.setR _).setW _
    all_goals
      intro n
      simp [hread, hwrite, hr, hw, FdsetCache.setR, FdsetCache.setW, or_comm, eq_comm]
  · refine ⟨by simp [hread, hwrite, FdsetCache.setR], fun h => ?_, ?_, ?_⟩
    · simp only [hread, hwrite, if_true]
      exact h.setR _
    all_goals
      intro n
      simp [hread, hwrite, hr, hw, FdsetCache.setR, or_comm, eq_comm]
  · refine ⟨by simp [hread, hwrite, FdsetCache.setW], fun h => ?_, ?_, ?_⟩
    · simp only [hread, hwrite, if_true]
      exact h.setW _
    all_goals
      intro n
      simp [hread, hwrite, hr, hw, FdsetCache.setW, or_comm, eq_comm]
  · refine ⟨by simp [hread, hwrite], fun h => ?_, ?_, ?_⟩
    · simp only [hread, hwrite]
      exact h
    all_goals
      intro n
      simp [hread, hwrite, hr, hw]

/-- What the loop over the channels adds to the sets. -/
theorem iomanSetFds_loop (cs : List κ) :
    ∀ {sets : FdsetCache}, cs.foldlM (iomanSetFdsChannel fds man) sets = Except.ok full →
      full.valid = sets.valid ∧ (sets.MaxfdOk → full.MaxfdOk) ∧
        (∀ n, n ∈ full.rFds ↔ n ∈ sets.rFds ∨ ∃ c ∈ cs, man.readable c ∧ fds.sock c = n) ∧
        ∀ n, n ∈ full.wFds ↔ n ∈ sets.wFds ∨ ∃ c ∈ cs, man.writable c ∧ fds.sock c = n := by
  induction cs with
  | nil =>
      intro sets h
      cases h
      exact ⟨rfl, id, fun n => by simp, fun n => by simp⟩
  | cons c cs ih =>
      intro sets h
      rw [List.foldlM_cons] at h
      obtain ⟨sets₁, hround, hrest⟩ := bind_eq_ok.1 h
      obtain ⟨hvalid₁, hmax₁, hr₁, hw₁⟩ := iomanSetFdsChannel_spec hround
      obtain ⟨hvalid, hmax, hr, hw⟩ := ih hrest
      refine ⟨hvalid.trans hvalid₁, fun h => hmax (hmax₁ h), fun n => ?_, fun n => ?_⟩
      · rw [hr, hr₁, List.exists_mem_cons_iff, or_assoc]
      · rw [hw, hw₁, List.exists_mem_cons_iff, or_assoc]

/-- **A full computation gives the channels that can be read and written.** -/
theorem iomanSetFds_full (hinvalid : cache.valid = false)
    (h : iomanSetFds fds man cache = Except.ok full) : FullSets fds man full := by
  unfold iomanSetFds at h
  rw [if_neg (by rw [hinvalid]; nofun)] at h
  obtain ⟨chan, hchan, h⟩ := bind_eq_ok.1 h
  rw [Ioman.get_eq_ok] at hchan
  have hlocal := Ioman.readable_iff hchan
  obtain ⟨hvalid, hmax, hr, hw⟩ := iomanSetFds_loop man.channels h
  have hstart : (⟨fds.pipeR, {fds.pipeR}, ∅, true⟩ : FdsetCache).MaxfdOk :=
    ⟨⟨fds.pipeR, by simp, rfl⟩, by rintro m ⟨k, hk, rfl⟩; simp at hk; simp [hk]⟩
  refine ⟨hvalid.trans ?_, fun n => ?_, fun n => ?_, hmax ?_⟩
  · split <;> rfl
  · rw [hr, List.exists_mem_cons_iff]
    split <;> rename_i hread <;>
      simp [FdsetCache.setR, hlocal, hread, or_comm, or_assoc, eq_comm]
  · rw [hw]
    split <;> simp [FdsetCache.setR]
  · split
    · exact (hstart.setR _).setR _
    · exact hstart.setR _

/-- The computation does not fail while the channels exist. -/
theorem iomanSetFds_ok (cache : FdsetCache) (hlocal : man.live man.localChan)
    (hlive : ∀ c ∈ man.channels, man.live c) : ∃ full, iomanSetFds fds man cache = Except.ok full := by
  have hloop : ∀ (cs : List κ) (sets : FdsetCache), (∀ c ∈ cs, man.live c) →
      ∃ full, cs.foldlM (iomanSetFdsChannel fds man) sets = Except.ok full := by
    intro cs
    induction cs with
    | nil => exact fun sets _ => ⟨sets, rfl⟩
    | cons c cs ih =>
        intro sets hcs
        obtain ⟨chan, hchan⟩ := Ioman.exists_of_live (hcs c List.mem_cons_self)
        rw [List.foldlM_cons]
        unfold iomanSetFdsChannel
        rw [Ioman.get_eq_ok.2 hchan]
        exact ih _ fun x hx => hcs x (List.mem_cons_of_mem _ hx)
  unfold iomanSetFds
  split
  · exact ⟨cache, rfl⟩
  · obtain ⟨chan, hchan⟩ := Ioman.exists_of_live hlocal
    rw [Ioman.get_eq_ok.2 hchan, ok_bind]
    exact hloop _ _ hlive

end

/-! ### What the cache holds -/

/-- The cached sets are those of a full computation, but channels with a note may be missing in the
set for writing. -/
structure CacheOk (fds : Descriptors κ) (man : Ioman κ) (notes : List (Option κ))
    (cache : FdsetCache) : Prop where
  reads : ∀ n, n ∈ cache.rFds ↔ n = fds.pipeR ∨ n = fds.lsock ∨
    ∃ c ∈ man.localChan :: man.channels, man.readable c ∧ fds.sock c = n
  writes : ∀ n ∈ cache.wFds, ∃ c ∈ man.channels, man.writable c ∧ fds.sock c = n
  noted : ∀ c ∈ man.channels, man.writable c → fds.sock c ∈ cache.wFds ∨ some c ∈ notes
  maxfd : cache.MaxfdOk

omit [DecidableEq κ] in
theorem FullSets.cacheOk (h : FullSets fds man sets) (notes : List (Option κ)) :
    CacheOk fds man notes sets where
  reads := h.reads
  writes n hn := (h.writes n).1 hn
  noted c hc hw := Or.inl ((h.writes _).2 ⟨c, hc, hw, rfl⟩)
  maxfd := h.maxfd

/-- The channels stay in their states, and queues only grow; the queues that have grown belong to
noted channels. -/
structure Quiet (notes : List (Option κ)) (man man' : Ioman κ) : Prop where
  channels : man'.channels = man.channels
  localChan : man'.localChan = man.localChan
  state : ∀ c ∈ man.localChan :: man.channels,
    man'.view Channel.state c = man.view Channel.state c
  grows : ∀ c ∈ man.channels, 0 < man.queueLen c → 0 < man'.queueLen c
  noted : ∀ c ∈ man.channels, 0 < man'.queueLen c → 0 < man.queueLen c ∨ some c ∈ notes

omit [DecidableEq κ] in
/-- **A quiet step keeps what the cache holds.** -/
theorem CacheOk.quiet (h : CacheOk fds man notes cache) (hq : Quiet notes' man man')
    (hnotes : notes ⊆ notes') : CacheOk fds man' notes' cache := by
  have hread : ∀ c ∈ man.localChan :: man.channels, man'.readable c ↔ man.readable c := by
    intro c hc
    unfold Ioman.readable
    rw [hq.state c hc]
  have hwrite : ∀ c ∈ man.channels, man.writable c → man'.writable c := by
    intro c hc hw
    refine hw.imp (hq.grows c hc) fun hsetup => ?_
    rw [hq.state c (List.mem_cons_of_mem _ hc)]
    exact hsetup
  refine ⟨fun n => ?_, fun n hn => ?_, fun c hc hw => ?_, h.maxfd⟩
  · rw [h.reads n, hq.localChan, hq.channels]
    refine or_congr Iff.rfl (or_congr Iff.rfl (exists_congr fun c => and_congr_right fun hc => ?_))
    rw [hread c hc]
  · obtain ⟨c, hc, hw, hfd⟩ := h.writes n hn
    rw [hq.channels]
    exact ⟨c, hc, hwrite c hc hw, hfd⟩
  · rw [hq.channels] at hc
    have hold : man.writable c ∨ some c ∈ notes' := by
      rcases hw with hlen | hsetup
      · exact (hq.noted c hc hlen).imp_left Or.inl
      · rw [hq.state c (List.mem_cons_of_mem _ hc)] at hsetup
        exact Or.inl (Or.inr hsetup)
    rcases hold with hw | hnote
    · exact (h.noted c hc hw).imp_right fun hm => hnotes hm
    · exact Or.inr hnote

end Sets

/-! ### Reads that do not invalidate the cache -/

section Told

variable {κ : Type} [DecidableEq κ] {bo : ByteOrder} {now : ℚ} {c : κ} {man man' man'' : Ioman κ}
  {node node' : CommNode κ} {chan chan' : Channel κ} {target : Option κ} {notes : List (Option κ)}

/-- The channels, the events, the states and the queues stay. -/
structure SameReady (man man' : Ioman κ) : Prop where
  channels : man'.channels = man.channels
  localChan : man'.localChan = man.localChan
  events : man'.events = man.events
  state : ∀ x, man'.view Channel.state x = man.view Channel.state x
  queueLen : ∀ x, man'.queueLen x = man.queueLen x

/-- The channels and their states stay, and the queues grow; a queue that was empty is that of
`target`, and an event has been written for it. -/
structure Told (target : Option κ) (man man' : Ioman κ) : Prop where
  channels : man'.channels = man.channels
  localChan : man'.localChan = man.localChan
  state : ∀ x, man'.view Channel.state x = man.view Channel.state x
  grows : ∀ x, 0 < man.queueLen x → 0 < man'.queueLen x
  events : ∃ new, man'.events = man.events ++ new ∧ ∀ x, 0 < man'.queueLen x →
    0 < man.queueLen x ∨ (target = some x ∧ IomanEvent.newmsg ∈ new)

theorem SameReady.modify (f : Channel κ → Channel κ) (hstate : ∀ chan, (f chan).state = chan.state)
    (hqueue : ∀ chan, (f chan).buffQueue = chan.buffQueue) : SameReady man (man.modify c f) :=
  ⟨rfl, rfl, rfl, fun _ => Ioman.view_modify f hstate,
    fun _ => Ioman.queueLen_modify f fun chan => by rw [hqueue]⟩

theorem SameReady.put (hchan : man.heap c = some chan) (hstate : chan'.state = chan.state)
    (hqueue : chan'.buffQueue = chan.buffQueue) : SameReady man (man.put c chan') := by
  refine ⟨rfl, rfl, rfl, fun _ => Ioman.view_put hchan hstate, fun x => ?_⟩
  unfold Ioman.queueLen
  rw [Ioman.view_put hchan (by rw [hqueue])]

omit [DecidableEq κ] in
theorem SameReady.trans (h : SameReady man man') (h' : SameReady man' man'') :
    SameReady man man'' where
  channels := h'.channels.trans h.channels
  localChan := h'.localChan.trans h.localChan
  events := h'.events.trans h.events
  state x := (h'.state x).trans (h.state x)
  queueLen x := (h'.queueLen x).trans (h.queueLen x)

omit [DecidableEq κ] in
theorem SameReady.told (h : SameReady man man') : Told target man man' where
  channels := h.channels
  localChan := h.localChan
  state := h.state
  grows x hx := by
    rw [h.queueLen]
    exact hx
  events := by
    refine ⟨[], by rw [h.events, List.append_nil], fun x hx => ?_⟩
    rw [h.queueLen] at hx
    exact Or.inl hx

omit [DecidableEq κ] in
theorem SameReady.trans_told (h : SameReady man man') (h' : Told target man' man'') :
    Told target man man'' where
  channels := h'.channels.trans h.channels
  localChan := h'.localChan.trans h.localChan
  state x := (h'.state x).trans (h.state x)
  grows x hx := h'.grows x (by rw [h.queueLen]; exact hx)
  events := by
    obtain ⟨new, hnew, hx⟩ := h'.events
    refine ⟨new, by rw [hnew, h.events], fun x hlen => ?_⟩
    rw [← h.queueLen]
    exact hx x hlen

/-- A message is queued on the channel of its node, and an event is written. -/
theorem iomanSendMsg_told {kind : MsgKind} {dstId : ℤ} {body : List Byte}
    (h : iomanSendMsg bo man kind dstId body = Except.ok man') :
    Told (man'.channelMap dstId) man man' := by
  obtain ⟨c, hmap, h⟩ := bind_eq_ok.1 h
  have hc : man.channelMap dstId = some c := by
    obtain ⟨_, _, hmap⟩ := bind_eq_ok.1 hmap
    cases hm : man.channelMap dstId with
    | none =>
        rw [hm] at hmap
        cases hmap
    | some x =>
        rw [hm] at hmap
        cases hmap
        rfl
  cases h
  refine ⟨rfl, rfl, fun _ => Ioman.view_modify (channelSendMsg bo _ body) fun _ => rfl,
    fun x hx => lt_of_lt_of_le hx ?_, [IomanEvent.newmsg], rfl, fun x hx => ?_⟩
  · refine Ioman.queueLen_le_modify (channelSendMsg bo _ body) fun chan => ?_
    simp [channelSendMsg]
  · by_cases hxc : x = c
    · subst hxc
      exact Or.inr ⟨hc, List.mem_singleton_self _⟩
    · refine Or.inl (lt_of_lt_of_eq hx ?_)
      show (man.modify c (channelSendMsg bo _ body)).queueLen x = man.queueLen x
      unfold Ioman.queueLen Ioman.view
      rw [Ioman.heap_modify_of_ne hxc]

theorem commNodeHandleMsg_told {msgInfo : MsgInfo} {body : List Byte}
    (h : commNodeHandleMsg bo now node c msgInfo body = Except.ok node') :
    Told (node'.man.channelMap msgInfo.srcId) node.man node'.man := by
  cases commNodeHandleMsg_cases h with
  | ping _ hreg hrtt hsend =>
      obtain ⟨_, rfl⟩ := commNodeRttMeasureStart_cases hrtt
      have htold := iomanSendMsg_told hsend
      obtain ⟨_, _, _, _, rfl⟩ := iomanRegisterChannel_cases hreg
      have hmap : SameReady node.man { node.man with
          channelMap := Function.update node.man.channelMap msgInfo.srcId (some c) } :=
        ⟨rfl, rfl, rfl, fun _ => rfl, fun _ => rfl⟩
      exact (hmap.trans (SameReady.modify (Channel.setPeerId _) (fun _ => rfl)
        fun _ => rfl)).trans_told htold
  | pong0 _ hrtt hsend =>
      obtain ⟨_, rfl⟩ := commNodeRttMeasureEnd_cases hrtt
      exact iomanSendMsg_told hsend
  | pong1 _ hrtt hnotify =>
      obtain ⟨_, rfl⟩ := commNodeRttMeasureEnd_cases hrtt
      obtain ⟨_, rfl⟩ := commNodeNotifySuccess_cases hnotify
      exact (SameReady.modify (Channel.setConnectState _) (fun _ => rfl) fun _ => rfl).told
  | rtNew _ hrt =>
      obtain ⟨_, _, _, ⟨_, _, _, _, rfl⟩ | ⟨hfalse, _, _⟩⟩ := commNodeRegisterRt_cases hrt
      · exact ⟨rfl, rfl, fun _ => rfl, fun _ hx => hx, _, rfl, fun _ hx => Or.inl hx⟩
      · cases hfalse
  | rtKnown _ hrt =>
      obtain ⟨_, _, _, ⟨hfalse, _⟩ | ⟨_, _, rfl⟩⟩ := commNodeRegisterRt_cases hrt
      · cases hfalse
      · exact ⟨rfl, rfl, fun _ => rfl, fun _ hx => hx, [], (List.append_nil _).symm,
          fun _ hx => Or.inl hx⟩

/-- **A read that does not pass a chunk on** at most queues a message, and writes an event for it. -/
theorem iomanProcessChannelRead_told {script script' : List RecvEvent} {alive : Bool}
    (h : iomanProcessChannelRead bo now node c script = Except.ok (alive, node', script'))
    (hcache : iomanReadInvalidates bo node c script = false) :
    Told (iomanReadTarget bo node c script node'.man) node.man node'.man := by
  obtain ⟨chan, hchan, _⟩ := bind_eq_ok.1 h
  rw [Ioman.get_eq_ok] at hchan
  rw [iomanProcessChannelRead_eq script hchan] at h
  unfold iomanReadInvalidates iomanMessage at hcache
  unfold iomanReadTarget iomanMessage
  simp only [hchan] at hcache ⊢
  obtain ⟨⟨stat, msg, chan', script₁⟩, hframe, h⟩ := bind_eq_ok.1 h
  rw [hframe] at hcache ⊢
  have hreads := iomanReadFrame_reads hframe
  have hput : SameReady node.man (node.man.put c chan') :=
    SameReady.put hchan hreads.state hreads.buffQueue
  unfold iomanHandleRead at h
  cases msg with
  | none =>
      cases h
      exact hput.told
  | some msg =>
      obtain ⟨node₁, hdone, h⟩ := bind_eq_ok.1 h
      cases h
      dsimp only at hcache ⊢
      unfold iomanReadDone at hdone
      by_cases hkind : chan'.msgInfo.kind = MsgKind.data.toInt
      · by_cases hdst : chan'.msgInfo.dstId = node.nodeId
        · rw [if_pos hkind, if_pos (show chan'.msgInfo.dstId =
            (node.setMan (node.man.put c chan')).nodeId from hdst)] at hdone
          obtain ⟨node₂, hchunk, hdone⟩ := bind_eq_ok.1 hdone
          obtain ⟨_, _, hdone⟩ := bind_eq_ok.1 hdone
          cases hdone
          obtain rfl := commNodeHandleChunk_cases hchunk
          exact (hput.trans (SameReady.modify (Channel.setCurrBuff none) (fun _ => rfl)
            fun _ => rfl)).told
        · -- such a read invalidates the cache
          simp [hkind, hdst] at hcache
      · rw [if_neg hkind] at hdone
        obtain ⟨_, _, hmsg⟩ := bind_eq_ok.1 hdone
        exact hput.trans_told (commNodeHandleMsg_told hmsg)

/-- The events that a read leaves behind are those before it, and new ones. -/
theorem iomanProcessChannelRead_events {script script' : List RecvEvent} {alive : Bool}
    (h : iomanProcessChannelRead bo now node c script = Except.ok (alive, node', script')) :
    ∃ new, node'.man.events = node.man.events ++ new := by
  obtain ⟨chan, hchan, hstep⟩ := iomanProcessChannelRead_cases h
  cases hstep with
  | part _ _ => exact ⟨[], (List.append_nil _).symm⟩
  | deliver _ hchunk =>
      obtain rfl := commNodeHandleChunk_cases hchunk
      exact ⟨[], (List.append_nil _).symm⟩
  | pipe _ _ hpipe =>
      obtain ⟨_, _, _, _, _, _, ⟨_, _, rfl⟩ | ⟨_, _, rfl⟩⟩ := channelPipelineChunk_cases hpipe <;>
      exact ⟨[], (List.append_nil _).symm⟩
  | handle _ hmsg =>
      obtain ⟨new, hnew, _⟩ := (commNodeHandleMsg_told hmsg).events
      exact ⟨new, hnew⟩

end Told

/-! ### Writes that do not invalidate the cache -/

section Sent

variable {κ : Type} [DecidableEq κ] {bo : ByteOrder} {c : κ} {man man' man'' : Ioman κ}
  {node node' : CommNode κ} {notes : List (Option κ)}

/-- Only the queue of `c` changes. -/
structure SentOnly (c : κ) (man man' : Ioman κ) : Prop where
  channels : man'.channels = man.channels
  localChan : man'.localChan = man.localChan
  state : ∀ x, man'.view Channel.state x = man.view Channel.state x
  queueLen : ∀ x, x ≠ c → man'.queueLen x = man.queueLen x

omit [DecidableEq κ] in
theorem SentOnly.trans (h : SentOnly c man man') (h' : SentOnly c man' man'') :
    SentOnly c man man'' where
  channels := h'.channels.trans h.channels
  localChan := h'.localChan.trans h.localChan
  state x := (h'.state x).trans (h.state x)
  queueLen x hx := (h'.queueLen x hx).trans (h.queueLen x hx)

theorem sentOnly_setBuffQueue (queue : List MsgBuff) :
    SentOnly c man (man.modify c (Channel.setBuffQueue queue)) := by
  refine ⟨rfl, rfl, fun _ => Ioman.view_modify (Channel.setBuffQueue queue) fun _ => rfl,
    fun x hx => ?_⟩
  unfold Ioman.queueLen Ioman.view
  rw [Ioman.heap_modify_of_ne hx]

/-- The loop that releases producers says so when it has released one. -/
theorem channelUnblock_false {ws : List κ} (h : channelUnblock man c ws = Except.ok (false, man')) :
    man' = man := by
  cases ws with
  | nil =>
      cases h
      rfl
  | cons waiter ws =>
      unfold channelUnblock at h
      obtain ⟨chan, _, h⟩ := bind_eq_ok.1 h
      split at h
      · obtain ⟨_, _, h⟩ := bind_eq_ok.1 h
        obtain ⟨_, _, h⟩ := bind_eq_ok.1 h
        obtain ⟨_, _, h⟩ := bind_eq_ok.1 h
        cases h
      · cases h
        rfl

/-- Without a release only the queue that is written changes; it was not empty when the write stops
early, and still is not. -/
theorem channelWriteLoop_sentOnly :
    ∀ {fuel : ℕ} {man : Ioman κ} {unblock : Bool} {script : List SendEvent} {r : ChannelWrite κ},
      channelWriteLoop c fuel man unblock script = Except.ok r → r.unblock = false →
        unblock = false ∧ SentOnly c man r.man ∧
          (r.stat ≠ ChannelWriteStatus.ok → 0 < man.queueLen c ∧ 0 < r.man.queueLen c) := by
  intro fuel
  induction fuel with
  | zero =>
      intro man unblock script r h hun
      unfold channelWriteLoop at h
      obtain ⟨chan, hchan, h⟩ := bind_eq_ok.1 h
      cases hq : chan.buffQueue with
      | nil =>
          simp only [hq, Except.ok.injEq] at h
          subst h
          exact ⟨hun, ⟨rfl, rfl, fun _ => rfl, fun _ _ => rfl⟩, fun hstat => absurd rfl hstat⟩
      | cons buff bs =>
          simp only [hq] at h
          cases h
  | succ fuel ih =>
      intro man unblock script r h hun
      unfold channelWriteLoop at h
      obtain ⟨chan, hchan, h⟩ := bind_eq_ok.1 h
      rw [Ioman.get_eq_ok] at hchan
      cases hq : chan.buffQueue with
      | nil =>
          simp only [hq, Except.ok.injEq] at h
          subst h
          exact ⟨hun, ⟨rfl, rfl, fun _ => rfl, fun _ _ => rfl⟩, fun hstat => absurd rfl hstat⟩
      | cons buff bs =>
          have hlen : 0 < man.queueLen c := by
            rw [Ioman.queueLen_eq hchan, hq]
            exact Nat.succ_pos _
          simp only [hq] at h
          by_cases hstat : (sendBuff script buff).1 = ChannelWriteStatus.ok
          · rw [if_pos hstat] at h
            obtain ⟨⟨released, man₁⟩, hunblock, h⟩ := bind_eq_ok.1 h
            obtain ⟨r', hr', h⟩ := bind_eq_ok.1 h
            simp only [Except.ok.injEq] at h
            subst h
            obtain ⟨hor, hsent, hlater⟩ := ih hr' hun
            rw [Bool.or_eq_false_iff] at hor
            obtain ⟨hun', rfl⟩ := hor
            obtain rfl := channelUnblock_false hunblock
            exact ⟨hun', (sentOnly_setBuffQueue bs).trans hsent,
              fun hne => ⟨hlen, (hlater hne).2⟩⟩
          · rw [if_neg hstat] at h
            simp only [Except.ok.injEq] at h
            subst h
            refine ⟨hun, sentOnly_setBuffQueue _, fun _ => ⟨hlen, ?_⟩⟩
            rw [Ioman.queueLen_eq (Ioman.heap_modify_eq hchan)]
            exact Nat.succ_pos _

theorem SentOnly.quiet (h : SentOnly c man man') (hlen : 0 < man.queueLen c ∧ 0 < man'.queueLen c) :
    Quiet notes man man' := by
  refine ⟨h.channels, h.localChan, fun x _ => h.state x, fun x _ hx => ?_, fun x _ hx => ?_⟩
  · by_cases hxc : x = c
    · rw [hxc]
      exact hlen.2
    · rw [h.queueLen x hxc]
      exact hx
  · by_cases hxc : x = c
    · rw [hxc]
      exact Or.inl hlen.1
    · rw [h.queueLen x hxc] at hx
      exact Or.inl hx

/-- **A write that leaves bytes in the queue and releases nobody** leaves the channels as they were. -/
theorem iomanProcessChannelWrite_quiet {connected : Bool} {script : List SendEvent}
    {sent : List Byte}
    (h : iomanProcessChannelWrite bo node c connected script = Except.ok (true, node', sent))
    (hcache : iomanWriteInvalidates node.man c connected script = false) :
    Quiet notes node.man node'.man := by
  obtain ⟨chan, hchan, h⟩ := bind_eq_ok.1 h
  rw [Ioman.get_eq_ok] at hchan
  unfold iomanWriteInvalidates at hcache
  simp only [hchan] at hcache
  cases hstate : chan.state with
  | init =>
      simp only [hstate] at h
      cases h
  | setup =>
      rw [if_pos hstate] at hcache
      subst hcache
      simp only [hstate] at h
      obtain ⟨⟨isActive, chan₁⟩, hactive, h⟩ := bind_eq_ok.1 h
      obtain ⟨_, _, hactive⟩ := bind_eq_ok.1 hactive
      cases hactive
      cases h
  | active | blocking =>
      simp only [hstate] at h
      rw [if_neg (by rw [hstate]; nofun)] at hcache
      obtain ⟨r, hwrite, h⟩ := bind_eq_ok.1 h
      simp only [Except.ok.injEq, Prod.mk.injEq] at h
      obtain ⟨halive, rfl, _⟩ := h
      rw [hwrite] at hcache
      simp only [ne_eq, decide_eq_true_eq] at halive
      simp only [halive, ne_eq, not_false_eq_true, true_and, decide_eq_false_iff_not, not_or,
        Bool.not_eq_true] at hcache
      obtain ⟨_, _, hloop⟩ := bind_eq_ok.1 hwrite
      obtain ⟨_, hsent, hlen⟩ := channelWriteLoop_sentOnly hloop hcache.2
      exact hsent.quiet (hlen hcache.1)

theorem WriteRun.events {bytes : List Byte} (h : WriteRun c man bytes man') :
    man'.events = man.events := by
  induction h with
  | refl man => rfl
  | step hmicro _ ih =>
      refine ih.trans ?_
      cases hmicro with
      | part _ _ _ _ => rfl
      | whole _ _ => rfl
      | release h =>
          obtain ⟨_, _, _, _, _, _, _, _, rfl⟩ := h
          rfl

theorem iomanProcessChannelWrite_events {connected alive : Bool} {script : List SendEvent}
    {sent : List Byte}
    (h : iomanProcessChannelWrite bo node c connected script = Except.ok (alive, node', sent)) :
    node'.man.events = node.man.events := by
  obtain ⟨chan, _, hstep⟩ := iomanProcessChannelWrite_cases h
  cases hstep with
  | connected _ => rfl
  | refused _ => rfl
  | sent _ hwrite => exact (channelWrite_run hwrite).events

theorem iomanProcessLocalChannelRead_events
    (h : iomanProcessLocalChannelRead bo node = Except.ok node') :
    node'.man.events = node.man.events := by
  obtain ⟨_, _, _, _, _, _, _, _, _, hpipe, rfl⟩ := iomanProcessLocalChannelRead_cases h
  obtain ⟨_, _, _, _, _, _, ⟨_, _, rfl⟩ | ⟨_, _, rfl⟩⟩ := channelPipelineChunk_cases hpipe <;> rfl

theorem iomanHandleEvent_events (h : iomanHandleEvent bo man = Except.ok man') :
    man'.events = man.events.tail := by
  unfold iomanHandleEvent at h
  split at h
  · cases h
  · rename_i event events hevents
    rw [hevents, List.tail_cons]
    cases event with
    | newchan c | newmsg =>
        cases h
        rfl
    | bcastmsg kind body =>
        cases h
        exact iomanHandleEventBcastmsg_induct
          (P := fun m => m.events = events) (fun _ _ _ h => h) rfl

end Sent

/-! ### What a step keeps -/

section Loop

variable {κ : Type} [DecidableEq κ] {bo : ByteOrder} {fds : Descriptors κ} {s t : LoopState κ}
  {c : κ} {man man' : Ioman κ} {target : Option κ} {notes : List (Option κ)}

/-- Channels that exist have descriptors of their own. -/
structure Descriptors.Distinct (fds : Descriptors κ) (man : Ioman κ) : Prop where
  special : ∀ x, man.live x → fds.sock x ≠ fds.pipeR ∧ fds.sock x ≠ fds.lsock
  inj : ∀ x y, man.live x → man.live y → fds.sock x = fds.sock y → x = y

omit [DecidableEq κ] in
theorem Descriptors.Distinct.of_live (h : fds.Distinct man) (hlive : ∀ x, man'.live x → man.live x) :
    fds.Distinct man' :=
  ⟨fun x hx => h.special x (hlive x hx),
    fun x y hx hy => h.inj x y (hlive x hx) (hlive y hy)⟩

omit [DecidableEq κ] in
theorem Descriptors.Distinct.new (h : fds.Distinct man) (hfresh : fds.Fresh man c)
    (hlive : ∀ x, man'.live x → x = c ∨ man.live x) : fds.Distinct man' := by
  refine ⟨fun x hx => ?_, fun x y hx hy he => ?_⟩
  · rcases hlive x hx with rfl | hx
    · exact ⟨hfresh.pipeR, hfresh.lsock⟩
    · exact h.special x hx
  · rcases hlive x hx with rfl | hx <;> rcases hlive y hy with rfl | hy
    · rfl
    · exact absurd he.symm (hfresh.sock y hy)
    · exact absurd he (hfresh.sock x hx)
    · exact h.inj x y hx hy he

/-- A note belongs to an event of a message. -/
def NoteOk (event : IomanEvent κ) (note : Option κ) : Prop :=
  note.isSome → event = IomanEvent.newmsg

section

omit [DecidableEq κ]

theorem newNotes_eq {new : List (IomanEvent κ)} (h : man'.events = man.events ++ new) :
    newNotes target man man' = new.map (noteOf target) := by
  unfold newNotes
  rw [h, List.drop_left]

theorem noteOk_noteOf (new : List (IomanEvent κ)) :
    List.Forall₂ NoteOk new (new.map (noteOf target)) := by
  rw [List.forall₂_map_right_iff, List.forall₂_same]
  intro event _ hsome
  cases event with
  | newchan _ => cases hsome
  | newmsg => rfl
  | bcastmsg _ _ => cases hsome

/-- New events come with their notes. -/
theorem notes_append (h : List.Forall₂ NoteOk man.events notes)
    (hnew : ∃ new, man'.events = man.events ++ new) :
    List.Forall₂ NoteOk man'.events (notes ++ newNotes target man man') := by
  obtain ⟨new, hnew⟩ := hnew
  rw [newNotes_eq hnew, hnew]
  exact List.rel_append h (noteOk_noteOf new)

/-- A queue that was empty has a note now. -/
theorem Told.quiet (h : Told target man man') :
    Quiet (notes ++ newNotes target man man') man man' := by
  obtain ⟨new, hnew, hnoted⟩ := h.events
  refine ⟨h.channels, h.localChan, fun x _ => h.state x, fun x _ => h.grows x, fun x _ hx => ?_⟩
  refine (hnoted x hx).imp_right fun hx => ?_
  obtain ⟨rfl, hmem⟩ := hx
  rw [newNotes_eq hnew]
  exact List.mem_append_right _ (List.mem_map.2 ⟨_, hmem, rfl⟩)

end

/-- The invariant of the loop: while no dead channel waits for its removal, a valid cache holds the
sets of the current channels; the channels that are still to be looked at are in the list. -/
structure LoopInv (fds : Descriptors κ) (s : LoopState κ) : Prop where
  run : NodeInv s.run
  distinct : fds.Distinct s.man
  notes : List.Forall₂ NoteOk s.man.events s.notes
  rest : ((s.run.dead.map Prod.fst).toList ++ s.phase.rest).Sublist s.man.channels
  top : s.phase = LoopPhase.top → s.run.dead = none
  cache : s.run.dead = none → s.cache.valid = true → CacheOk fds s.man s.notes s.cache

theorem loopInv_init (h : s.Init fds) : LoopInv fds s := by
  obtain ⟨hrun, hcache, hphase, hnotes, hpipe, hlsock⟩ := h
  have hinv := nodeInv_init hrun
  obtain ⟨nodeId, c, hs⟩ := hrun
  have hman : s.man = iomanCreate nodeId commMaxPeer c := by
    unfold LoopState.man
    rw [hs]
    rfl
  have hlive : ∀ x, s.man.live x → x = s.man.localChan := by
    intro x hx
    rw [hman] at hx ⊢
    by_contra hne
    have hxc : x ≠ c := hne
    have hnone : (iomanCreate nodeId commMaxPeer c).heap x = none := by
      unfold iomanCreate
      dsimp only
      rw [Function.update_of_ne hxc]
    unfold Ioman.live at hx
    rw [hnone] at hx
    cases hx
  refine ⟨hinv, ⟨fun x hx => ?_, fun x y hx hy _ => ?_⟩, ?_, ?_, fun _ => ?_, fun _ hvalid => ?_⟩
  · rw [hlive x hx]
    exact ⟨hpipe, hlsock⟩
  · rw [hlive x hx, hlive y hy]
  · rw [hnotes, hman]
    exact List.Forall₂.nil
  · rw [hphase, hs]
    exact List.nil_sublist _
  · rw [hs]
  · rw [hcache] at hvalid
    cases hvalid

/-! ### User threads -/

section User

variable {r r' : NodeState κ} (h : UserStep bo fds r r')

include h

theorem UserStep.nodeStep : NodeStep bo r r' := by
  cases h with
  | idle h _ _ => exact h
  | newConnection c hlock hnew _ => exact NodeStep.newConnection c hlock hnew
  | localPush minfo body hchan hpush => exact NodeStep.localPush minfo body hchan hpush
  | localToken hchan hpipe => exact NodeStep.localToken hchan hpipe
  | notify => exact NodeStep.notify
  | bcast buff => exact NodeStep.bcast buff

theorem UserStep.dead : r'.dead = r.dead := by
  cases h with
  | idle _ _ hdead => exact hdead
  | _ => rfl

theorem UserStep.events : ∃ new, r'.node.man.events = r.node.man.events ++ new := by
  cases h with
  | idle _ hman _ => exact ⟨[], by rw [hman, List.append_nil]⟩
  | newConnection | notify | bcast _ => exact ⟨_, rfl⟩
  | localPush _ _ _ _ | localToken _ _ => exact ⟨[], (List.append_nil _).symm⟩

theorem UserStep.distinct (hfds : fds.Distinct r.node.man) : fds.Distinct r'.node.man := by
  cases h with
  | idle _ hman _ => exact hman ▸ hfds
  | newConnection c _ hnew hfresh =>
      refine hfds.new hfresh fun x hx => ?_
      by_cases hxc : x = c
      · exact Or.inl hxc
      · refine Or.inr ?_
        unfold Ioman.live commNodeNewConnection at hx
        dsimp only at hx
        rwa [Function.update_of_ne hxc] at hx
  | localPush _ _ hchan _ => exact hfds.of_live fun _ hx => (Ioman.live_put hchan).1 hx
  | localToken hchan _ => exact hfds.of_live fun _ hx => (Ioman.live_put hchan).1 hx
  | notify => exact hfds.of_live fun _ hx => hx
  | bcast _ => exact hfds.of_live fun _ hx => hx

/-- A user thread does not touch the channels of the list. -/
theorem UserStep.quiet (hinv : NodeInv r) : Quiet notes r.node.man r'.node.man := by
  have hsame : ∀ {m : Ioman κ}, m.channels = r.node.man.channels →
      m.localChan = r.node.man.localChan →
      (∀ x ∈ r.node.man.localChan :: r.node.man.channels,
        m.view Channel.state x = r.node.man.view Channel.state x) →
      (∀ x ∈ r.node.man.channels, m.queueLen x = r.node.man.queueLen x) →
      Quiet notes r.node.man m := by
    intro m hchannels hlocal hstate hqueue
    refine ⟨hchannels, hlocal, hstate, fun x hx hlen => ?_, fun x hx hlen => ?_⟩
    · rw [hqueue x hx]
      exact hlen
    · rw [hqueue x hx] at hlen
      exact Or.inl hlen
  have hput : ∀ {chan : Channel κ}, ∀ x ∈ r.node.man.channels,
      (r.node.man.put r.node.man.localChan chan).queueLen x = r.node.man.queueLen x := by
    intro chan x hx
    unfold Ioman.queueLen Ioman.view
    rw [Ioman.heap_put_of_ne (hinv.channels.ne_localChan hx)]
  cases h with
  | idle _ hman _ =>
      rw [hman]
      exact hsame rfl rfl (fun _ _ => rfl) fun _ _ => rfl
  | newConnection c _ hnew _ =>
      have hne : ∀ x, r.node.man.live x → x ≠ c := by
        rintro x hx rfl
        unfold Ioman.live at hx
        rw [hnew] at hx
        cases hx
      refine hsame rfl rfl (fun x hx => ?_) fun x hx => ?_
      · refine view_new_of_ne rfl (hne x ?_)
        rcases List.mem_cons.1 hx with rfl | hx
        · exact hinv.channels.localLive
        · exact hinv.channels.channels_live hx
      · unfold Ioman.queueLen
        rw [view_new_of_ne rfl (hne x (hinv.channels.channels_live hx))]
  | localPush minfo body hchan hpush =>
      obtain ⟨_, rfl⟩ := channelLocalPushChunk_cases hpush
      exact hsame rfl rfl (fun _ _ => Ioman.view_put hchan rfl) hput
  | localToken hchan _ => exact hsame rfl rfl (fun _ _ => Ioman.view_put hchan rfl) hput
  | notify => exact hsame rfl rfl (fun _ _ => rfl) fun _ _ => rfl
  | bcast _ => exact hsame rfl rfl (fun _ _ => rfl) fun _ _ => rfl

end User

/-! ### The invariant -/

omit [DecidableEq κ] in
theorem iomanSetFds_valid {cache full : FdsetCache} (hvalid : cache.valid = true)
    (h : iomanSetFds fds man cache = Except.ok full) : full = cache := by
  unfold iomanSetFds at h
  rw [if_pos hvalid] at h
  cases h
  rfl

omit [DecidableEq κ] in
/-- The descriptor that is looked at next belongs to a channel of the list. -/
theorem skip_rest {phase : LoopPhase κ} (hskip : s.skip fds = some phase)
    (hrest : s.phase.rest.Sublist s.man.channels) : phase.rest.Sublist s.man.channels := by
  unfold LoopState.skip at hskip
  split at hskip
  · cases hskip
  · split at hskip <;> cases hskip
    exact List.nil_sublist _
  · split at hskip <;> cases hskip
    exact List.nil_sublist _
  · split at hskip <;> cases hskip
    exact List.Sublist.refl _
  · cases hskip
    exact List.Sublist.refl _
  · rename_i hphase
    rw [hphase] at hrest
    split at hskip <;> cases hskip
    exact (List.sublist_cons_self _ _).trans hrest
  · cases hskip
    exact List.nil_sublist _
  · rename_i hphase
    rw [hphase] at hrest
    split at hskip <;> cases hskip
    exact (List.sublist_cons_self _ _).trans hrest

omit [DecidableEq κ] in
/-- A channel that is read or written is the first of those that are left.  When it is found dead it
is removed next, before the others are looked at. -/
theorem LoopInv.served (hinv : LoopInv fds s) (hdead : s.run.dead = none) {c : κ} {rest : List κ}
    (hphase : s.phase.rest = c :: rest) {alive : Bool} {cause : DeadCause}
    (hdead' : t.run.dead = if alive then none else some (c, cause)) (hrest' : t.phase.rest = rest)
    (htop : t.phase ≠ LoopPhase.top) (hchannels : ChannelsInv t.man)
    (hsame : t.man.channels = s.man.channels) (hdistinct : fds.Distinct t.man)
    (hnotes : List.Forall₂ NoteOk t.man.events t.notes) {invalid : Bool}
    (hcache' : t.cache = if invalid then s.cache.invalidate else s.cache)
    (hsub : s.notes ⊆ t.notes)
    (hquiet : alive = true → invalid = false → Quiet t.notes s.man t.man) : LoopInv fds t := by
  have hrest := hinv.rest
  rw [hphase, hdead] at hrest
  have hmem : c ∈ s.man.channels := hrest.subset List.mem_cons_self
  refine ⟨⟨hchannels, fun d cause' hd => ?_⟩, hdistinct, hnotes, ?_, fun hc => absurd hc htop,
    fun halive hvalid => ?_⟩
  · rw [hdead'] at hd
    cases alive with
    | true => cases hd
    | false =>
        cases hd
        show c ∈ t.man.channels
        rw [hsame]
        exact hmem
  · rw [hdead', hrest', hsame]
    cases alive with
    | true => exact (List.sublist_cons_self _ _).trans hrest
    | false => exact hrest
  · rw [hdead'] at halive
    cases alive with
    | false => cases halive
    | true =>
        rw [hcache'] at hvalid ⊢
        cases invalid with
        | true => cases hvalid
        | false => exact (hinv.cache hdead hvalid).quiet (hquiet rfl rfl) hsub

/-- **A step keeps the invariant of the loop.** -/
theorem LoopStep.inv (h : LoopStep bo fds s t) (hinv : LoopInv fds s) : LoopInv fds t := by
  have hmem : ∀ {c : κ} {rest : List κ}, s.phase.rest = c :: rest → s.run.dead = none →
      c ∈ s.man.channels := by
    intro c rest hphase hdead
    have hsub := hinv.rest
    rw [hphase, hdead] at hsub
    exact hsub.subset List.mem_cons_self
  cases h with
  | @user r h =>
      have hquiet := @UserStep.quiet κ _ bo fds (s.notes ++ newNotes none s.man r.node.man) s.run r h
        hinv.run
      refine ⟨h.nodeStep.nodeInv hinv.run, h.distinct hinv.distinct,
        notes_append hinv.notes h.events, ?_, fun htop => h.dead.trans (hinv.top htop),
        fun hdead hvalid => ?_⟩
      · show ((r.dead.map Prod.fst).toList ++ s.phase.rest).Sublist r.node.man.channels
        rw [h.dead, hquiet.channels]
        exact hinv.rest
      · have hdead : r.dead = none := hdead
        rw [h.dead] at hdead
        exact (hinv.cache hdead hvalid).quiet hquiet (List.subset_append_left _ _)
  | @select cache rFds wFds hdead hphase hset hr hw =>
      refine ⟨hinv.run, hinv.distinct, hinv.notes, ?_, nofun, fun _ _ => ?_⟩
      · show ((s.run.dead.map Prod.fst).toList ++ []).Sublist s.man.channels
        rw [hdead]
        exact List.nil_sublist _
      · show CacheOk fds s.man s.notes cache
        cases hvalid : s.cache.valid with
        | true =>
            rw [iomanSetFds_valid hvalid hset]
            exact hinv.cache hdead hvalid
        | false => exact (iomanSetFds_full hvalid hset).cacheOk s.notes
  | @skip phase hdead hskip =>
      refine ⟨hinv.run, hinv.distinct, hinv.notes, ?_, fun _ => hdead, hinv.cache⟩
      have hrest := hinv.rest
      show ((s.run.dead.map Prod.fst).toList ++ phase.rest).Sublist s.man.channels
      rw [hdead] at hrest ⊢
      exact skip_rest hskip hrest
  | @event man' hdead hphase hfd hevent =>
      refine ⟨(NodeStep.event hdead hevent).nodeInv hinv.run,
        hinv.distinct.of_live fun x hx => ((iomanHandleEvent_keeps hevent).1 x).1 hx, ?_, ?_,
        nofun, fun _ hvalid => by cases hvalid⟩
      · show List.Forall₂ NoteOk man'.events s.notes.tail
        rw [iomanHandleEvent_events hevent]
        have hnotes := hinv.notes
        generalize s.man.events = events at hnotes ⊢
        generalize s.notes = notes at hnotes ⊢
        cases hnotes with
        | nil => exact List.Forall₂.nil
        | cons _ hnotes => exact hnotes
      · show ((s.run.dead.map Prod.fst).toList ++ []).Sublist man'.channels
        rw [hdead]
        exact List.nil_sublist _
  | accept c hdead hphase hfd hnew hfresh =>
      refine ⟨(@NodeStep.accept κ _ bo s.run c hdead hnew).nodeInv hinv.run,
        hinv.distinct.new hfresh fun x hx => ?_,
        notes_append hinv.notes ⟨[], (List.append_nil _).symm⟩, ?_, nofun,
        fun _ hvalid => by cases hvalid⟩
      · by_cases hxc : x = c
        · exact Or.inl hxc
        · refine Or.inr ?_
          replace hx : ((iomanAccept s.man c).heap x).isSome := hx
          unfold iomanAccept at hx
          dsimp only at hx
          rwa [Function.update_of_ne hxc] at hx
      · show ((s.run.dead.map Prod.fst).toList ++ []).Sublist _
        rw [hdead]
        exact List.nil_sublist _
  | @localRead node' hdead hphase hfd hread =>
      have hsame := (iomanProcessLocalChannelRead_steady hread).2
      refine ⟨hinv.run.of_channels (hinv.run.channels.samePeers hsame) hsame.channels rfl,
        hinv.distinct.of_live fun x => (hsame.live x).1,
        notes_append hinv.notes ⟨[], ?_⟩, ?_, nofun, fun _ hvalid => by cases hvalid⟩
      · rw [List.append_nil]
        exact iomanProcessLocalChannelRead_events hread
      · show ((s.run.dead.map Prod.fst).toList ++ s.man.channels).Sublist node'.man.channels
        rw [hdead, hsame.channels]
        exact List.Sublist.refl _
  | @read c rest now script script' alive node' hdead hphase hfd hread =>
      have hrest : s.phase.rest = c :: rest := congrArg LoopPhase.rest hphase
      obtain ⟨chan, hchan, hstep⟩ := iomanProcessChannelRead_cases hread
      have hhandled := hstep.handled hchan
      refine hinv.served hdead hrest rfl rfl nofun
        (hstep.channelsInv hchan hinv.run.channels (hmem hrest hdead)) hhandled.channels
        (hinv.distinct.of_live fun x => (hhandled.live x).1)
        (notes_append hinv.notes (iomanProcessChannelRead_events hread)) rfl
        (List.subset_append_left _ _) fun halive hcache => ?_
      subst halive
      exact (iomanProcessChannelRead_told hread hcache).quiet
  | @write c rest chan connected script alive node' sent hdead hphase hfd hchan _ hwrite =>
      have hrest : s.phase.rest = c :: rest := congrArg LoopPhase.rest hphase
      obtain ⟨chan', hchan', hstep⟩ := iomanProcessChannelWrite_cases hwrite
      have hsame := hstep.samePeers hchan'
      have hevents := iomanProcessChannelWrite_events hwrite
      refine hinv.served hdead hrest rfl rfl nofun (hinv.run.channels.samePeers hsame)
        hsame.channels (hinv.distinct.of_live fun x => (hsame.live x).1)
        (notes_append hinv.notes ⟨[], ?_⟩) rfl (List.subset_append_left _ _)
        fun halive hcache => ?_
      · rw [List.append_nil]
        exact hevents
      · subst halive
        exact iomanProcessChannelWrite_quiet hwrite hcache
  | @remove c cause man' hdead hremove =>
      obtain ⟨_, _, _, _, _, hevents, hchannels, _, _⟩ := iomanRemoveChannel_cases hremove
      refine ⟨(@NodeStep.remove κ _ bo s.run c cause man' hdead hremove).nodeInv hinv.run,
        hinv.distinct.of_live fun x hx => ((iomanRemoveChannel_live hremove).1 hx).2,
        notes_append hinv.notes ⟨[], ?_⟩, ?_, fun _ => rfl, fun _ hvalid => by cases hvalid⟩
      · rw [List.append_nil]
        exact hevents
      · show ([] ++ s.phase.rest).Sublist man'.channels
        have hrest := hinv.rest
        rw [hdead] at hrest
        rw [hchannels]
        have := hrest.erase c
        rwa [show (Option.map Prod.fst (some (c, cause))).toList ++ s.phase.rest =
          c :: s.phase.rest from rfl, List.erase_cons_head] at this

/-! ### The cache hides no work -/

/-- The cache of a node hides no work: when it is valid, it holds the set for reading that a full
computation gives and the largest descriptor, and its set for writing lacks only channels for which
an unread event is in the notify pipe.  `select` waits for every active channel, and never for a
blocking one. -/
structure HidesNothing (fds : Descriptors κ) (s : LoopState κ) : Prop where
  cached : s.cache.valid = true →
    ∃ full, iomanSetFds fds s.man s.cache.invalidate = Except.ok full ∧
      s.cache.rFds = full.rFds ∧ s.cache.MaxfdOk ∧ s.cache.wFds ⊆ full.wFds ∧
      ∀ n ∈ full.wFds, n ∉ s.cache.wFds → ∃ c ∈ s.man.channels, fds.sock c = n ∧
        ∃ i : ℕ, s.man.events[i]? = some IomanEvent.newmsg ∧ s.notes[i]? = some (some c)
  select : ∃ sets, iomanSetFds fds s.man s.cache = Except.ok sets ∧
    ∀ c ∈ s.man.localChan :: s.man.channels, ∀ chan, s.man.heap c = some chan →
      (chan.state = ChannelStatus.blocking → fds.sock c ∉ sets.rFds) ∧
        (chan.state = ChannelStatus.active → fds.sock c ∈ sets.rFds)

omit [DecidableEq κ] in
/-- A note stands at the place of its event. -/
theorem exists_event {events : List (IomanEvent κ)} (h : List.Forall₂ NoteOk events notes)
    (hmem : some c ∈ notes) :
    ∃ i : ℕ, events[i]? = some IomanEvent.newmsg ∧ notes[i]? = some (some c) := by
  obtain ⟨i, hi, hnote⟩ := List.getElem_of_mem hmem
  have hlen : i < events.length := h.length_eq.symm ▸ hi
  have hok := h.get hlen hi
  refine ⟨i, ?_, by rw [List.getElem?_eq_getElem hi, hnote]⟩
  rw [List.getElem?_eq_getElem hlen]
  refine congrArg some (hok ?_)
  rw [List.get_eq_getElem, hnote]
  rfl

omit [DecidableEq κ] in
theorem LoopInv.hidesNothing (h : LoopInv fds s) (htop : s.phase = LoopPhase.top) :
    HidesNothing fds s := by
  have hlive : ∀ c ∈ s.man.channels, s.man.live c := fun c hc => h.run.channels.channels_live hc
  constructor
  · intro hvalid
    have hok := h.cache (h.top htop) hvalid
    obtain ⟨full, hset⟩ := @iomanSetFds_ok κ fds s.man s.cache.invalidate
      h.run.channels.localLive hlive
    have hfull := iomanSetFds_full rfl hset
    refine ⟨full, hset, ?_, hok.maxfd, fun n hn => (hfull.writes n).2 (hok.writes n hn),
      fun n hn hmissing => ?_⟩
    · ext n
      rw [hok.reads, hfull.reads]
    · obtain ⟨c, hc, hwrite, rfl⟩ := (hfull.writes n).1 hn
      have hnote := (hok.noted c hc hwrite).resolve_left hmissing
      exact ⟨c, hc, rfl, exists_event h.notes hnote⟩
  · obtain ⟨sets, hset⟩ := @iomanSetFds_ok κ fds s.man s.cache h.run.channels.localLive hlive
    have hreads : ∀ n, n ∈ sets.rFds ↔ n = fds.pipeR ∨ n = fds.lsock ∨
        ∃ c ∈ s.man.localChan :: s.man.channels, s.man.readable c ∧ fds.sock c = n := by
      cases hvalid : s.cache.valid with
      | true =>
          rw [iomanSetFds_valid hvalid hset]
          exact (h.cache (h.top htop) hvalid).reads
      | false => exact (iomanSetFds_full hvalid hset).reads
    refine ⟨sets, hset, fun c hc chan hchan => ⟨fun hblocking hmem => ?_, fun hactive => ?_⟩⟩
    · -- its descriptor is that of no other channel
      have hc' := Ioman.live_of_heap hchan
      rcases (hreads _).1 hmem with hpipe | hlsock | ⟨x, hx, hread, hfd⟩
      · exact (h.distinct.special c hc').1 hpipe
      · exact (h.distinct.special c hc').2 hlsock
      · have hxlive : s.man.live x := by
          rcases List.mem_cons.1 hx with rfl | hx
          · exact h.run.channels.localLive
          · exact hlive x hx
        obtain rfl := h.distinct.inj x c hxlive hc' hfd
        rw [Ioman.readable_iff hchan, channelIsReadable, hblocking] at hread
        cases hread
    · refine (hreads _).2 (Or.inr (Or.inr ⟨c, hc, ?_, rfl⟩))
      rw [Ioman.readable_iff hchan, channelIsReadable, hactive]
      rfl

/-- **The cache hides no work**, whenever the I/O thread is at the top of its loop. -/
theorem handlerLoop_cache (h : Reach (LoopState.Init fds) (LoopStep bo fds) s)
    (htop : s.phase = LoopPhase.top) : HidesNothing fds s := by
  have hinv : LoopInv fds s :=
    h.inv (fun _ h => loopInv_init h) fun _ _ hs hstep => hstep.inv hs
  exact hinv.hidesNothing htop

end Loop

/-- The descriptors of a node: the pipe is 3, the listening socket 4, and the sockets follow. -/
def loopFds : Descriptors ℕ where
  pipeR := 3
  lsock := 4
  sock := fun c => 5 + c

/-- The node 0 when its I/O thread starts; the local channel is called 0. -/
def loopStart : LoopState ℕ where
  run := ⟨commNodeCreate 0 0, none, fun _ => none, [], none⟩
  cache := fdsetCacheCreate
  rFds := ∅
  wFds := ∅
  phase := LoopPhase.top
  notes := []

/-- The node accepts a connection in the first round, and looks for what is ready in the second. -/
theorem handlerLoop_cache_accept : ∃ s : LoopState ℕ,
    Reach (LoopState.Init loopFds) (LoopStep ByteOrder.little loopFds) s ∧
      s.man.channels = [1] ∧ s.cache.valid = true ∧ HidesNothing loopFds s := by
  have h₀ : Reach (LoopState.Init loopFds) (LoopStep ByteOrder.little loopFds) loopStart :=
    Reach.init ⟨⟨0, 0, rfl⟩, rfl, rfl, rfl, by decide, by decide⟩
  -- the listening socket is ready in the first round
  have h₁ := h₀.step (@LoopStep.select ℕ _ _ _ _ _ {4} ∅ rfl rfl rfl (by decide) (by decide))
  have h₂ := h₁.step (LoopStep.skip rfl rfl)
  have hfresh : loopFds.Fresh loopStart.man 1 := by
    refine ⟨by decide, by decide, fun x hlive he => ?_⟩
    obtain rfl : x = 1 := Nat.add_left_cancel he
    cases hlive
  have h₃ := h₂.step (LoopStep.accept 1 rfl rfl (by decide) rfl hfresh)
  have h₄ := h₃.step (LoopStep.skip rfl rfl)
  have h₅ := h₄.step (LoopStep.skip rfl rfl)
  have h₆ := h₅.step (LoopStep.skip rfl rfl)
  have h₇ := h₆.step (LoopStep.skip rfl rfl)
  have h₈ := h₇.step (LoopStep.skip rfl rfl)
  have h₉ := h₈.step (@LoopStep.select ℕ _ _ _ _ _ ∅ ∅ rfl rfl rfl (by decide) (by decide))
  have h₁₀ := h₉.step (LoopStep.skip rfl rfl)
  have h₁₁ := h₁₀.step (LoopStep.skip rfl rfl)
  have h₁₂ := h₁₁.step (LoopStep.skip rfl rfl)
  have h₁₃ := h₁₂.step (LoopStep.skip rfl rfl)
  have h₁₄ := h₁₃.step (LoopStep.skip rfl rfl)
  have h₁₅ := h₁₄.step (LoopStep.skip rfl rfl)
  have h₁₆ := h₁₅.step (LoopStep.skip rfl rfl)
  exact ⟨_, h₁₆, rfl, rfl, handlerLoop_cache h₁₆ rfl⟩

end DLFree

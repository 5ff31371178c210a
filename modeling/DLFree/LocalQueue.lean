/-
**The local queue between the user threads and the I/O thread.**

User threads append chunks to the local channel under its lock and write a token to its pipe after
they have released it; the I/O thread reads a token when the pipe is readable and then removes the
first chunk under the lock.  A thread that finds the queue full waits on the condition variable,
which is broadcast when a removal leaves the queue one below its limit.  The steps of the threads
come in any order, and a waiting thread may wake without a broadcast.

Main definitions:

* `channelLocalReadToken`, `channelLocalPopleft` — `channel_local_pop_chunk` before and under the
  lock;
* `PushState`, `LocalQueue`, `LocalStep` — the threads, what they share, and their steps.

Main results:

* `channelLocalPopChunk_eq_bind` — the two parts are the whole call;
* `LocalInv.step` — every step keeps the number of chunks equal to the number of tokens that are
  unread, still to be written, or read ahead of their removal;
* `localQueue_run` — **the queue is a correct monitor in every interleaving**;
* `localQueue_progress` — while a thread waits, the token that lets it go on exists.
-/

import DLFree.CommOk
import DLFree.TransitionRun

set_option relaxedAutoImplicit false
set_option autoImplicit false

namespace DLFree

variable {κ : Type}

/-! ### The two parts of a pop -/

/-- The read of a token in `channel_local_pop_chunk`; without a token it never returns. -/
def channelLocalReadToken (chan : Channel κ) : Except Abort (Channel κ) :=
  if chan.pipe = 0 then Except.error Abort.diverges
  else Except.ok { chan with pipe := chan.pipe - 1 }

/-- The rest of `channel_local_pop_chunk`: the removal under the lock and the header. -/
def channelLocalPopleft (bo : ByteOrder) (chan : Channel κ) :
    Except Abort (MsgBuff × Channel κ) :=
  match chan.buffQueue with
  | [] => Except.error Abort.assertion
  | chunk :: buffQueue =>
      match msgInfoUnpack bo chunk.unsent with
      | none => Except.error Abort.badAccess
      | some (msgInfo, _) =>
          Except.ok (chunk, { chan with
            buffQueue := buffQueue
            msgInfo := { msgInfo with remain := 0 } })

/-- **A pop reads a token and then removes a chunk.** -/
theorem channelLocalPopChunk_eq_bind (bo : ByteOrder) (chan : Channel κ) :
    channelLocalPopChunk bo chan = (do
      let chan ← channelLocalReadToken chan
      channelLocalPopleft bo chan) := by
  unfold channelLocalPopChunk channelLocalReadToken channelLocalPopleft
  by_cases hpipe : chan.pipe = 0
  · rw [if_pos hpipe, if_pos hpipe]
    rfl
  · rw [if_neg hpipe, if_neg hpipe]
    cases chan.buffQueue <;> rfl

theorem channelLocalReadToken_cases {chan chan' : Channel κ}
    (h : channelLocalReadToken chan = Except.ok chan') :
    chan.pipe ≠ 0 ∧ chan' = { chan with pipe := chan.pipe - 1 } := by
  unfold channelLocalReadToken at h
  split at h
  · cases h
  · rename_i hpipe
    cases h
    exact ⟨hpipe, rfl⟩

theorem channelLocalPopleft_cases {bo : ByteOrder} {chan chan' : Channel κ} {chunk : MsgBuff}
    (h : channelLocalPopleft bo chan = Except.ok (chunk, chan')) :
    chan.buffQueue = chunk :: chan'.buffQueue ∧ chan'.pipe = chan.pipe := by
  unfold channelLocalPopleft at h
  cases hq : chan.buffQueue with
  | nil =>
      rw [hq] at h
      cases h
  | cons first rest =>
      rw [hq] at h
      dsimp only at h
      cases hunpack : msgInfoUnpack bo first.unsent with
      | none =>
          rw [hunpack] at h
          cases h
      | some unpacked =>
          rw [hunpack] at h
          cases h
          exact ⟨rfl, rfl⟩

/-- A chunk that a thread has packed can be removed. -/
theorem channelLocalPopleft_ok {bo : ByteOrder} {chan : Channel κ} {minfo : MsgInfo}
    {body : List Byte} {rest : List MsgBuff}
    (hq : chan.buffQueue = channelPackBuff bo minfo body :: rest) :
    ∃ chan', channelLocalPopleft bo chan = Except.ok (channelPackBuff bo minfo body, chan') := by
  have hlen : msgInfoBytes ≤ (channelPackBuff bo minfo body).unsent.length := by
    rw [unsent_channelPackBuff, packHeader]
    simp
  obtain ⟨m, rest, hm⟩ := exists_msgInfoUnpack bo hlen
  exact ⟨_, by simp only [channelLocalPopleft, hq, hm]; rfl⟩

/-! ### The threads -/

/-- Where a user thread is in `channel_local_push_chunk`. -/
inductive PushState
  /-- outside the call -/
  | idle
  /-- about to take the lock and to look at the queue -/
  | entering (minfo : MsgInfo) (body : List Byte)
  /-- in `pthread_cond_wait` and not woken -/
  | waiting (minfo : MsgInfo) (body : List Byte)
  /-- has appended its chunk and released the lock, the token is not written yet -/
  | owing
  deriving DecidableEq

/-- A broadcast lets a waiting thread take the lock again. -/
def PushState.notify : PushState → PushState
  | .waiting minfo body => .entering minfo body
  | state => state

/-- The local channel, the user threads, whether the I/O thread is between its token and the
removal, and the chunks appended and removed so far. -/
structure LocalQueue (κ : Type) where
  chan : Channel κ
  threads : List PushState
  popping : Bool
  appended : List MsgBuff
  popped : List MsgBuff

/-- The local channel when it is created, and `n` user threads that do not use it. -/
def LocalQueue.start (localPid : ℤ) (n : ℕ) : LocalQueue κ where
  chan := channelLocalCreate localPid
  threads := List.replicate n PushState.idle
  popping := false
  appended := []
  popped := []

/-- The states before the first step, for any number of user threads. -/
def LocalQueue.Init (q : LocalQueue κ) : Prop := ∃ localPid n, q = LocalQueue.start localPid n

/-- The threads after a removal, which broadcasts on the way from full to one below. -/
def notifyThreads (chan : Channel κ) (threads : List PushState) : List PushState :=
  if chan.buffQueue.length = channelMsgQueueLimit - 1 then threads.map PushState.notify
  else threads

/-- One step of one thread. -/
inductive LocalStep (bo : ByteOrder) (q : LocalQueue κ) : LocalQueue κ → Prop
  /-- a user thread calls `channel_local_push_chunk` -/
  | call {k : ℕ} (minfo : MsgInfo) (body : List Byte) (hk : q.threads[k]? = some .idle) :
      LocalStep bo q { q with threads := q.threads.set k (.entering minfo body) }
  /-- it finds the queue full and waits -/
  | wait {k : ℕ} {minfo : MsgInfo} {body : List Byte}
      (hk : q.threads[k]? = some (.entering minfo body))
      (hfull : channelLocalPushChunk q.chan (channelPackBuff bo minfo body) = none) :
      LocalStep bo q { q with threads := q.threads.set k (.waiting minfo body) }
  /-- it appends its chunk -/
  | append {k : ℕ} {minfo : MsgInfo} {body : List Byte} {chan : Channel κ}
      (hk : q.threads[k]? = some (.entering minfo body))
      (hpush : channelLocalPushChunk q.chan (channelPackBuff bo minfo body) = some chan) :
      LocalStep bo q { q with
        chan := chan
        threads := q.threads.set k .owing
        appended := q.appended ++ [channelPackBuff bo minfo body] }
  /-- it wakes without a broadcast -/
  | wake {k : ℕ} {minfo : MsgInfo} {body : List Byte}
      (hk : q.threads[k]? = some (.waiting minfo body)) :
      LocalStep bo q { q with threads := q.threads.set k (.entering minfo body) }
  /-- it writes its token and returns -/
  | token {k : ℕ} (hk : q.threads[k]? = some .owing) :
      LocalStep bo q { q with
        chan := channelLocalPushToken q.chan
        threads := q.threads.set k .idle }
  /-- the I/O thread finds the pipe readable and reads a token -/
  | readToken {chan : Channel κ} (hidle : q.popping = false)
      (hread : channelLocalReadToken q.chan = Except.ok chan) :
      LocalStep bo q { q with chan := chan, popping := true }
  /-- the I/O thread removes a chunk -/
  | pop {chunk : MsgBuff} {chan : Channel κ} (hpopping : q.popping = true)
      (hpop : channelLocalPopleft bo q.chan = Except.ok (chunk, chan)) :
      LocalStep bo q { q with
        chan := chan
        threads := notifyThreads chan q.threads
        popping := false
        popped := q.popped ++ [chunk] }

/-! ### What every interleaving keeps -/

/-- Every chunk of the queue has one token: unread in the pipe, still owed by the thread that
appended it, or read by the I/O thread ahead of the removal. -/
structure LocalInv (q : LocalQueue κ) : Prop where
  limit : q.chan.buffQueue.length ≤ channelMsgQueueLimit
  tokens : q.chan.pipe + q.threads.count .owing + q.popping.toNat = q.chan.buffQueue.length
  full : ∀ minfo body, PushState.waiting minfo body ∈ q.threads →
    q.chan.buffQueue.length = channelMsgQueueLimit
  order : q.appended = q.popped ++ q.chan.buffQueue

/-- Every chunk of the queue was packed by a user thread. -/
def QueuePacked (bo : ByteOrder) (q : LocalQueue κ) : Prop :=
  ∀ chunk ∈ q.chan.buffQueue, ∃ minfo body, chunk = channelPackBuff bo minfo body

variable {bo : ByteOrder} {q q' : LocalQueue κ}

/-- How one thread changes the number of tokens owed. -/
theorem count_owing_set {threads : List PushState} {k : ℕ} {state : PushState}
    (hk : threads[k]? = some state) (state' : PushState) :
    (threads.set k state').count .owing + (if state = .owing then 1 else 0) =
      threads.count .owing + (if state' = .owing then 1 else 0) := by
  obtain ⟨hlt, hget⟩ := List.getElem?_eq_some_iff.1 hk
  have hpos : state = .owing → 0 < threads.count .owing := by
    rintro rfl
    exact List.count_pos_iff.2 (hget ▸ List.getElem_mem hlt)
  rw [List.count_set hlt, hget]
  simp only [beq_iff_eq]
  split_ifs with h h' <;> simp_all

/-- A broadcast changes no thread that owes a token. -/
theorem count_owing_notify (chan : Channel κ) (threads : List PushState) :
    (notifyThreads chan threads).count .owing = threads.count .owing := by
  unfold notifyThreads
  split
  · induction threads with
    | nil => rfl
    | cons state threads ih =>
        rw [List.map_cons, List.count_cons, List.count_cons, ih]
        cases state <;> rfl
  · rfl

/-- After a broadcast no thread waits. -/
theorem not_waiting_of_notify {chan : Channel κ} {threads : List PushState} {minfo : MsgInfo}
    {body : List Byte} (h : PushState.waiting minfo body ∈ notifyThreads chan threads) :
    PushState.waiting minfo body ∈ threads ∧
      chan.buffQueue.length ≠ channelMsgQueueLimit - 1 := by
  unfold notifyThreads at h
  split at h
  · obtain ⟨state, _, hstate⟩ := List.mem_map.1 h
    cases state <;> cases hstate
  · rename_i hlen
    exact ⟨h, hlen⟩

theorem localInv_start (localPid : ℤ) (n : ℕ) :
    LocalInv (LocalQueue.start localPid n : LocalQueue κ) := by
  refine ⟨Nat.zero_le _, ?_, ?_, rfl⟩
  · have hcount : (List.replicate n PushState.idle).count .owing = 0 :=
      List.count_eq_zero.2 fun h => by cases List.eq_of_mem_replicate h
    simp [LocalQueue.start, channelLocalCreate, baseChannelCreate, hcount]
  · intro minfo body h
    cases List.eq_of_mem_replicate h

/-- A thread that waits afterwards has waited before, unless it is the one that has moved. -/
theorem LocalInv.full_set (h : LocalInv q) {k : ℕ} {state : PushState}
    (hstate : ∀ minfo body, state = .waiting minfo body →
      q.chan.buffQueue.length = channelMsgQueueLimit) :
    ∀ minfo body, PushState.waiting minfo body ∈ q.threads.set k state →
      q.chan.buffQueue.length = channelMsgQueueLimit := by
  intro minfo body hmem
  rcases List.mem_or_eq_of_mem_set hmem with hmem | heq
  · exact h.full minfo body hmem
  · exact hstate minfo body heq.symm

/-- A thread that owes no token, before or after, moves alone. -/
theorem LocalInv.set (h : LocalInv q) {k : ℕ} {state state' : PushState}
    (hk : q.threads[k]? = some state) (howing : state ≠ .owing) (howing' : state' ≠ .owing)
    (hstate : ∀ minfo body, state' = .waiting minfo body →
      q.chan.buffQueue.length = channelMsgQueueLimit) :
    LocalInv { q with threads := q.threads.set k state' } := by
  have hcount := count_owing_set hk state'
  rw [if_neg howing, if_neg howing'] at hcount
  have htokens := h.tokens
  refine ⟨h.limit, ?_, h.full_set hstate, h.order⟩
  simp only
  omega

/-- **Every step of every thread keeps the invariant.** -/
theorem LocalInv.step (h : LocalInv q) (hst : LocalStep bo q q') : LocalInv q' := by
  have htokens := h.tokens
  cases hst with
  | call minfo body hk => exact h.set hk nofun nofun nofun
  | @wait k minfo body hk hwait =>
      refine h.set hk nofun nofun fun _ _ _ => le_antisymm h.limit ?_
      by_contra hlt
      rw [channelLocalPushChunk, if_neg hlt] at hwait
      cases hwait
  | append hk hpush =>
      have hcount := count_owing_set hk .owing
      obtain ⟨hlen, rfl⟩ := channelLocalPushChunk_cases hpush
      simp only [reduceCtorEq, if_false, if_true] at hcount
      refine ⟨?_, ?_, ?_, ?_⟩
      · simp only [Channel.appendBuff_buffQueue, List.length_append, List.length_singleton]
        omega
      · simp only [Channel.appendBuff_buffQueue, Channel.appendBuff_pipe, List.length_append,
          List.length_singleton]
        omega
      · -- a thread that waits needs a full queue, and this one had room
        intro minfo body hmem
        have := h.full_set (by simp) minfo body hmem
        omega
      · rw [h.order, List.append_assoc]
        rfl
  | @wake k minfo body hk => exact h.set hk nofun nofun nofun
  | token hk =>
      -- the thread's debt becomes an unread token
      have hcount := count_owing_set hk .idle
      refine ⟨h.limit, ?_, h.full_set nofun, h.order⟩
      simp only [reduceCtorEq, if_false, if_true] at hcount
      simp only [channelLocalPushToken]
      omega
  | readToken hidle hread =>
      -- an unread token becomes the removal that has begun
      obtain ⟨hpipe, rfl⟩ := channelLocalReadToken_cases hread
      refine ⟨h.limit, ?_, h.full, h.order⟩
      rw [hidle] at htokens
      simp only [Bool.toNat_true, Bool.toNat_false] at htokens ⊢
      omega
  | pop hpopping hpop =>
      obtain ⟨hq, hpipe⟩ := channelLocalPopleft_cases hpop
      have hlimit := h.limit
      rw [hpopping, hq] at htokens
      rw [hq] at hlimit
      simp only [List.length_cons] at hlimit htokens
      refine ⟨?_, ?_, ?_, ?_⟩
      · simp only
        omega
      · simp only [count_owing_notify, hpipe, Bool.toNat_true, Bool.toNat_false] at htokens ⊢
        omega
      · -- a thread that still waits would have been woken by the removal from the full queue
        intro minfo body hmem
        obtain ⟨hmem, hne⟩ := not_waiting_of_notify hmem
        have hlen := h.full minfo body hmem
        rw [hq, List.length_cons] at hlen
        omega
      · simp only [h.order, hq, List.append_assoc, List.singleton_append]

theorem QueuePacked.step (h : QueuePacked bo q) (hst : LocalStep bo q q') : QueuePacked bo q' := by
  cases hst with
  | append hk hpush =>
      obtain ⟨_, rfl⟩ := channelLocalPushChunk_cases hpush
      intro chunk hmem
      rcases List.mem_append.1 hmem with hmem | hmem
      · exact h chunk hmem
      · exact ⟨_, _, List.mem_singleton.1 hmem⟩
  | readToken _ hread =>
      obtain ⟨_, rfl⟩ := channelLocalReadToken_cases hread
      exact h
  | pop _ hpop =>
      obtain ⟨hq, _⟩ := channelLocalPopleft_cases hpop
      exact fun chunk hmem => h chunk (hq ▸ List.mem_cons_of_mem _ hmem)
  | _ => exact h

/-- The invariants hold in every state that any interleaving reaches. -/
theorem localInv_of_reach (h : TransitionRun.Reach LocalQueue.Init (LocalStep bo) q) :
    LocalInv q ∧ QueuePacked bo q := by
  refine TransitionRun.Reach.inv (I := fun q => LocalInv q ∧ QueuePacked bo q) ?_
    (fun s t hs hst => ⟨hs.1.step hst, hs.2.step hst⟩) h
  rintro s ⟨localPid, n, rfl⟩
  exact ⟨localInv_start localPid n, fun chunk hmem => by cases hmem⟩

/-- **The local queue is a correct monitor**, for every number of user threads and every order of
their steps: it never exceeds its limit; unread tokens never exceed chunks, and a removal that a
token announced finds a chunk; chunks and unread tokens are equally many while no thread owes a
token and the I/O thread is not between its token and the removal; a thread waits without having
been woken only while the queue is full; and chunks are removed in the order in which they were
appended. -/
theorem localQueue_run (bo : ByteOrder) (q : LocalQueue κ)
    (h : TransitionRun.Reach LocalQueue.Init (LocalStep bo) q) :
    q.chan.buffQueue.length ≤ channelMsgQueueLimit ∧
      q.chan.pipe ≤ q.chan.buffQueue.length ∧
      (q.popping = true → ∃ chunk chan, channelLocalPopleft bo q.chan = Except.ok (chunk, chan)) ∧
      (PushState.owing ∉ q.threads → q.popping = false →
        q.chan.pipe = q.chan.buffQueue.length) ∧
      (∀ minfo body, PushState.waiting minfo body ∈ q.threads →
        q.chan.buffQueue.length = channelMsgQueueLimit) ∧
      q.appended = q.popped ++ q.chan.buffQueue := by
  obtain ⟨hinv, hpacked⟩ := localInv_of_reach h
  have htokens := hinv.tokens
  refine ⟨hinv.limit, by omega, ?_, ?_, hinv.full, hinv.order⟩
  · intro hpopping
    rw [hpopping, Bool.toNat_true] at htokens
    cases hq : q.chan.buffQueue with
    | nil =>
        rw [hq, List.length_nil] at htokens
        omega
    | cons chunk rest =>
        obtain ⟨minfo, body, rfl⟩ := hpacked chunk (hq ▸ List.mem_cons_self)
        obtain ⟨chan, hchan⟩ := @channelLocalPopleft_ok κ bo _ _ _ _ hq
        exact ⟨_, chan, hchan⟩
  · intro howing hidle
    rw [hidle, Bool.toNat_false, List.count_eq_zero.2 howing] at htokens
    omega

/-- One thread appends a chunk and writes its token, and the I/O thread reads the token. -/
theorem exists_read_ahead :
    ∃ q : LocalQueue Unit, TransitionRun.Reach LocalQueue.Init (LocalStep ByteOrder.little) q ∧
      q.popping = true ∧ PushState.owing ∉ q.threads ∧ q.chan.pipe = 0 ∧
      q.chan.buffQueue.length = 1 := by
  have h0 : TransitionRun.Reach LocalQueue.Init (LocalStep ByteOrder.little)
      (LocalQueue.start 0 1 : LocalQueue Unit) := TransitionRun.Reach.init ⟨0, 1, rfl⟩
  have h1 := h0.step (LocalStep.call (k := 0) msgInfoCreate [] rfl)
  have h2 := h1.step (LocalStep.append (k := 0) rfl rfl)
  have h3 := h2.step (LocalStep.token (k := 0) rfl)
  have h4 := h3.step (LocalStep.readToken rfl rfl)
  exact ⟨_, h4, rfl, by decide, rfl, rfl⟩

/-- In that state the I/O thread still finds the chunk. -/
theorem localQueue_run_read_ahead :
    ∃ q : LocalQueue Unit, q.chan.pipe = 0 ∧
      ∃ chunk chan, channelLocalPopleft ByteOrder.little q.chan = Except.ok (chunk, chan) := by
  obtain ⟨q, hreach, hpopping, _, hpipe, _⟩ := exists_read_ahead
  exact ⟨q, hpipe, (localQueue_run ByteOrder.little q hreach).2.2.1 hpopping⟩

/-- While the I/O thread is ahead of its removal, the queue is one longer than the pipe although no
user thread owes a token. -/
theorem not_tokens_eq_of_no_owing :
    ¬ ∀ q : LocalQueue Unit, TransitionRun.Reach LocalQueue.Init (LocalStep ByteOrder.little) q →
      PushState.owing ∉ q.threads → q.chan.pipe = q.chan.buffQueue.length := by
  intro hall
  obtain ⟨q, hreach, _, howing, hpipe, hlen⟩ := exists_read_ahead
  have heq := hall q hreach howing
  rw [hpipe, hlen] at heq
  cases heq

/-- **No thread waits for good**: while one waits, an unread token, a removal that has begun or a
thread about to write a token keeps the queue moving. -/
theorem localQueue_progress {minfo : MsgInfo} {body : List Byte}
    (h : TransitionRun.Reach LocalQueue.Init (LocalStep bo) q)
    (hwait : PushState.waiting minfo body ∈ q.threads) :
    (∃ chan, channelLocalReadToken q.chan = Except.ok chan) ∨ q.popping = true ∨
      PushState.owing ∈ q.threads := by
  obtain ⟨hinv, _⟩ := localInv_of_reach h
  have hfull := hinv.full minfo body hwait
  have htokens := hinv.tokens
  by_cases hpipe : q.chan.pipe = 0
  · right
    by_contra hno
    obtain ⟨hidle, howing⟩ := not_or.1 hno
    rw [Bool.not_eq_true] at hidle
    rw [hpipe, hidle, List.count_eq_zero.2 howing, hfull] at htokens
    cases htokens
  · exact Or.inl ⟨_, if_neg hpipe⟩

end DLFree

/-
**Delivered messages and the calls that take them.**

The I/O thread delivers messages, and any number of user threads call `comm_node_recv_data` and
`comm_node_recv_any_data`.  A call has its turn when it has the lock; it returns a message or goes
to sleep, and every delivery wakes all calls.  A run is any list of such actions.

What is promised of a run is that every message goes to one call, those of one source in the order
of their delivery, and that no call sleeps while there is a message for it.  The calls of
`comm_node_recv_any_data` keep the promise as long as the counter of undelivered messages has
started with 0 and does not overflow.  A call of `comm_node_recv_data` that finds a message ends
the process.

Main definitions:

* `RecvSys`, `RecvSys.step` — a node with its calls, and one action;
* `RecvOk` — every delivered message is handed out once and in order;
* `CounterOk` — the counter of undelivered messages is right.

Main results:

* `recvRun_ok_iff` — **messages are handed out once and in order exactly as long as no call of
  `comm_node_recv_data` finds one**;
* `unackedCounter_iff` — **the counter is right in every run exactly when the memory of the node
  held 0**.
-/

import DLFree.DataMsg

set_option relaxedAutoImplicit false
set_option autoImplicit false

namespace DLFree

open DataQueues

/-! ### Calls and actions -/

/-- A call with the arguments of its caller; the pointers lead to different variables. -/
inductive RecvCall
  | data (srcId : ℤ) (buff buffsize : ℕ) (valid : 0 ≤ srcId ∧ srcId < commMaxPeer)
  | any (srcId buff buffsize : ℕ) (distinct : srcId ≠ buffsize)

/-- The turn of a call: `none` when it goes to sleep. -/
def RecvCall.turn (call : RecvCall) (queues : DataQueues) (mem : CallerMem) :
    Except Abort (Option (DataQueues × CallerMem)) :=
  match call with
  | RecvCall.data srcId buff buffsize _ =>
      commNodeRecvData queues mem srcId (some buff) (some buffsize)
  | RecvCall.any srcId buff buffsize _ =>
      commNodeRecvAnyData queues mem (some srcId) (some buff) (some buffsize)

theorem RecvCall.turn_any (srcId buff buffsize : ℕ) (distinct : srcId ≠ buffsize)
    (queues : DataQueues) (mem : CallerMem) :
    (RecvCall.any srcId buff buffsize distinct).turn queues mem =
      commNodeRecvAnyData queues mem (some srcId) (some buff) (some buffsize) := rfl

/-- What a caller finds behind its pointers when its call has returned. -/
structure Returned where
  srcId : ℤ
  buffsize : ℤ
  data : List (Option Byte)
  deriving DecidableEq

/-- A call of `comm_node_recv_data` returns a message of the source it has asked for. -/
def RecvCall.returned (call : RecvCall) (mem : CallerMem) : Returned :=
  match call with
  | RecvCall.data srcId buff buffsize _ => ⟨srcId, mem.ints buffsize, mem.buffs buff⟩
  | RecvCall.any srcId buff buffsize _ => ⟨mem.ints srcId, mem.ints buffsize, mem.buffs buff⟩

/-- What a caller has to find for a message. -/
def DataMsg.handedOut (msg : DataMsg) : Returned := ⟨msg.srcId, msg.len, dataMsgDestroy msg⟩

/-- A call that has not returned. -/
structure RecvThread where
  call : RecvCall
  asleep : Bool

/-- A node with its calls; `delivered` and `returned` is what has happened so far, and `crashed` how
the process has ended. -/
structure RecvSys where
  queues : DataQueues
  mem : CallerMem
  threads : List RecvThread
  delivered : List DataMsg
  returned : List Returned
  crashed : Option Abort

/-- The node after `comm_node_create`, with no calls. -/
def recvSysCreate (memory : BitVec 32) (mem : CallerMem) : RecvSys where
  queues := commNodeCreateQueues memory
  mem := mem
  threads := []
  delivered := []
  returned := []
  crashed := none

/-- A delivery of the I/O thread, the start of a call, a turn of the `k`-th call, and the end of
its sleep for no reason. -/
inductive RecvAction
  | deliver (msg : DataMsg) (valid : 0 ≤ msg.srcId ∧ msg.srcId < commMaxPeer)
  | call (call : RecvCall)
  | turn (k : ℕ)
  | wake (k : ℕ)

/-- The calls after `pthread_cond_broadcast`. -/
def wakeAll (threads : List RecvThread) : List RecvThread :=
  threads.map fun thread => { thread with asleep := false }

/-- The turn of the call `thread`, which is the `k`-th one. -/
def RecvSys.turn (s : RecvSys) (k : ℕ) (thread : RecvThread) : RecvSys :=
  match thread.call.turn s.queues s.mem with
  | Except.ok none => { s with threads := s.threads.set k { thread with asleep := true } }
  | Except.ok (some (queues, mem)) => { s with
      queues := queues
      mem := mem
      threads := s.threads.eraseIdx k
      returned := s.returned ++ [thread.call.returned mem] }
  | Except.error e => { s with crashed := some e }

/-- One action; nothing happens any more when the process has ended. -/
def RecvSys.step (s : RecvSys) (action : RecvAction) : RecvSys :=
  if s.crashed.isSome then s
  else
    match action with
    | RecvAction.deliver msg _ =>
        match commNodeDeliverChunk s.queues msg with
        | Except.ok queues => { s with
            queues := queues
            threads := wakeAll s.threads
            delivered := s.delivered ++ [msg] }
        | Except.error e => { s with crashed := some e }
    | RecvAction.call call => { s with threads := s.threads ++ [⟨call, false⟩] }
    | RecvAction.turn k =>
        match s.threads[k]? with
        | none => s
        | some thread => if thread.asleep then s else s.turn k thread
    | RecvAction.wake k =>
        { s with threads := s.threads.modify k fun thread => { thread with asleep := false } }

/-- A run. -/
def RecvSys.run (s : RecvSys) (actions : List RecvAction) : RecvSys := actions.foldl RecvSys.step s

/-! ### What is promised -/

/-- There is nothing for the call. -/
def RecvCall.Blocked (queues : DataQueues) : RecvCall → Prop
  | RecvCall.data srcId _ _ _ => queues.queue srcId = []
  | RecvCall.any _ _ _ _ => ∀ i, queues.queue i = []

/-- Every delivered message is handed out once and in order: for every source, what has been
delivered is what calls have returned, followed by what still waits. -/
structure RecvOk (s : RecvSys) : Prop where
  alive : s.crashed = none
  order : ∀ src, (s.delivered.map DataMsg.handedOut).filter (fun r => r.srcId = src) =
    s.returned.filter (fun r => r.srcId = src) ++ (s.queues.queue src).map DataMsg.handedOut
  awake : ∀ thread ∈ s.threads, thread.asleep = true → thread.call.Blocked s.queues

/-- The counter is the number of messages that wait; a call of `comm_node_recv_any_data` returns
exactly when there is one, and none of its assertions fails. -/
structure CounterOk (queues : DataQueues) : Prop where
  sum : queues.dataMsgUnackedRecvd.toInt = queues.total
  proceeds : ∀ mem srcId buff buffsize, srcId ≠ buffsize →
    ((∃ r, commNodeRecvAnyData queues mem (some srcId) (some buff) (some buffsize) =
      Except.ok (some r)) ↔ ∃ i, queues.queue i ≠ [])
  asserts : ∀ mem srcId buff buffsize, srcId ≠ buffsize →
    ∃ r, commNodeRecvAnyData queues mem (some srcId) (some buff) (some buffsize) = Except.ok r

/-- The counter does not overflow. -/
def RecvAction.Small (s : RecvSys) : RecvAction → Prop
  | RecvAction.deliver _ _ => s.queues.total + 1 < 2 ^ 31
  | _ => True

/-- No call of `comm_node_recv_data` finds a message. -/
def RecvAction.NoRecvData (s : RecvSys) : RecvAction → Prop
  | RecvAction.turn k => ∀ thread, s.threads[k]? = some thread → thread.asleep = false →
      ∀ srcId buff buffsize valid, thread.call = RecvCall.data srcId buff buffsize valid →
        s.queues.queue srcId = []
  | _ => True

/-- Every action of the run meets the condition in the state it meets. -/
def RunMeets (P : RecvSys → RecvAction → Prop) (s : RecvSys) : List RecvAction → Prop
  | [] => True
  | action :: actions => P s action ∧ RunMeets P (s.step action) actions

/-- What every action keeps under a condition holds after every run that meets it. -/
theorem RunMeets.inv {P : RecvSys → RecvAction → Prop} {Inv : RecvSys → Prop}
    (hstep : ∀ s action, Inv s → P s action → Inv (s.step action)) {s : RecvSys} (hs : Inv s)
    {actions : List RecvAction} (h : RunMeets P s actions) : Inv (s.run actions) := by
  induction actions generalizing s with
  | nil => exact hs
  | cons action actions ih => exact ih (hstep s action hs h.1) h.2

/-! ### One turn -/

section Turn

variable {queues : DataQueues}

/-- When the call has no turn with an end, there is nothing for it. -/
theorem RecvCall.blocked_of_turn (h : Ok 0 queues) (hsmall : queues.total < 2 ^ 31)
    {mem : CallerMem} {call : RecvCall} (hturn : call.turn queues mem = Except.ok none) :
    call.Blocked queues := by
  cases call with
  | data srcId buff buffsize valid =>
      change queues.queue srcId = []
      cases hqueue : queues.queue srcId with
      | nil => rfl
      | cons msg msgQueue =>
          have hfound := commNodeRecvData_found h hqueue mem (some buff) (some buffsize)
          rw [RecvCall.turn, hfound] at hturn
          cases hturn
  | any srcId buff buffsize distinct =>
      have hzero : queues.total = 0 := by
        by_contra hne
        obtain ⟨queues', mem', _, _, _, hrun, _⟩ := h.recvAny hsmall hne mem distinct
        rw [RecvCall.turn, hrun] at hturn
        cases hturn
      intro i
      by_contra hne
      obtain ⟨hi, hlt⟩ := h.range i hne
      lift i to ℕ using hi
      exact hne (total_eq_zero.1 hzero i (by exact_mod_cast hlt))

/-- **A turn that ends takes the first message of some source** and hands it out. -/
theorem RecvCall.turn_returns (h : Ok 0 queues) (hsmall : queues.total < 2 ^ 31)
    {mem mem' : CallerMem} {call : RecvCall} {queues' : DataQueues}
    (hturn : call.turn queues mem = Except.ok (some (queues', mem'))) :
    ∃ i msg msgQueue, queues.queue i = msg :: msgQueue ∧
      (∀ j, queues'.queue j = if j = i then msgQueue else queues.queue j) ∧ Ok 0 queues' ∧
      queues'.total < queues.total ∧ call.returned mem' = msg.handedOut ∧ msg.srcId = i := by
  cases call with
  | data srcId buff buffsize valid =>
      -- a call of `comm_node_recv_data` never returns
      cases hqueue : queues.queue srcId with
      | nil =>
          rw [RecvCall.turn, commNodeRecvData_sleeps valid hqueue] at hturn
          cases hturn
      | cons msg msgQueue =>
          rw [RecvCall.turn, commNodeRecvData_found h hqueue] at hturn
          cases hturn
  | any srcId buff buffsize distinct =>
      rcases eq_or_ne queues.total 0 with hzero | hne
      · rw [RecvCall.turn, h.recvAny_sleeps hzero] at hturn
        cases hturn
      · obtain ⟨q, m, i, msg, msgQueue, hrun, hok, hqueue, hrest, htotal, h₁, h₂, h₃⟩ :=
          h.recvAny hsmall hne mem distinct
        rw [RecvCall.turn, hrun] at hturn
        cases hturn
        refine ⟨i, msg, msgQueue, hqueue, hrest, hok, by omega, ?_, ?_⟩
        · simp only [RecvCall.returned, DataMsg.handedOut, h₁, h₂, h₃]
        · exact h.src i msg (by rw [hqueue]; exact List.mem_cons_self)

/-- A call of `comm_node_recv_any_data` never ends the process. -/
theorem RecvCall.turn_any_ok (h : Ok 0 queues) (hsmall : queues.total < 2 ^ 31) (mem : CallerMem)
    (srcId buff buffsize : ℕ) (distinct : srcId ≠ buffsize) :
    ∃ r, (RecvCall.any srcId buff buffsize distinct).turn queues mem = Except.ok r := by
  rcases eq_or_ne queues.total 0 with hzero | hne
  · exact ⟨none, h.recvAny_sleeps hzero mem _ _ _⟩
  · obtain ⟨q, m, _, _, _, hrun, _⟩ := h.recvAny hsmall hne mem distinct
    exact ⟨some (q, m), hrun⟩

/-- What is blocked stays blocked when a message is taken. -/
theorem RecvCall.Blocked.of_taken {call : RecvCall} (hblocked : call.Blocked queues)
    {queues' : DataQueues} {i : ℤ} {msg : DataMsg} {msgQueue : List DataMsg}
    (hqueue : queues.queue i = msg :: msgQueue)
    (hrest : ∀ j, queues'.queue j = if j = i then msgQueue else queues.queue j) :
    call.Blocked queues' := by
  cases call with
  | data srcId buff buffsize valid =>
      have hempty : queues.queue srcId = [] := hblocked
      have hne : srcId ≠ i := by
        rintro rfl
        rw [hqueue] at hempty
        cases hempty
      change queues'.queue srcId = []
      rw [hrest, if_neg hne]
      exact hempty
  | any srcId buff buffsize distinct =>
      have hempty : queues.queue i = [] := hblocked i
      rw [hqueue] at hempty
      cases hempty

end Turn

/-! ### Messages are handed out once and in order -/

/-- The promise with what keeps it. -/
structure RecvInv (s : RecvSys) : Prop extends RecvOk s where
  queues : Ok 0 s.queues
  small : s.queues.total < 2 ^ 31

variable {s : RecvSys}

theorem total_create (memory : BitVec 32) : (commNodeCreateQueues memory).total = 0 :=
  total_eq_zero.2 fun _ _ => rfl

theorem small_create (memory : BitVec 32) (mem : CallerMem) :
    (recvSysCreate memory mem).queues.total + 1 < 2 ^ 31 := by
  have h := total_create memory
  change (commNodeCreateQueues memory).total + 1 < 2 ^ 31
  omega

theorem recvInv_create (mem : CallerMem) : RecvInv (recvSysCreate 0 mem) where
  alive := rfl
  order _ := rfl
  awake _ h := by cases h
  queues := ok_create 0
  small := (Nat.lt_succ_self _).trans (small_create 0 mem)

theorem RecvInv.deliver (h : RecvInv s) {msg : DataMsg}
    (valid : 0 ≤ msg.srcId ∧ msg.srcId < commMaxPeer) (hsmall : s.queues.total + 1 < 2 ^ 31) :
    RecvInv (s.step (RecvAction.deliver msg valid)) := by
  obtain ⟨queues', hrun, hok, htotal, hqueue⟩ := h.queues.deliver valid
  have hstep : s.step (RecvAction.deliver msg valid) =
      { s with
        queues := queues'
        threads := wakeAll s.threads
        delivered := s.delivered ++ [msg] } := by
    simp [RecvSys.step, h.alive, hrun]
  rw [hstep]
  refine ⟨⟨h.alive, fun src => ?_, fun thread hthread hasleep => ?_⟩, hok, by
    change queues'.total < _
    omega⟩
  · simp only [List.map_append, List.filter_append, h.order src, hqueue src, List.append_assoc]
    rcases eq_or_ne src msg.srcId with rfl | hne
    · simp [DataMsg.handedOut]
    · simp [DataMsg.handedOut, hne, hne.symm]
  · -- every call is awake
    obtain ⟨old, _, rfl⟩ := List.mem_map.1 hthread
    cases hasleep

theorem RecvInv.turn (h : RecvInv s) {k : ℕ} {thread : RecvThread}
    (hdata : ∀ srcId buff buffsize valid, thread.call = RecvCall.data srcId buff buffsize valid →
      s.queues.queue srcId = []) : RecvInv (s.turn k thread) := by
  unfold RecvSys.turn
  cases hturn : thread.call.turn s.queues s.mem with
  | error e =>
      exfalso
      cases hcall : thread.call with
      | data srcId buff buffsize valid =>
          rw [hcall, RecvCall.turn,
            commNodeRecvData_sleeps valid (hdata _ _ _ _ hcall)] at hturn
          cases hturn
      | any srcId buff buffsize distinct =>
          obtain ⟨r, hr⟩ := RecvCall.turn_any_ok h.queues h.small s.mem srcId buff buffsize distinct
          rw [hcall, hr] at hturn
          cases hturn
  | ok r =>
      cases r with
      | none =>
          refine ⟨⟨h.alive, h.order, fun x hx hasleep => ?_⟩, h.queues, h.small⟩
          rcases List.mem_or_eq_of_mem_set hx with hx | rfl
          · exact h.awake x hx hasleep
          · exact RecvCall.blocked_of_turn h.queues h.small hturn
      | some r =>
          obtain ⟨queues', mem'⟩ := r
          obtain ⟨i, msg, msgQueue, hqueue, hrest, hok, htotal, hreturned, hsrc⟩ :=
            RecvCall.turn_returns h.queues h.small hturn
          refine ⟨⟨h.alive, fun src => ?_, fun x hx hasleep => ?_⟩, hok, htotal.trans h.small⟩
          · refine (h.order src).trans ?_
            dsimp only
            rw [List.filter_append, List.append_assoc, hreturned, hrest]
            congr 1
            rcases eq_or_ne src i with rfl | hne
            · simp [hqueue, DataMsg.handedOut, hsrc]
            · simp [hne, DataMsg.handedOut, hsrc, hne.symm]
          · exact (h.awake x (List.mem_of_mem_eraseIdx hx) hasleep).of_taken hqueue hrest

/-- **Every action keeps the promise** unless a call of `comm_node_recv_data` finds a message. -/
theorem RecvInv.step (h : RecvInv s) {action : RecvAction} (hsmall : action.Small s)
    (hdata : action.NoRecvData s) : RecvInv (s.step action) := by
  have halive : ¬ s.crashed.isSome = true := by simp [h.alive]
  cases action with
  | deliver msg valid => exact h.deliver valid hsmall
  | call call =>
      unfold RecvSys.step
      rw [if_neg halive]
      refine ⟨⟨h.alive, h.order, fun x hx hasleep => ?_⟩, h.queues, h.small⟩
      rcases List.mem_append.1 hx with hx | hx
      · exact h.awake x hx hasleep
      · rw [List.mem_singleton.1 hx] at hasleep
        cases hasleep
  | turn k =>
      unfold RecvSys.step
      rw [if_neg halive]
      dsimp only
      cases hthread : s.threads[k]? with
      | none => exact h
      | some thread =>
          dsimp only
          split
          · exact h
          · rename_i hasleep
            exact h.turn (hdata thread hthread (Bool.eq_false_iff.2 hasleep))
  | wake k =>
      unfold RecvSys.step
      rw [if_neg halive]
      refine ⟨⟨h.alive, h.order, fun x hx hasleep => ?_⟩, h.queues, h.small⟩
      have hx' : x ∈ s.threads ∨ x.asleep = false := by
        obtain ⟨n, hn, rfl⟩ := List.getElem_of_mem hx
        rw [List.getElem_modify]
        split
        · exact Or.inr rfl
        · exact Or.inl (List.getElem_mem _)
      rcases hx' with hx' | hx'
      · exact h.awake x hx' hasleep
      · rw [hx'] at hasleep
        cases hasleep

/-- A turn of a call of `comm_node_recv_data` that finds a message ends the process. -/
theorem RecvInv.crashes (h : RecvInv s) {k : ℕ} {thread : RecvThread}
    (hthread : s.threads[k]? = some thread) (hasleep : thread.asleep = false)
    {srcId : ℤ} {buff buffsize : ℕ} {valid : 0 ≤ srcId ∧ srcId < commMaxPeer}
    (hcall : thread.call = RecvCall.data srcId buff buffsize valid)
    (hqueue : s.queues.queue srcId ≠ []) :
    (s.step (RecvAction.turn k)).crashed = some Abort.badAccess := by
  obtain ⟨msg, msgQueue, hmsg⟩ := List.exists_cons_of_ne_nil hqueue
  have hfound := commNodeRecvData_found h.queues hmsg s.mem (some buff) (some buffsize)
  have hturn : thread.call.turn s.queues s.mem = Except.error Abort.badAccess := by
    rw [hcall]
    exact hfound
  have halive : ¬ s.crashed.isSome = true := by simp [h.alive]
  unfold RecvSys.step
  rw [if_neg halive]
  dsimp only
  rw [hthread]
  dsimp only
  rw [hasleep, RecvSys.turn, hturn]
  rfl

theorem RecvInv.ok_iff (h : RecvInv s) {actions : List RecvAction}
    (hsmall : RunMeets (fun s action => action.Small s) s actions) :
    (∀ done, done <+: actions → RecvOk (s.run done)) ↔
      RunMeets (fun s action => action.NoRecvData s) s actions := by
  induction actions generalizing s with
  | nil =>
      refine ⟨fun _ => trivial, fun _ done hdone => ?_⟩
      rw [List.prefix_nil.1 hdone]
      exact h.toRecvOk
  | cons action actions ih =>
      constructor
      · intro hall
        have hdata : action.NoRecvData s := by
          cases action with
          | turn k =>
              intro thread hthread hasleep srcId buff buffsize valid hcall
              by_contra hqueue
              have hcrash := h.crashes hthread hasleep hcall hqueue
              have halive := (hall [RecvAction.turn k] (List.prefix_append _ _)).alive
              have hrun : s.run [RecvAction.turn k] = s.step (RecvAction.turn k) := rfl
              rw [hrun, hcrash] at halive
              cases halive
          | _ => trivial
        refine ⟨hdata, (ih (h.step hsmall.1 hdata) hsmall.2).1 fun done hdone => ?_⟩
        exact hall (action :: done) (List.cons_prefix_cons.2 ⟨rfl, hdone⟩)
      · intro hmeets done hdone
        cases done with
        | nil => exact h.toRecvOk
        | cons first done =>
            obtain ⟨rfl, htail⟩ := List.cons_prefix_cons.1 hdone
            exact (ih (h.step hsmall.1 hmeets.1) hsmall.2).2 hmeets.2 done htail

/-- A message of node 0 with one byte. -/
def oneByteMsg : DataMsg := ⟨1, 0, 1, 0, [some 7]⟩

/-- All variables of the callers are 0. -/
def zeroMem : CallerMem := ⟨fun _ => 0, fun _ => []⟩

/-- The message of node 0 is delivered. -/
def deliverOne : RecvAction := RecvAction.deliver oneByteMsg (by decide)

/-- A call of `comm_node_recv_any_data`. -/
def callAny : RecvAction := RecvAction.call (RecvCall.any 0 0 1 (by decide))

/-- A call of `comm_node_recv_data` for node 0. -/
def callData : RecvAction := RecvAction.call (RecvCall.data 0 0 1 (by decide))

/-- **Delivered messages are handed out exactly once and in order**, at every moment of a run, if
and only if no call of `comm_node_recv_data` finds a message in it. -/
theorem recvRun_ok_iff (mem : CallerMem) (actions : List RecvAction)
    (hsmall : RunMeets (fun s action => action.Small s) (recvSysCreate 0 mem) actions) :
    (∀ done, done <+: actions → RecvOk ((recvSysCreate 0 mem).run done)) ↔
      RunMeets (fun s action => action.NoRecvData s) (recvSysCreate 0 mem) actions :=
  (recvInv_create mem).ok_iff hsmall

theorem recvRun_ok_iff_any :
    RecvOk ((recvSysCreate 0 zeroMem).run [deliverOne, callAny, RecvAction.turn 0]) := by
  refine (recvRun_ok_iff zeroMem [deliverOne, callAny, RecvAction.turn 0]
    ⟨small_create 0 zeroMem, trivial, trivial, trivial⟩).2 ⟨trivial, trivial, ?_, trivial⟩ _
    List.prefix_rfl
  intro thread hthread _ srcId buff buffsize valid hcall
  have hget : (((recvSysCreate 0 zeroMem).step deliverOne).step callAny).threads[0]? =
      some ⟨RecvCall.any 0 0 1 (by decide), false⟩ := rfl
  rw [hget, Option.some.injEq] at hthread
  rw [← hthread] at hcall
  cases hcall

/-- A call of `comm_node_recv_data` that finds the message of its source ends the process. -/
theorem recvData_ends_process :
    ¬ RecvOk ((recvSysCreate 0 zeroMem).run [deliverOne, callData, RecvAction.turn 0]) := by
  intro h
  have hcrash : ((recvSysCreate 0 zeroMem).run
      [deliverOne, callData, RecvAction.turn 0]).crashed = some Abort.badAccess := rfl
  have halive := h.alive
  rw [hcrash] at halive
  cases halive

/-! ### The counter of undelivered messages -/

/-- What every action keeps, from a counter that has started with 0. -/
structure CounterInv (s : RecvSys) : Prop where
  queues : Ok 0 s.queues
  small : s.queues.total < 2 ^ 31

theorem CounterInv.counterOk (h : CounterInv s) : CounterOk s.queues where
  sum := h.queues.toInt_unacked h.small
  proceeds mem srcId buff buffsize hne := by
    constructor
    · rintro ⟨⟨queues', mem'⟩, hrun⟩
      obtain ⟨i, msg, msgQueue, hqueue, _⟩ := RecvCall.turn_returns h.queues h.small
        (show (RecvCall.any srcId buff buffsize hne).turn s.queues mem = _ from hrun)
      exact ⟨i, by rw [hqueue]; exact List.cons_ne_nil _ _⟩
    · rintro ⟨i, hi⟩
      obtain ⟨r, hr⟩ := RecvCall.turn_any_ok h.queues h.small mem srcId buff buffsize hne
      cases r with
      | some r => exact ⟨r, hr⟩
      | none => exact absurd (RecvCall.blocked_of_turn h.queues h.small hr i) hi
  asserts mem srcId buff buffsize hne :=
    RecvCall.turn_any_ok h.queues h.small mem srcId buff buffsize hne

theorem CounterInv.step (h : CounterInv s) {action : RecvAction} (hsmall : action.Small s) :
    CounterInv (s.step action) := by
  unfold RecvSys.step
  split
  · exact h
  cases action with
  | deliver msg valid =>
      obtain ⟨queues', hrun, hok, htotal, _⟩ := h.queues.deliver valid
      have hlt : s.queues.total + 1 < 2 ^ 31 := hsmall
      dsimp only
      rw [hrun]
      exact ⟨hok, htotal ▸ hlt⟩
  | call call => exact ⟨h.queues, h.small⟩
  | turn k =>
      dsimp only
      split
      · exact h
      · split
        · exact h
        · rename_i thread _ _
          unfold RecvSys.turn
          cases hturn : thread.call.turn s.queues s.mem with
          | error e => exact ⟨h.queues, h.small⟩
          | ok r =>
              cases r with
              | none => exact ⟨h.queues, h.small⟩
              | some r =>
                  obtain ⟨_, _, _, _, _, hok, htotal, _⟩ :=
                    RecvCall.turn_returns h.queues h.small hturn
                  exact ⟨hok, htotal.trans h.small⟩
  | wake k => exact ⟨h.queues, h.small⟩

/-- **The counter of undelivered messages is right in every run exactly when the memory of the node
held 0** when it was allocated. -/
theorem unackedCounter_iff (memory : BitVec 32) (mem : CallerMem) :
    (∀ actions, RunMeets (fun s action => action.Small s) (recvSysCreate memory mem) actions →
      CounterOk ((recvSysCreate memory mem).run actions).queues) ↔ memory = 0 := by
  constructor
  · intro h
    have hsum := (h [] trivial).sum
    change memory.toInt = ((commNodeCreateQueues memory).total : ℤ) at hsum
    rw [total_create] at hsum
    exact BitVec.eq_of_toInt_eq hsum
  · rintro rfl actions hsmall
    have hinit : CounterInv (recvSysCreate 0 mem) :=
      ⟨ok_create 0, (recvInv_create mem).small⟩
    exact (hsmall.inv (fun _ _ hs hP => hs.step hP) hinit).counterOk

/-- With 1 in the memory a call of `comm_node_recv_any_data` returns at once, without a message. -/
theorem unackedCounter_one :
    ¬ CounterOk (recvSysCreate 1 zeroMem).queues ∧
      (∀ i, (recvSysCreate 1 zeroMem).queues.queue i = []) ∧
      ((recvSysCreate 1 zeroMem).run [callAny, RecvAction.turn 0]).returned = [⟨0, 0, []⟩] := by
  refine ⟨fun h => ?_, fun _ => rfl, ?_⟩
  · have hsum := h.sum
    change (1 : BitVec 32).toInt = ((commNodeCreateQueues 1).total : ℤ) at hsum
    rw [total_create] at hsum
    exact absurd hsum (by decide)
  · have hstart : (recvSysCreate 1 zeroMem).step callAny = ⟨commNodeCreateQueues 1, zeroMem,
      [⟨RecvCall.any 0 0 1 (by decide), false⟩], [], [], none⟩ := rfl
    rw [RecvSys.run, List.foldl_cons, List.foldl_cons, List.foldl_nil, hstart]
    simp only [RecvSys.step, Option.isSome_none, Bool.false_eq_true, if_false,
      List.getElem?_cons_zero, RecvSys.turn, RecvCall.turn_any]
    rw [commNodeRecvAnyData_nothing (fun _ => rfl) (by decide) (by decide)]
    rfl

end DLFree

/-
**The operations of the application return.**

A thread of an operation waits for three things: that its node's local queue has room, that a message
arrives, and that the other nodes enter `gxp_man_sync`.  The first two are a matter of the network,
which delivers what has been sent.  The third is the stream of lines, where a round that all nodes
have entered goes on.

So look at a thread that is behind all others.  When it is between its two calls of `gxp_man_sync` it
can send, or what it waits for has been sent: all threads are in its iteration or a later one.  When it
is in a call of `gxp_man_sync`, all nodes have entered it.

Main definitions:

* `AppMoved`, `AppWork` — steps of which the last moves something;
* `AppStage.toDo`, `appVariant` — what is left to do for the threads, in the network, and on the
  stream of lines;
* `AppReturned` — all threads have returned, with all messages.

Main results:

* `AppGo.lowers` — a step lowers the variant, or moves nothing;
* `app_returned_or_work` — before all threads have returned, something can move;
* `app_collective_separates` — **a node receives the messages of each iteration before those of the
  next one**;
* `app_collective_returns` — **in every reachable state it is inevitable that the operation returns on
  all nodes**, each of which has received its messages then.
-/

import DLFree.AppRun

set_option relaxedAutoImplicit false
set_option autoImplicit false

namespace DLFree

open FifoPlaces TransitionRun

section Returns

variable {n : ℕ}

/-! ### Steps that move something -/

/-- A step that respects the bounds of the sockets. -/
structure AppGo (bo : ByteOrder) (cap : ℤ → ℤ → ℕ) (op : AppCollective n) (iter : ℕ) (a : AppSend n)
    (s s' : AppState n) : Prop where
  step : AppStep bo op iter a s s'
  sockets : SocketsBounded cap s'.net.fwd

/-- Something has moved: a thread, something on the stream of lines, or something in the network. -/
inductive AppMoved (s s' : AppState n) : Prop
  | thread (hthread : s'.thread ≠ s.thread)
  | gxp (hgxp : s'.gxp ≠ s.gxp)
  | net (hmoved : MessagingMoved s.net s'.net)

/-- Steps, the last of which moves something. -/
def AppWork (bo : ByteOrder) (cap : ℤ → ℤ → ℕ) (op : AppCollective n) (iter : ℕ) (a : AppSend n)
    (s s' : AppState n) : Prop :=
  ∃ t, Relation.ReflTransGen (AppGo bo cap op iter a) s t ∧ AppGo bo cap op iter a t s' ∧
    AppMoved t s'

/-- All threads have returned from the operation; each node has received the messages of all
iterations, each of them once. -/
structure AppReturned (op : AppCollective n) (iter : ℕ) (a : AppSend n) (s : AppState n) : Prop where
  thread : ∀ u, s.thread u = ⟨iter, AppStage.opening⟩
  received : ∀ u : Fin n,
    (s.net.received u).Perm ((op.messages iter u).map fun i => (a.call op i).result)

/-! ### What is left to do -/

/-- The steps that a thread with `sends` messages to send and `waits` to receive has left in its
iteration; `inside` is whether it is in `gxp_man_sync`. -/
def AppStage.toDo (sends waits : ℕ) (inside : Bool) : AppStage n → ℕ
  | AppStage.opening => 2 * sends + waits + if inside then 5 else 6
  | AppStage.sending left => 2 * left.length + waits + 4
  | AppStage.pushing _ left => 2 * left.length + waits + 5
  | AppStage.waiting count => count + 3
  | AppStage.closing => if inside then 1 else 2

/-- The steps that the thread of `u` has left in all its iterations. -/
def AppState.toDo (op : AppCollective n) (iter : ℕ) (s : AppState n) (u : Fin n) : ℕ :=
  (iter - (s.thread u).it) * (2 * (op.dests u).length + op.waits u + 7) +
    (s.thread u).stage.toDo (op.dests u).length (op.waits u) (s.gxp.member u).inside

/-- What is left to do for the threads, in the network, and on the stream of lines. -/
noncomputable def appVariant (tables : ℤ → OverlayRtable) (op : AppCollective n) (iter : ℕ)
    (a : AppSend n) (s : AppState n) (placed : Placed ChunkPlace (Frame × ℕ)) :
    ℕ ×ₗ ((ℕ ×ₗ ((ℕ ×ₗ (ℕ ×ₗ ℕ)) ×ₗ ℕ)) ×ₗ (ℕ ×ₗ (ℕ ×ₗ ℕ))) :=
  toLex (∑ u, s.toDo op iter u,
    toLex (messagingVariant n tables (a.call op) s.net placed, Collective.linesLeft s.gxp))

/-- What holds between two steps, within the bounds. -/
def AppReturnsInv (bo : ByteOrder) (adj : ℤ → ℤ → Prop) [∀ u v, Decidable (adj u v)]
    (tables : ℤ → OverlayRtable) (cap : ℤ → ℤ → ℕ) (op : AppCollective n) (iter : ℕ) (a : AppSend n)
    (s : AppState n) (placed : Placed ChunkPlace (Frame × ℕ)) : Prop :=
  AppInv bo adj tables op iter a s placed ∧ SocketsBounded cap s.net.fwd

/-- The variant is lower, or it is as before and nothing has moved. -/
def AppLowers (tables : ℤ → OverlayRtable) (op : AppCollective n) (iter : ℕ) (a : AppSend n)
    (s : AppState n) (placed : Placed ChunkPlace (Frame × ℕ)) (s' : AppState n)
    (placed' : Placed ChunkPlace (Frame × ℕ)) : Prop :=
  appVariant tables op iter a s' placed' < appVariant tables op iter a s placed ∨
    (appVariant tables op iter a s' placed' = appVariant tables op iter a s placed ∧
      ¬ AppMoved s s')

variable {bo : ByteOrder} {adj : ℤ → ℤ → Prop} [∀ u v, Decidable (adj u v)]
  {tables : ℤ → OverlayRtable} {cap : ℤ → ℤ → ℕ} {op : AppCollective n} {iter : ℕ} {a : AppSend n}
  {s s' t : AppState n} {placed placed' : Placed ChunkPlace (Frame × ℕ)} {i : AppMsg n} {u : Fin n}
  {net' : Messaging (AppMsg n)}

/-! ### What a step lowers -/

/-- **A thread that goes on has less to do.** -/
theorem AppLowers.of_thread (hlt : s'.toDo op iter u < s.toDo op iter u)
    (hothers : ∀ v, v ≠ u → s'.thread v = s.thread v ∧
      (s'.gxp.member v).inside = (s.gxp.member v).inside) :
    AppLowers tables op iter a s placed s' placed' := by
  refine Or.inl (Prod.Lex.toLex_lt_toLex.2 (Or.inl (Collective.sum_lt hlt fun v hv => ?_)))
  obtain ⟨hthread, hinside⟩ := hothers v hv
  unfold AppState.toDo
  rw [hthread, hinside]

/-- A thread that goes on within its iteration, alone. -/
theorem AppLowers.of_setThread {stage : AppStage n} {net' : Messaging (AppMsg n)}
    (hlt : stage.toDo (op.dests u).length (op.waits u) (s.gxp.member u).inside <
      (s.thread u).stage.toDo (op.dests u).length (op.waits u) (s.gxp.member u).inside) :
    AppLowers tables op iter a s placed
      { s.setThread u { s.thread u with stage := stage } with net := net' } placed' := by
  refine AppLowers.of_thread (u := u) ?_ fun v hv => ⟨AppState.setThread_of_ne hv, rfl⟩
  unfold AppState.toDo
  dsimp only
  rw [AppState.setThread_self]
  exact Nat.add_lt_add_left hlt _

/-- A step of the network lowers the variant, or moves nothing. -/
theorem AppLowers.of_network
    (h : MessagingLowers n tables (a.call op) s.net placed net' placed') :
    AppLowers tables op iter a s placed { s with net := net' } placed' := by
  rcases h with hlt | ⟨heq, hstill⟩
  · exact Or.inl (Prod.Lex.toLex_lt_toLex.2 (Or.inr ⟨rfl, Prod.Lex.toLex_lt_toLex.2 (Or.inl hlt)⟩))
  · refine Or.inr ⟨?_, ?_⟩
    · unfold appVariant
      rw [heq]
      rfl
    · rintro (hthread | hgxp | hmoved)
      · exact hthread rfl
      · exact hgxp rfl
      · exact hstill hmoved

/-- A step on the stream of lines that enters and leaves no round lowers the variant. -/
theorem AppLowers.of_line {gxp' : Collective.State (Fin n) Line}
    (hstep : Collective.Step (appProgram n iter) s.gxp gxp')
    (hstays : Collective.Stays s.gxp gxp') :
    AppLowers tables op iter a s placed { s with gxp := gxp' } placed := by
  have htoDo : ∑ v, AppState.toDo op iter { s with gxp := gxp' } v = ∑ v, s.toDo op iter v := by
    refine Finset.sum_congr rfl fun v _ => ?_
    unfold AppState.toDo
    dsimp only
    rw [(hstays v).2]
  exact Or.inl (Prod.Lex.toLex_lt_toLex.2 (Or.inr ⟨htoDo, Prod.Lex.toLex_lt_toLex.2
    (Or.inr ⟨rfl, hstep.lowers hstays⟩)⟩))

/-- A call of `gxp_man_sync` is one step less. -/
theorem AppLowers.of_enter {gxp' : Collective.State (Fin n) Line}
    (hstage : (s.thread u).stage.AtSync) (henters : Collective.Enters u s.gxp gxp') :
    AppLowers tables op iter a s placed { s with gxp := gxp' } placed' := by
  refine AppLowers.of_thread (u := u) ?_ fun v hv =>
    ⟨rfl, congrArg Collective.Member.inside (henters.others v hv)⟩
  unfold AppState.toDo
  dsimp only
  rw [henters.inside, henters.out]
  refine Nat.add_lt_add_left ?_ _
  rcases hstage with hstage | hstage
  · rw [hstage]
    simp [AppStage.toDo]
  · rw [hstage]
    simp [AppStage.toDo]

/-- **The thread after a call of `gxp_man_sync` has less to do**, also when its next iteration
begins. -/
theorem AppLowers.of_leave (hit : (s.thread u).it < iter) {gxp' : Collective.State (Fin n) Line}
    (hstage : (s.thread u).stage.AtSync) (hleaves : Collective.Leaves u s.gxp gxp') :
    AppLowers tables op iter a s placed
      { s.setThread u ((s.thread u).synced op u) with gxp := gxp' } placed' := by
  refine AppLowers.of_thread (u := u) ?_ fun v hv => ⟨AppState.setThread_of_ne hv,
    congrArg Collective.Member.inside (hleaves.others v hv)⟩
  unfold AppState.toDo
  dsimp only
  rw [AppState.setThread_self, hleaves.inside, hleaves.out]
  rcases hstage with hstage | hstage
  · unfold AppThread.synced
    rw [hstage]
    simp [AppStage.toDo]
  · unfold AppThread.synced
    rw [hstage]
    -- a whole iteration is one step more than what an iteration has left at its beginning
    have hnext : iter - (s.thread u).it = (iter - ((s.thread u).it + 1)) + 1 := by omega
    rw [hnext, Nat.add_mul, Nat.one_mul]
    simp only [AppStage.toDo, Bool.false_eq_true, if_false, if_true]
    omega

/-- A step keeps what holds between two steps. -/
theorem AppGo.inv (hstep : AppGo bo cap op iter a s s') (hpeers : Peers n adj)
    (htables : TablesComplete n adj tables)
    (h : AppReturnsInv bo adj tables cap op iter a s placed) :
    ∃ placed', AppReturnsInv bo adj tables cap op iter a s' placed' := by
  obtain ⟨placed', h'⟩ := hstep.step.inv hpeers htables h.2 h.1
  exact ⟨placed', h', hstep.sockets⟩

/-- **A step lowers the variant, or moves nothing.** -/
theorem AppGo.lowers (hstep : AppGo bo cap op iter a s s') (hpeers : Peers n adj)
    (htables : TablesComplete n adj tables)
    (h : AppReturnsInv bo adj tables cap op iter a s placed) :
    ∃ placed', AppReturnsInv bo adj tables cap op iter a s' placed' ∧
      AppLowers tables op iter a s placed s' placed' := by
  obtain ⟨placed₁, h₁⟩ := hstep.inv hpeers htables h
  obtain ⟨hstep, hsockets⟩ := hstep
  -- a thread goes on, and the places are those that the step leads to
  have hthread : AppLowers tables op iter a s placed s' placed₁ → ∃ placed',
      AppReturnsInv bo adj tables cap op iter a s' placed' ∧
        AppLowers tables op iter a s placed s' placed' := fun hlowers => ⟨placed₁, h₁, hlowers⟩
  cases hstep with
  | enter hit hstage hstep henters => exact hthread (AppLowers.of_enter hstage henters)
  | line hstep hstays =>
      exact ⟨placed, ⟨h.1.line hstep hstays, hsockets⟩, AppLowers.of_line hstep hstays⟩
  | @leave u gxp' hstep hleaves =>
      exact hthread (AppLowers.of_leave (h.1.it_lt hleaves.inside)
        ((h.1.thread u).inside hleaves.inside) hleaves)
  | send hstage hstep hcall =>
      refine hthread (AppLowers.of_setThread ?_)
      rw [hstage]
      simp only [AppStage.toDo, List.length_cons]
      omega
  | sent hstage hpushed =>
      refine hthread (AppLowers.of_setThread ?_)
      rw [hstage]
      simp only [AppStage.toDo]
      omega
  | sentAll hstage =>
      refine hthread (AppLowers.of_setThread ?_)
      rw [hstage]
      simp only [AppStage.toDo, List.length_nil]
      omega
  | recv hstage hstep hrecv =>
      refine hthread (AppLowers.of_setThread ?_)
      rw [hstage]
      simp only [AppStage.toDo]
      omega
  | @waited u hstage =>
      refine hthread (AppLowers.of_setThread ?_)
      have hout := h.1.outside (u := u) (by simp [hstage, AppStage.AtSync])
      rw [hstage, hout]
      simp [AppStage.toDo]
  | network hstep hbegun hreceived =>
      obtain ⟨placed', h', hlowers⟩ := MessagingQuiet.lowers ⟨hstep, hsockets, hbegun⟩ a.peers hpeers
        htables ⟨h.1.net, h.1.inBounds h.2⟩
      exact ⟨placed', ⟨⟨h'.1, h₁.1.gxp, h₁.1.thread⟩, hsockets⟩, AppLowers.of_network hlowers⟩

/-- Steps do not raise the variant. -/
theorem appGo_le (hrun : Relation.ReflTransGen (AppGo bo cap op iter a) s s') (hpeers : Peers n adj)
    (htables : TablesComplete n adj tables)
    (h : AppReturnsInv bo adj tables cap op iter a s placed) :
    ∃ placed', AppReturnsInv bo adj tables cap op iter a s' placed' ∧
      appVariant tables op iter a s' placed' ≤ appVariant tables op iter a s placed := by
  induction hrun with
  | refl => exact ⟨placed, h, le_rfl⟩
  | tail _ hstep ih =>
      obtain ⟨placed₁, h₁, hle⟩ := ih
      obtain ⟨placed', h', hlowers⟩ := hstep.lowers hpeers htables h₁
      exact ⟨placed', h', (hlowers.elim (fun hlt => hlt.le) fun hsame => hsame.1.le).trans hle⟩

/-- **Steps that move something lower the variant.** -/
theorem AppWork.lowers (hwork : AppWork bo cap op iter a s s') (hpeers : Peers n adj)
    (htables : TablesComplete n adj tables)
    (h : AppReturnsInv bo adj tables cap op iter a s placed) :
    ∃ placed', AppReturnsInv bo adj tables cap op iter a s' placed' ∧
      appVariant tables op iter a s' placed' < appVariant tables op iter a s placed := by
  obtain ⟨t, hrun, hstep, hmoved⟩ := hwork
  obtain ⟨placed₁, h₁, hle⟩ := appGo_le hrun hpeers htables h
  obtain ⟨placed', h', hlowers⟩ := hstep.lowers hpeers htables h₁
  exact ⟨placed', h', (hlowers.resolve_right fun hsame => hsame.2 hmoved).trans_le hle⟩

/-! ### The network -/

/-- A step of the network leaves the threads where they are. -/
theorem AppReturnsInv.lift {fwd' : Forwarding} (h : AppReturnsInv bo adj tables cap op iter a s placed)
    (hstep : QuietStep bo n cap s.net.fwd fwd') (hpeers : Peers n adj)
    (htables : TablesComplete n adj tables) :
    ∃ s', AppGo bo cap op iter a s s' ∧ s'.net.fwd = fwd' ∧ s'.thread = s.thread := by
  obtain ⟨net', hquiet, hfwd, hreceived⟩ :=
    hstep.lift a.peers hpeers htables ⟨h.1.net, h.1.inBounds h.2⟩
  exact ⟨{ s with net := net' }, ⟨AppStep.network hquiet.step hquiet.begun hreceived,
    hquiet.sockets⟩, hfwd, rfl⟩

/-- Work in the network is work of the application. -/
theorem AppReturnsInv.forwardWork {fwd' : Forwarding}
    (h : AppReturnsInv bo adj tables cap op iter a s placed)
    (hwork : ForwardWork bo n cap s.net.fwd fwd') (hpeers : Peers n adj)
    (htables : TablesComplete n adj tables) : ∃ s', AppWork bo cap op iter a s s' := by
  obtain ⟨fwd₁, hrun, hstep, hmoved⟩ := hwork
  have hlift : ∃ t, Relation.ReflTransGen (AppGo bo cap op iter a) s t ∧ t.net.fwd = fwd₁ ∧
      ∃ placed₁, AppReturnsInv bo adj tables cap op iter a t placed₁ := by
    clear hstep hmoved
    induction hrun with
    | refl => exact ⟨s, Relation.ReflTransGen.refl, rfl, placed, h⟩
    | tail _ hquiet ih =>
        obtain ⟨t, hrun, rfl, placed₁, h₁⟩ := ih
        obtain ⟨t', hgo, rfl, _⟩ := h₁.lift hquiet hpeers htables
        exact ⟨t', hrun.tail hgo, rfl, hgo.inv hpeers htables h₁⟩
  obtain ⟨t, hrun', rfl, placed₁, h₁⟩ := hlift
  obtain ⟨s', hgo, rfl, _⟩ := h₁.lift hstep hpeers htables
  exact ⟨s', t, hrun', hgo, AppMoved.net (MessagingMoved.network hmoved)⟩

/-- One step that moves something. -/
theorem AppGo.work (hstep : AppGo bo cap op iter a s s') (hmoved : AppMoved s s') :
    ∃ s', AppWork bo cap op iter a s s' :=
  ⟨s', s, Relation.ReflTransGen.refl, hstep, hmoved⟩

/-- **What has been sent has arrived, or something can move.** -/
theorem AppReturnsInv.arrived_or_work (h : AppReturnsInv bo adj tables cap op iter a s placed)
    (hpeers : Peers n adj) (htables : TablesComplete n adj tables)
    (hacyclic : ChannelDependency.Acyclic (ChannelDependency.Dep (tableRoutes n tables)))
    (hcap : ∀ u v, 0 < cap u v) :
    (∀ i ∈ s.net.begun, (a.call op i).chunks.length ≤ s.net.pushes.count i ∧
      s.net.arrived (a.call op) i = (a.call op i).chunks.length) ∨
      ∃ s', AppWork bo cap op iter a s s' := by
  have hbounds := h.1.inBounds h.2
  rcases DLFree.arrived_or_work a.peers hpeers htables hacyclic hcap
    ⟨h.1.net.fwd, h.1.net.inBounds h.2⟩ with hplaces | ⟨fwd', hwork⟩
  swap
  · exact Or.inr (h.forwardWork hwork hpeers htables)
  by_cases hpush : ∃ i ∈ s.net.begun, s.net.pushes.count i < (a.call op i).chunks.length
  · obtain ⟨i, hi, hcount⟩ := hpush
    obtain ⟨net', hquiet, hreceived, hlt⟩ := push_work ⟨h.1.net, hbounds⟩ hplaces hi hcount
    exact Or.inr (AppGo.work ⟨AppStep.network hquiet.step hquiet.begun hreceived, hquiet.sockets⟩
      (AppMoved.net (MessagingMoved.push hlt)))
  · push Not at hpush
    exact Or.inl fun i hi => ⟨hpush i hi,
      arrived_of_places h.1.net htables.simple hplaces hi (hpush i hi)⟩

/-! ### Threads between their calls of `gxp_man_sync` -/

/-- A thread that is at another place has moved. -/
theorem AppMoved.of_stage {stage : AppStage n} (hne : stage ≠ (s.thread u).stage) :
    AppMoved s { s.setThread u { s.thread u with stage := stage } with net := net' } := by
  refine AppMoved.thread fun hsame => hne ?_
  have hu : (s.setThread u { s.thread u with stage := stage }).thread u = s.thread u :=
    congrFun hsame u
  rw [AppState.setThread_self] at hu
  exact congrArg AppThread.stage hu

/-- **A thread can call `comm_node_send_data` for its next message.** -/
theorem AppReturnsInv.send_work (h : AppReturnsInv bo adj tables cap op iter a s placed)
    {idx : Fin n} {left : List (Fin n)}
    (hstage : (s.thread u).stage = AppStage.sending (idx :: left)) :
    ∃ s', AppWork bo cap op iter a s s' := by
  have hu := h.1.thread u
  have hunsent := hu.unsent
  have hsid := hu.dataMsgSid
  rw [hstage] at hunsent hsid
  have hmem : idx ∈ op.dests u := hunsent.subset List.mem_cons_self
  have hnew : (⟨(s.thread u).it, u, idx⟩ : AppMsg n) ∉ s.net.begun := by
    rw [hu.begun _ rfl]
    rintro ⟨_, hlt | ⟨_, hnot⟩⟩
    · exact lt_irrefl _ hlt
    · rw [hstage] at hnot
      exact hnot List.mem_cons_self
  have hother : ((idx : ℕ) : ℤ) ≠ (u : ℕ) := fun heq =>
    AppCollective.ne_of_mem_dests hmem (Fin.ext (Int.ofNat_inj.1 heq))
  have hcounter : (a.call op ⟨(s.thread u).it, u, idx⟩).msg.dataMsgSid = s.net.dataMsgSid u := by
    rw [hsid]
    change _ + BitVec.ofNat 64 (op.before _) = _
    rw [AppCollective.before_eq hunsent]
    rfl
  have hcall : MessagingStep bo n (a.call op) s.net _ :=
    MessagingStep.call hnew u.isLt (node_range idx) hother hcounter
  refine AppGo.work ⟨AppStep.send hstage hcall rfl, h.2⟩ (AppMoved.of_stage ?_)
  rw [hstage]
  exact nofun

/-- **A call of `comm_node_send_data` returns**, or something can move. -/
theorem AppReturnsInv.sent_work (h : AppReturnsInv bo adj tables cap op iter a s placed)
    (hpushed : ∀ i ∈ s.net.begun, (a.call op i).chunks.length ≤ s.net.pushes.count i) {idx : Fin n}
    {left : List (Fin n)} (hstage : (s.thread u).stage = AppStage.pushing idx left) :
    ∃ s', AppWork bo cap op iter a s s' := by
  have hu := h.1.thread u
  have hsuffix := hu.pushing idx left hstage
  have hnodup := hsuffix.sublist.nodup (op.nodup_dests u)
  have hbegun : (⟨(s.thread u).it, u, idx⟩ : AppMsg n) ∈ s.net.begun := by
    refine (hu.begun _ rfl).2 ⟨hsuffix.subset List.mem_cons_self, Or.inr ⟨rfl, ?_⟩⟩
    rw [hstage]
    exact (List.nodup_cons.1 hnodup).1
  refine AppGo.work ⟨AppStep.sent hstage (hpushed _ hbegun), h.2⟩ (AppMoved.of_stage ?_)
  rw [hstage]
  exact nofun

/-- **A message waits for a thread** whose messages have all been sent, and have arrived. -/
theorem AppReturnsInv.recv_work (h : AppReturnsInv bo adj tables cap op iter a s placed)
    (harrived : ∀ i ∈ s.net.begun, s.net.arrived (a.call op) i = (a.call op i).chunks.length)
    (hsent : ∀ i ∈ op.messages ((s.thread u).it + 1) u, i ∈ s.net.begun) {count : ℕ}
    (hstage : (s.thread u).stage = AppStage.waiting (count + 1)) :
    ∃ s', AppWork bo cap op iter a s s' := by
  obtain ⟨log, hlog, hlen, _⟩ := h.1.received_le u
  -- as many messages have arrived as the node waits for in its iterations, so one of them is left
  have hall : op.messages ((s.thread u).it + 1) u ⊆ log := fun i hi => by
    obtain ⟨_, hdst, _⟩ := AppCollective.mem_messages.1 hi
    exact (hlog.mem i).2 ⟨hsent i hi, congrArg (fun v : Fin n => ((v : ℕ) : ℤ)) hdst,
      harrived i (hsent i hi)⟩
  have hle := ((op.nodup_messages _ u).subperm hall).length_le
  have hrec := (h.1.thread u).received
  rw [AppCollective.length_messages] at hle
  rw [hstage] at hrec
  change _ + (count + 1) = _ at hrec
  have htotal : (s.net.stores u).queues.total ≠ 0 := by omega
  obtain ⟨taken, p, hnode⟩ :=
    h.1.net.node u (node_range u) (fitsInt_of_node a.peers (node_range u))
  obtain ⟨net', hquiet, received, hreceived⟩ :=
    DLFree.recv_work ⟨h.1.net, h.1.inBounds h.2⟩ (node_range u) hnode htotal
  refine AppGo.work ⟨AppStep.recv hstage hquiet.step hreceived, hquiet.sockets⟩
    (AppMoved.of_stage ?_)
  rw [hstage]
  exact fun heq => by
    have := AppStage.waiting.inj heq
    omega

/-! ### Threads in `gxp_man_sync` -/

/-- **A thread can call `gxp_man_sync`.** -/
theorem AppReturnsInv.enter_work (h : AppReturnsInv bo adj tables cap op iter a s placed)
    (hit : (s.thread u).it < iter) (hstage : (s.thread u).stage.AtSync)
    (hout : (s.gxp.member u).inside = false) : ∃ s', AppWork bo cap op iter a s s' := by
  have hround : (s.gxp.member u).round < 2 * iter := by
    rw [(h.1.thread u).round]
    unfold AppThread.syncs
    split <;> omega
  have hr : (appProgram n iter)[(s.gxp.member u).round]? = some (gxpRound n GxpCollective.sync) := by
    unfold appProgram gxpProgram
    rw [List.getElem?_map, List.getElem?_replicate, if_pos hround]
    rfl
  have hw : (gxpRound n GxpCollective.sync).writes u (gxpLines n u GxpPrint.sync) :=
    ⟨GxpPrint.sync, rfl, rfl⟩
  have hstep := Collective.Step.enter hout hr hw
  have hself := @Collective.setMember_self _ _ _ s.gxp u { s.gxp.member u with
    inside := true, toWrite := gxpLines n u GxpPrint.sync,
    chosen := (s.gxp.member u).chosen ++ [gxpLines n u GxpPrint.sync] }
  refine AppGo.work ⟨AppStep.enter hit hstage hstep ⟨hout, ?_, ?_, fun v hv => ?_⟩, h.2⟩
    (AppMoved.gxp fun hsame => ?_)
  · rw [hself]
  · rw [hself]
  · exact Collective.setMember_of_ne hv
  · have hin : ((s.gxp.setMember u _).member u).inside = (s.gxp.member u).inside :=
      congrArg (fun g => (Collective.State.member g u).inside) hsame
    rw [hself, hout] at hin
    cases hin

/-- **`gxp_man_sync` goes on** once all threads that are behind have called it. -/
theorem AppReturnsInv.sync_work (h : AppReturnsInv bo adj tables cap op iter a s placed)
    (hround : ∀ v, (s.gxp.member u).round ≤ (s.gxp.member v).round)
    (hin : ∀ v, (s.gxp.member v).round = (s.gxp.member u).round →
      (s.gxp.member v).inside = true) : ∃ s', AppWork bo cap op iter a s s' := by
  obtain ⟨gxp', hstep, hstays | ⟨v, hleaves⟩⟩ := h.1.gxp.goes_on hround hin
  · refine AppGo.work ⟨AppStep.line hstep hstays, h.2⟩ (AppMoved.gxp fun hsame => ?_)
    have hlt := hstep.lowers hstays
    rw [show gxp' = s.gxp from hsame] at hlt
    exact lt_irrefl _ hlt
  · refine AppGo.work ⟨AppStep.leave hstep hleaves, h.2⟩ (AppMoved.gxp fun hsame => ?_)
    have hnext := hleaves.round
    rw [show gxp' = s.gxp from hsame] at hnext
    omega

/-! ### Before all threads have returned -/

/-- The thread has called `comm_node_send_data` for all its messages of the iteration. -/
def AppStage.Idle (stage : AppStage n) : Prop :=
  stage = AppStage.opening ∨ (∃ count, stage = AppStage.waiting count) ∨ stage = AppStage.closing

/-- **A thread that has messages to send goes on**, or something can move. -/
theorem AppReturnsInv.idle_or_work (h : AppReturnsInv bo adj tables cap op iter a s placed)
    (hpushed : ∀ i ∈ s.net.begun, (a.call op i).chunks.length ≤ s.net.pushes.count i) (v : Fin n) :
    (s.thread v).stage.Idle ∨ ∃ s', AppWork bo cap op iter a s s' := by
  cases hstage : (s.thread v).stage with
  | opening => exact Or.inl (Or.inl rfl)
  | sending left =>
      cases left with
      | nil =>
          refine Or.inr (AppGo.work ⟨AppStep.sentAll hstage, h.2⟩ (AppMoved.of_stage ?_))
          rw [hstage]
          exact nofun
      | cons idx left => exact Or.inr (h.send_work hstage)
  | pushing idx left => exact Or.inr (h.sent_work hpushed hstage)
  | waiting count => exact Or.inl (Or.inr (Or.inl ⟨count, rfl⟩))
  | closing => exact Or.inl (Or.inr (Or.inr rfl))

/-- A thread in its last state has received all its messages. -/
theorem AppReturnsInv.returned (h : AppReturnsInv bo adj tables cap op iter a s placed)
    (hit : ∀ v, (s.thread v).it = iter) : AppReturned op iter a s := by
  have hthread : ∀ v, s.thread v = ⟨iter, AppStage.opening⟩ := fun v => by
    have hstage := (h.1.thread v).ended (hit v)
    rw [← hit v, ← hstage]
  refine ⟨hthread, fun v => ?_⟩
  have hseparate := (h.1.thread v).separate iter (hit v).ge
  have hrec := (h.1.thread v).received
  rw [hthread v] at hrec
  change _ + op.waits v = (iter + 1) * op.waits v at hrec
  rw [Nat.succ_mul] at hrec
  rwa [List.take_of_length_le (by omega)] at hseparate

/-- The threads that are behind have all returned, or one of them can call `gxp_man_sync`, or they
are all in it, which goes on. -/
theorem AppReturnsInv.sync_or_work (h : AppReturnsInv bo adj tables cap op iter a s placed)
    (hmin : ∀ v, (s.thread u).syncs ≤ (s.thread v).syncs)
    (hsync : ∀ v, (s.thread v).syncs = (s.thread u).syncs →
      (s.thread v).stage.AtSync ∧ (s.thread v).it < iter) :
    ∃ s', AppWork bo cap op iter a s s' := by
  have hround : ∀ v, (s.gxp.member v).round = (s.thread v).syncs := fun v => (h.1.thread v).round
  by_cases hin : ∀ v, (s.thread v).syncs = (s.thread u).syncs → (s.gxp.member v).inside = true
  · -- all nodes have entered the round in which `u` is
    refine h.sync_work (u := u) (fun v => ?_) fun v hv => ?_
    · rw [hround, hround]
      exact hmin v
    · rw [hround, hround] at hv
      exact hin v hv
  · push Not at hin
    obtain ⟨v, hv, hout⟩ := hin
    obtain ⟨hstage, hit⟩ := hsync v hv
    exact h.enter_work hit hstage (Bool.eq_false_iff.2 hout)

/-- The calls of `gxp_man_sync` tell whether a thread is before the first one of an iteration. -/
theorem AppThread.syncs_cases (th : AppThread n) :
    (th.stage = AppStage.opening ∧ th.syncs = 2 * th.it) ∨
      (th.stage ≠ AppStage.opening ∧ th.syncs = 2 * th.it + 1) := by
  by_cases hstage : th.stage = AppStage.opening
  · refine Or.inl ⟨hstage, ?_⟩
    unfold AppThread.syncs
    rw [hstage]
  · exact Or.inr ⟨hstage, AppThread.syncs_of_ne hstage⟩

/-- All messages of the iteration of a thread that is behind have been sent. -/
theorem AppInv.sent_of_behind (h : AppInv bo adj tables op iter a s placed)
    (hidle : ∀ v, (s.thread v).stage.Idle) {k : ℕ} (hmin : ∀ v, 2 * k + 1 ≤ (s.thread v).syncs)
    (hi : i ∈ op.messages (k + 1) u) : i ∈ s.net.begun := by
  obtain ⟨hlt, rfl, hmem⟩ := AppCollective.mem_messages.1 hi
  refine ((h.thread i.src).begun i rfl).2 ⟨hmem, ?_⟩
  have hsyncs := hmin i.src
  rcases (s.thread i.src).syncs_cases with ⟨_, heq⟩ | ⟨hstage, heq⟩
  · -- the sender is before its next iteration
    exact Or.inl (by omega)
  rcases (show i.it ≤ (s.thread i.src).it by omega).lt_or_eq with hlt | hit
  · exact Or.inl hlt
  refine Or.inr ⟨hit, ?_⟩
  rcases (hidle i.src).resolve_left hstage with ⟨count, hwaiting⟩ | hclosing
  · rw [hwaiting]
    exact List.not_mem_nil
  · rw [hclosing]
    exact List.not_mem_nil

/-- A thread that waits for messages which have been sent goes on. -/
theorem AppReturnsInv.waiting_work (h : AppReturnsInv bo adj tables cap op iter a s placed)
    (harrived : ∀ i ∈ s.net.begun, s.net.arrived (a.call op) i = (a.call op i).chunks.length)
    (hsent : ∀ i ∈ op.messages ((s.thread u).it + 1) u, i ∈ s.net.begun) {count : ℕ}
    (hstage : (s.thread u).stage = AppStage.waiting count) :
    ∃ s', AppWork bo cap op iter a s s' := by
  cases count with
  | zero =>
      refine AppGo.work ⟨AppStep.waited hstage, h.2⟩ (AppMoved.of_stage ?_)
      rw [hstage]
      exact nofun
  | succ count => exact h.recv_work harrived hsent hstage

/-- **Before all threads have returned, something can move.** -/
theorem app_returned_or_work (hpeers : Peers n adj) (htables : TablesComplete n adj tables)
    (hacyclic : ChannelDependency.Acyclic (ChannelDependency.Dep (tableRoutes n tables)))
    (hcap : ∀ u v, 0 < cap u v) (h : AppReturnsInv bo adj tables cap op iter a s placed) :
    AppReturned op iter a s ∨ ∃ s', AppWork bo cap op iter a s s' := by
  rcases isEmpty_or_nonempty (Fin n) with hempty | hsome
  · exact Or.inl (h.returned fun v => hempty.elim v)
  rcases h.arrived_or_work hpeers htables hacyclic hcap with hsettled | hwork
  swap
  · exact Or.inr hwork
  -- all that has been sent has arrived, so a thread that sends is not held up
  by_cases hidle : ∀ v, (s.thread v).stage.Idle
  swap
  · obtain ⟨v, hv⟩ := not_forall.1 hidle
    exact Or.inr ((h.idle_or_work (fun i hi => (hsettled i hi).1) v).resolve_left hv)
  -- the thread `u` is behind all others
  obtain ⟨u, hmin⟩ := Finite.exists_min fun v => (s.thread v).syncs
  rcases (s.thread u).syncs_cases with ⟨_, hsyncs⟩ | ⟨_, hsyncs⟩
  · rcases (h.1.thread u).it_le.lt_or_eq with hlt | heq
    · refine Or.inr (h.sync_or_work hmin fun v hv => ?_)
      rcases (s.thread v).syncs_cases with ⟨hstage, hv'⟩ | ⟨_, hv'⟩
      · exact ⟨Or.inl hstage, by omega⟩
      · omega
    · refine Or.inl (h.returned fun v => (h.1.thread v).it_le.antisymm ?_)
      have hv := hmin v
      rcases (s.thread v).syncs_cases with ⟨_, hv'⟩ | ⟨_, hv'⟩ <;> omega
  -- the thread `u` is between its calls, or in the second one
  have hsent : ∀ v, (s.thread v).syncs = (s.thread u).syncs →
      ∀ i ∈ op.messages ((s.thread v).it + 1) v, i ∈ s.net.begun := by
    intro v hv i hi
    refine h.1.sent_of_behind hidle (fun w => ?_) hi
    have hw := hmin w
    rcases (s.thread v).syncs_cases with ⟨_, hv'⟩ | ⟨_, hv'⟩ <;> omega
  by_cases hwaiting : ∃ v count, (s.thread v).syncs = (s.thread u).syncs ∧
      (s.thread v).stage = AppStage.waiting count
  · obtain ⟨v, count, hv, hstage⟩ := hwaiting
    exact Or.inr (h.waiting_work (fun i hi => (hsettled i hi).2) (hsent v hv) hstage)
  · refine Or.inr (h.sync_or_work hmin fun v hv => ?_)
    rcases (s.thread v).syncs_cases with ⟨_, hv'⟩ | ⟨hstage, _⟩
    · omega
    rcases (hidle v).resolve_left hstage with ⟨count, hcount⟩ | hclosing
    · exact absurd ⟨v, count, hv, hcount⟩ hwaiting
    · exact ⟨Or.inr hclosing, (h.1.thread v).it_le.lt_of_ne fun hit =>
        hstage ((h.1.thread v).ended hit)⟩

/-! ### Runs -/

/-- **The operation returns.** -/
theorem AppReturnsInv.inevitable (h : AppReturnsInv bo adj tables cap op iter a s placed)
    (hpeers : Peers n adj) (htables : TablesComplete n adj tables)
    (hacyclic : ChannelDependency.Acyclic (ChannelDependency.Dep (tableRoutes n tables)))
    (hcap : ∀ u v, 0 < cap u v) :
    Inevitable (AppWork bo cap op iter a) (AppReturned op iter a) s :=
  Inevitable.of_variant (appVariant tables op iter a)
    (fun _ _ hs => app_returned_or_work hpeers htables hacyclic hcap hs)
    (fun _ _ _ hs hwork => hwork.lowers hpeers htables hs) h

/-- Work gets from reachable states to reachable ones. -/
theorem AppReach.work (h : AppReach bo adj tables cap op iter a s)
    (hwork : AppWork bo cap op iter a s s') : AppReach bo adj tables cap op iter a s' := by
  obtain ⟨t, hrun, hstep, _⟩ := hwork
  have hgo : Relation.ReflTransGen (AppGo bo cap op iter a) s s' := hrun.tail hstep
  exact h.run (hgo.lift id fun _ _ hgo => ⟨hgo.step, hgo.sockets⟩)

/-- From every reachable state there is a run to the end of the operation. -/
theorem AppReach.exists_returned (h : AppReach bo adj tables cap op iter a s) (hpeers : Peers n adj)
    (htables : TablesComplete n adj tables)
    (hacyclic : ChannelDependency.Acyclic (ChannelDependency.Dep (tableRoutes n tables)))
    (hcap : ∀ u v, 0 < cap u v) :
    ∃ t, AppReach bo adj tables cap op iter a t ∧ AppReturned op iter a t := by
  obtain ⟨⟨placed, hinv⟩, hsockets⟩ := appReach_inv hpeers htables h
  have hall := AppReturnsInv.inevitable ⟨hinv, hsockets⟩ hpeers htables hacyclic hcap
  obtain ⟨t, hrun, hreturned⟩ := hall.reaches
  refine ⟨t, ?_, hreturned⟩
  clear hreturned
  induction hrun with
  | refl => exact h
  | tail _ hwork ih => exact ih.work hwork

end Returns

/-! ### Two nodes -/

/-- Both nodes send one byte. -/
def pairSend : AppSend 2 where
  buff := fun _ => [42]
  chunkSz := 4
  dataMsgSid := fun _ => 7
  buff_ne := fun _ => pairMsg.buff_ne
  buff_fits := fun _ => pairMsg.buff_fits
  chunkSz_pos := pairMsg.chunkSz_pos
  peers := Nat.le_of_ble_eq_true rfl

/-- The two nodes before `send_all2all`. -/
def pairApp : AppState 2 where
  net :=
    { fwd := pairForwarding
      stores := fun _ => commNodeCreateStore 0
      dataMsgSid := fun _ => 7
      begun := []
      pushes := []
      received := fun _ => [] }
  gxp := Collective.State.initial
  thread := fun _ => ⟨0, AppStage.opening⟩

theorem pairApp_reach (iter : ℕ) : AppReach ByteOrder.little pairAdj pairTables (fun _ _ => 1)
    AppCollective.all2all iter pairSend pairApp :=
  Reach.init ⟨⟨⟨pairForwarding_start False, fun _ _ => rfl, rfl, rfl, fun _ => rfl⟩, fun _ => rfl,
    rfl, fun _ => rfl⟩, fun _ _ => Nat.zero_le 1⟩

end DLFree

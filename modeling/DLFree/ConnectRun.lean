/-
**Attempts to connect.**

`comm_node_async_connect` enters an attempt into the table of pending connections, and
`comm_node_connect_wait` sleeps until the connection is established or the entry is gone.  This
module follows the entries through the runs of a node.

The I/O thread may use a new channel before its entry has been registered.  The invariant is about
the table with that entry in it.

Main definitions:

* `ConnectsReported` — what should hold in every state: an entry refers to its channel, a thread
  sleeps only while its connection is in progress, and a lost attempt is reported;
* `NodeState.added` — the state once the entry of a call that is under way has been registered;
* `ConnectInv`, `PendingInv` — the invariant behind it.

Main results:

* `nodeReach_connects` — **every failed attempt to connect is reported in every run that removes a
  broken channel only when no entry refers to it and none is about to**, and in no other;
* `connects_lost` — the end of a stream in the middle of a handshake is not reported.
-/

import DLFree.NodeRun

set_option relaxedAutoImplicit false
set_option autoImplicit false

namespace DLFree

open TransitionRun

/-! ### The table of pending connections -/

section Table

variable {κ : Type} {map : List (ℕ × Option κ)} {key : ℕ} {c : κ}

theorem channelHashMapFind_eq_some (h : channelHashMapFind map key = some c) :
    (key, some c) ∈ map := by
  unfold channelHashMapFind at h
  cases hfind : map.find? fun p => p.1 = key with
  | none =>
      rw [hfind] at h
      cases h
  | some p =>
      rw [hfind] at h
      have hkey : p.1 = key := by simpa using List.find?_some hfind
      have hp : p = (key, some c) := Prod.ext hkey h
      exact hp ▸ List.mem_of_find?_eq_some hfind

theorem channelHashMapFind_eq_none (h : ∀ x, (key, x) ∉ map) :
    channelHashMapFind map key = none := by
  unfold channelHashMapFind
  have hfind : (map.find? fun p => p.1 = key) = none := by
    refine List.find?_eq_none.2 fun p hp hkey => ?_
    have hkey : p.1 = key := by simpa using hkey
    exact h p.2 (hkey ▸ hp)
  rw [hfind]

/-- The entry of a key is found when the keys are different. -/
theorem channelHashMapFind_of_mem (hnodup : (map.map Prod.fst).Nodup) {x : Option κ}
    (h : (key, x) ∈ map) : channelHashMapFind map key = x := by
  induction map with
  | nil => cases h
  | cons p map ih =>
      rw [List.map_cons, List.nodup_cons] at hnodup
      rcases List.mem_cons.1 h with rfl | h
      · simp [channelHashMapFind]
      · have hne : p.1 ≠ key := fun he => hnodup.1 (List.mem_map.2 ⟨_, h, he.symm⟩)
        have hih := ih hnodup.2 h
        unfold channelHashMapFind at *
        rw [List.find?_cons_of_neg (by simpa using hne)]
        exact hih

theorem channelHashMapPop_sublist : (channelHashMapPop map key).Sublist map :=
  List.eraseP_sublist

/-- An entry of another key stays when a key is popped. -/
theorem mem_channelHashMapPop {k : ℕ} {x : Option κ} (hne : k ≠ key) (h : (k, x) ∈ map) :
    (k, x) ∈ channelHashMapPop map key :=
  (List.mem_eraseP_of_neg (by simpa using hne)).2 h

variable [DecidableEq κ]

theorem channelHashMapRemove_sublist : (channelHashMapRemove map c).Sublist map :=
  List.eraseP_sublist

/-- A channel that has one entry has none after it has been removed. -/
theorem not_mem_channelHashMapRemove (hnodup : (map.map Prod.fst).Nodup)
    (hone : ∀ k k', (k, some c) ∈ map → (k', some c) ∈ map → k = k') (k : ℕ) :
    (k, some c) ∉ channelHashMapRemove map c := by
  induction map with
  | nil => nofun
  | cons p map ih =>
      rw [List.map_cons, List.nodup_cons] at hnodup
      unfold channelHashMapRemove
      by_cases hp : p.2 = some c
      · rw [List.eraseP_cons_of_pos (by simpa using hp)]
        intro hk
        have hpmem : (p.1, some c) ∈ p :: map := by
          rw [← hp]
          exact List.mem_cons_self
        have hkey := hone p.1 k hpmem (List.mem_cons_of_mem _ hk)
        exact hnodup.1 (List.mem_map.2 ⟨_, hk, hkey.symm⟩)
      · rw [List.eraseP_cons_of_neg (by simpa using hp), List.mem_cons]
        rintro (rfl | hk)
        · exact hp rfl
        · exact ih hnodup.2 (fun k k' h h' => hone k k' (List.mem_cons_of_mem _ h)
            (List.mem_cons_of_mem _ h')) hk

end Table

section Run

variable {κ : Type} [DecidableEq κ] {bo : ByteOrder} {s t : NodeState κ}

/-! ### What should hold -/

/-- Every failed attempt to connect is reported: an entry refers to the channel that was made for
it, which exists; a thread sleeps only while its connection is in progress; and an attempt whose
channel was removed before it was established has no sleeping thread and reports failure. -/
structure ConnectsReported (s : NodeState κ) : Prop where
  pending : ∀ handle c, (handle, some c) ∈ s.node.pendingConns →
    s.node.man.live c ∧ s.handleOf c = some handle
  sleeping : ∀ handle, CondWaiter.connect handle ∈ s.node.cond →
    ∃ c, channelHashMapFind s.node.pendingConns handle = some c ∧
      s.node.man.view Channel.connectState c = some ChannelConnectStatus.inprogress
  lost : ∀ handle ∈ s.lost, CondWaiter.connect handle ∉ s.node.cond ∧
    ∃ node', commNodeConnectWait s.node handle = Except.ok (ConnectWait.failure, node')

/-- The table of pending connections, with the entry that is about to be registered. -/
def NodeState.entries (s : NodeState κ) : List (ℕ × Option κ) :=
  match s.adding with
  | none => s.node.pendingConns
  | some (handle, c) => channelHashMapAdd s.node.pendingConns handle (some c)

/-- The state once the entry of the call that is under way has been registered. -/
def NodeState.added (s : NodeState κ) : NodeState κ :=
  { s with node := { s.node with pendingConns := s.entries }, adding := none }

/-- A channel is removed because a read or a write failed only when no entry refers to it, and no
entry that refers to it is about to be registered. -/
def NodeState.RemovesReported (s t : NodeState κ) : Prop :=
  ∀ c, s.Removes t c DeadCause.broken → (∀ handle, (handle, some c) ∉ s.node.pendingConns) ∧
    ∀ handle, s.adding ≠ some (handle, c)

section

omit [DecidableEq κ]

theorem entries_of_none (h : s.adding = none) : s.entries = s.node.pendingConns := by
  unfold NodeState.entries
  rw [h]

theorem entries_of_some {handle : ℕ} {c : κ} (h : s.adding = some (handle, c)) :
    s.entries = (handle, some c) :: s.node.pendingConns := by
  unfold NodeState.entries
  rw [h]
  rfl

theorem added_of_none (h : s.adding = none) : s.added = s := by
  obtain ⟨node, dead, handleOf, lost, adding⟩ := s
  obtain rfl : adding = none := h
  rfl

theorem pendingConns_sublist_entries : s.node.pendingConns.Sublist s.entries := by
  cases h : s.adding with
  | none => rw [entries_of_none h]
  | some p =>
      rw [entries_of_some h]
      exact List.sublist_cons_self _ _

theorem mem_entries {p : ℕ × Option κ} : p ∈ s.entries ↔
    p ∈ s.node.pendingConns ∨ ∃ c, s.adding = some (p.1, c) ∧ p.2 = some c := by
  cases h : s.adding with
  | none => simp [entries_of_none h]
  | some q =>
      obtain ⟨handle, c⟩ := q
      rw [entries_of_some h, List.mem_cons, or_comm]
      refine or_congr_right ⟨?_, ?_⟩
      · rintro rfl
        exact ⟨c, rfl, rfl⟩
      · rintro ⟨x, hx, hp⟩
        cases hx
        exact Prod.ext rfl hp

end

/-- The call that is under way registers its entry. -/
theorem NodeStep.added {handle : ℕ} {c : κ} (h : s.adding = some (handle, c)) :
    NodeStep bo s s.added := by
  have hstep : NodeStep bo s _ := NodeStep.addPending h
  rw [NodeState.added, entries_of_some h]
  exact hstep

/-- The entries, the handles of the channels and the sleeping threads agree. -/
structure ConnectInv (s : NodeState κ) : Prop where
  keys : (s.node.pendingConns.map Prod.fst).Nodup
  keyLt : ∀ p ∈ s.node.pendingConns, p.1 < s.node.keyC
  handleLt : ∀ c handle, s.handleOf c = some handle → handle < s.node.keyC
  pending : ∀ handle c, (handle, some c) ∈ s.node.pendingConns →
    c ∈ s.node.man.roster ∧ s.handleOf c = some handle
  own : ∀ c handle x, s.handleOf c = some handle → (handle, x) ∈ s.node.pendingConns → x = some c
  sleeping : ∀ handle, CondWaiter.connect handle ∈ s.node.cond →
    ∃ c, (handle, some c) ∈ s.node.pendingConns ∧
      s.node.man.view Channel.connectState c = some ChannelConnectStatus.inprogress
  lost : ∀ handle ∈ s.lost, handle < s.node.keyC ∧ ∀ x, (handle, x) ∉ s.node.pendingConns
  refused : ∀ c, s.dead = some (c, DeadCause.refused) →
    ∀ handle, (handle, some c) ∉ s.node.pendingConns

/-- The invariant holds once the entry of the call that is under way has been registered, and no
thread waits for that entry yet. -/
structure PendingInv (s : NodeState κ) : Prop where
  table : ConnectInv s.added
  awake : ∀ handle c, s.adding = some (handle, c) → CondWaiter.connect handle ∉ s.node.cond

omit [DecidableEq κ] in
theorem PendingInv.of_none (h : ConnectInv s) (hadding : s.adding = none) : PendingInv s where
  table := (added_of_none hadding).symm ▸ h
  awake handle c hc := by
    rw [hadding] at hc
    cases hc

omit [DecidableEq κ] in
theorem PendingInv.connectsReported (h : PendingInv s) (hinv : NodeInv s) : ConnectsReported s where
  pending handle c hmem := by
    obtain ⟨hr, ho⟩ := h.table.pending handle c (pendingConns_sublist_entries.subset hmem)
    exact ⟨hinv.channels.live c hr, ho⟩
  sleeping handle hcond := by
    obtain ⟨c, hmem, hstate⟩ := h.table.sleeping handle hcond
    rcases mem_entries.1 hmem with hmem | ⟨x, hx, -⟩
    · have hkeys := h.table.keys.sublist (pendingConns_sublist_entries.map Prod.fst)
      exact ⟨c, channelHashMapFind_of_mem hkeys hmem, hstate⟩
    · exact absurd hcond (h.awake _ _ hx)
  lost handle hlost := by
    obtain ⟨_, hnone⟩ := h.table.lost handle hlost
    replace hnone : ∀ x, (handle, x) ∉ s.node.pendingConns := fun x hx =>
      hnone x (pendingConns_sublist_entries.subset hx)
    refine ⟨fun hcond => ?_, ?_⟩
    · obtain ⟨c, hmem, _⟩ := h.table.sleeping handle hcond
      exact (h.table.lost handle hlost).2 _ hmem
    · refine ⟨{ s.node with pendingConns := channelHashMapPop s.node.pendingConns handle }, ?_⟩
      unfold commNodeConnectWait
      rw [channelHashMapFind_eq_none hnone]

/-! ### One step -/

theorem handleOf_update_some {f : κ → Option ℕ} {c x : κ} {k handle : ℕ}
    (h : Function.update f c (some k) x = some handle) :
    (x = c ∧ handle = k) ∨ (x ≠ c ∧ f x = some handle) := by
  by_cases hxc : x = c
  · subst hxc
    rw [Function.update_self, Option.some.injEq] at h
    exact Or.inl ⟨rfl, h.symm⟩
  · rw [Function.update_of_ne hxc] at h
    exact Or.inr ⟨hxc, h⟩

theorem handleOf_update_none {f : κ → Option ℕ} {c x : κ} {handle : ℕ}
    (h : Function.update f c none x = some handle) : x ≠ c ∧ f x = some handle := by
  by_cases hxc : x = c
  · subst hxc
    rw [Function.update_self] at h
    cases h
  · rw [Function.update_of_ne hxc] at h
    exact ⟨hxc, h⟩

omit [DecidableEq κ] in
/-- Fewer entries and fewer sleeping threads: the entries of the threads that sleep on stay, and so
do their connections. -/
theorem ConnectInv.shrink (h : ConnectInv s)
    (hsub : t.node.pendingConns.Sublist s.node.pendingConns)
    (hkeyC : t.node.keyC = s.node.keyC) (hhandle : t.handleOf = s.handleOf)
    (hlost : t.lost = s.lost)
    (hroster : ∀ x, x ∈ s.node.man.roster → x ∈ t.node.man.roster)
    (hsleep : ∀ handle, CondWaiter.connect handle ∈ t.node.cond →
      CondWaiter.connect handle ∈ s.node.cond ∧
        (∀ x, (handle, x) ∈ s.node.pendingConns → (handle, x) ∈ t.node.pendingConns) ∧
        ∀ x, t.node.man.view Channel.connectState x = s.node.man.view Channel.connectState x)
    (hrefused : ∀ c, t.dead = some (c, DeadCause.refused) →
      ∀ handle, (handle, some c) ∉ t.node.pendingConns) : ConnectInv t where
  keys := h.keys.sublist (hsub.map Prod.fst)
  keyLt p hp := by
    rw [hkeyC]
    exact h.keyLt p (hsub.subset hp)
  handleLt c handle hc := by
    rw [hhandle] at hc
    rw [hkeyC]
    exact h.handleLt c handle hc
  pending handle c hmem := by
    obtain ⟨hr, ho⟩ := h.pending handle c (hsub.subset hmem)
    rw [hhandle]
    exact ⟨hroster c hr, ho⟩
  own c handle x hc hmem := by
    rw [hhandle] at hc
    exact h.own c handle x hc (hsub.subset hmem)
  sleeping handle hcond := by
    obtain ⟨hcond, hkeep, hview⟩ := hsleep handle hcond
    obtain ⟨c, hmem, hstate⟩ := h.sleeping handle hcond
    exact ⟨c, hkeep _ hmem, (hview c).trans hstate⟩
  lost handle hl := by
    rw [hlost] at hl
    rw [hkeyC]
    exact ⟨(h.lost handle hl).1, fun x hx => (h.lost handle hl).2 x (hsub.subset hx)⟩
  refused := hrefused

omit [DecidableEq κ] in
/-- The attempts to connect stay as they are. -/
theorem ConnectInv.same (h : ConnectInv s) (hsame : s.node.SameConns t.node)
    (hhandle : t.handleOf = s.handleOf) (hlost : t.lost = s.lost)
    (hdead : ∀ c, t.dead = some (c, DeadCause.refused) → s.dead = some (c, DeadCause.refused)) :
    ConnectInv t := by
  refine h.shrink (hsame.pendingConns ▸ List.Sublist.refl _) hsame.keyC hhandle hlost
    (fun x hx => hsame.roster ▸ hx) (fun handle hcond => ?_) fun c hc handle => ?_
  · rcases hsame.conns with ⟨hcond', hview⟩ | hnone
    · exact ⟨hcond' ▸ hcond, fun x hx => hsame.pendingConns ▸ hx, hview⟩
    · rw [hnone] at hcond
      cases hcond
  · rw [hsame.pendingConns]
    exact h.refused c (hdead c hc) handle

theorem pendingInv_init (h : s.Init) : PendingInv s := by
  obtain ⟨nodeId, c, rfl⟩ := h
  exact PendingInv.of_none ⟨List.nodup_nil, nofun, nofun, nofun, nofun, nofun, nofun, nofun⟩ rfl

/-- A new entry with a new handle. -/
theorem ConnectInv.asyncConnectErr (h : ConnectInv s) :
    ConnectInv (s.setNode (commNodeAsyncConnect s.node none).2) where
  keys := List.nodup_cons.2 ⟨fun hm => by
    obtain ⟨p, hp, he⟩ := List.mem_map.1 hm
    exact (Nat.ne_of_lt (h.keyLt p hp)) he, h.keys⟩
  keyLt p hp := by
    rcases List.mem_cons.1 hp with rfl | hp
    · exact Nat.lt_succ_self _
    · exact Nat.lt_succ_of_lt (h.keyLt p hp)
  handleLt c handle hc := Nat.lt_succ_of_lt (h.handleLt c handle hc)
  pending handle c hmem := by
    rcases List.mem_cons.1 hmem with he | hmem
    · cases he
    · exact h.pending handle c hmem
  own c handle x hc hmem := by
    rcases List.mem_cons.1 hmem with he | hmem
    · cases he
      exact absurd (h.handleLt c _ hc) (lt_irrefl _)
    · exact h.own c handle x hc hmem
  sleeping handle hcond := by
    obtain ⟨c, hmem, hstate⟩ := h.sleeping handle hcond
    exact ⟨c, List.mem_cons_of_mem _ hmem, hstate⟩
  lost handle hl := by
    refine ⟨Nat.lt_succ_of_lt (h.lost handle hl).1, fun x hx => ?_⟩
    rcases List.mem_cons.1 hx with he | hx
    · cases he
      exact absurd (h.lost _ hl).1 (lt_irrefl _)
    · exact (h.lost handle hl).2 x hx
  refused c hc handle hmem := by
    rcases List.mem_cons.1 hmem with he | hmem
    · cases he
    · exact h.refused c hc handle hmem

/-- A new entry with a new handle and a new channel. -/
theorem ConnectInv.asyncConnect (h : ConnectInv s) (hinv : NodeInv s) {c : κ}
    (hnew : s.node.man.heap c = none) :
    ConnectInv { s with
      node := (commNodeAsyncConnect s.node (some c)).2
      handleOf := Function.update s.handleOf c (some s.node.keyC)
      adding := none } := by
  have hfresh := (hinv.channels.fresh hnew).1
  have hold : ∀ handle x, (handle, some x) ∈ s.node.pendingConns → x ≠ c := fun handle x hm he =>
    hfresh (he ▸ (h.pending handle x hm).1)
  have hroster : ∀ x ∈ s.node.man.roster,
      x ∈ (commNodeAsyncConnect s.node (some c)).2.man.roster := by
    intro x hx
    show x ∈ s.node.man.channels ++ newchans (s.node.man.events ++ [IomanEvent.newchan c])
    rw [newchans_append, ← List.append_assoc]
    exact List.mem_append_left _ hx
  refine ⟨List.nodup_cons.2 ⟨fun hm => ?_, h.keys⟩, fun p hp => ?_, fun x handle hx => ?_,
    fun handle x hmem => ?_, fun x handle y hx hmem => ?_, fun handle hcond => ?_,
    fun handle hl => ?_, fun x hx handle hmem => ?_⟩
  · obtain ⟨p, hp, he⟩ := List.mem_map.1 hm
    exact (Nat.ne_of_lt (h.keyLt p hp)) he
  · rcases List.mem_cons.1 hp with rfl | hp
    · exact Nat.lt_succ_self _
    · exact Nat.lt_succ_of_lt (h.keyLt p hp)
  · rcases handleOf_update_some hx with ⟨rfl, rfl⟩ | ⟨_, hx⟩
    · exact Nat.lt_succ_self _
    · exact Nat.lt_succ_of_lt (h.handleLt x handle hx)
  · rcases List.mem_cons.1 hmem with he | hmem
    · cases he
      refine ⟨?_, Function.update_self ..⟩
      show c ∈ s.node.man.channels ++ newchans (s.node.man.events ++ [IomanEvent.newchan c])
      rw [newchans_append]
      simp [newchans]
    · obtain ⟨hr, ho⟩ := h.pending handle x hmem
      exact ⟨hroster x hr, (Function.update_of_ne (hold handle x hmem) _ _).trans ho⟩
  · rcases handleOf_update_some hx with ⟨rfl, rfl⟩ | ⟨_, hx⟩
    · rcases List.mem_cons.1 hmem with he | hmem
      · cases he
        rfl
      · exact absurd (h.keyLt _ hmem) (lt_irrefl _)
    · rcases List.mem_cons.1 hmem with he | hmem
      · cases he
        exact absurd (h.handleLt x _ hx) (lt_irrefl _)
      · exact h.own x handle y hx hmem
  · obtain ⟨x, hmem, hstate⟩ := h.sleeping handle hcond
    refine ⟨x, List.mem_cons_of_mem _ hmem, ?_⟩
    exact (view_new_of_ne rfl (hold handle x hmem)).trans hstate
  · refine ⟨Nat.lt_succ_of_lt (h.lost handle hl).1, fun x hx => ?_⟩
    rcases List.mem_cons.1 hx with he | hx
    · cases he
      exact absurd (h.lost _ hl).1 (lt_irrefl _)
    · exact (h.lost handle hl).2 x hx
  · rcases List.mem_cons.1 hmem with he | hmem
    · cases he
      exact hfresh (List.mem_append_left _ (hinv.dead _ _ hx))
    · exact h.refused x hx handle hmem

/-- An accepted connection has no entry. -/
theorem ConnectInv.accept (h : ConnectInv s) (hinv : NodeInv s) {c : κ}
    (hnew : s.node.man.heap c = none) :
    ConnectInv { s with
      node := s.node.setMan (iomanAccept s.node.man c)
      handleOf := Function.update s.handleOf c none } := by
  have hfresh := (hinv.channels.fresh hnew).1
  have hold : ∀ handle x, (handle, some x) ∈ s.node.pendingConns → x ≠ c := fun handle x hm he =>
    hfresh (he ▸ (h.pending handle x hm).1)
  refine ⟨h.keys, h.keyLt, fun x handle hx => ?_, fun handle x hmem => ?_,
    fun x handle y hx hmem => ?_, fun handle hcond => ?_, h.lost, h.refused⟩
  · exact h.handleLt x handle (handleOf_update_none hx).2
  · obtain ⟨hr, ho⟩ := h.pending handle x hmem
    refine ⟨?_, ?_⟩
    · show x ∈ s.node.man.channels ++ [c] ++ newchans s.node.man.events
      rw [List.append_assoc]
      rcases List.mem_append.1 hr with hr | hr
      · exact List.mem_append_left _ hr
      · exact List.mem_append_right _ (List.mem_append_right _ hr)
    · exact (Function.update_of_ne (hold handle x hmem) _ _).trans ho
  · exact h.own x handle y (handleOf_update_none hx).2 hmem
  · obtain ⟨x, hmem, hstate⟩ := h.sleeping handle hcond
    refine ⟨x, hmem, ?_⟩
    exact (view_new_of_ne rfl (hold handle x hmem)).trans hstate

omit [DecidableEq κ] in
/-- A round of `comm_node_connect_wait` pops the entry, or goes to sleep for it. -/
theorem ConnectInv.connectWait (h : ConnectInv s) {handle : ℕ} {ret : ConnectWait}
    {node' : CommNode κ} (hawake : CondWaiter.connect handle ∉ s.node.cond)
    (hwait : commNodeConnectWait s.node handle = Except.ok (ret, node')) :
    ConnectInv (s.setNode node') := by
  have hpop : ConnectInv (s.setNode { s.node with
      pendingConns := channelHashMapPop s.node.pendingConns handle }) := by
    refine h.shrink channelHashMapPop_sublist rfl rfl rfl (fun _ hx => hx) (fun k hcond => ?_)
      fun c hc k hmem => h.refused c hc k (channelHashMapPop_sublist.subset hmem)
    have hne : k ≠ handle := fun he => hawake (he ▸ hcond)
    exact ⟨hcond, fun x hx => mem_channelHashMapPop hne hx, fun _ => rfl⟩
  rcases commNodeConnectWait_cases hwait with
    ⟨_, _, rfl⟩ | ⟨c, chan, hfind, hchan, ⟨_, _, rfl⟩ | ⟨hstate, _, rfl⟩⟩
  · exact hpop
  · exact hpop
  · refine ⟨h.keys, h.keyLt, h.handleLt, h.pending, h.own, fun k hcond => ?_, h.lost, h.refused⟩
    rcases List.mem_cons.1 hcond with he | hcond
    · cases he
      refine ⟨c, channelHashMapFind_eq_some hfind, ?_⟩
      exact (Ioman.view_eq hchan).trans (by rw [hstate])
    · exact h.sleeping k hcond

/-- A channel without entries is removed. -/
theorem ConnectInv.remove (h : ConnectInv s) (hinv : NodeInv s) {c : κ} {man' : Ioman κ}
    (hc : c ∈ s.node.man.channels) (hremove : iomanRemoveChannel s.node.man c = Except.ok man')
    (hnone : ∀ handle, (handle, some c) ∉ s.node.pendingConns) :
    ConnectInv { s with
      node := s.node.setMan man'
      dead := none
      handleOf := Function.update s.handleOf c none
      lost := s.lostWith c } := by
  have hold : ∀ handle x, (handle, some x) ∈ s.node.pendingConns → x ≠ c := fun handle x hm he =>
    hnone handle (he ▸ hm)
  refine ⟨h.keys, h.keyLt, fun x handle hx => ?_, fun handle x hmem => ?_,
    fun x handle y hx hmem => ?_, fun handle hcond => ?_, fun handle hl => ?_, nofun⟩
  · exact h.handleLt x handle (handleOf_update_none hx).2
  · obtain ⟨hr, ho⟩ := h.pending handle x hmem
    have hxc := hold handle x hmem
    exact ⟨(iomanRemoveChannel_roster hremove hinv.channels hc x).2 ⟨hxc, hr⟩,
      (Function.update_of_ne hxc _ _).trans ho⟩
  · exact h.own x handle y (handleOf_update_none hx).2 hmem
  · obtain ⟨x, hmem, hstate⟩ := h.sleeping handle hcond
    exact ⟨x, hmem, (iomanRemoveChannel_view hremove (hold handle x hmem)).trans hstate⟩
  · unfold NodeState.lostWith at hl
    split at hl
    · rcases List.mem_append.1 hl with hl | hl
      · have hhandle : s.handleOf c = some handle := Option.mem_toList.1 hl
        refine ⟨h.handleLt c handle hhandle, fun x hx => ?_⟩
        rw [h.own c handle x hhandle hx] at hx
        exact hnone handle hx
      · exact h.lost handle hl
    · exact h.lost handle hl

/-- The connection is refused: the entry is removed and the threads wake up. -/
theorem ConnectInv.refuse (h : ConnectInv s) {c : κ} {chan : Channel κ} :
    ConnectInv { s with
      node := commNodeNotifyFailure { s.node with man := s.node.man.put c chan } c
      dead := some (c, DeadCause.refused) } := by
  refine h.shrink channelHashMapRemove_sublist rfl rfl rfl (fun _ hx => hx) nofun ?_
  intro x hx handle
  cases hx
  refine not_mem_channelHashMapRemove h.keys (fun k k' hk hk' => ?_) handle
  have := (h.pending k c hk).2.symm.trans (h.pending k' c hk').2
  exact Option.some.inj this

omit [DecidableEq κ] in
/-- The table and the call that is under way stay as they are. -/
theorem PendingInv.same (h : PendingInv s) (hsame : s.node.SameConns t.node)
    (hadding : t.adding = s.adding) (hhandle : t.handleOf = s.handleOf) (hlost : t.lost = s.lost)
    (hdead : ∀ c, t.dead = some (c, DeadCause.refused) → s.dead = some (c, DeadCause.refused)) :
    PendingInv t where
  table := by
    have hentries : t.entries = s.entries := by
      unfold NodeState.entries
      rw [hadding, hsame.pendingConns]
    have hconns : s.added.node.SameConns t.added.node :=
      ⟨hsame.roster, hsame.live, hentries, hsame.keyC, hsame.conns⟩
    exact h.table.same hconns hhandle hlost hdead
  awake handle c hc hcond := by
    rw [hadding] at hc
    rcases hsame.conns with ⟨hcond', -⟩ | hnone
    · exact h.awake handle c hc (hcond' ▸ hcond)
    · rw [hnone] at hcond
      cases hcond

/-- **A step keeps the entries in order**, unless it removes a broken channel that an entry refers
to. -/
theorem NodeStep.pendingInv (hst : NodeStep bo s t) (hinv : NodeInv s) (h : PendingInv s)
    (hreported : s.RemovesReported t) : PendingInv t := by
  have hfree : s.adding = none → ConnectInv s := fun hlock => added_of_none hlock ▸ h.table
  have hinvAdded : NodeInv s.added := hinv.of_man rfl rfl
  cases hst with
  | asyncConnectErr hlock => exact PendingInv.of_none (hfree hlock).asyncConnectErr hlock
  | newConnection c hlock hnew =>
      refine ⟨(hfree hlock).asyncConnect hinv hnew, fun handle x hx hcond => ?_⟩
      -- the new handle has no entry that a thread could wait for
      cases hx
      obtain ⟨y, hmem, _⟩ := (hfree hlock).sleeping s.node.keyC hcond
      exact absurd ((hfree hlock).keyLt _ hmem) (lt_irrefl _)
  | addPending hadding =>
      refine PendingInv.of_none ?_ rfl
      have htable := h.table
      rw [NodeState.added, entries_of_some hadding] at htable
      exact htable
  | connectWait hlock _ hawake hwait =>
      exact PendingInv.of_none ((hfree hlock).connectWait hawake hwait) hlock
  | localPush minfo body hchan hpush =>
      obtain ⟨_, rfl⟩ := channelLocalPushChunk_cases hpush
      have hsteady : Steady s.node.man (s.node.man.put s.node.man.localChan
          (Channel.appendBuff (channelPackBuff bo minfo body) _)) := Steady.put hchan rfl rfl
      exact h.same (hsteady.handled rfl).toSameConns rfl rfl rfl fun _ hc => hc
  | localToken hchan _ =>
      have hsteady : Steady s.node.man (s.node.man.put s.node.man.localChan
          (channelLocalPushToken _)) := Steady.put hchan rfl rfl
      exact h.same (hsteady.handled rfl).toSameConns rfl rfl rfl fun _ hc => hc
  | notify =>
      have hsteady : Steady s.node.man (iomanNotifyNewmsg s.node.man) := steady_event rfl
      exact h.same (hsteady.handled rfl).toSameConns rfl rfl rfl fun _ hc => hc
  | storeRt hstore =>
      obtain ⟨_, _, _, rfl⟩ := commNodeStoreRt_cases hstore
      exact h.same ⟨rfl, fun _ => Iff.rfl, rfl, rfl, Or.inl ⟨rfl, fun _ => rfl⟩⟩ rfl rfl rfl
        fun _ hc => hc
  | bcast buff =>
      have hsteady : Steady s.node.man (iomanBcastMsg s.node.man MsgKind.rt buff) :=
        steady_event rfl
      exact h.same (hsteady.handled rfl).toSameConns rfl rfl rfl fun _ hc => hc
  | countOwnRt =>
      exact h.same ⟨rfl, fun _ => Iff.rfl, rfl, rfl, Or.inl ⟨rfl, fun _ => rfl⟩⟩ rfl rfl rfl
        fun _ hc => hc
  | exchangeWait numPeers hlock =>
      refine PendingInv.of_none ?_ hlock
      have hconn := hfree hlock
      unfold commNodeExchangeWait
      split
      · refine ⟨hconn.keys, hconn.keyLt, hconn.handleLt, hconn.pending, hconn.own,
          fun handle hcond => ?_, hconn.lost, hconn.refused⟩
        rcases List.mem_cons.1 hcond with he | hcond
        · cases he
        · exact hconn.sleeping handle hcond
      · exact hconn
  | event hdead hevent =>
      obtain ⟨hlive, hconn⟩ := iomanHandleEvent_keeps hevent
      have hroster := (iomanHandleEvent_channelsInv hevent hinv.channels).2
      exact h.same ⟨hroster, hlive, rfl, rfl, Or.inl ⟨rfl, hconn⟩⟩ rfl rfl rfl fun _ hc => hc
  | accept c _ hnew => exact ⟨h.table.accept hinvAdded hnew, h.awake⟩
  | localRead _ _ _ _ hread =>
      exact h.same (iomanProcessLocalChannelRead_steady hread).1.toSameConns rfl rfl rfl
        fun _ hc => hc
  | @read _ _ _ _ _ alive _ hdead _ _ _ hread =>
      obtain ⟨chan, hchan, hstep⟩ := iomanProcessChannelRead_cases hread
      refine h.same (hstep.handled hchan).toSameConns rfl rfl rfl fun c hc => ?_
      cases alive <;> cases hc
  | @write c _ _ _ alive _ _ hdead _ hchan _ hlock hwrite =>
      obtain ⟨chan, hchan', hstep⟩ := iomanProcessChannelWrite_cases hwrite
      obtain rfl := Option.some.inj (hchan.symm.trans hchan')
      cases hstep with
      | connected _ =>
          have hput : Steady s.node.man
              (s.node.man.put c (Channel.setState ChannelStatus.active _)) :=
            Steady.put hchan rfl rfl
          exact h.same ((hput.trans channelSendMsg_steady).handled rfl).toSameConns rfl rfl rfl nofun
      | refused hsetup =>
          rw [if_neg Bool.false_ne_true, if_pos hsetup]
          exact PendingInv.of_none (hfree (hlock hsetup rfl)).refuse (hlock hsetup rfl)
      | @sent script r hsetup hsent =>
          refine h.same ((channelWrite_steady hsent).handled rfl).toSameConns rfl rfl rfl
            fun x hx => ?_
          rw [if_neg hsetup] at hx
          dsimp only at hx
          split at hx
          · cases hx
          · cases hx
  | @remove c cause _ hdead hremove =>
      refine ⟨h.table.remove hinvAdded (hinv.dead _ _ hdead) hremove fun handle hmem => ?_, h.awake⟩
      cases cause with
      | refused => exact h.table.refused c hdead handle hmem
      | broken =>
          obtain ⟨hentry, hadding⟩ := hreported c ⟨hdead, rfl⟩
          rcases mem_entries.1 hmem with hmem | ⟨x, hx, he⟩
          · exact hentry handle hmem
          · cases he
            exact hadding handle hx

/-- After another removal an entry refers to a channel that has been destroyed, at the latest when
the call that is under way registers it. -/
theorem NodeStep.removesReported (hst : NodeStep bo s t) (hok : ConnectsReported t.added) :
    s.RemovesReported t := by
  rintro c ⟨hdead, hgone⟩
  cases hst with
  | asyncConnectErr | newConnection | addPending | connectWait | localPush | localToken | notify
  | storeRt | bcast | countOwnRt | exchangeWait =>
      replace hgone : s.dead = none := hgone
      rw [hdead] at hgone
      cases hgone
  | event hnone | accept _ hnone | localRead hnone | read hnone | write hnone =>
      rw [hdead] at hnone
      cases hnone
  | remove hdead' hremove =>
      obtain rfl : c = _ := congrArg Prod.fst (Option.some.inj (hdead.symm.trans hdead'))
      have hdestroyed : ∀ handle, (handle, some c) ∉ s.entries := fun handle hmem =>
        ((iomanRemoveChannel_live hremove).1 (hok.pending handle c hmem).1).1 rfl
      refine ⟨fun handle hmem => ?_, fun handle hadding => ?_⟩
      · exact hdestroyed handle (pendingConns_sublist_entries.subset hmem)
      · exact hdestroyed handle (mem_entries.2 (Or.inr ⟨c, hadding, rfl⟩))

omit [DecidableEq κ] in
/-- A call that is under way can register its entry at once. -/
theorem PendingInv.added (h : PendingInv s) : PendingInv s.added := PendingInv.of_none h.table rfl

/-- **Every failed attempt to connect is reported in every run that removes a broken channel only
when no entry refers to it and none is about to be registered.**  The first step that removes another
broken channel leaves an entry behind, at the latest when the call that is under way has registered
its own. -/
theorem nodeReach_connects (bo : ByteOrder) (s : NodeState κ)
    (h : Reach NodeState.Init (Guarded (NodeStep bo) NodeState.RemovesReported) s) :
    ConnectsReported s ∧ ∀ t, NodeStep bo s t →
      (ConnectsReported t ∧ ConnectsReported t.added ↔ s.RemovesReported t) := by
  have hinv : NodeInv s ∧ PendingInv s :=
    h.inv (I := fun s => NodeInv s ∧ PendingInv s)
      (fun _ h => ⟨nodeInv_init h, pendingInv_init h⟩)
      fun _ _ hs hst => ⟨hst.1.nodeInv hs.1, hst.1.pendingInv hs.1 hs.2 hst.2⟩
  refine ⟨hinv.2.connectsReported hinv.1, fun t hst => ⟨fun hok => hst.removesReported hok.2,
    fun hreported => ?_⟩⟩
  have ht := hst.nodeInv hinv.1
  have hpending := hst.pendingInv hinv.1 hinv.2 hreported
  have hadded : NodeInv t.added := ht.of_man rfl rfl
  exact ⟨hpending.connectsReported ht, hpending.added.connectsReported hadded⟩

end Run

/-! ### A connection that is refused, and one that ends in the middle of its handshake -/

/-- A user thread starts to connect, and the I/O thread enters the channel 1 into its list. -/
theorem connecting : Reach NodeState.Init
    (Guarded (NodeStep ByteOrder.little) NodeState.RemovesReported)
    ⟨{ commNodeCreate 0 0 with
      man := { iomanCreate 0 commMaxPeer (0 : ℕ) with
        channels := [1]
        heap := Function.update (iomanCreate 0 commMaxPeer (0 : ℕ)).heap 1
          (some channelSetupCreate) }
      pendingConns := [(0, some 1)]
      keyC := 1 }, none, Function.update (fun _ => none) 1 (some 0), [], none⟩ := by
  have h0 : Reach NodeState.Init (Guarded (NodeStep ByteOrder.little) NodeState.RemovesReported)
      ⟨commNodeCreate 0 (0 : ℕ), none, fun _ => none, [], none⟩ := Reach.init ⟨0, 0, rfl⟩
  have h1 := h0.step ⟨NodeStep.newConnection 1 rfl rfl, nofun⟩
  -- the I/O thread takes the event before the entry is registered
  have h2 := h1.step ⟨NodeStep.event rfl rfl, nofun⟩
  exact h2.step ⟨NodeStep.addPending rfl, nofun⟩

/-- The connection is refused: the attempt reports failure. -/
theorem nodeReach_connects_refused : ∃ s : NodeState ℕ, s.lost = [0] ∧ ConnectsReported s ∧
    ∀ t, NodeStep ByteOrder.little s t →
      (ConnectsReported t ∧ ConnectsReported t.added ↔ s.RemovesReported t) := by
  have h1 := connecting.step ⟨NodeStep.write rfl List.mem_cons_self rfl rfl (fun _ _ => rfl)
    (show iomanProcessChannelWrite ByteOrder.little _ 1 false [] = Except.ok (false, _, []) from rfl),
    nofun⟩
  have h2 := h1.step ⟨NodeStep.remove rfl (show iomanRemoveChannel _ 1 = Except.ok _ from rfl),
    nofun⟩
  exact ⟨_, rfl, nodeReach_connects ByteOrder.little _ h2⟩

/-- The peer closes the connection after the first message of the handshake, while a thread waits for
it: the entry of the attempt refers to a channel that has been destroyed. -/
theorem connects_lost : ∃ s : NodeState ℕ, Reach NodeState.Init (NodeStep ByteOrder.little) s ∧
    s.lost = [0] ∧ CondWaiter.connect 0 ∈ s.node.cond ∧ ¬ ConnectsReported s := by
  have h0 := connecting.mono (fun _ h => h) fun _ _ h => h.1
  have h1 := h0.step (NodeStep.write rfl List.mem_cons_self rfl rfl (fun _ _ => rfl)
    (show iomanProcessChannelWrite ByteOrder.little _ 1 true [] = Except.ok (true, _, []) from rfl))
  have h2 := h1.step (NodeStep.connectWait rfl (show 0 < 1 by decide) nofun
    (show commNodeConnectWait _ 0 = Except.ok (ConnectWait.waiting, _) from rfl))
  have h3 := h2.step (NodeStep.read rfl List.mem_cons_self rfl rfl
    (show iomanProcessChannelRead ByteOrder.little 1 _ 1 [RecvEvent.eof] =
      Except.ok (false, _, []) from rfl))
  have h4 := h3.step (NodeStep.remove rfl (show iomanRemoveChannel _ 1 = Except.ok _ from rfl))
  exact ⟨_, h4, rfl, List.mem_cons_self,
    fun hok => Bool.false_ne_true (hok.pending 0 1 List.mem_cons_self).1⟩

end DLFree

/-
**Every chunk is delivered in the end.**

`ForwardProgress` shows that the I/O threads of a network with an acyclic dependency graph are never
stuck.  They do not go on for ever either: whatever they do, and in whichever order, a chunk moves on
along its path, or bytes leave a send queue or a socket, or a call of `channel_local_push_chunk`
returns.  Once no further chunk is pushed, all chunks are therefore delivered.

Main definitions:

* `QuietStep` — a step that pushes no chunk and respects the bounds of the sockets;
* `BusyStep` — a quiet step that moves something;
* `ForwardWork` — quiet steps, the last of which moves something;
* `variant` — the places before the chunks, the bytes of the links, and the tokens that are missing.

Main results:

* `QuietStep.lowers` — a quiet step lowers the variant, or leaves everything where it is;
* `forwarding_delivers` — **in every reachable state it is inevitable that all accepted chunks are
  delivered**, once no further chunk is pushed.
-/

import DLFree.ForwardProgress
import Mathlib.Data.Prod.Lex
import Mathlib.Data.Int.Interval

set_option relaxedAutoImplicit false
set_option autoImplicit false

namespace DLFree

open FifoPlaces TransitionRun

/-! ### Steps that move something -/

/-- A step that pushes no chunk: no user thread enters `channel_local_push_chunk`. -/
structure QuietStep (bo : ByteOrder) (n : ℕ) (cap : ℤ → ℤ → ℕ) (s s' : Forwarding) : Prop where
  step : ForwardStep bo n s s'
  sockets : SocketsBounded cap s'
  accepted : s'.accepted = s.accepted

/-- Something has moved: a token or a chunk of a local queue, or bytes of a socket. -/
inductive SomeMoved (s s' : Forwarding) : Prop
  | token {u : ℤ} {chan chan' : Channel (Option ℤ)}
      (hchan : (s.net.node u).man.heap none = some chan)
      (hchan' : (s'.net.node u).man.heap none = some chan') (htoken : chan.pipe < chan'.pipe)
  | pop {u : ℤ} (hpop : (s'.net.node u).man.queueLen none < (s.net.node u).man.queueLen none)
  | take {u v : ℤ} (htake : (s'.net.wire u v).length < (s.net.wire u v).length)
  | send {u v : ℤ} (hsend : (s.net.wire u v).length < (s'.net.wire u v).length)

/-- A quiet step that moves something. -/
def BusyStep (bo : ByteOrder) (n : ℕ) (cap : ℤ → ℤ → ℕ) (s s' : Forwarding) : Prop :=
  QuietStep bo n cap s s' ∧ SomeMoved s s'

/-- Quiet steps, the last of which moves something. -/
def ForwardWork (bo : ByteOrder) (n : ℕ) (cap : ℤ → ℤ → ℕ) (s s' : Forwarding) : Prop :=
  ∃ t, Relation.ReflTransGen (QuietStep bo n cap) s t ∧ BusyStep bo n cap t s'

/-! ### What is left to do -/

/-- The bytes in the send queue of the channel `c`. -/
def unsentBytes (man : Ioman (Option ℤ)) (c : Option ℤ) : ℕ :=
  (man.view (fun chan => (chan.buffQueue.flatMap MsgBuff.unsent).length) c).getD 0

/-- The bytes of a link: those of the send queue have to go through the socket yet. -/
def linkBytes (net : Net) (a : ℤ × ℤ) : ℕ :=
  2 * unsentBytes (net.node a.1).man (some a.2) + (net.wire a.1 a.2).length

/-- The bytes of all links. -/
noncomputable def bytesLeft (n : ℕ) (net : Net) : ℕ :=
  ∑ a ∈ Finset.Ico (0 : ℤ) n ×ˢ Finset.Ico (0 : ℤ) n, linkBytes net a

/-- The chunks of a local queue without a token. -/
def tokensOwed (man : Ioman (Option ℤ)) : ℕ :=
  (man.view (fun chan => chan.buffQueue.length - chan.pipe) none).getD 0

/-- The tokens that are missing in all local queues. -/
noncomputable def tokensLeft (n : ℕ) (net : Net) : ℕ :=
  ∑ u ∈ Finset.Ico (0 : ℤ) n, tokensOwed (net.node u).man

/-- The places before the chunks, the bytes of the links, and the missing tokens. -/
noncomputable def variant (n : ℕ) (tables : ℤ → OverlayRtable) (s : Forwarding)
    (placed : Placed ChunkPlace (Frame × ℕ)) : ℕ ×ₗ (ℕ ×ₗ ℕ) :=
  toLex (work (itemRoute tables) placed, toLex (bytesLeft n s.net, tokensLeft n s.net))

section Delivery

variable {bo : ByteOrder} {n : ℕ} {adj : ℤ → ℤ → Prop} [∀ u v, Decidable (adj u v)]
  {control : Prop} {tables : ℤ → OverlayRtable} {s s' t : Forwarding} {cap : ℤ → ℤ → ℕ}
  {placed placed' : Placed ChunkPlace (Frame × ℕ)} {u v : ℤ} {net net' : Net}
  {man man' : Ioman (Option ℤ)} {c : Option ℤ} {bytes : List Byte} {chan : Channel (Option ℤ)}

theorem unsentBytes_eq (h : man.heap c = some chan) :
    unsentBytes man c = (chan.buffQueue.flatMap MsgBuff.unsent).length := by
  unfold unsentBytes
  rw [Ioman.view_eq h]
  rfl

theorem unsentBytes_congr (h : man'.heap c = man.heap c) :
    unsentBytes man' c = unsentBytes man c := by
  unfold unsentBytes Ioman.view
  rw [h]

theorem tokensOwed_eq (h : man.heap none = some chan) :
    tokensOwed man = chan.buffQueue.length - chan.pipe := by
  unfold tokensOwed
  rw [Ioman.view_eq h]
  rfl

theorem tokensLeft_congr (h : ∀ x, (net'.node x).man.heap none = (net.node x).man.heap none) :
    tokensLeft n net' = tokensLeft n net := by
  refine Finset.sum_congr rfl fun x _ => ?_
  unfold tokensOwed Ioman.view
  rw [h x]

/-- Everything is where it was: the local channels, and the number of bytes in each socket. -/
structure Still (s s' : Forwarding) : Prop where
  localChan : ∀ u, (s'.net.node u).man.heap none = (s.net.node u).man.heap none
  wire : ∀ u v, (s'.net.wire u v).length = (s.net.wire u v).length

theorem Still.not_moved (h : Still s s') : ¬ SomeMoved s s' := by
  rintro (⟨hchan, hchan', htoken⟩ | hpop | htake | hsend)
  · rw [h.localChan, hchan] at hchan'
    rw [Option.some.inj hchan'] at htoken
    exact lt_irrefl _ htoken
  · unfold Ioman.queueLen Ioman.view at hpop
    rw [h.localChan] at hpop
    exact lt_irrefl _ hpop
  · exact htake.ne (h.wire _ _)
  · exact hsend.ne' (h.wire _ _)

/-- The variant is lower, or it is as before and nothing has moved. -/
def Lowers (n : ℕ) (tables : ℤ → OverlayRtable) (s : Forwarding)
    (placed : Placed ChunkPlace (Frame × ℕ)) (s' : Forwarding)
    (placed' : Placed ChunkPlace (Frame × ℕ)) : Prop :=
  variant n tables s' placed' < variant n tables s placed ∨
    (variant n tables s' placed' = variant n tables s placed ∧ Still s s')

/-- Chunks that move on lower the variant. -/
theorem Lowers.of_advances (h : ForwardInv bo n adj control tables s placed)
    (h' : ForwardInv bo n adj control tables s' placed') (haccepted : s'.accepted = s.accepted)
    (hmoves : Advances tables placed placed') : Lowers n tables s placed s' placed' := by
  refine Or.inl (Prod.Lex.toLex_lt_toLex.2 (Or.inl ?_))
  refine work_lt_of_moves hmoves h.places ?_
  rw [h'.entered, h.entered, haccepted]

/-- Bytes that go on lower the variant, or nothing has moved. -/
theorem Lowers.of_bytes (hlocal : ∀ u, (s'.net.node u).man.heap none = (s.net.node u).man.heap none)
    (hbytes : bytesLeft n s'.net < bytesLeft n s.net ∨ (bytesLeft n s'.net = bytesLeft n s.net ∧
      ∀ u v, (s'.net.wire u v).length = (s.net.wire u v).length)) :
    Lowers n tables s placed s' placed := by
  rcases hbytes with hlt | ⟨heq, hwire⟩
  · refine Or.inl (Prod.Lex.toLex_lt_toLex.2 (Or.inr ⟨rfl, ?_⟩))
    exact Prod.Lex.toLex_lt_toLex.2 (Or.inl hlt)
  · refine Or.inr ⟨?_, hlocal, hwire⟩
    unfold variant
    rw [heq, tokensLeft_congr hlocal]

/-- The bytes of all links become fewer where those of one link do. -/
theorem bytesLeft_link (hu : 0 ≤ u ∧ u < n) (hv : 0 ≤ v ∧ v < n)
    (hothers : ∀ a, a ≠ (u, v) → linkBytes net' a = linkBytes net a)
    (hlink : linkBytes net' (u, v) ≤ linkBytes net (u, v)) :
    bytesLeft n net' < bytesLeft n net ∨ (bytesLeft n net' = bytesLeft n net ∧
      linkBytes net' (u, v) = linkBytes net (u, v)) := by
  have hmem : (u, v) ∈ Finset.Ico (0 : ℤ) n ×ˢ Finset.Ico (0 : ℤ) n :=
    Finset.mem_product.2 ⟨Finset.mem_Ico.2 hu, Finset.mem_Ico.2 hv⟩
  rcases hlink.lt_or_eq with hlt | heq
  · refine Or.inl (Finset.sum_lt_sum (fun a _ => ?_) ⟨(u, v), hmem, hlt⟩)
    by_cases ha : a = (u, v)
    · rw [ha]
      exact hlink
    · exact (hothers a ha).le
  · refine Or.inr ⟨Finset.sum_congr rfl fun a _ => ?_, heq⟩
    by_cases ha : a = (u, v)
    · rw [ha]
      exact heq
    · exact hothers a ha

/-! ### What a write and a read lower -/

/-- The bytes that are sent are in the socket now. -/
theorem linkBytes_sent (hv : (net.node u).man.live (some v))
    (h : PartSent (some v) (net.node u).man bytes man') :
    linkBytes (net.sent u v man' bytes) (u, v) + bytes.length = linkBytes net (u, v) := by
  obtain ⟨chan, hchan⟩ := Ioman.exists_of_live hv
  obtain ⟨chan', hchan', hbytes⟩ := h.queue chan hchan
  have hlen := congrArg List.length hbytes
  rw [List.length_append] at hlen
  have hwire : (net.sent u v man' bytes).wire u v = net.wire u v ++ bytes :=
    Net.setWire_wire_self
  unfold linkBytes
  dsimp only
  rw [sent_man, unsentBytes_eq hchan', unsentBytes_eq hchan, hwire, List.length_append]
  omega

theorem linkBytes_sent_of_ne (h : PartSent (some v) (net.node u).man bytes man') {a : ℤ × ℤ}
    (ha : a ≠ (u, v)) : linkBytes (net.sent u v man' bytes) a = linkBytes net a := by
  obtain ⟨x, y⟩ := a
  have hxy : ¬ (x = u ∧ y = v) := fun he => ha (Prod.ext he.1 he.2)
  have hwire : (net.sent u v man' bytes).wire x y = net.wire x y := Net.setWire_wire_of_ne hxy
  unfold linkBytes
  rw [hwire]
  by_cases hx : x = u
  · subst hx
    have hy : some y ≠ some v := fun he => hxy ⟨rfl, Option.some.inj he⟩
    rw [sent_man, unsentBytes_congr (h.others _ hy)]
  · have hnode : (net.sent u v man' bytes).node x = net.node x := Net.setNode_node_of_ne hx
    rw [hnode]

/-- A write leaves fewer bytes to be sent, or the sockets as they were. -/
theorem bytesLeft_sent (hu : 0 ≤ u ∧ u < n) (hv : 0 ≤ v ∧ v < n)
    (hlive : (net.node u).man.live (some v))
    (h : PartSent (some v) (net.node u).man bytes man') :
    bytesLeft n (net.sent u v man' bytes) < bytesLeft n net ∨
      (bytesLeft n (net.sent u v man' bytes) = bytesLeft n net ∧
        ∀ x y, ((net.sent u v man' bytes).wire x y).length = (net.wire x y).length) := by
  have hlink := linkBytes_sent hlive h
  refine (bytesLeft_link hu hv (fun a ha => linkBytes_sent_of_ne h ha) (by omega)).imp id ?_
  rintro ⟨heq, hsame⟩
  have hnil : bytes = [] := List.length_eq_zero_iff.1 (by omega)
  refine ⟨heq, fun x y => ?_⟩
  subst hnil
  rw [sent_nil]
  rfl

/-- **A write lowers the variant**, or nothing has moved. -/
theorem Lowers.of_sent (hu : 0 ≤ u ∧ u < n) (hv : 0 ≤ v ∧ v < n)
    (hlive : (s.net.node u).man.live (some v))
    (h : PartSent (some v) (s.net.node u).man bytes man') :
    Lowers n tables s placed { s with net := s.net.sent u v man' bytes } placed := by
  refine Lowers.of_bytes (fun x => ?_) (bytesLeft_sent hu hv hlive h)
  dsimp only
  by_cases hx : x = u
  · subst hx
    rw [sent_man]
    exact h.others none nofun
  · have hnode : (s.net.sent u v man' bytes).node x = s.net.node x := Net.setNode_node_of_ne hx
    rw [hnode]

/-- A read takes no bytes of other sockets, and leaves a part of its own. -/
theorem NetRead.wire {now : ℚ} (h : NetRead bo now u v net net') :
    (∀ x y, ¬ (x = v ∧ y = u) → net'.wire x y = net.wire x y) ∧
      (net'.wire v u).length ≤ (net.wire v u).length := by
  obtain ⟨hready, hread⟩ := h
  refine ⟨fun x y hxy => Net.setWire_wire_of_ne hxy, ?_⟩
  obtain ⟨chan, hchan, _⟩ := hready.readable
  obtain ⟨_, _, _, hframe⟩ := iomanProcessChannelRead_script hchan hread
  have hle := iomanReadFrame_le hframe
  rw [recvBytes_dataScript] at hle
  rw [Net.setWire_wire_self, hready.wire, List.length_append, List.length_append]
  exact Nat.add_le_add_right hle _

/-- A read of a part of a frame leaves the queues as they were. -/
theorem PartRead.heap (h : PartRead u v net net') (x : ℤ) (d : Option ℤ)
    (hd : ¬ (x = u ∧ d = some v)) : (net'.node x).man.heap d = (net.node x).man.heap d := by
  obtain ⟨chan, chan', wire, hchan, _, rfl⟩ := h
  by_cases hx : x = u
  · subst hx
    rw [Net.node_changed]
    exact Ioman.heap_put_of_ne fun he => hd ⟨rfl, he⟩
  · rw [Net.setWire_node, Net.setNode_node_of_ne hx]

theorem PartRead.unsentBytes (h : PartRead u v net net') (x y : ℤ) :
    unsentBytes (net'.node x).man (some y) = unsentBytes (net.node x).man (some y) := by
  by_cases hxy : x = u ∧ some y = some v
  · obtain ⟨chan, chan', wire, hchan, hqueue, rfl⟩ := h
    obtain ⟨rfl, hy⟩ := hxy
    rw [hy, Net.node_changed, unsentBytes_eq hchan]
    refine (unsentBytes_eq Ioman.heap_put_self).trans ?_
    rw [hqueue]
  · exact unsentBytes_congr (h.heap x _ hxy)

/-- A read of a part of a frame leaves fewer bytes in the sockets, or the sockets as they were. -/
theorem bytesLeft_partRead {now : ℚ} (hu : 0 ≤ u ∧ u < n) (hv : 0 ≤ v ∧ v < n)
    (hread : NetRead bo now u v net net') (h : PartRead u v net net') :
    bytesLeft n net' < bytesLeft n net ∨ (bytesLeft n net' = bytesLeft n net ∧
      ∀ x y, (net'.wire x y).length = (net.wire x y).length) := by
  obtain ⟨hothers, hle⟩ := hread.wire
  have hlink : linkBytes net' (v, u) ≤ linkBytes net (v, u) := by
    unfold linkBytes
    rw [h.unsentBytes]
    exact Nat.add_le_add_left hle _
  refine (bytesLeft_link hv hu (fun a ha => ?_) hlink).imp id ?_
  · unfold linkBytes
    rw [h.unsentBytes, hothers a.1 a.2 fun he => ha (Prod.ext he.1 he.2)]
  · rintro ⟨heq, hsame⟩
    refine ⟨heq, fun x y => ?_⟩
    by_cases hxy : x = v ∧ y = u
    · obtain ⟨rfl, rfl⟩ := hxy
      unfold linkBytes at hsame
      rw [h.unsentBytes] at hsame
      exact Nat.add_left_cancel hsame
    · exact congrArg List.length (hothers x y hxy)

/-- **A read of a part of a frame lowers the variant**, or nothing has moved. -/
theorem Lowers.of_partRead {now : ℚ} (hu : 0 ≤ u ∧ u < n) (hv : 0 ≤ v ∧ v < n)
    (hread : NetRead bo now u v s.net net') (h : PartRead u v s.net net') :
    Lowers n tables s placed { s with net := net' } placed :=
  Lowers.of_bytes (fun x => h.heap x none fun he => Option.some_ne_none v he.2.symm)
    (bytesLeft_partRead hu hv hread h)

/-! ### What a step lowers -/

/-- A token lowers the variant. -/
theorem Lowers.of_token (hu : 0 ≤ u ∧ u < n) (hchan : (s.net.node u).man.heap none = some chan)
    (hpipe : chan.pipe < chan.buffQueue.length) :
    Lowers n tables s placed
      (s.setMan u ((s.net.node u).man.put none (channelLocalPushToken chan))) placed := by
  have hbytes : bytesLeft n (s.setMan u ((s.net.node u).man.put none
      (channelLocalPushToken chan))).net = bytesLeft n s.net := by
    refine Finset.sum_congr rfl fun a _ => ?_
    have hunsent : unsentBytes (((s.setMan u ((s.net.node u).man.put none
        (channelLocalPushToken chan))).net.node a.1).man) (some a.2) =
          unsentBytes (s.net.node a.1).man (some a.2) := by
      unfold Forwarding.setMan
      dsimp only
      by_cases ha : a.1 = u
      · rw [ha, Net.setNode_node_self]
        exact unsentBytes_congr (Ioman.heap_put_of_ne nofun)
      · rw [Net.setNode_node_of_ne ha]
    unfold linkBytes
    rw [hunsent]
    rfl
  have htokens : tokensLeft n (s.setMan u ((s.net.node u).man.put none
      (channelLocalPushToken chan))).net < tokensLeft n s.net := by
    have howed : tokensOwed (((s.setMan u ((s.net.node u).man.put none
        (channelLocalPushToken chan))).net.node u).man) < tokensOwed (s.net.node u).man := by
      unfold Forwarding.setMan
      dsimp only
      rw [Net.setNode_node_self, tokensOwed_eq hchan]
      refine (tokensOwed_eq Ioman.heap_put_self).trans_lt ?_
      show chan.buffQueue.length - (chan.pipe + 1) < _
      omega
    refine Finset.sum_lt_sum (fun x _ => ?_) ⟨u, Finset.mem_Ico.2 hu, howed⟩
    by_cases hx : x = u
    · rw [hx]
      exact howed.le
    · unfold Forwarding.setMan
      dsimp only
      rw [Net.setNode_node_of_ne hx]
  refine Or.inl (Prod.Lex.toLex_lt_toLex.2 (Or.inr ⟨rfl, ?_⟩))
  exact Prod.Lex.toLex_lt_toLex.2 (Or.inr ⟨hbytes, htokens⟩)

/-- A step that leaves all channels alone. -/
theorem Lowers.of_events (hheap : man'.heap = (s.net.node u).man.heap) :
    Lowers n tables s placed (s.setMan u man') placed := by
  have hman : ∀ x, ((s.setMan u man').net.node x).man.heap = (s.net.node x).man.heap := by
    intro x
    unfold Forwarding.setMan
    dsimp only
    by_cases hx : x = u
    · subst hx
      rw [Net.setNode_node_self]
      exact hheap
    · rw [Net.setNode_node_of_ne hx]
  refine Lowers.of_bytes (fun x => by rw [hman]) (Or.inr ⟨?_, fun _ _ => rfl⟩)
  refine Finset.sum_congr rfl fun a _ => ?_
  unfold linkBytes
  rw [unsentBytes_congr (congrFun (hman a.1) _)]
  rfl

/-- Without messages that are no chunks, the events of the notify pipe leave the channels alone. -/
theorem iomanHandleEvent_heap (h : iomanHandleEvent bo man = Except.ok man')
    (hevents : ∀ e ∈ man.events, e.Plain False) : man'.heap = man.heap := by
  unfold iomanHandleEvent at h
  split at h
  · cases h
  · rename_i event events heq
    rw [heq] at hevents
    rcases hevents event List.mem_cons_self with rfl | ⟨hfalse, _⟩
    · cases h
      rfl
    · exact absurd hfalse id

/-- A step lowers the variant where chunks have moved on. -/
theorem lowers_or_same (h : ForwardInv bo n adj control tables s placed)
    (hmoves : Moves tables placed placed') (h' : ForwardInv bo n adj control tables s' placed')
    (haccepted : s'.accepted = s.accepted) (hsame : Lowers n tables s placed s' placed) :
    Lowers n tables s placed s' placed' := by
  rcases Relation.reflTransGen_iff_eq_or_transGen.1 hmoves with rfl | hmoves
  · exact hsame
  · exact Lowers.of_advances h h' haccepted hmoves

/-- **A quiet step lowers the variant, or leaves everything where it is.** -/
theorem QuietStep.lowers (hstep : QuietStep bo n cap s s') (hn : n ≤ commMaxPeer)
    (hpeers : Peers n adj) (hsimple : TablesSimple n tables)
    (h : ForwardInv bo n adj False tables s placed) :
    ∃ placed', ForwardInv bo n adj False tables s' placed' ∧
      Lowers n tables s placed s' placed' := by
  obtain ⟨hstep, _, haccepted⟩ := hstep
  cases hstep with
  | push hu hok hchan hpush =>
      have hlen := congrArg List.length haccepted
      simp at hlen
  | @token u chan hu hchan hpipe =>
      have hchan' := hchan
      obtain ⟨placed', hmoves, h'⟩ :=
        (ForwardStep.token hu hchan hpipe).refines hn hpeers hsimple h
      refine ⟨placed', h', lowers_or_same h hmoves h' haccepted ?_⟩
      rw [(h.holds.node u hu).localChan] at hchan' ⊢
      exact Lowers.of_token hu hchan' hpipe
  | notify hu =>
      obtain ⟨placed', hmoves, h'⟩ := (ForwardStep.notify hu).refines hn hpeers hsimple h
      exact ⟨placed', h', lowers_or_same h hmoves h' haccepted (Lowers.of_events rfl)⟩
  | event hu hevent =>
      obtain ⟨placed', hmoves, h'⟩ := (ForwardStep.event hu hevent).refines hn hpeers hsimple h
      exact ⟨placed', h', lowers_or_same h hmoves h' haccepted
        (Lowers.of_events (iomanHandleEvent_heap hevent (h.holds.node _ hu).events))⟩
  | io hio =>
      cases hio with
      | localRead hu hchan hready _ hread =>
          obtain ⟨placed', hmoves, h'⟩ := h.localRead hpeers hsimple hu hchan hready hread
          exact ⟨placed', h', Lowers.of_advances h h' haccepted hmoves⟩
      | @read u v now net' hu hread =>
          have hv : adj u v := by
            obtain ⟨hready, _⟩ := hread
            exact (h.holds.node u hu).channels v hready.channel
          obtain ⟨placed', hmoves | ⟨rfl, hpart⟩, h'⟩ := h.read hn hpeers hsimple hu hread
          · exact ⟨placed', h', Lowers.of_advances h h' haccepted hmoves⟩
          · exact ⟨placed', h', Lowers.of_partRead hu (hpeers.range (hpeers.symm hv)) hread
              (hpart.resolve_left id)⟩
      | @write u v sent net' hu hwrite =>
          have hv : adj u v ∧ (s.net.node u).man.live (some v) := by
            obtain ⟨hready, _⟩ := hwrite
            obtain ⟨chan, hchan, _⟩ := hready.writable
            exact ⟨(h.holds.node u hu).channels v hready.channel, Ioman.live_of_heap hchan⟩
          obtain ⟨placed', hmoves | ⟨rfl, man', rfl, hsent⟩, h'⟩ :=
            h.write hpeers hsimple hu hwrite
          · exact ⟨placed', h', Lowers.of_advances h h' haccepted hmoves⟩
          · exact ⟨placed', h', Lowers.of_sent hu (hpeers.range (hpeers.symm hv.1)) hv.2 hsent⟩

/-! ### Runs -/

/-- What holds between two steps: the chunks are in their places, within the bounds. -/
def DeliveryInv (bo : ByteOrder) (n : ℕ) (adj : ℤ → ℤ → Prop) [∀ u v, Decidable (adj u v)]
    (tables : ℤ → OverlayRtable) (cap : ℤ → ℤ → ℕ) (s : Forwarding)
    (placed : Placed ChunkPlace (Frame × ℕ)) : Prop :=
  ForwardInv bo n adj False tables s placed ∧ InBounds n cap s

theorem QuietStep.inBounds (hstep : QuietStep bo n cap s s') (h : InBounds n cap s) :
    InBounds n cap s' :=
  ⟨hstep.sockets, by rw [hstep.accepted]; exact h.others⟩

/-- Quiet steps do not raise the variant. -/
theorem quiet_le (hrun : Relation.ReflTransGen (QuietStep bo n cap) s s') (hn : n ≤ commMaxPeer)
    (hpeers : Peers n adj) (hsimple : TablesSimple n tables)
    (h : DeliveryInv bo n adj tables cap s placed) :
    ∃ placed', DeliveryInv bo n adj tables cap s' placed' ∧
      variant n tables s' placed' ≤ variant n tables s placed := by
  induction hrun with
  | refl => exact ⟨placed, h, le_rfl⟩
  | tail _ hstep ih =>
      obtain ⟨placed₁, ⟨h₁, hbounds⟩, hle⟩ := ih
      obtain ⟨placed', h', hlowers⟩ := hstep.lowers hn hpeers hsimple h₁
      exact ⟨placed', ⟨h', hstep.inBounds hbounds⟩,
        (hlowers.elim (fun hlt => hlt.le) fun hsame => hsame.1.le).trans hle⟩

/-- **Quiet steps that move something lower the variant.** -/
theorem ForwardWork.lowers (hwork : ForwardWork bo n cap s s') (hn : n ≤ commMaxPeer)
    (hpeers : Peers n adj) (hsimple : TablesSimple n tables)
    (h : DeliveryInv bo n adj tables cap s placed) :
    ∃ placed', DeliveryInv bo n adj tables cap s' placed' ∧
      variant n tables s' placed' < variant n tables s placed := by
  obtain ⟨t, hrun, hstep, hmoved⟩ := hwork
  obtain ⟨placed₁, ⟨h₁, hbounds⟩, hle⟩ := quiet_le hrun hn hpeers hsimple h
  obtain ⟨placed', h', hlowers⟩ := hstep.lowers hn hpeers hsimple h₁
  have hlt := hlowers.resolve_right fun hsame => hsame.2.not_moved hmoved
  exact ⟨placed', ⟨h', hstep.inBounds hbounds⟩, hlt.trans_le hle⟩

/-- An I/O thread that can move something takes a busy step. -/
theorem CanMove.work (h : CanMove bo n cap s) : ∃ s', ForwardWork bo n cap s s' := by
  have hquiet : ∀ {s'}, ForwardIoStep bo n s s' → SocketsBounded cap s' → SomeMoved s s' →
      ∃ s', ForwardWork bo n cap s s' := fun {s'} hstep hbounded hmoved =>
    ⟨s', s, Relation.ReflTransGen.refl,
      ⟨ForwardStep.io hstep, hbounded, by cases hstep <;> rfl⟩, hmoved⟩
  cases h with
  | pop hstep hbounded hpop => exact hquiet hstep hbounded (SomeMoved.pop hpop)
  | take hstep hbounded htake => exact hquiet hstep hbounded (SomeMoved.take htake)
  | send hstep hbounded hsend => exact hquiet hstep hbounded (SomeMoved.send hsend)

/-- A call of `channel_local_push_chunk` can return where a token is missing. -/
theorem token_work (h : DeliveryInv bo n adj tables cap s placed) (hu : 0 ≤ u ∧ u < n)
    (hchan : (s.net.node u).man.heap none = some chan)
    (hpipe : chan.pipe < chan.buffQueue.length) : ∃ s', ForwardWork bo n cap s s' := by
  have hlocal := (h.1.holds.node u hu).localChan
  have htoken : chan.pipe < (channelLocalPushToken chan).pipe := Nat.lt_succ_self _
  refine ⟨_, s, Relation.ReflTransGen.refl, ⟨ForwardStep.token hu (by rw [hlocal]; exact hchan)
    hpipe, h.2.sockets, rfl⟩, SomeMoved.token (u := u) hchan ?_ htoken⟩
  unfold Forwarding.setMan
  dsimp only
  rw [Net.setNode_node_self, hlocal]
  exact Ioman.heap_put_self

/-- **Before all chunks are at their destinations, something can move.** -/
theorem arrived_or_work (hn : n ≤ commMaxPeer) (hpeers : Peers n adj)
    (htables : TablesComplete n adj tables)
    (hacyclic : ChannelDependency.Acyclic (ChannelDependency.Dep (tableRoutes n tables)))
    (hcap : ∀ u v, 0 < cap u v) (h : DeliveryInv bo n adj tables cap s placed) :
    (∀ p, ∀ x ∈ placed.held p, ∃ v, p = ChunkPlace.delivered v) ∨
      ∃ s', ForwardWork bo n cap s s' := by
  by_cases hmove : CanMove bo n cap s
  · exact Or.inr hmove.work
  by_cases htoken : ∀ u : ℤ, 0 ≤ u ∧ u < n → ∀ chan, (s.net.node u).man.heap none = some chan →
      chan.buffQueue ≠ [] → 0 < chan.pipe
  · exact Or.inl fun _ _ hx => h.1.delivered_of_no_token hn hpeers htables hacyclic h.2 hcap htoken
      hmove hx
  · push Not at htoken
    obtain ⟨u, hu, chan, hchan, hne, hpipe⟩ := htoken
    have hlen := List.length_pos_iff.2 hne
    exact Or.inr (token_work h hu hchan (by omega))

/-- Before all chunks are delivered, something can move. -/
theorem delivered_or_work (hn : n ≤ commMaxPeer) (hpeers : Peers n adj)
    (htables : TablesComplete n adj tables)
    (hacyclic : ChannelDependency.Acyclic (ChannelDependency.Dep (tableRoutes n tables)))
    (hcap : ∀ u v, 0 < cap u v) (h : DeliveryInv bo n adj tables cap s placed) :
    AllDelivered n s ∨ ∃ s', ForwardWork bo n cap s s' :=
  (arrived_or_work hn hpeers htables hacyclic hcap h).imp (h.1.allDelivered htables.simple) id

/-- Wherever the chunks are, it is inevitable that all of them are delivered. -/
theorem DeliveryInv.delivers (h : DeliveryInv bo n adj tables cap s placed) (hn : n ≤ commMaxPeer)
    (hpeers : Peers n adj) (htables : TablesComplete n adj tables)
    (hacyclic : ChannelDependency.Acyclic (ChannelDependency.Dep (tableRoutes n tables)))
    (hcap : ∀ u v, 0 < cap u v) : Inevitable (ForwardWork bo n cap) (AllDelivered n) s :=
  Inevitable.of_variant (variant n tables)
    (fun _ _ hinv => delivered_or_work hn hpeers htables hacyclic hcap hinv)
    (fun _ _ _ hinv hwork => hwork.lowers hn hpeers htables.simple hinv) h

/-- In every reachable state the chunks are in their places, within the bounds. -/
theorem deliveryReach_inv (hn : n ≤ commMaxPeer) (hpeers : Peers n adj)
    (hsimple : TablesSimple n tables)
    (h : Reach (fun s => ForwardStart bo n adj False tables s ∧ InBounds n cap s)
      (Guarded (ForwardStep bo n) fun _ t => InBounds n cap t) s) :
    ∃ placed, DeliveryInv bo n adj tables cap s placed := by
  have hbounds : InBounds n cap s := Reach.inv (fun _ hs => hs.2) (fun _ _ _ hst => hst.2) h
  obtain ⟨placed, hinv⟩ := forwardReach_inv hn hpeers hsimple
    (h.mono (fun _ hs => hs.1) fun _ _ hst => hst.1)
  exact ⟨placed, hinv, hbounds⟩

/-- **Every chunk is delivered in the end**: once no further chunk is pushed, something can move
before all accepted chunks are delivered, and every run of the other steps in which something moves
again and again gets to a state in which they are. -/
theorem forwarding_delivers (hn : n ≤ commMaxPeer) (hpeers : Peers n adj)
    (htables : TablesComplete n adj tables)
    (hacyclic : ChannelDependency.Acyclic (ChannelDependency.Dep (tableRoutes n tables)))
    (hcap : ∀ u v, 0 < cap u v)
    (h : Reach (fun s => ForwardStart bo n adj False tables s ∧ InBounds n cap s)
      (Guarded (ForwardStep bo n) fun _ t => InBounds n cap t) s) :
    Inevitable (ForwardWork bo n cap) (AllDelivered n) s := by
  obtain ⟨placed, hinv⟩ := deliveryReach_inv hn hpeers htables.simple h
  exact hinv.delivers hn hpeers htables hacyclic hcap

end Delivery

/-! ### Two nodes -/

/-- A chunk has been pushed, whose call has not returned, and no socket has room for more than a
byte. -/
theorem pair_pushed : ∃ s : Forwarding, s.accepted.length = 1 ∧ (s.net.node 1).chunks = [] ∧
    Reach (fun s => ForwardStart ByteOrder.little 2 pairAdj False pairTables s ∧
      InBounds 2 (fun _ _ => 1) s) (Guarded (ForwardStep ByteOrder.little 2) fun _ t =>
        InBounds 2 (fun _ _ => 1) t) s := by
  have hbounds : ∀ s : Forwarding, s.net.wire = pairForwarding.net.wire →
      (∀ f ∈ s.accepted, f = iomanSendChunk 0 1 7 1 0 [42]) → InBounds 2 (fun _ _ => 1) s := by
    intro s hwire haccepted
    refine ⟨fun u v => ?_, fun f hf => ?_⟩
    · rw [hwire]
      exact Nat.zero_le 1
    · rw [haccepted f hf]
      exact ⟨⟨by decide, by decide⟩, by decide⟩
  have hstart : Reach (fun s => ForwardStart ByteOrder.little 2 pairAdj False pairTables s ∧
      InBounds 2 (fun _ _ => 1) s) (Guarded (ForwardStep ByteOrder.little 2) fun _ t =>
        InBounds 2 (fun _ _ => 1) t) pairForwarding :=
    Reach.init ⟨pairForwarding_start False, hbounds _ rfl nofun⟩
  exact ⟨_, rfl, rfl, hstart.step ⟨ForwardStep.push (u := 0) (by decide) pairChunk_ok rfl rfl,
    hbounds _ rfl fun f hf => List.mem_singleton.1 hf⟩⟩

/-- It will be delivered. -/
theorem forwarding_delivers_pair : ∃ s : Forwarding, s.accepted.length = 1 ∧
    (s.net.node 1).chunks = [] ∧
    Inevitable (ForwardWork ByteOrder.little 2 fun _ _ => 1) (AllDelivered 2) s := by
  obtain ⟨s, haccepted, hchunks, hreach⟩ := pair_pushed
  exact ⟨s, haccepted, hchunks, forwarding_delivers (by decide)
    ⟨pairAdj_peers.range, pairAdj_peers.symm, pairAdj_peers.irrefl⟩ pairTables_complete
    pairTables_acyclic (fun _ _ => Nat.one_pos) hreach⟩

end DLFree

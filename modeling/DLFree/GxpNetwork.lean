/-
**A network with the tables of `gxp_router_run`.**

The nodes of a GXP run are linked by the connections of their matrix, and each of them has computed
a routing table.  These tables are what the network needs that forwards chunks: complete tables of
simple paths along the links, with an acyclic dependency graph.

Main definitions:

* `GxpTables` — the tables that all nodes have computed for one overlay;
* `restingForwarding` — the network in which nothing is under way.

Main results:

* `GxpTables.complete`, `GxpTables.acyclic` — **the tables are complete, and free of deadlocks for
  every routing type but `DEADLOCK`**;
* `gxp_network_delivers` — **a network with these tables transports all chunks, and delivers them in
  the end**.
-/

import DLFree.ForwardDelivery
import DLFree.GxpRoutes

set_option relaxedAutoImplicit false
set_option autoImplicit false

namespace DLFree

open FifoPlaces TransitionRun

/-- The nodes `0, …, n - 1` have a simple connected overlay, and a topology that covers it; each of
them has run `gxp_router_run` and computed its table. -/
structure GxpTables (lib : Libc) (xmlTop : XmlTopology) (peerHostnames : ℕ → String) (n : ℕ)
    (connMat : ℕ → ℕ → ℤ) (rttype : GxpRoutingType) (seed : ℤ) (rfp : ℕ → List (ℕ × ℚ))
    (tables : ℤ → OverlayRtable) : Prop where
  overlay : GxpOverlay n connMat
  covers : TopologyCovers xmlTop peerHostnames n connMat
  delivers : rttype = GxpRoutingType.orderedBfs →
    GxpDelivers (gxpWrites xmlTop peerHostnames n connMat) n rfp
  run : ∀ s < n, gxpRouterRun lib xmlTop peerHostnames n connMat rttype seed s (rfp s) =
    Except.ok (tables s)

instance (n : ℕ) (connMat : ℕ → ℕ → ℤ) (u v : ℤ) : Decidable (Linked n connMat u v) :=
  inferInstanceAs (Decidable (∃ i < n, ∃ j < n, u = i ∧ v = j ∧ (_ ∨ _)))

/-! ### A network at rest -/

section Resting

variable (n : ℕ) (adj : ℤ → ℤ → Prop) [∀ u v, Decidable (adj u v)] (tables : ℤ → OverlayRtable)

/-- The peers of a node, in order. -/
def restingPeers (u : ℤ) : List ℤ := ((List.range n).map Int.ofNat).filter fun v => adj u v

/-- A node with all tables and a channel to each peer, in none of which something is under way. -/
def restingNode (u : ℤ) : CommNode (Option ℤ) :=
  let node : CommNode (Option ℤ) := commNodeCreate u none
  { node.setMan { node.man with
      channels := (restingPeers n adj u).map some
      channelMap := fun v => if adj u v then some (some v) else none
      heap := fun c => some (c.elim (channelLocalCreate u) fun v =>
        { channelActiveCreate with peerId := v }) } with
    rts := fun src => some (tables src) }

/-- The network of these nodes. -/
def restingForwarding : Forwarding where
  net := ⟨restingNode n adj tables, fun _ _ => []⟩
  accepted := []

variable {n adj}

theorem mem_restingPeers (hpeers : Peers n adj) {u v : ℤ} :
    v ∈ restingPeers n adj u ↔ adj u v := by
  simp only [restingPeers, List.mem_filter, List.mem_map, List.mem_range, decide_eq_true_eq,
    and_iff_right_iff_imp]
  intro hadj
  have hrange := hpeers.range (hpeers.symm hadj)
  exact ⟨v.toNat, by omega, Int.toNat_of_nonneg hrange.1⟩

theorem restingNode_channelsInv (hpeers : Peers n adj) (u : ℤ) :
    ChannelsInv (restingNode n adj tables u).man := by
  have hroster : (restingNode n adj tables u).man.roster = (restingPeers n adj u).map some :=
    List.append_nil _
  have hmem : ∀ c ∈ (restingNode n adj tables u).man.roster, ∃ v, adj u v ∧ c = some v := by
    intro c hc
    rw [hroster, List.mem_map] at hc
    obtain ⟨v, hv, rfl⟩ := hc
    exact ⟨v, (mem_restingPeers hpeers).1 hv, rfl⟩
  have hmap : ∀ v, (restingNode n adj tables u).man.channelMap v =
      if adj u v then some (some v) else none := fun _ => rfl
  refine ⟨?_, fun c _ => rfl, rfl, fun hc => ?_, fun pid c hc => ?_, fun c hc pid hpid _ => ?_⟩
  · rw [hroster]
    refine List.Nodup.map (Option.some_injective ℤ) (List.Nodup.filter _ ?_)
    exact List.Nodup.map Int.ofNat_injective List.nodup_range
  · obtain ⟨v, _, hv⟩ := hmem _ hc
    cases hv
  · rw [hmap] at hc
    split at hc
    · rename_i hadj
      obtain rfl := Option.some.inj hc
      have hrange := hpeers.range (hpeers.symm hadj)
      refine ⟨?_, by unfold channelPeerUnknown; omega, rfl⟩
      exact List.mem_map_of_mem ((mem_restingPeers hpeers).2 hadj)
    · cases hc
  · obtain ⟨v, hadj, rfl⟩ := hmem c hc
    obtain rfl : v = pid := Option.some.inj hpid
    rw [hmap, if_pos hadj]

/-- No chunk is under way in the network at rest. -/
theorem restingForwarding_start (bo : ByteOrder) (control : Prop) (hpeers : Peers n adj) :
    ForwardStart bo n adj control tables (restingForwarding n adj tables) where
  node u hu := by
    refine ⟨rfl, rfl, rfl, fun _ => rfl, fun v hv => ?_, restingNode_channelsInv tables hpeers u,
      fun _ he => absurd he List.not_mem_nil, fun _ _ => rfl⟩
    obtain ⟨v', hv', heq⟩ := List.mem_map.1 hv
    exact Option.some.inj heq ▸ (mem_restingPeers hpeers).1 hv'
  idle u hu c chan hchan := by
    cases c <;> cases hchan <;> exact ⟨rfl, rfl⟩
  source u hu := ⟨_, rfl, rfl, rfl⟩
  link u v huv := ⟨_, _, [], rfl, rfl, LinkOk.idle nofun rfl rfl, ⟨nofun, nofun⟩, nofun⟩
  chunks _ _ := rfl
  accepted := rfl

end Resting

/-! ### The tables -/

section Tables

variable {lib : Libc} {xmlTop : XmlTopology} {peerHostnames : ℕ → String} {n : ℕ}
  {connMat : ℕ → ℕ → ℤ} {rttype : GxpRoutingType} {seed : ℤ} {rfp : ℕ → List (ℕ × ℚ)}
  {tables : ℤ → OverlayRtable}

/-- An entry that is found is one of those of the table. -/
theorem overlayRtableGetEntry_cases {rt : OverlayRtable} {dst : ℤ} {entry : OverlayRtableEntry}
    (h : overlayRtableGetEntry rt dst = Except.ok (some entry)) :
    0 ≤ dst ∧ rt.entries[dst.toNat]? = some (some entry) := by
  unfold overlayRtableGetEntry at h
  split at h
  · cases h
  · rename_i hpos
    split at h
    · cases h
    · rename_i heq
      rw [heq, Except.ok.inj h]
      exact ⟨not_lt.1 hpos, rfl⟩

/-- The linked hosts are peers of each other. -/
theorem linked_peers (hover : GxpOverlay n connMat) : Peers n (Linked n connMat) where
  range := by
    rintro u v ⟨i, hi, j, _, rfl, _, _⟩
    omega
  symm := by
    rintro u v ⟨i, hi, j, hj, hu, hv, hne⟩
    exact ⟨j, hj, i, hi, hv, hu, hne.symm⟩
  irrefl := by
    rintro u ⟨i, hi, j, hj, hu, hv, hne⟩
    obtain rfl : i = j := by omega
    have hself := hover.self i hi
    exact hne.elim (fun h => h hself) fun h => h hself

/-- What one of the nodes has computed. -/
theorem GxpTables.routes
    (h : GxpTables lib xmlTop peerHostnames n connMat rttype seed rfp tables) (hn : 0 < n) :
    ∃ g links, BuiltFrom xmlTop peerHostnames n connMat (linkPairs n connMat) g ∧
      (links.map RouterGraphLink.conn).Perm g.conns ∧ ∀ s < n, RoutesOk links n s (tables s) := by
  rcases gxpRouterRun_cases lib h.overlay hn seed h.delivers with
    ⟨_, g, links, _, hb, hconns, _, hrun⟩ | ⟨hcover, _⟩
  · refine ⟨g, links, hb, hconns, fun s hs => ?_⟩
    obtain ⟨rt, hrt, hroutes⟩ := hrun s hs
    obtain rfl := Except.ok.inj (hrt.symm.trans (h.run s hs))
    exact hroutes
  · exact absurd h.covers hcover

/-- **The tables are complete**: each has a simple path along the links to every other host. -/
theorem GxpTables.complete
    (h : GxpTables lib xmlTop peerHostnames n connMat rttype seed rfp tables) :
    TablesComplete n (Linked n connMat) tables := by
  have hroute : ∀ src : ℤ, 0 ≤ src ∧ src < n → ∀ dst entry,
      overlayRtableGetEntry (tables src) dst = Except.ok (some entry) →
        ∃ s d : ℕ, src = s ∧ dst = d ∧ GxpRouteTo n connMat s d (tables src) entry := by
    intro src hsrc dst entry hentry
    obtain ⟨s, rfl⟩ := Int.eq_ofNat_of_zero_le hsrc.1
    obtain ⟨g, links, hb, hconns, hroutes⟩ := h.routes (by omega)
    have hroutes := hroutes s (by omega)
    obtain ⟨hpos, hget⟩ := overlayRtableGetEntry_cases hentry
    obtain ⟨d, rfl⟩ := Int.eq_ofNat_of_zero_le hpos
    have hlt := (List.getElem?_eq_some_iff.1 hget).1
    rw [hroutes.size, Int.toNat_natCast] at hlt
    have hne : d ≠ s := by
      rintro rfl
      cases hroutes.own _ hget
    obtain ⟨entry', hto⟩ := hroutes.routeTo hb hconns hlt hne
    obtain rfl : entry' = entry := by
      have hget' := hto.get
      rw [hentry] at hget'
      exact (Option.some.inj (Except.ok.inj hget')).symm
    exact ⟨s, d, rfl, rfl, hto⟩
  refine ⟨fun src hsrc dst entry hentry => ?_, fun src dst hsrc hdst hne => ?_,
    fun src hsrc dst entry hentry => ?_⟩
  · obtain ⟨s, d, rfl, rfl, hto⟩ := hroute src hsrc dst entry hentry
    exact ⟨hto.nodup, hto.head, hto.last⟩
  · obtain ⟨s, rfl⟩ := Int.eq_ofNat_of_zero_le hsrc.1
    obtain ⟨d, rfl⟩ := Int.eq_ofNat_of_zero_le hdst.1
    obtain ⟨g, links, hb, hconns, hroutes⟩ := h.routes (by omega)
    obtain ⟨entry, hto⟩ := (hroutes s (by omega)).routeTo hb hconns
      (show d < n by omega) (by omega)
    exact ⟨entry, hto.get⟩
  · obtain ⟨s, d, rfl, rfl, hto⟩ := hroute src hsrc dst entry hentry
    exact hto.linked

/-- **The tables are free of deadlocks** for every routing type but `DEADLOCK`. -/
theorem GxpTables.acyclic
    (h : GxpTables lib xmlTop peerHostnames n connMat rttype seed rfp tables)
    (htype : rttype ≠ GxpRoutingType.deadlock) :
    ChannelDependency.Acyclic (ChannelDependency.Dep (tableRoutes n tables)) := by
  rcases Nat.eq_zero_or_pos n with rfl | hn
  · refine ChannelDependency.acyclic_of_false ?_
    rintro a b ⟨_, _, ⟨src, _, _, hsrc, _⟩, _⟩
    omega
  rcases gxpRouterRun_cases lib h.overlay hn seed h.delivers with
    ⟨_, g, links, hg, _, hconns, hfree, hrun⟩ | ⟨hcover, _⟩
  · refine (levelRoutes_acyclic (simple_of_conns hg hconns) (hfree htype)).mono ?_
    rintro a b ⟨hab, path, ⟨src, dst, entry, hsrc, hentry, rfl⟩, hin⟩
    obtain ⟨s, rfl⟩ := Int.eq_ofNat_of_zero_le hsrc.1
    obtain ⟨rt, hrt, hroutes⟩ := hrun s (by omega)
    obtain rfl := Except.ok.inj (hrt.symm.trans (h.run s (by omega)))
    have hmem := List.mem_of_getElem? (overlayRtableGetEntry_cases hentry).2
    exact ⟨hab, entry.path, hroutes.path_mem hmem, hin⟩
  · exact absurd h.covers hcover

variable {bo : ByteOrder} {s : Forwarding} {cap : ℤ → ℤ → ℕ}

end Tables

/-! ### A triangle -/

/-- All hosts of a triangle have computed their tables. -/
theorem triangle_tables : ∃ tables, GxpTables (Libc.insertion fun _ i => i) wideTopology toString 3
    triangleMat GxpRoutingType.orderedBfs 7
    (gxpPipe (gxpWrites wideTopology toString 3 triangleMat) 3) tables := by
  have hdelivers := fun _ : GxpRoutingType.orderedBfs = GxpRoutingType.orderedBfs =>
    gxpPipe_delivers (gxpWrites wideTopology toString 3 triangleMat) 3
  have hcovers : TopologyCovers wideTopology toString 3 triangleMat :=
    fun _ _ => ⟨1, 1, rfl, one_pos⟩
  rcases gxpRouterRun_cases (Libc.insertion fun _ i => i) triangle_overlay (by decide) 7
    hdelivers with ⟨_, _, _, _, _, _, _, hrun⟩ | ⟨hcover, _⟩
  · choose tables htables _ using hrun
    refine ⟨fun u => if h : u.toNat < 3 then tables u.toNat h else ⟨0, []⟩, triangle_overlay,
      hcovers, hdelivers, fun s hs => ?_⟩
    rw [htables s hs]
    simp [hs]
  · exact absurd hcovers hcover

/-- A chunk of one byte for the node 2. -/
theorem triangleChunk_ok : (iomanSendChunk 0 2 7 1 0 [42]).Ok :=
  ⟨⟨by decide, by decide, by decide, by decide, by decide, by decide⟩, rfl, by decide,
    fun _ => ⟨by decide, by decide⟩⟩

end DLFree

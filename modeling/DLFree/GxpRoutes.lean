/-
**The routes of the nodes of a GXP run.**

All nodes run `gxp_router_run` on the same matrix, names, topology and seed.  For every simple
connected overlay they all give the links the same levels, so either every node fails the assertion
that the topology knows a link with a positive width, or every node computes a table of routes over
these levels.

Main definitions:

* `gxpRoutes` — the paths in the tables of all nodes;
* `Linked` — two hosts with a round-trip time in the matrix.

Main results:

* `gxpRouterRun_cases` — what the nodes compute;
* `gxpRoutes_acyclic` — **the routes of all nodes have an acyclic dependency graph**;
* `gxpRouterRun_complete` — **every table has a simple route to every host, and forwarding follows
  it**.
-/

import DLFree.GxpRouter
import DLFree.Routes

set_option relaxedAutoImplicit false
set_option autoImplicit false

namespace DLFree

/-- The paths in the tables that the nodes compute; the node `s` reads `rfp s` from the pipe. -/
def gxpRoutes (lib : Libc) (xmlTop : XmlTopology) (peerHostnames : ℕ → String) (n : ℕ)
    (connMat : ℕ → ℕ → ℤ) (rttype : GxpRoutingType) (seed : ℤ) (rfp : ℕ → List (ℕ × ℚ)) :
    Set (List ℤ) :=
  {path | ∃ s < n, ∃ rt entry,
    gxpRouterRun lib xmlTop peerHostnames n connMat rttype seed s (rfp s) = Except.ok rt ∧
      some entry ∈ rt.entries ∧ entry.path = path}

/-- Two hosts with a round-trip time in the matrix. -/
def Linked (n : ℕ) (connMat : ℕ → ℕ → ℤ) (u v : ℤ) : Prop :=
  ∃ i < n, ∃ j < n, u = i ∧ v = j ∧ (connMat i j ≠ gxpNoRtt ∨ connMat j i ≠ gxpNoRtt)

/-! ### An overlay -/

/-- A matrix in which all hosts are linked by connections of length 1. -/
def triangleMat (i j : ℕ) : ℤ := if i < j then 1 else gxpNoRtt

/-- A topology in which all hosts are joined by wires of width 1. -/
def wideTopology : XmlTopology := fun _ _ => some (1, 1)

/-- A pipe that hands the lines of all nodes to every node in the order of the nodes. -/
def gxpPipe (written : ℕ → Except Abort (ℕ × ℚ)) (n : ℕ) (_ : ℕ) : List (ℕ × ℚ) :=
  (List.range n).filterMap fun i => (written i).toOption

theorem gxpPipe_delivers (written : ℕ → Except Abort (ℕ × ℚ)) (n : ℕ) :
    GxpDelivers written n (gxpPipe written n) := by
  intro lines hlines s _
  refine List.Perm.of_eq ?_
  rw [gxpPipe, ← List.filterMap_eq_map]
  refine List.filterMap_congr fun i hi => ?_
  rw [hlines i (List.mem_range.1 hi)]
  rfl

theorem triangle_overlay : GxpOverlay 3 triangleMat where
  self i _ := by simp [triangleMat]
  one i _ j _ h := by
    have hij : i < j := by
      by_contra hle
      exact h (if_neg hle)
    rw [triangleMat, if_neg (by omega)]
  pos i _ j _ h := by
    have hij : i < j := by
      by_contra hle
      exact h (if_neg hle)
    rw [triangleMat, if_pos hij]
    exact one_pos
  short := by
    have hpairs : linkPairs 3 triangleMat = [(0, 1), (0, 2), (1, 2)] := by decide
    norm_num [hpairs, triangleMat, maxDijkstraDist]
  connected u hu v hv := by
    have hadj : ∀ i j, i < j → j < 3 → (LinkGraph.graph (linkPairs 3 triangleMat)).Adj i j := by
      intro i j hij hj
      refine LinkGraph.adj_iff.2 ⟨hij.ne, Or.inl (mem_linkPairs.2 ⟨⟨by omega, hj⟩, ?_⟩)⟩
      simp [triangleMat, hij, gxpNoRtt]
    rcases lt_trichotomy u v with h | rfl | h
    · exact (hadj u v h hv).reachable
    · exact SimpleGraph.Reachable.refl u
    · exact (hadj v u h hu).reachable.symm

section Run

variable {xmlTop : XmlTopology} {peerHostnames : ℕ → String} {n : ℕ} {connMat : ℕ → ℕ → ℤ}
  {rttype : GxpRoutingType} {rfp : ℕ → List (ℕ × ℚ)}

/-- The topology covers the matrix exactly when the graph is built with positive widths. -/
theorem topologyCovers_iff {g : OverlayGraph}
    (hb : BuiltFrom xmlTop peerHostnames n connMat (linkPairs n connMat) g) :
    TopologyCovers xmlTop peerHostnames n connMat ↔ ∀ e ∈ g.conns, 0 < e.width := by
  constructor
  · intro hcover e he
    have hmem : (e.n0, e.n1) ∈ linkPairs n connMat := hb.ends ▸ List.mem_map_of_mem he
    obtain ⟨len, width, hx, hpos⟩ := hcover _ hmem
    obtain ⟨len', hx'⟩ := hb.width e he
    rw [hx'] at hx
    simp only [Option.some.injEq, Prod.mk.injEq] at hx
    rw [hx.2]
    exact hpos
  · intro hpos p hp
    rw [← hb.ends] at hp
    obtain ⟨e, he, rfl⟩ := List.mem_map.1 hp
    obtain ⟨len, hx⟩ := hb.width e he
    exact ⟨len, e.width, hx, hpos e he⟩

/-- All nodes choose the same levels, once the pipe has delivered the distances. -/
theorem gxpSptrees_agree (lib : Libc) {g : OverlayGraph} (hg : g.Simple n) (hconn : g.Connected n)
    (hpos : ∀ e ∈ g.conns, 0 < e.len) (htotal : g.totalLen < maxDijkstraDist)
    (hwidth : ∀ e ∈ g.conns, 0 < e.width)
    (hbuild : gxpBuildGraph xmlTop peerHostnames n connMat = Except.ok g) (hn : 0 < n) (seed : ℤ)
    (hpipe : rttype = GxpRoutingType.orderedBfs →
      GxpDelivers (gxpWrites xmlTop peerHostnames n connMat) n rfp) :
    ∃ levels links, (∀ s < n, gxpSptrees lib g n s rttype seed (rfp s) =
        Except.ok (levels, links)) ∧ SptreesOk g n levels links ∧
      (rttype ≠ GxpRoutingType.deadlock → LevelsDeadlockFree links) := by
  by_cases hbfs : rttype = GxpRoutingType.orderedBfs
  · subst hbfs
    have havg : ∀ s < n, ∃ avgdist, shortestAvgdist g s = Except.ok avgdist := fun s hs =>
      shortestAvgdist_ok hg hconn hpos htotal hwidth hs
    choose! avgdist havg using havg
    have hwrites : ∀ i < n, gxpWrites xmlTop peerHostnames n connMat i =
        Except.ok (i, printfRound (avgdist i)) := by
      intro i hi
      simp only [gxpWrites, hbuild, havg i hi, bind, Except.bind]
    obtain ⟨levels, links, hrun, hconns, hfree, hcomplete⟩ := routerGraphMakeBfsSpanningTrees_spec
      lib hg hconn (fun i => if i < n then printfRound (avgdist i) else 0) seed
    refine ⟨levels, links, fun s hs => ?_, ⟨List.Perm.of_eq hconns, hcomplete⟩, fun _ => hfree⟩
    have hread := gxpReadAvgdist_spec (fun i => (i, printfRound (avgdist i))) (fun _ _ => rfl)
      (hpipe rfl _ hwrites s hs)
    simp only [gxpSptrees, havg s hs, hread, bind, Except.bind, hrun]
  · obtain ⟨levels, links, hrun, hok, hfree⟩ := gxpSptrees_spec lib hg hconn hn rttype hbfs seed
    exact ⟨levels, links, fun s _ => hrun s (rfp s), hok, hfree⟩

/-- A link without width fails an assertion, whatever the routing type. -/
theorem gxpRouterRun_error (lib : Libc) {g : OverlayGraph} (hg : g.Simple n)
    (hconn : g.Connected n) (hwidth : ¬ ∀ e ∈ g.conns, 0 < e.width)
    (hbuild : gxpBuildGraph xmlTop peerHostnames n connMat = Except.ok g) (hn : 0 < n) (seed : ℤ)
    (s : ℕ) (lines : List (ℕ × ℚ)) :
    gxpRouterRun lib xmlTop peerHostnames n connMat rttype seed s lines =
      Except.error Abort.assertion := by
  by_cases hbfs : rttype = GxpRoutingType.orderedBfs
  · subst hbfs
    simp only [gxpRouterRun, hbuild, gxpSptrees, shortestAvgdist_error hconn hwidth, bind,
      Except.bind]
  · obtain ⟨levels, links, hrun, hok, _⟩ := gxpSptrees_spec lib hg hconn hn rttype hbfs seed
    simp only [gxpRouterRun, hbuild, hrun, leveledDijkstraRun_error hok.conns hwidth, bind,
      Except.bind]

/-- **What the nodes compute**: tables of routes over common levels when the topology covers the
matrix, and a failed assertion otherwise. -/
theorem gxpRouterRun_cases (lib : Libc) (hover : GxpOverlay n connMat) (hn : 0 < n) (seed : ℤ)
    (hpipe : rttype = GxpRoutingType.orderedBfs →
      GxpDelivers (gxpWrites xmlTop peerHostnames n connMat) n rfp) :
    (TopologyCovers xmlTop peerHostnames n connMat ∧ ∃ g links,
      g.Simple n ∧ BuiltFrom xmlTop peerHostnames n connMat (linkPairs n connMat) g ∧
      (links.map RouterGraphLink.conn).Perm g.conns ∧
      (rttype ≠ GxpRoutingType.deadlock → LevelsDeadlockFree links) ∧
      ∀ s < n, ∃ rt, gxpRouterRun lib xmlTop peerHostnames n connMat rttype seed s (rfp s) =
        Except.ok rt ∧ RoutesOk links n s rt) ∨
    (¬ TopologyCovers xmlTop peerHostnames n connMat ∧ ∀ s,
      gxpRouterRun lib xmlTop peerHostnames n connMat rttype seed s (rfp s) =
        Except.error Abort.assertion) := by
  rcases gxpAddConns_cases (linkPairs n connMat) (gxpAddNodes n peerHostnames) with
    ⟨g, hbuild, _⟩ | ⟨hbuild, p, hp, hnone⟩
  · obtain ⟨hg, hconn, hpos, htotal, hb⟩ := gxpBuildGraph_spec hover hbuild
    by_cases hwidth : ∀ e ∈ g.conns, 0 < e.width
    · obtain ⟨levels, links, hrun, hok, hfree⟩ := gxpSptrees_agree lib hg hconn hpos htotal hwidth
        hbuild hn seed hpipe
      refine Or.inl ⟨(topologyCovers_iff hb).2 hwidth, g, links, hg, hb, hok.conns, hfree,
        fun s hs => ?_⟩
      obtain ⟨rt, hrt, hroutes⟩ := leveledDijkstraRun_spec hg.length_hosts hg hok.conns hwidth
        hpos htotal hok.complete hs
      refine ⟨rt, ?_, hroutes⟩
      have hbuild' : gxpBuildGraph xmlTop peerHostnames n connMat = Except.ok g := hbuild
      simp only [gxpRouterRun, hbuild', hrun s hs, hrt, bind, Except.bind]
    · exact Or.inr ⟨fun h => hwidth ((topologyCovers_iff hb).1 h), fun s =>
        gxpRouterRun_error lib hg hconn hwidth hbuild hn seed s (rfp s)⟩
  · refine Or.inr ⟨fun h => ?_, fun s => ?_⟩
    · obtain ⟨len, width, hx, _⟩ := h p hp
      rw [hnone] at hx
      cases hx
    · have hbuild' : gxpBuildGraph xmlTop peerHostnames n connMat =
          Except.error Abort.assertion := hbuild
      simp only [gxpRouterRun, hbuild', bind, Except.bind]

/-- **Deadlock-free routing**: for every simple connected overlay and every routing type but
`DEADLOCK`, the channel dependency graph of the tables of all nodes has no directed cycle. -/
theorem gxpRoutes_acyclic (lib : Libc) (xmlTop : XmlTopology) (peerHostnames : ℕ → String)
    (hover : GxpOverlay n connMat) (htype : rttype ≠ GxpRoutingType.deadlock) (seed : ℤ)
    (hpipe : rttype = GxpRoutingType.orderedBfs →
      GxpDelivers (gxpWrites xmlTop peerHostnames n connMat) n rfp) :
    ChannelDependency.Acyclic (ChannelDependency.Dep
      (gxpRoutes lib xmlTop peerHostnames n connMat rttype seed rfp)) := by
  have hempty : (∀ path, path ∉ gxpRoutes lib xmlTop peerHostnames n connMat rttype seed rfp) →
      ChannelDependency.Acyclic (ChannelDependency.Dep
        (gxpRoutes lib xmlTop peerHostnames n connMat rttype seed rfp)) := by
    intro hno
    refine ChannelDependency.acyclic_of_false ?_
    rintro a b ⟨_, p, hp, _⟩
    exact hno p hp
  rcases Nat.eq_zero_or_pos n with rfl | hn
  · refine hempty ?_
    rintro path ⟨s, hs, _⟩
    exact absurd hs (Nat.not_lt_zero s)
  rcases gxpRouterRun_cases lib hover hn seed hpipe with
    ⟨_, g, links, hg, _, hconns, hfree, hrun⟩ | ⟨_, hrun⟩
  · refine (levelRoutes_acyclic (simple_of_conns hg hconns) (hfree htype)).mono ?_
    rintro a b ⟨hab, path, ⟨s, hs, rt, entry, hrt, hmem, rfl⟩, hin⟩
    obtain ⟨rt', hrt', hroutes⟩ := hrun s hs
    obtain rfl : rt = rt' := by
      rw [hrt] at hrt'
      simpa using hrt'
    exact ⟨hab, entry.path, hroutes.path_mem hmem, hin⟩
  · refine hempty ?_
    rintro path ⟨s, hs, rt, entry, hrt, _⟩
    rw [hrun s] at hrt
    cases hrt

/-- In a triangle with the links of every run of the breadth-first ordering. -/
theorem gxpRoutes_acyclic_triangle :
    ChannelDependency.Acyclic (ChannelDependency.Dep
      (gxpRoutes (Libc.insertion fun _ i => i) wideTopology toString 3 triangleMat
        GxpRoutingType.orderedBfs 7
        (gxpPipe (gxpWrites wideTopology toString 3 triangleMat) 3))) :=
  gxpRoutes_acyclic _ _ _ triangle_overlay (by decide) 7 fun _ => gxpPipe_delivers _ _

/-- The connections of the graph are the linked pairs of the matrix. -/
theorem linked_of_linkLevel {g : OverlayGraph} {links : List RouterGraphLink}
    (hb : BuiltFrom xmlTop peerHostnames n connMat (linkPairs n connMat) g)
    (hconns : (links.map RouterGraphLink.conn).Perm g.conns) {u v : ℕ} {k : ℤ}
    (h : LinkLevel links u v k) : Linked n connMat u v := by
  obtain ⟨link, hl, h⟩ := h
  have hmem : (link.conn.n0, link.conn.n1) ∈ linkPairs n connMat :=
    hb.ends ▸ List.mem_map_of_mem (hconns.subset (List.mem_map_of_mem hl))
  obtain ⟨⟨h0, h1⟩, hne⟩ := mem_linkPairs.1 hmem
  rcases h with ⟨rfl, rfl, _⟩ | ⟨rfl, rfl, _⟩
  · exact ⟨_, h0, _, h1, rfl, rfl, Or.inl hne⟩
  · exact ⟨_, h1, _, h0, rfl, rfl, Or.inr hne⟩

/-- What the table of `s` says about `dst`, and what forwarding makes of it: `rts v` are the tables
of the node `v`. -/
structure GxpRouteTo (n : ℕ) (connMat : ℕ → ℕ → ℤ) (s dst : ℕ) (rt : OverlayRtable)
    (entry : OverlayRtableEntry) : Prop where
  get : overlayRtableGetEntry rt dst = Except.ok (some entry)
  head : entry.path.head? = some (s : ℤ)
  last : entry.path.getLast? = some (dst : ℤ)
  nodup : entry.path.Nodup
  hops : entry.hops ≤ n - 1
  linked : ∀ u v, [u, v] <:+: entry.path → Linked n connMat u v
  lookup : ∀ rts : ℤ → ℤ → Option OverlayRtable, (∀ v ∈ entry.path, rts v s = some rt) →
    ∀ u v, [u, v] <:+: entry.path →
      commNodeLookupRt u (rts u) s dst = Except.ok v ∧ v ≠ -1 ∧ Linked n connMat u v
  forward : ∀ rts : ℤ → ℤ → Option OverlayRtable, (∀ v ∈ entry.path, rts v s = some rt) →
    forward rts s dst entry.hops.toNat s = Except.ok entry.path

/-- A table of routes has all of this. -/
theorem RoutesOk.routeTo {g : OverlayGraph} {links : List RouterGraphLink} {s dst : ℕ}
    {rt : OverlayRtable}
    (hb : BuiltFrom xmlTop peerHostnames n connMat (linkPairs n connMat) g)
    (hconns : (links.map RouterGraphLink.conn).Perm g.conns) (h : RoutesOk links n s rt)
    (hdst : dst < n) (hne : dst ≠ s) :
    ∃ entry, GxpRouteTo n connMat s dst rt entry := by
  obtain ⟨entry, p, hget, _, hpath, hroute⟩ := h.entry dst hdst hne
  have hgetEntry : overlayRtableGetEntry rt dst = Except.ok (some entry) := by
    have hpos : ¬ (dst : ℤ) < 0 := by omega
    simp only [overlayRtableGetEntry, if_neg hpos, Int.toNat_natCast, hget]
  have hhead : entry.path.head? = some (s : ℤ) := by
    rw [hpath, List.head?_map, hroute.head]
    rfl
  have hnodup : entry.path.Nodup := by
    rw [hpath]
    exact hroute.nodup.map Int.ofNat_injective
  have hlink : ∀ u v, [u, v] <:+: entry.path → Linked n connMat u v := by
    intro u v huv
    rw [hpath, List.infix_map_iff] at huv
    obtain ⟨q, hq, hqe⟩ := huv
    obtain ⟨a, _, rfl, rfl, htail⟩ := List.map_eq_cons_iff.1 hqe.symm
    obtain ⟨b, _, rfl, rfl, hnil⟩ := List.map_eq_cons_iff.1 htail
    obtain rfl := List.map_eq_nil_iff.1 hnil
    obtain ⟨k, _, hk⟩ := hroute.link a b hq
    exact linked_of_linkLevel hb hconns hk
  refine ⟨entry, hgetEntry, hhead, ?_, hnodup, ?_, hlink, ?_, ?_⟩
  · rw [hpath, List.getLast?_map, hroute.last]
    rfl
  · -- the nodes of a simple path are among the hosts
    have hlt : ∀ v ∈ p, v < n := by
      intro v hv
      obtain ⟨i, hi, rfl⟩ := List.getElem_of_mem hv
      have hlast : p.length - 1 < p.length := by omega
      by_cases hend : i = p.length - 1
      · subst hend
        have hlast := hroute.last
        rw [List.getLast?_eq_getElem?, List.getElem?_eq_getElem hi, Option.some.injEq] at hlast
        rw [hlast]
        exact hdst
      · have hin : [p[i], p[i + 1]] <:+: p := by
          refine ⟨p.take i, p.drop (i + 2), ?_⟩
          rw [List.append_assoc, List.cons_append, List.singleton_append,
            List.getElem_cons_drop, List.getElem_cons_drop, List.take_append_drop]
        obtain ⟨k, _, hk⟩ := hroute.link _ _ hin
        obtain ⟨a, ha, _, _, hau, _⟩ := linked_of_linkLevel hb hconns hk
        omega
    have hle : p.length ≤ n := by
      have hsub : p.toFinset ⊆ Finset.range n := fun v hv =>
        Finset.mem_range.2 (hlt v (List.mem_toFinset.1 hv))
      have hcard := Finset.card_le_card hsub
      rwa [List.toFinset_card_of_nodup hroute.nodup, Finset.card_range] at hcard
    rw [OverlayRtableEntry.hops, hpath, List.length_map]
    omega
  · intro rts hrts u v huv
    refine ⟨lookup_of_mem_path hrts hgetEntry hnodup huv, ?_, hlink u v huv⟩
    obtain ⟨_, _, j, _, _, rfl, _⟩ := hlink u v huv
    omega
  · exact fun rts hrts => forward_eq hrts hgetEntry hnodup hhead

/-- **Complete routes and hop-by-hop forwarding**, for every routing type: either the topology
covers the matrix and the node computes a table with a simple route to every other host, which
forwarding follows; or it does not, and the node fails an assertion. -/
theorem gxpRouterRun_complete (lib : Libc) (xmlTop : XmlTopology) (peerHostnames : ℕ → String)
    (rttype : GxpRoutingType) (hover : GxpOverlay n connMat) (seed : ℤ)
    (hpipe : rttype = GxpRoutingType.orderedBfs →
      GxpDelivers (gxpWrites xmlTop peerHostnames n connMat) n rfp) {s : ℕ} (hs : s < n) :
    (TopologyCovers xmlTop peerHostnames n connMat → ∃ rt,
      gxpRouterRun lib xmlTop peerHostnames n connMat rttype seed s (rfp s) = Except.ok rt ∧
      rt.srcpid = s ∧ rt.entries.length = n ∧
      ∀ dst < n, dst ≠ s → ∃ entry, GxpRouteTo n connMat s dst rt entry) ∧
    (¬ TopologyCovers xmlTop peerHostnames n connMat →
      gxpRouterRun lib xmlTop peerHostnames n connMat rttype seed s (rfp s) =
        Except.error Abort.assertion) := by
  have hn : 0 < n := by omega
  rcases gxpRouterRun_cases lib hover hn seed hpipe with
    ⟨hcover, g, links, _, hb, hconns, _, hrun⟩ | ⟨hcover, hrun⟩
  · refine ⟨fun _ => ?_, fun h => absurd hcover h⟩
    obtain ⟨rt, hrt, hroutes⟩ := hrun s hs
    exact ⟨rt, hrt, hroutes.srcpid, hroutes.size, fun dst hdst hne =>
      hroutes.routeTo hb hconns hdst hne⟩
  · exact ⟨fun h => absurd h hcover, fun _ => hrun s⟩

/-- In a triangle, with the routing type that is not deadlock-free. -/
theorem gxpRouterRun_complete_triangle :
    ∃ rt, gxpRouterRun (Libc.insertion fun _ i => i) wideTopology toString 3 triangleMat
        GxpRoutingType.deadlock 7 1
        (gxpPipe (gxpWrites wideTopology toString 3 triangleMat) 3 1) = Except.ok rt ∧
      rt.srcpid = 1 ∧ rt.entries.length = 3 ∧
      ∀ dst < 3, dst ≠ 1 → ∃ entry, GxpRouteTo 3 triangleMat 1 dst rt entry :=
  (gxpRouterRun_complete _ wideTopology toString GxpRoutingType.deadlock triangle_overlay 7
    (fun _ => gxpPipe_delivers _ _) (by decide)).1 fun p _ => ⟨1, 1, rfl, one_pos⟩

end Run

end DLFree

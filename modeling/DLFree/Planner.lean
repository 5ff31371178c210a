/-
**The planner of the simulator: `sim/rtable_planner.c` and the loop of `sim/rtable_sim.c`.**

The planner computes tables as `gxp_router_run` does, but it keeps one graph for all calls, and
ordered-link routing sorts or shuffles the connections of that graph in place.  The call for one
source therefore starts from the order in which the call before has left the connections.

Main definitions:

* `rtablePlannerRun`, `rtableSimulatorRun` — the functions of the source;
* `CallsAgree`, `simRoutes` — the same levels in all calls, and the paths in all tables;
* `plannerConns` — the connections of the planner's graph before each call;
* `PlannerStable` — one numbering of the connections belongs to the orders of all calls.

Main results:

* `rtableSimulatorRun_ok` — the calls return;
* `rtableSimulatorRun_agree_iff` — **the tables of all sources fit together exactly when the
  planner is stable**;
* `rtableSimulatorRun_ring` — a ring whose tables can deadlock.
-/

import DLFree.GxpRoutes

set_option relaxedAutoImplicit false
set_option autoImplicit false

namespace DLFree

/-! ### The code -/

/-- The loop that computes the distance of every host. -/
def plannerAvgdistMap (graph : OverlayGraph) (nnodes : ℕ) : Except Abort (ℕ → ℚ) :=
  (List.range nnodes).foldlM
    (fun avgdistMap idx =>
      match graph.hosts[idx]? with
      | none => Except.error Abort.badAccess
      | some node => do
          let avgdist ← shortestAvgdist graph node.pid
          Except.ok (Function.update avgdistMap idx avgdist))
    (fun _ => 0)

/-- The switch of `rtable_planner_run`: the graph as it is left, the number of levels and the
links. -/
def plannerSptrees (lib : Libc) (graph : OverlayGraph) (rttype : GxpRoutingType) (seed : ℤ) :
    Except Abort (OverlayGraph × ℕ × List RouterGraphLink) :=
  match rttype with
  | GxpRoutingType.updownBfs => do
      let sptrees ← routerGraphMakeUpdownTree lib graph UpdownRouterType.bfs seed
      Except.ok (graph, 2, sptrees)
  | GxpRoutingType.updownDfs => do
      let sptrees ← routerGraphMakeUpdownTree lib graph UpdownRouterType.dfs seed
      Except.ok (graph, 2, sptrees)
  | GxpRoutingType.orderedRandom =>
      routerGraphMakeSpanningTrees lib graph OrderedLinkRouterType.random seed
  | GxpRoutingType.orderedBand =>
      routerGraphMakeSpanningTrees lib graph OrderedLinkRouterType.band seed
  | GxpRoutingType.orderedHops =>
      routerGraphMakeSpanningTrees lib graph OrderedLinkRouterType.hops seed
  | GxpRoutingType.orderedHub =>
      routerGraphMakeSpanningTrees lib graph OrderedLinkRouterType.hub seed
  | GxpRoutingType.orderedBfs => do
      let nnodes := graph.hosts.length
      let avgdistMap ← plannerAvgdistMap graph nnodes
      let (levels, sptrees) ← routerGraphMakeBfsSpanningTrees lib graph nnodes avgdistMap seed
      Except.ok (graph, levels, sptrees)
  | GxpRoutingType.deadlock => Except.ok (graph, 1, routerGraphMakeDeadlockProneLinks graph)

/-- `rtable_planner_run`: the planner's graph as it is left, the links with their levels, and the
table. -/
def rtablePlannerRun (lib : Libc) (graph : OverlayGraph) (srcnode : ℕ) (rttype : GxpRoutingType)
    (seed : ℤ) : Except Abort (OverlayGraph × List RouterGraphLink × OverlayRtable) := do
  let (graph, levels, sptrees) ← plannerSptrees lib graph rttype seed
  let rt ← leveledDijkstraRun (leveledDijkstraCreate graph.hosts levels) sptrees srcnode
  Except.ok (graph, sptrees, rt)

/-- The loop of `rtable_simulator_run` over the sources: what every call used and returned. -/
def rtableSimulatorRun (lib : Libc) (rttype : GxpRoutingType) (seed : ℤ) :
    OverlayGraph → List ℕ → Except Abort (List (List RouterGraphLink × OverlayRtable))
  | _, [] => Except.ok []
  | graph, srcnode :: srcs => do
      let (graph, sptrees, rt) ← rtablePlannerRun lib graph srcnode rttype seed
      let calls ← rtableSimulatorRun lib rttype seed graph srcs
      Except.ok ((sptrees, rt) :: calls)

/-! ### What the calls should have in common -/

/-- All calls give the links the same levels. -/
def CallsAgree (calls : List (List RouterGraphLink × OverlayRtable)) : Prop :=
  ∀ a ∈ calls, ∀ b ∈ calls, ∀ u v k, LinkLevel a.1 u v k → LinkLevel b.1 u v k

/-- The paths in the tables of all calls. -/
def simRoutes (calls : List (List RouterGraphLink × OverlayRtable)) : Set (List ℤ) :=
  {path | ∃ call ∈ calls, ∃ entry, some entry ∈ call.2.entries ∧ entry.path = path}

/-- The ordering of a routing type that builds spanning trees. -/
def GxpRoutingType.ordered : GxpRoutingType → Option OrderedLinkRouterType
  | GxpRoutingType.orderedRandom => some OrderedLinkRouterType.random
  | GxpRoutingType.orderedBand => some OrderedLinkRouterType.band
  | GxpRoutingType.orderedHops => some OrderedLinkRouterType.hops
  | GxpRoutingType.orderedHub => some OrderedLinkRouterType.hub
  | _ => none

/-- The connections of the planner's graph before the call `i`: ordering them is repeated in every
call of an ordered-link type. -/
def plannerConns (lib : Libc) (graph : OverlayGraph) (rttype : GxpRoutingType) (seed : ℤ) :
    ℕ → List OverlayEdge
  | 0 => graph.conns
  | i + 1 =>
      match rttype.ordered with
      | none => plannerConns lib graph rttype seed i
      | some type =>
          spanningTreeOrder lib { graph with conns := plannerConns lib graph rttype seed i } type
            seed

/-- The orders of the first `n` calls allow one numbering of the connections: in each order, the
connections of one number form a forest, and the ends of a connection are joined by those of every
smaller number that come before it. -/
def PlannerStable (lib : Libc) (graph : OverlayGraph) (n : ℕ) (rttype : GxpRoutingType)
    (seed : ℤ) : Prop :=
  ∀ type, rttype.ordered = some type → ∃ lev : OverlayEdge → ℕ, ∀ i < n,
    ForestLayers.Compatible OverlayEdge.ends lev (plannerConns lib graph rttype seed (i + 1))

section Calls

variable {lib : Libc} {g : OverlayGraph} {n : ℕ} {rttype : GxpRoutingType} {seed : ℤ}

theorem plannerConns_perm (lib : Libc) (g : OverlayGraph) (rttype : GxpRoutingType) (seed : ℤ)
    (i : ℕ) : (plannerConns lib g rttype seed i).Perm g.conns := by
  induction i with
  | zero => exact List.Perm.refl _
  | succ i ih =>
      cases hord : rttype.ordered with
      | none => simpa only [plannerConns, hord] using ih
      | some type =>
          simp only [plannerConns, hord]
          exact (spanningTreeOrder_perm lib { g with conns := plannerConns lib g rttype seed i } type
            seed).trans ih

/-- What one call does, from a graph with the connections in some order. -/
structure SptreesCall (lib : Libc) (g : OverlayGraph) (n : ℕ) (rttype : GxpRoutingType) (seed : ℤ)
    (g' : OverlayGraph) (levels : ℕ) (links : List RouterGraphLink) : Prop where
  graph : g' = { g with conns := plannerConns lib g rttype seed 1 }
  ok : SptreesOk g n levels links
  free : rttype ≠ GxpRoutingType.deadlock → LevelsDeadlockFree links
  layers : ∀ type, rttype.ordered = some type → ∃ asg,
    ForestLayers.Layers OverlayEdge.ends (plannerConns lib g rttype seed 1) 0 asg ∧
      links = asg.map leveledLink

theorem SptreesOk.of_updown (hg : g.Simple n) (hconn : g.Connected n) (hn : 0 < n)
    (type : UpdownRouterType) :
    ∃ links, routerGraphMakeUpdownTree lib g type seed = Except.ok links ∧ SptreesOk g n 2 links ∧
      LevelsDeadlockFree links := by
  obtain ⟨links, hrun, hok, hfree⟩ := updownSptrees_spec lib hg hconn hn type seed
  obtain ⟨links', hrun', heq⟩ := bind_eq_ok.1 hrun
  simp only [Except.ok.injEq, Prod.mk.injEq, true_and] at heq
  subst heq
  exact ⟨links', hrun', hok, hfree⟩

theorem SptreesCall.of_ordered (hg : g.Simple n) (hconn : g.Connected n)
    (type : OrderedLinkRouterType) (htype : rttype.ordered = some type) :
    ∃ g' levels links, routerGraphMakeSpanningTrees lib g type seed =
        Except.ok (g', levels, links) ∧ SptreesCall lib g n rttype seed g' levels links := by
  obtain ⟨asg, levels, hlayers, hlevels, _, hrun⟩ :=
    routerGraphMakeSpanningTrees_spec lib hg.proper type seed
  have hperm := spanningTreeOrder_perm lib g type seed
  have hconns : plannerConns lib g rttype seed 1 = spanningTreeOrder lib g type seed := by
    simp only [plannerConns, htype]
  refine ⟨_, levels, _, hrun, by rw [hconns], ⟨?_, ?_⟩,
    fun _ => spanningTrees_deadlockFree hg hperm.subset hlayers, fun _ _ => ⟨asg, ?_, rfl⟩⟩
  · rw [List.map_map]
    exact hlayers.perm.trans hperm
  · by_cases hnone : g.conns = []
    · exact levelsComplete_of_no_conns hconn hnone _ _
    · exact spanningTrees_complete hconn hperm hlayers (levels_pos hlayers hlevels hnone)
  · rw [hconns]
    exact hlayers

/-- **One call**, whatever the routing type; without the breadth-first ordering it always
returns. -/
theorem plannerSptrees_spec (lib : Libc) (seed : ℤ) (hg : g.Simple n) (hconn : g.Connected n)
    (hn : 0 < n)
    (hbfs : rttype = GxpRoutingType.orderedBfs →
      ∃ avgdistMap, plannerAvgdistMap g n = Except.ok avgdistMap) :
    ∃ g' levels links, plannerSptrees lib g rttype seed = Except.ok (g', levels, links) ∧
      SptreesCall lib g n rttype seed g' levels links := by
  have hupdown : ∀ type, ∃ links, routerGraphMakeUpdownTree lib g type seed = Except.ok links ∧
      SptreesOk g n 2 links ∧ LevelsDeadlockFree links := fun type =>
    SptreesOk.of_updown hg hconn hn type
  have hordered : ∀ type, rttype.ordered = some type → ∃ g' levels links,
      routerGraphMakeSpanningTrees lib g type seed = Except.ok (g', levels, links) ∧
        SptreesCall lib g n rttype seed g' levels links := fun type htype =>
    SptreesCall.of_ordered hg hconn type htype
  cases rttype with
  | updownBfs =>
      obtain ⟨links, hrun, hok, hfree⟩ := hupdown UpdownRouterType.bfs
      refine ⟨g, 2, links, ?_, rfl, hok, fun _ => hfree, nofun⟩
      simp only [plannerSptrees, hrun, bind, Except.bind]
  | updownDfs =>
      obtain ⟨links, hrun, hok, hfree⟩ := hupdown UpdownRouterType.dfs
      refine ⟨g, 2, links, ?_, rfl, hok, fun _ => hfree, nofun⟩
      simp only [plannerSptrees, hrun, bind, Except.bind]
  | orderedRandom => exact hordered _ rfl
  | orderedBand => exact hordered _ rfl
  | orderedHops => exact hordered _ rfl
  | orderedHub => exact hordered _ rfl
  | orderedBfs =>
      obtain ⟨avgdistMap, havg⟩ := hbfs rfl
      obtain ⟨levels, links, hrun, hconns, hfree, hcomplete⟩ :=
        routerGraphMakeBfsSpanningTrees_spec lib hg hconn avgdistMap seed
      refine ⟨g, levels, links, ?_, rfl, ⟨List.Perm.of_eq hconns, hcomplete⟩, fun _ => hfree, nofun⟩
      simp only [plannerSptrees, hg.length_hosts, havg, hrun, bind, Except.bind]
  | deadlock =>
      exact ⟨g, 1, _, rfl, rfl, deadlockProne_ok hconn, fun h => absurd rfl h, nofun⟩

theorem SptreesCall.of_run (hg : g.Simple n) (hconn : g.Connected n) (hn : 0 < n)
    {g' : OverlayGraph} {levels : ℕ} {links : List RouterGraphLink}
    (hrun : plannerSptrees lib g rttype seed = Except.ok (g', levels, links)) :
    SptreesCall lib g n rttype seed g' levels links := by
  have hbfs : rttype = GxpRoutingType.orderedBfs →
      ∃ avgdistMap, plannerAvgdistMap g n = Except.ok avgdistMap := by
    rintro rfl
    obtain ⟨avgdistMap, havg, _⟩ := bind_eq_ok.1 hrun
    exact ⟨avgdistMap, hg.length_hosts ▸ havg⟩
  obtain ⟨g'', levels', links', hrun', hcall⟩ := plannerSptrees_spec lib seed
    hg hconn hn hbfs
  rw [hrun] at hrun'
  simp only [Except.ok.injEq, Prod.mk.injEq] at hrun'
  obtain ⟨rfl, rfl, rfl⟩ := hrun'
  exact hcall

/-- The graph of the planner before the call `i`. -/
def plannerGraph (lib : Libc) (g : OverlayGraph) (rttype : GxpRoutingType) (seed : ℤ) (i : ℕ) :
    OverlayGraph :=
  { g with conns := plannerConns lib g rttype seed i }

theorem plannerConns_plannerGraph (i j : ℕ) :
    plannerConns lib (plannerGraph lib g rttype seed i) rttype seed j =
      plannerConns lib g rttype seed (i + j) := by
  induction j with
  | zero => rfl
  | succ j ih =>
      rw [← Nat.add_assoc]
      cases hord : rttype.ordered with
      | none => simpa only [plannerConns, hord] using ih
      | some type =>
          simp only [plannerConns, hord, ih]
          rfl

theorem plannerGraph_simple (lib : Libc) (rttype : GxpRoutingType) (seed : ℤ) (hg : g.Simple n)
    (i : ℕ) :
    (plannerGraph lib g rttype seed i).Simple n :=
  hg.of_perm (plannerConns_perm lib g rttype seed i)

theorem plannerGraph_connected (lib : Libc) (rttype : GxpRoutingType) (seed : ℤ)
    (hconn : g.Connected n) (i : ℕ) :
    (plannerGraph lib g rttype seed i).Connected n := by
  intro u hu v hv
  rw [plannerGraph, OverlayGraph.links_of_perm (plannerConns_perm lib g rttype seed i)]
  exact hconn u hu v hv

/-- What the call `i` used and returned. -/
structure CallOk (lib : Libc) (g : OverlayGraph) (n : ℕ) (rttype : GxpRoutingType) (seed : ℤ)
    (i : ℕ) (call : List RouterGraphLink × OverlayRtable) : Prop where
  levels : ∃ g' levels, plannerSptrees lib (plannerGraph lib g rttype seed i) rttype seed =
      Except.ok (g', levels, call.1) ∧
    SptreesCall lib (plannerGraph lib g rttype seed i) n rttype seed g' levels call.1
  route : ∀ entry, some entry ∈ call.2.entries → entry.path ∈ LevelRoutes call.1

theorem CallOk.conns {i : ℕ} {call : List RouterGraphLink × OverlayRtable}
    (h : CallOk lib g n rttype seed i call) : (call.1.map RouterGraphLink.conn).Perm g.conns := by
  obtain ⟨_, _, _, hcall⟩ := h.levels
  exact hcall.ok.conns.trans (plannerConns_perm lib g rttype seed i)

/-- The calls that have returned, one after another. -/
theorem rtableSimulatorRun_spec (hg : g.Simple n) (hconn : g.Connected n) (hn : 0 < n)
    {srcs : List ℕ} {i : ℕ} {calls : List (List RouterGraphLink × OverlayRtable)}
    (h : rtableSimulatorRun lib rttype seed (plannerGraph lib g rttype seed i) srcs =
      Except.ok calls) :
    calls.length = srcs.length ∧
      ∀ j call, calls[j]? = some call → CallOk lib g n rttype seed (i + j) call := by
  induction srcs generalizing i calls with
  | nil =>
      simp only [rtableSimulatorRun, Except.ok.injEq] at h
      subst h
      exact ⟨rfl, by simp⟩
  | cons src srcs ih =>
      obtain ⟨⟨g', links, rt⟩, hrun, h⟩ := bind_eq_ok.1 h
      obtain ⟨rest, hrest, h⟩ := bind_eq_ok.1 h
      simp only [Except.ok.injEq] at h
      subst h
      obtain ⟨⟨g'', levels, links'⟩, hsp, hrun⟩ := bind_eq_ok.1 hrun
      obtain ⟨rt', hdij, hrun⟩ := bind_eq_ok.1 hrun
      simp only [Except.ok.injEq, Prod.mk.injEq] at hrun
      obtain ⟨rfl, rfl, rfl⟩ := hrun
      have hgi := plannerGraph_simple lib rttype seed hg i
      have hcall := SptreesCall.of_run hgi (plannerGraph_connected lib rttype seed hconn i) hn hsp
      have hgraph : g'' = plannerGraph lib g rttype seed (i + 1) := by
        rw [hcall.graph, plannerConns_plannerGraph]
        rfl
      have hhosts : g''.hosts.length = n := by
        rw [hgraph]
        exact hg.length_hosts
      rw [hgraph] at hrest
      obtain ⟨hlen, hcalls⟩ := ih hrest
      refine ⟨by simp [hlen], fun j call hj => ?_⟩
      cases j with
      | zero =>
          simp only [List.getElem?_cons_zero, Option.some.injEq] at hj
          subst hj
          refine ⟨⟨g'', levels, hsp, hcall⟩, fun entry he => ?_⟩
          obtain ⟨dst, p, hroute, hpath⟩ :=
            leveledDijkstraRun_route hhosts hgi hcall.ok.conns hdij he
          exact ⟨src, dst, p, hroute, hpath⟩
      | succ j =>
          rw [List.getElem?_cons_succ] at hj
          have := hcalls j call hj
          rwa [Nat.add_assoc, Nat.add_comm 1 j] at this

/-- Routes only depend on the levels. -/
theorem LevelRoutes.mono {links links' : List RouterGraphLink}
    (h : ∀ u v k, LinkLevel links u v k → LinkLevel links' u v k) :
    LevelRoutes links ⊆ LevelRoutes links' := by
  rintro path ⟨src, dst, p, hp, rfl⟩
  refine ⟨src, dst, p, ⟨hp.head, hp.last, hp.nodup, fun a b hab => ?_, fun a b c habc => ?_⟩, rfl⟩
  · obtain ⟨k, hk, hl⟩ := hp.link a b hab
    exact ⟨k, hk, h _ _ _ hl⟩
  · obtain ⟨j, k, hj, hjk, h₁, h₂⟩ := hp.level a b c habc
    exact ⟨j, k, hj, hjk, h _ _ _ h₁, h _ _ _ h₂⟩

/-- Calls that agree have an acyclic dependency graph together. -/
theorem CallsAgree.acyclic (lib : Libc) (seed : ℤ) (hg : g.Simple n)
    (htype : rttype ≠ GxpRoutingType.deadlock)
    {calls : List (List RouterGraphLink × OverlayRtable)}
    (hcalls : ∀ call ∈ calls, ∃ i, CallOk lib g n rttype seed i call) (h : CallsAgree calls) :
    ChannelDependency.Acyclic (ChannelDependency.Dep (simRoutes calls)) := by
  cases calls with
  | nil =>
      refine ChannelDependency.acyclic_of_false ?_
      rintro a b ⟨_, p, ⟨call, hcall, _⟩, _⟩
      cases hcall
  | cons first calls =>
      obtain ⟨i, hfirst⟩ := hcalls first List.mem_cons_self
      obtain ⟨_, _, _, hcall⟩ := hfirst.levels
      refine (levelRoutes_acyclic (simple_of_conns hg hfirst.conns) (hcall.free htype)).mono ?_
      rintro a b ⟨hab, p, ⟨call, hmem, entry, he, rfl⟩, hin⟩
      obtain ⟨j, hok⟩ := hcalls call hmem
      exact ⟨hab, entry.path,
        LevelRoutes.mono (h call hmem first List.mem_cons_self) (hok.route entry he), hin⟩

/-- The levels of a call of an ordered-link type, where `lev` belongs to its order. -/
theorem linkLevel_leveledLink {asg : List (OverlayEdge × ℕ)} {lev : OverlayEdge → ℕ}
    (hperm : (asg.map Prod.fst).Perm g.conns) (hlev : ∀ p ∈ asg, lev p.1 = p.2) {u v : ℕ} {k : ℤ} :
    LinkLevel (asg.map leveledLink) u v k ↔
      ∃ e ∈ g.conns, k = lev e ∧ ((e.n0 = u ∧ e.n1 = v) ∨ (e.n1 = u ∧ e.n0 = v)) := by
  constructor
  · rintro ⟨link, hl, h⟩
    obtain ⟨p, hp, rfl⟩ := List.mem_map.1 hl
    refine ⟨p.1, hperm.subset (List.mem_map_of_mem hp), ?_⟩
    rw [hlev p hp]
    rcases h with ⟨h₀, h₁, hk⟩ | ⟨h₁, h₀, hk⟩
    · exact ⟨hk.symm, Or.inl ⟨h₀, h₁⟩⟩
    · exact ⟨hk.symm, Or.inr ⟨h₁, h₀⟩⟩
  · rintro ⟨e, he, rfl, h⟩
    obtain ⟨p, hp, rfl⟩ := List.mem_map.1 (hperm.symm.subset he)
    refine ⟨leveledLink p, List.mem_map_of_mem hp, ?_⟩
    rw [hlev p hp]
    rcases h with ⟨h₀, h₁⟩ | ⟨h₁, h₀⟩
    · exact Or.inl ⟨h₀, h₁, rfl⟩
    · exact Or.inr ⟨h₁, h₀, rfl⟩

/-- **The tables of all sources fit together exactly when the planner is stable**: all calls give
the links the same levels, and the union of the tables has an acyclic dependency graph. -/
theorem rtableSimulatorRun_agree_iff (hg : g.Simple n) (hconn : g.Connected n)
    (htype : rttype ≠ GxpRoutingType.deadlock)
    {calls : List (List RouterGraphLink × OverlayRtable)}
    (h : rtableSimulatorRun lib rttype seed g (List.range n) = Except.ok calls) :
    (CallsAgree calls ∧
        ChannelDependency.Acyclic (ChannelDependency.Dep (simRoutes calls))) ↔
      PlannerStable lib g n rttype seed := by
  rcases Nat.eq_zero_or_pos n with rfl | hn
  · have hnil : calls = [] := by
      simpa [rtableSimulatorRun] using h.symm
    subst hnil
    refine ⟨fun _ type _ => ⟨fun _ => 0, fun i hi => absurd hi (Nat.not_lt_zero i)⟩, fun _ => ?_⟩
    have hagree : CallsAgree [] := by
      intro a ha
      cases ha
    exact ⟨hagree, hagree.acyclic lib seed hg htype (by simp)⟩
  obtain ⟨hlen, hcalls⟩ := rtableSimulatorRun_spec (i := 0) hg hconn hn h
  rw [List.length_range] at hlen
  have hget : ∀ call ∈ calls, ∃ i < n, calls[i]? = some call := by
    intro call hcall
    obtain ⟨i, hi, rfl⟩ := List.getElem_of_mem hcall
    exact ⟨i, hlen ▸ hi, List.getElem?_eq_getElem hi⟩
  have hok : ∀ call ∈ calls, ∃ i < n, CallOk lib g n rttype seed i call := by
    intro call hcall
    obtain ⟨i, hi, hgeti⟩ := hget call hcall
    have := hcalls i call hgeti
    rw [Nat.zero_add] at this
    exact ⟨i, hi, this⟩
  -- the forests of each call
  have hlayers : ∀ type, rttype.ordered = some type → ∀ i call,
      CallOk lib g n rttype seed i call → ∃ asg,
        ForestLayers.Layers OverlayEdge.ends (plannerConns lib g rttype seed (i + 1)) 0 asg ∧
          call.1 = asg.map leveledLink := by
    intro type hord i call hcall
    obtain ⟨_, _, _, hsp⟩ := hcall.levels
    obtain ⟨asg, hasg, hlinks⟩ := hsp.layers type hord
    rw [plannerConns_plannerGraph] at hasg
    exact ⟨asg, hasg, hlinks⟩
  have hsimple : ∀ i, ForestLayers.Simple OverlayEdge.ends
      (plannerConns lib g rttype seed i) := fun i => (plannerGraph_simple lib rttype seed hg i).simple
  constructor
  · rintro ⟨hagree, _⟩ type hord
    obtain ⟨first, hfirst⟩ : ∃ first, calls[0]? = some first :=
      ⟨_, List.getElem?_eq_getElem (by omega)⟩
    have hmem : first ∈ calls := List.mem_of_getElem? hfirst
    have hfirstOk := hcalls 0 first hfirst
    -- the levels of the first call, which belong to every order
    refine ⟨fun e => (linkLevelOf first.1 e.ends).toNat, fun i hi => ?_⟩
    obtain ⟨call, hcall⟩ : ∃ call, calls[i]? = some call :=
      ⟨_, List.getElem?_eq_getElem (by omega)⟩
    have hcallOk := hcalls i call hcall
    rw [Nat.zero_add] at hcallOk
    obtain ⟨asg, hasg, hlinks⟩ := hlayers type hord i call hcallOk
    refine (hasg.compatible_iff (hsimple _)).2 fun p hp => ?_
    have hlevel : LinkLevel call.1 p.1.n0 p.1.n1 p.2 :=
      ⟨leveledLink p, hlinks ▸ List.mem_map_of_mem hp, Or.inl ⟨rfl, rfl, rfl⟩⟩
    have hlevel' := hagree call (List.mem_of_getElem? hcall) first hmem _ _ _ hlevel
    have heq : linkLevelOf first.1 p.1.ends = p.2 :=
      linkLevelOf_eq (simple_of_conns hg hfirstOk.conns) (Int.natCast_nonneg _) hlevel'
    rw [heq, Int.toNat_natCast]
  · intro hstable
    have hagree : CallsAgree calls := by
      intro a ha b hb u v k hk
      obtain ⟨i, hi, haOk⟩ := hok a ha
      obtain ⟨j, hj, hbOk⟩ := hok b hb
      cases hord : rttype.ordered with
      | none =>
          have hconst : ∀ i, plannerConns lib g rttype seed i = g.conns := by
            intro i
            induction i with
            | zero => rfl
            | succ i ih => simpa only [plannerConns, hord] using ih
          have hgraph : ∀ i, plannerGraph lib g rttype seed i = g := by
            intro i
            rw [plannerGraph, hconst]
          obtain ⟨_, _, hra, _⟩ := haOk.levels
          obtain ⟨_, _, hrb, _⟩ := hbOk.levels
          rw [hgraph] at hra hrb
          rw [hra] at hrb
          simp only [Except.ok.injEq, Prod.mk.injEq] at hrb
          rw [← hrb.2.2]
          exact hk
      | some type =>
          obtain ⟨lev, hlev⟩ := hstable type hord
          obtain ⟨asg, hasg, hlinks⟩ := hlayers type hord i a haOk
          obtain ⟨asg', hasg', hlinks'⟩ := hlayers type hord j b hbOk
          rw [hlinks, linkLevel_leveledLink (hasg.perm.trans (plannerConns_perm lib g rttype seed _))
            ((hasg.compatible_iff (hsimple _)).1 (hlev i hi))] at hk
          rw [hlinks', linkLevel_leveledLink (hasg'.perm.trans (plannerConns_perm lib g rttype seed _))
            ((hasg'.compatible_iff (hsimple _)).1 (hlev j hj))]
          exact hk
    exact ⟨hagree, hagree.acyclic lib seed hg htype fun call hcall =>
      (hok call hcall).imp fun i hi => hi.2⟩

/-- **The calls return** when the links have positive widths and their lengths are not too
large. -/
theorem rtableSimulatorRun_ok (hg : g.Simple n) (hconn : g.Connected n)
    (hwidth : ∀ e ∈ g.conns, 0 < e.width) (hpos : ∀ e ∈ g.conns, 0 < e.len)
    (htotal : g.totalLen < maxDijkstraDist) {srcs : List ℕ} (hsrcs : ∀ src ∈ srcs, src < n) :
    ∃ calls, rtableSimulatorRun lib rttype seed g srcs = Except.ok calls := by
  have key : ∀ i, ∃ calls, rtableSimulatorRun lib rttype seed (plannerGraph lib g rttype seed i)
      srcs = Except.ok calls := by
    induction srcs with
    | nil => exact fun _ => ⟨[], rfl⟩
    | cons src srcs ih =>
        intro i
        have hsrc := hsrcs src List.mem_cons_self
        have hperm := plannerConns_perm lib g rttype seed i
        have hgi := plannerGraph_simple lib rttype seed hg i
        have hci := plannerGraph_connected lib rttype seed hconn i
        have hwi : ∀ e ∈ plannerConns lib g rttype seed i, 0 < e.width := fun e he =>
          hwidth e (hperm.subset he)
        have hpi : ∀ e ∈ plannerConns lib g rttype seed i, 0 < e.len := fun e he =>
          hpos e (hperm.subset he)
        have hti : (plannerGraph lib g rttype seed i).totalLen < maxDijkstraDist := by
          rw [plannerGraph, OverlayGraph.totalLen_of_perm hperm]
          exact htotal
        have havg : ∃ avgdistMap, plannerAvgdistMap (plannerGraph lib g rttype seed i) n =
            Except.ok avgdistMap := by
          refine foldlM_ok (fun idx hidx avgdistMap => ?_) _
          obtain ⟨node, hnode, hpid⟩ := hgi.host (List.mem_range.1 hidx)
          obtain ⟨avgdist, hd⟩ := shortestAvgdist_ok hgi hci hpi hti hwi
            (hpid ▸ List.mem_range.1 hidx : node.pid < n)
          refine ⟨Function.update avgdistMap idx avgdist, ?_⟩
          simp only [hnode, hd, bind, Except.bind]
        obtain ⟨g', levels, links, hsp, hcall⟩ := plannerSptrees_spec lib seed
          hgi hci (by omega) fun _ => havg
        obtain ⟨rt, hrt, _⟩ := leveledDijkstraRun_spec hgi.length_hosts hgi hcall.ok.conns hwi hpi
          hti hcall.ok.complete hsrc
        obtain ⟨calls, hcalls⟩ := ih (fun x hx => hsrcs x (List.mem_cons_of_mem _ hx)) (i + 1)
        have hgraph : g' = plannerGraph lib g rttype seed (i + 1) := by
          rw [hcall.graph, plannerConns_plannerGraph]
          rfl
        have hhosts : g'.hosts = (plannerGraph lib g rttype seed i).hosts := by
          rw [hgraph]
          rfl
        refine ⟨(links, rt) :: calls, ?_⟩
        simp only [rtableSimulatorRun, rtablePlannerRun, hsp, hhosts, hrt, bind, Except.bind]
        rw [hgraph, hcalls]
  exact key 0

end Calls

/-! ### A ring -/

/-- Five hosts in a ring of connections of length 1. -/
def ringGraph : OverlayGraph :=
  [(1, 2), (2, 3), (3, 4), (4, 0), (0, 1)].foldl
    (fun graph p => overlayGraphInsertConn graph ⟨p.1, p.2, 1, 1⟩) (gxpAddNodes 5 toString)

/-- A `rand` after which a shuffle moves the first of five elements to the end. -/
def ringLibc : Libc := Libc.insertion fun _ i => if i < 4 then i + 1 else 4

theorem ringGraph_simple : ringGraph.Simple 5 where
  hosts := by decide
  lt := by decide
  simple := ⟨by decide, by
    simp only [ForestLayers.SamePair]
    decide⟩
  nodeConns v e := by
    simp only [ringGraph, List.foldl_cons, List.foldl_nil, mem_nodeConns_insertConn]
    simp only [overlayGraphInsertConn, (gxpAddNodes_spec _ _).2.1, (gxpAddNodes_spec _ _).2.2]
    simp only [List.nil_append, List.cons_append, List.mem_cons, List.not_mem_nil]
    constructor
    · rintro (((((h | ⟨rfl, h⟩) | ⟨rfl, h⟩) | ⟨rfl, h⟩) | ⟨rfl, h⟩) | ⟨rfl, h⟩)
      · exact absurd h (by simp)
      all_goals exact ⟨by simp, h⟩
    · rintro ⟨rfl | rfl | rfl | rfl | rfl | h, h'⟩
      · exact Or.inl (Or.inl (Or.inl (Or.inl (Or.inr ⟨rfl, h'⟩))))
      · exact Or.inl (Or.inl (Or.inl (Or.inr ⟨rfl, h'⟩)))
      · exact Or.inl (Or.inl (Or.inr ⟨rfl, h'⟩))
      · exact Or.inl (Or.inr ⟨rfl, h'⟩)
      · exact Or.inr ⟨rfl, h'⟩
      · exact absurd h (by simp)

theorem ringGraph_connected : ringGraph.Connected 5 := by
  have hnext : ∀ i < 4, ∃ e ∈ ringGraph.conns,
      (e.n0 = i ∧ e.n1 = i + 1) ∨ (e.n0 = i + 1 ∧ e.n1 = i) := by decide
  have hadj : ∀ i < 4, ringGraph.links.Adj i (i + 1) := fun i hi =>
    ringGraph_simple.links_adj.2 (hnext i hi)
  have hreach : ∀ v < 5, ringGraph.links.Reachable 0 v := by
    intro v
    induction v with
    | zero => exact fun _ => SimpleGraph.Reachable.refl 0
    | succ v ih => exact fun hv => (ih (by omega)).trans (hadj v (by omega)).reachable
  exact fun u hu v hv => (hreach u hu).symm.trans (hreach v hv)

theorem ringGraph_run (rttype : GxpRoutingType) (seed : ℤ) :
    ∃ calls, rtableSimulatorRun ringLibc rttype seed ringGraph (List.range 5) =
      Except.ok calls := by
  have hpos : ∀ e ∈ ringGraph.conns, 0 < e.width ∧ 0 < e.len := by decide
  have htotal : ringGraph.totalLen < maxDijkstraDist := by decide +kernel
  exact rtableSimulatorRun_ok ringGraph_simple ringGraph_connected (fun e he => (hpos e he).1)
    (fun e he => (hpos e he).2) htotal fun src hsrc => List.mem_range.1 hsrc

/-- The paths of the tables of the ring under `ORDERED_RANDOM`. -/
theorem ringGraph_paths :
    (rtableSimulatorRun ringLibc GxpRoutingType.orderedRandom 0 ringGraph
        (List.range 5)).toOption.map
      (fun calls => calls.map fun call => call.2.entries.map fun e => e.map OverlayRtableEntry.path) =
    some [
      [none, some [0, 1], some [0, 1, 2], some [0, 4, 3], some [0, 4]],
      [some [1, 0], none, some [1, 2], some [1, 2, 3], some [1, 0, 4]],
      [some [2, 1, 0], some [2, 1], none, some [2, 3], some [2, 3, 4]],
      [some [3, 4, 0], some [3, 2, 1], some [3, 2], none, some [3, 4]],
      [some [4, 0], some [4, 0, 1], some [4, 3, 2], some [4, 3], none]] := by
  decide +kernel

/-- **The tables of a ring can deadlock**: the shuffle of each call leaves another connection to
the second level, and the tables of the five sources lead around the ring. -/
theorem rtableSimulatorRun_ring :
    ∃ calls, rtableSimulatorRun ringLibc GxpRoutingType.orderedRandom 0 ringGraph (List.range 5) =
        Except.ok calls ∧ ringGraph.Simple 5 ∧ ringGraph.Connected 5 ∧
      (∀ e ∈ ringGraph.conns, 0 < e.len) ∧ ¬ CallsAgree calls ∧
      ¬ ChannelDependency.Acyclic (ChannelDependency.Dep (simRoutes calls)) := by
  obtain ⟨calls, hcalls⟩ := ringGraph_run GxpRoutingType.orderedRandom 0
  have hpaths := ringGraph_paths
  rw [hcalls] at hpaths
  simp only [Except.toOption, Option.map_some, Option.some.injEq] at hpaths
  have hroute : ∀ path, some path ∈ (calls.map fun call =>
      call.2.entries.map fun e => e.map OverlayRtableEntry.path).flatten →
      path ∈ simRoutes calls := by
    intro path hp
    obtain ⟨entries, hentries, hp⟩ := List.mem_flatten.1 hp
    obtain ⟨call, hcall, rfl⟩ := List.mem_map.1 hentries
    obtain ⟨e, he, hpath⟩ := List.mem_map.1 hp
    obtain ⟨entry, rfl, rfl⟩ := Option.map_eq_some_iff.1 hpath
    exact ⟨call, hcall, entry, he, rfl⟩
  rw [hpaths] at hroute
  have hdep : ∀ u v w : ℤ, [u, v, w] ∈ simRoutes calls →
      ChannelDependency.Dep (simRoutes calls) (u, v) (v, w) := fun u v w h =>
    ⟨rfl, [u, v, w], h, List.infix_rfl⟩
  have hcycle : Relation.TransGen (ChannelDependency.Dep (simRoutes calls)) (0, 1) (0, 1) :=
    ((((Relation.TransGen.single (hdep 0 1 2 (hroute _ (by decide)))).tail
      (hdep 1 2 3 (hroute _ (by decide)))).tail (hdep 2 3 4 (hroute _ (by decide)))).tail
      (hdep 3 4 0 (hroute _ (by decide)))).tail (hdep 4 0 1 (hroute _ (by decide)))
  have hcyclic : ¬ ChannelDependency.Acyclic (ChannelDependency.Dep (simRoutes calls)) :=
    fun h => h _ hcycle
  refine ⟨calls, hcalls, ringGraph_simple, ringGraph_connected, by decide, fun hagree => ?_, hcyclic⟩
  obtain ⟨_, hok⟩ := rtableSimulatorRun_spec (i := 0) ringGraph_simple ringGraph_connected
    (by decide) hcalls
  refine hcyclic (hagree.acyclic ringLibc 0 ringGraph_simple
    (show GxpRoutingType.orderedRandom ≠ GxpRoutingType.deadlock by decide) fun call hcall => ?_)
  obtain ⟨i, hi, rfl⟩ := List.getElem_of_mem hcall
  exact ⟨_, hok i _ (List.getElem?_eq_getElem hi)⟩

end DLFree

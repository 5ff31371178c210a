/-
**The tables of the planner hold shortest leveled walks.**

Whatever the routing type, the levels of the links are in range, so the search of every call finds
shortest leveled walks.  It finds them for the connections of the planner's graph, which the calls
before may have left in another order.  A call that cannot reach a host ends the process; under
positive lengths and widths nothing else goes wrong.

Main definitions:

* `LevelsInRange` — levels that the arrays of the search have room for;
* `TableOf` — a table with a shortest leveled walk to every other host;
* `rtableSimulatorCalls` — the calls for all sources, and the planner's graph after them.

Main results:

* `plannerSptrees_range` — **all routing types keep their levels in range**;
* `rtableSimulatorCalls_ends` — **the calls return such tables, or one ends the process**;
* `rtableSimulatorRun_tables` — the tables of a run that has returned.
-/

import DLFree.DijkstraOptimal
import DLFree.ExceptEnds
import DLFree.Planner
import DLFree.RouterBfsTrees

set_option relaxedAutoImplicit false
set_option autoImplicit false

namespace DLFree

open ExceptEnds

/-! ### Levels in range -/

/-- The levels of the links are in range in both directions. -/
def LevelsInRange (links : List RouterGraphLink) (numLevels : ℕ) : Prop :=
  ∀ link ∈ links, (0 ≤ link.level0 ∧ link.level0 < numLevels) ∧
    0 ≤ link.level1 ∧ link.level1 < numLevels

/-- Links with one level for both directions. -/
theorem levelsInRange_map {α : Type} {l : List α} {f : α → RouterGraphLink} {numLevels : ℕ}
    (level : α → ℕ) (h₀ : ∀ x ∈ l, (f x).level0 = level x) (h₁ : ∀ x ∈ l, (f x).level1 = level x)
    (hlt : ∀ x ∈ l, level x < numLevels) : LevelsInRange (l.map f) numLevels := by
  intro link hlink
  obtain ⟨x, hx, rfl⟩ := List.mem_map.1 hlink
  have := hlt x hx
  rw [h₀ x hx, h₁ x hx]
  omega

section Calls

variable {lib : Libc} {g : OverlayGraph} {n : ℕ} {rttype : GxpRoutingType} {seed : ℤ}

theorem deadlockProne_range (g : OverlayGraph) :
    LevelsInRange (routerGraphMakeDeadlockProneLinks g) 1 :=
  levelsInRange_map (fun _ => 0) (fun _ _ => rfl) (fun _ _ => rfl) fun _ _ => Nat.one_pos

/-- **The levels of every routing type are in range.** -/
theorem plannerSptrees_range (hg : g.Simple n) (hconn : g.Connected n) {g' : OverlayGraph}
    {levels : ℕ} {links : List RouterGraphLink}
    (hrun : plannerSptrees lib g rttype seed = Except.ok (g', levels, links)) :
    LevelsInRange links levels := by
  have hupdown : ∀ type, (routerGraphMakeUpdownTree lib g type seed >>= fun sptrees =>
      Except.ok (g, 2, sptrees)) = Except.ok (g', levels, links) → LevelsInRange links levels := by
    intro type h
    obtain ⟨links', hlinks, heq⟩ := bind_eq_ok.1 h
    cases heq
    intro link hlink
    obtain ⟨e, rfl | rfl⟩ := routerGraphMakeUpdownTree_oriented hg hconn hlinks link hlink <;>
      simp [linkUpN0, linkUpN1]
  have hordered : ∀ type, routerGraphMakeSpanningTrees lib g type seed =
      Except.ok (g', levels, links) → LevelsInRange links levels := by
    intro type h
    obtain ⟨asg, levels', _, hlt, _, hasg⟩ :=
      routerGraphMakeSpanningTrees_spec lib hg.proper type seed
    rw [hasg] at h
    cases h
    exact levelsInRange_map Prod.snd (fun _ _ => rfl) (fun _ _ => rfl) hlt
  cases rttype with
  | updownBfs => exact hupdown _ hrun
  | updownDfs => exact hupdown _ hrun
  | orderedRandom => exact hordered _ hrun
  | orderedBand => exact hordered _ hrun
  | orderedHops => exact hordered _ hrun
  | orderedHub => exact hordered _ hrun
  | orderedBfs =>
      obtain ⟨avgdistMap, _, h⟩ := bind_eq_ok.1 hrun
      obtain ⟨⟨levels', links'⟩, htrees, heq⟩ := bind_eq_ok.1 h
      cases heq
      rw [hg.length_hosts] at htrees
      obtain ⟨levels', links', _, htrees', _, _, hlevel⟩ :=
        routerGraphMakeBfsSpanningTrees_levels lib hg hconn avgdistMap seed
      rw [htrees] at htrees'
      cases htrees'
      intro link hlink
      obtain ⟨hsym, hrange⟩ := hlevel link hlink
      exact ⟨hrange, hsym ▸ hrange⟩
  | deadlock =>
      cases hrun
      exact deadlockProne_range g

/-! ### One table -/

/-- The table of `src` holds a shortest leveled walk to every other host. -/
structure TableOf (links : List RouterGraphLink) (n src : ℕ) (rt : OverlayRtable) : Prop where
  srcpid : rt.srcpid = src
  size : rt.entries.length = n
  entry : ∀ dst < n, dst ≠ src → ∃ entry p es, rt.entries[dst]? = some (some entry) ∧
    WalkEntry links src dst entry p es

/-- The links of an overlay with positive lengths and widths are as the search expects them. -/
theorem levelsOk_of_conns {links : List RouterGraphLink} {levels : ℕ} (hg : g.Simple n)
    (hlinks : (links.map RouterGraphLink.conn).Perm g.conns) (hrange : LevelsInRange links levels)
    (hpos : ∀ e ∈ g.conns, 0 < e.width ∧ 0 < e.len) : LevelsOk links n levels := by
  have hconn : ∀ link ∈ links, link.conn ∈ g.conns := fun link hl =>
    hlinks.subset (List.mem_map_of_mem hl)
  exact ⟨simple_of_conns hg hlinks, fun link hl => hg.lt _ (hconn link hl),
    fun link hl => (hrange link hl).1, fun link hl => (hrange link hl).2,
    fun link hl => (hpos _ (hconn link hl)).2, fun link hl => (hpos _ (hconn link hl)).1⟩

/-- The search returns a table, or it ends the process at a host that it cannot reach. -/
theorem leveledDijkstraRun_ends {links : List RouterGraphLink} {levels src : ℕ}
    {nodes : List OverlayNode} (hlinks : LevelsOk links nodes.length levels)
    (hsrc : src < nodes.length) :
    Ends (· = Abort.unreachable) (TableOf links nodes.length src)
      (leveledDijkstraRun (leveledDijkstraCreate nodes levels) links src) := by
  by_cases hall : ∀ dst < nodes.length, dst ≠ src → WithinReach links src dst
  · obtain ⟨f, hrun, hwalk⟩ := leveledDijkstraRun_walks hlinks hsrc hall
    rw [hrun]
    refine ⟨rfl, by simp, fun dst hdst hne => ?_⟩
    obtain ⟨p, es, hentry⟩ := hwalk dst hdst hne
    refine ⟨f dst, p, es, ?_, hentry⟩
    rw [List.getElem?_map, List.getElem?_range hdst, Option.map_some, if_neg hne]
  · push Not at hall
    rw [leveledDijkstraRun_exits hlinks hsrc hall]
    rfl

theorem rtableAvgdist_of_table {links : List RouterGraphLink} {src : ℕ} {rt : OverlayRtable}
    (h : TableOf links n src rt) : ∃ avgdist, rtableAvgdist rt = Except.ok avgdist :=
  rtableAvgdist_ok h.srcpid h.size fun dst hdst hne =>
    (h.entry dst hdst hne).imp fun _ ⟨_, _, hget, _⟩ => hget

/-! ### The calls -/

theorem shortestAvgdist_ends (hg : g.Simple n) (hconn : g.Connected n)
    (hpos : ∀ e ∈ g.conns, 0 < e.width ∧ 0 < e.len) {src : ℕ} (hsrc : src < n) :
    Ends (· = Abort.unreachable) (fun _ => True) (shortestAvgdist g src) := by
  have hlinks := levelsOk_of_conns hg (deadlockProne_ok hconn).conns (deadlockProne_range g) hpos
  rw [← hg.length_hosts] at hlinks hsrc
  refine (leveledDijkstraRun_ends hlinks hsrc).bind fun rt hrt => ?_
  obtain ⟨avgdist, havg⟩ := rtableAvgdist_of_table hrt
  rw [havg]
  trivial

theorem plannerAvgdistMap_ends (hg : g.Simple n) (hconn : g.Connected n)
    (hpos : ∀ e ∈ g.conns, 0 < e.width ∧ 0 < e.len) :
    Ends (· = Abort.unreachable) (fun _ => True) (plannerAvgdistMap g n) := by
  refine Ends.foldlM (fun idx hidx avgdistMap _ => ?_) trivial
  obtain ⟨node, hnode, hpid⟩ := hg.host (List.mem_range.1 hidx)
  rw [hnode]
  exact (shortestAvgdist_ends hg hconn hpos (hpid ▸ List.mem_range.1 hidx)).bind fun _ _ => trivial

theorem plannerSptrees_ends (lib : Libc) (rttype : GxpRoutingType) (seed : ℤ) (hg : g.Simple n)
    (hconn : g.Connected n) (hn : 0 < n) (hpos : ∀ e ∈ g.conns, 0 < e.width ∧ 0 < e.len) :
    Ends (· = Abort.unreachable) (fun r => SptreesCall lib g n rttype seed r.1 r.2.1 r.2.2)
      (plannerSptrees lib g rttype seed) := by
  have hspec : (rttype = GxpRoutingType.orderedBfs →
      ∃ avgdistMap, plannerAvgdistMap g n = Except.ok avgdistMap) →
      Ends (· = Abort.unreachable) (fun r => SptreesCall lib g n rttype seed r.1 r.2.1 r.2.2)
        (plannerSptrees lib g rttype seed) := by
    intro havg
    obtain ⟨g', levels, links, hrun, hcall⟩ := plannerSptrees_spec lib seed hg hconn hn havg
    rw [hrun]
    exact hcall
  by_cases hbfs : rttype = GxpRoutingType.orderedBfs
  · -- the distances of the hosts come first, and a host may be out of reach there
    subst hbfs
    have hends := plannerAvgdistMap_ends hg hconn hpos
    cases hmap : plannerAvgdistMap g n with
    | ok avgdistMap => exact hspec fun _ => ⟨avgdistMap, hmap⟩
    | error e =>
        rw [hmap] at hends
        simp only [plannerSptrees, hg.length_hosts, hmap]
        exact hends
  · exact hspec fun h => absurd h hbfs

/-- What the call for `src` has returned: the connections with levels, and its table. -/
structure CallTable (g : OverlayGraph) (n src : ℕ) (call : List RouterGraphLink × OverlayRtable) :
    Prop where
  conns : (call.1.map RouterGraphLink.conn).Perm g.conns
  levels : ∀ link ∈ call.1, 0 ≤ link.level0 ∧ 0 ≤ link.level1
  table : TableOf call.1 n src call.2

/-- **One call** returns a table, or it ends the process at a host that it cannot reach. -/
theorem rtablePlannerRun_ends (lib : Libc) (rttype : GxpRoutingType) (seed : ℤ) (hg : g.Simple n)
    (hconn : g.Connected n) (hpos : ∀ e ∈ g.conns, 0 < e.width ∧ 0 < e.len) {src : ℕ}
    (hsrc : src < n) :
    Ends (· = Abort.unreachable)
      (fun r => r.1 = { g with conns := plannerConns lib g rttype seed 1 } ∧
        CallTable g n src r.2)
      (rtablePlannerRun lib g src rttype seed) := by
  have hends := plannerSptrees_ends lib rttype seed hg hconn (Nat.zero_lt_of_lt hsrc) hpos
  rw [rtablePlannerRun]
  cases hsp : plannerSptrees lib g rttype seed with
  | error e =>
      rw [hsp] at hends
      exact hends
  | ok r =>
      rw [hsp] at hends
      obtain ⟨g', levels, links⟩ := r
      have hcall : SptreesCall lib g n rttype seed g' levels links := hends
      have hlen : g'.hosts.length = n := by
        rw [hcall.graph]
        exact hg.length_hosts
      have hrange := plannerSptrees_range hg hconn hsp
      have hlinks : LevelsOk links g'.hosts.length levels :=
        hlen ▸ levelsOk_of_conns hg hcall.ok.conns hrange hpos
      have hsrc' : src < g'.hosts.length := hlen ▸ hsrc
      exact (leveledDijkstraRun_ends hlinks hsrc').bind fun rt hrt =>
        ⟨hcall.graph, hcall.ok.conns,
          fun link hl => ⟨(hrange link hl).1.1, (hrange link hl).2.1⟩, hlen ▸ hrt⟩

/-- The loop over the sources: the planner's graph as it is left, and what every call used and
returned. -/
def rtableSimulatorCalls (lib : Libc) (rttype : GxpRoutingType) (seed : ℤ) :
    OverlayGraph → List ℕ →
      Except Abort (OverlayGraph × List (List RouterGraphLink × OverlayRtable))
  | graph, [] => Except.ok (graph, [])
  | graph, srcnode :: srcs => do
      let (graph, sptrees, rt) ← rtablePlannerRun lib graph srcnode rttype seed
      let (graph, calls) ← rtableSimulatorCalls lib rttype seed graph srcs
      Except.ok (graph, (sptrees, rt) :: calls)

theorem rtableSimulatorRun_eq (graph : OverlayGraph) (srcs : List ℕ) :
    rtableSimulatorRun lib rttype seed graph srcs =
      (rtableSimulatorCalls lib rttype seed graph srcs).map Prod.snd := by
  induction srcs generalizing graph with
  | nil => rfl
  | cons src srcs ih =>
      rw [rtableSimulatorRun, rtableSimulatorCalls]
      cases rtablePlannerRun lib graph src rttype seed with
      | error e => rfl
      | ok r =>
          obtain ⟨graph', sptrees, rt⟩ := r
          simp only [ok_bind, ih]
          cases rtableSimulatorCalls lib rttype seed graph' srcs <;> rfl

/-- **The calls for all sources** return tables, or one of them ends the process. -/
theorem rtableSimulatorCalls_ends (lib : Libc) (rttype : GxpRoutingType) (seed : ℤ)
    (hg : g.Simple n) (hconn : g.Connected n) (hpos : ∀ e ∈ g.conns, 0 < e.width ∧ 0 < e.len)
    {srcs : List ℕ} (hsrcs : ∀ src ∈ srcs, src < n) :
    Ends (· = Abort.unreachable)
      (fun r => r.1 = plannerGraph lib g rttype seed srcs.length ∧
        List.Forall₂ (CallTable g n) srcs r.2)
      (rtableSimulatorCalls lib rttype seed g srcs) := by
  have key : ∀ i, Ends (· = Abort.unreachable)
      (fun r => r.1 = plannerGraph lib g rttype seed (i + srcs.length) ∧
        List.Forall₂ (CallTable g n) srcs r.2)
      (rtableSimulatorCalls lib rttype seed (plannerGraph lib g rttype seed i) srcs) := by
    induction srcs with
    | nil => exact fun i => ⟨rfl, List.Forall₂.nil⟩
    | cons src srcs ih =>
        intro i
        have hperm := plannerConns_perm lib g rttype seed i
        refine (rtablePlannerRun_ends lib rttype seed (plannerGraph_simple lib rttype seed hg i)
          (plannerGraph_connected lib rttype seed hconn i)
          (fun e he => hpos e (hperm.subset he)) (hsrcs src List.mem_cons_self)).bind ?_
        rintro ⟨g', links, rt⟩ ⟨hgraph, htable⟩
        have hnext : g' = plannerGraph lib g rttype seed (i + 1) := by
          refine Eq.trans hgraph ?_
          rw [plannerConns_plannerGraph]
          rfl
        subst hnext
        refine (ih (fun x hx => hsrcs x (List.mem_cons_of_mem _ hx)) (i + 1)).bind ?_
        rintro ⟨g'', calls⟩ ⟨hgraph', hcalls⟩
        refine ⟨?_,
          List.Forall₂.cons ⟨htable.conns.trans hperm, htable.levels, htable.table⟩ hcalls⟩
        rw [hgraph', List.length_cons, Nat.add_right_comm, Nat.add_assoc]
  have h0 := key 0
  rw [Nat.zero_add] at h0
  exact h0

/-- **The tables of a run that has returned.** -/
theorem rtableSimulatorRun_tables (hg : g.Simple n) (hconn : g.Connected n)
    (hpos : ∀ e ∈ g.conns, 0 < e.width ∧ 0 < e.len) {srcs : List ℕ}
    (hsrcs : ∀ src ∈ srcs, src < n) {calls : List (List RouterGraphLink × OverlayRtable)}
    (hrun : rtableSimulatorRun lib rttype seed g srcs = Except.ok calls) :
    List.Forall₂ (CallTable g n) srcs calls := by
  have hends := rtableSimulatorCalls_ends lib rttype seed hg hconn hpos hsrcs
  rw [rtableSimulatorRun_eq] at hrun
  cases hcalls : rtableSimulatorCalls lib rttype seed g srcs with
  | error e =>
      rw [hcalls] at hrun
      cases hrun
  | ok r =>
      rw [hcalls] at hrun
      cases hrun
      exact (hends.of_ok hcalls).2

/-- A run that has returned had connections with positive lengths and widths only. -/
theorem rtableSimulatorRun_pos (hg : g.Simple n) (hconn : g.Connected n)
    {calls : List (List RouterGraphLink × OverlayRtable)}
    (hrun : rtableSimulatorRun lib rttype seed g (List.range n) = Except.ok calls) :
    ∀ e ∈ g.conns, 0 < e.width ∧ 0 < e.len := by
  intro e he
  have hn : 0 < n := Nat.zero_lt_of_lt (hg.lt e he).1
  obtain ⟨m, rfl⟩ : ∃ m, n = m + 1 := ⟨n - 1, by omega⟩
  rw [List.range_succ_eq_map] at hrun
  obtain ⟨⟨_, links, rt⟩, hcall, _⟩ := bind_eq_ok.1 hrun
  obtain ⟨⟨_, levels, links'⟩, hsp, hdij⟩ := bind_eq_ok.1 hcall
  obtain ⟨rt', hdij, _⟩ := bind_eq_ok.1 hdij
  have hlinks := (SptreesCall.of_run hg hconn hn hsp).ok.conns
  -- the first search has set up all connections
  have hall : ∀ link ∈ links', 0 < link.conn.width ∧ 0 < link.conn.len := by
    by_contra hbad
    simp only [leveledDijkstraRun, dijkstraSetup_error _ hbad, bind, Except.bind] at hdij
    cases hdij
  obtain ⟨link, hlink, rfl⟩ := List.mem_map.1 (hlinks.symm.subset he)
  exact hall link hlink

end Calls

end DLFree

/-
**Levels of links, and the spanning trees of ordered-link routing: `graph/router.c`.**

A router gives every link two levels, one for each direction, and routes never go down in level.
This module states what a level assignment has to provide, `LevelsDeadlockFree` and
`LevelsComplete`, and proves it for ordered-link routing, where the levels are the numbers of the
spanning forests that `router_graph_make_spanning_trees` takes out of the sorted connections.

Main definitions:

* `RouterGraphLink` — `struct router_graph_link`;
* `LinkLevel` — the level of a directed link;
* `LevelsDeadlockFree`, `LevelsComplete` — what routing relies on;
* `routerGraphMakeSpanningTrees`, `routerGraphMakeDeadlockProneLinks` — the functions of the
  source;
* `NestedForests` — what the levels of ordered-link routing are.

Main results:

* `routerGraphMakeSpanningTrees_spec` — the source computes the greedy forests of the order;
* `spanningTrees_deadlockFree`, `spanningTrees_complete` — **their numbers are deadlock-free and
  complete**;
* `spanningTrees_nested` — **they are nested maximal forests, parallel links or not**;
* `deadlockProne_complete` — one level for all links is complete.
-/

import DLFree.ChannelDependency
import DLFree.Overlay
import DLFree.UnionSet

set_option relaxedAutoImplicit false
set_option autoImplicit false

namespace DLFree

open ForestLayers LinkGraph

/-- `struct router_graph_link`; a level of -1 is not set. -/
structure RouterGraphLink where
  conn : OverlayEdge
  up : Option ℕ
  down : Option ℕ
  level0 : ℤ
  level1 : ℤ
  deriving DecidableEq, Repr

/-- `router_graph_link_create`. -/
def routerGraphLinkCreate (conn : OverlayEdge) : RouterGraphLink where
  conn := conn
  up := none
  down := none
  level0 := -1
  level1 := -1

/-! ### What a level assignment provides -/

/-- The directed link from `u` to `v` has level `k`. -/
def LinkLevel (links : List RouterGraphLink) (u v : ℕ) (k : ℤ) : Prop :=
  ∃ link ∈ links, (link.conn.n0 = u ∧ link.conn.n1 = v ∧ link.level0 = k) ∨
    (link.conn.n1 = u ∧ link.conn.n0 = v ∧ link.level1 = k)

/-- Two directed links of level `k` that follow one another without turning back. -/
def LevelDep (links : List RouterGraphLink) (k : ℤ) (a b : ℕ × ℕ) : Prop :=
  a.2 = b.1 ∧ a.1 ≠ b.2 ∧ LinkLevel links a.1 a.2 k ∧ LinkLevel links b.1 b.2 k

/-- No level holds a cycle of directed links. -/
def LevelsDeadlockFree (links : List RouterGraphLink) : Prop :=
  ∀ k, 0 ≤ k → ChannelDependency.Acyclic (LevelDep links k)

/-- A step of a legal route: from a host at one level over a link of at least this level. -/
def Legal (links : List RouterGraphLink) (numLevels : ℕ) (a b : ℕ × ℕ) : Prop :=
  b.2 < numLevels ∧ ∃ k, LinkLevel links a.1 b.1 k ∧ (a.2 : ℤ) ≤ k ∧ k ≤ b.2

/-- Legal routes lead from every host to every other host. -/
def LevelsComplete (links : List RouterGraphLink) (n numLevels : ℕ) : Prop :=
  ∀ src < n, ∀ dst < n, src ≠ dst →
    ∃ l, Relation.ReflTransGen (Legal links numLevels) (src, 0) (dst, l)

/-- The same level in both directions. -/
def Symmetric (links : List RouterGraphLink) : Prop := ∀ link ∈ links, link.level0 = link.level1

/-- The graph of the links with one level. -/
def levelGraph (links : List RouterGraphLink) (k : ℤ) : SimpleGraph ℕ :=
  graph ((links.filter fun link => link.level0 = k).map fun link => link.conn.ends)

theorem levelGraph_adj_iff {links : List RouterGraphLink} {u v : ℕ} {k : ℤ} :
    (levelGraph links k).Adj u v ↔ u ≠ v ∧ ∃ link ∈ links, link.level0 = k ∧
      (link.conn.ends = (u, v) ∨ link.conn.ends = (v, u)) := by
  rw [levelGraph, adj_iff]
  refine and_congr_right fun _ => ?_
  simp only [List.mem_map, List.mem_filter, decide_eq_true_eq]
  constructor
  · rintro (⟨link, ⟨hl, hk⟩, he⟩ | ⟨link, ⟨hl, hk⟩, he⟩)
    · exact ⟨link, hl, hk, Or.inl he⟩
    · exact ⟨link, hl, hk, Or.inr he⟩
  · rintro ⟨link, hl, hk, he | he⟩
    · exact Or.inl ⟨link, ⟨hl, hk⟩, he⟩
    · exact Or.inr ⟨link, ⟨hl, hk⟩, he⟩

theorem levelGraph_adj {links : List RouterGraphLink} (hsym : Symmetric links) {u v : ℕ} {k : ℤ} :
    (levelGraph links k).Adj u v ↔ u ≠ v ∧ LinkLevel links u v k := by
  rw [levelGraph_adj_iff]
  refine and_congr_right fun _ => exists_congr fun link => and_congr_right fun hl => ?_
  have hs := hsym link hl
  simp only [OverlayEdge.ends, Prod.mk.injEq]
  constructor
  · rintro ⟨hk, ⟨h₀, h₁⟩ | ⟨h₀, h₁⟩⟩
    · exact Or.inl ⟨h₀, h₁, hk⟩
    · exact Or.inr ⟨h₁, h₀, hs.symm.trans hk⟩
  · rintro (⟨h₀, h₁, hk⟩ | ⟨h₁, h₀, hk⟩)
    · exact ⟨hk, Or.inl ⟨h₀, h₁⟩⟩
    · exact ⟨hs.trans hk, Or.inr ⟨h₀, h₁⟩⟩

/-- **Levels that are forests are deadlock-free.** -/
theorem deadlockFree_of_forests {links : List RouterGraphLink} (hsym : Symmetric links)
    (hloop : ∀ link ∈ links, link.conn.n0 ≠ link.conn.n1)
    (hforest : ∀ k, 0 ≤ k → (levelGraph links k).IsAcyclic) : LevelsDeadlockFree links := by
  intro k hk
  have hne : ∀ u v, LinkLevel links u v k → u ≠ v := by
    rintro u v ⟨link, hl, ⟨rfl, rfl, _⟩ | ⟨rfl, rfl, _⟩⟩
    · exact hloop link hl
    · exact (hloop link hl).symm
  refine (ChannelDependency.acyclic_forestDep (hforest k hk)).mono ?_
  rintro a b ⟨hab, hne', ha, hb⟩
  exact ⟨hab, (levelGraph_adj hsym).2 ⟨hne _ _ ha, ha⟩, (levelGraph_adj hsym).2 ⟨hne _ _ hb, hb⟩,
    hne'⟩

/-- **A level that connects all hosts makes the routes complete.** -/
theorem complete_of_span {links : List RouterGraphLink} (hsym : Symmetric links) {n numLevels : ℕ}
    (hlevels : 0 < numLevels)
    (hspan : ∀ u < n, ∀ v < n, (levelGraph links 0).Reachable u v) :
    LevelsComplete links n numLevels := by
  intro src hsrc dst hdst _
  have hr := hspan src hsrc dst hdst
  rw [SimpleGraph.reachable_iff_reflTransGen] at hr
  refine ⟨0, Relation.ReflTransGen.lift (fun v => (v, 0)) (fun u v hadj => ?_) _ _ hr⟩
  exact ⟨hlevels, 0, ((levelGraph_adj hsym).1 hadj).2, le_rfl, le_rfl⟩

/-! ### Spanning trees -/

/-- The loop of `choose_sp_tree_links` over the pool: what remains and what is assigned. -/
def chooseSpTreeLoop (level : ℕ) : List RouterGraphLink → UnionSet ℕ → List RouterGraphLink →
    List RouterGraphLink → Except Abort (List RouterGraphLink × List RouterGraphLink)
  | [], _, remain, assigned => Except.ok (remain, assigned)
  | link :: pool, linkUset, remain, assigned => do
      let same ← unionSetIsSameSet linkUset link.conn.n0 link.conn.n1
      if same then
        chooseSpTreeLoop level pool linkUset (remain ++ [link]) assigned
      else do
        let linkUset ← unionSetMergeSet linkUset link.conn.n0 link.conn.n1
        chooseSpTreeLoop level pool linkUset remain
          (assigned ++ [{ link with level0 := level, level1 := level }])

/-- `choose_sp_tree_links`. -/
def chooseSpTreeLinks (hosts : List OverlayNode) (pool remain assigned : List RouterGraphLink)
    (level : ℕ) : Except Abort (List RouterGraphLink × List RouterGraphLink) :=
  let linkUset := hosts.foldl (fun uset node => unionSetAdd uset node.pid) unionSetCreate
  chooseSpTreeLoop level pool linkUset remain assigned

/-- `enum ordered_link_router_type`. -/
inductive OrderedLinkRouterType
  | random
  | band
  | hops
  | hub
  deriving DecidableEq, Repr

/-- The order in which `router_graph_make_spanning_trees` leaves the connections of the graph. -/
def spanningTreeOrder (lib : Libc) (graph : OverlayGraph) (type : OrderedLinkRouterType)
    (seed : ℤ) : List OverlayEdge :=
  match type with
  | OrderedLinkRouterType.random => vectorShuffle lib seed graph.conns
  | OrderedLinkRouterType.band => lib.qsort overlayEdgeSortByWidth graph.conns
  | OrderedLinkRouterType.hops => lib.qsort overlayEdgeSortByLength graph.conns
  | OrderedLinkRouterType.hub => lib.qsort (overlayEdgeSortByDegree graph) graph.conns

/-- The loop of `router_graph_make_spanning_trees`: one spanning tree a round until no link is
left.  It returns the assigned links and the number of levels. -/
def spanningTreeRounds (hosts : List OverlayNode) : ℕ → ℕ → List RouterGraphLink →
    List RouterGraphLink → Except Abort (List RouterGraphLink × ℕ)
  | fuel, level, pool, assigned =>
      if pool.isEmpty then Except.ok (assigned, level)
      else
        match fuel with
        | 0 => Except.error Abort.diverges
        | fuel + 1 => do
            let (remain, assigned) ← chooseSpTreeLinks hosts pool [] assigned level
            spanningTreeRounds hosts fuel (level + 1) remain assigned

/-- `router_graph_make_spanning_trees`: the graph with its connections reordered, the number of
levels and the links. -/
def routerGraphMakeSpanningTrees (lib : Libc) (graph : OverlayGraph)
    (type : OrderedLinkRouterType) (seed : ℤ) :
    Except Abort (OverlayGraph × ℕ × List RouterGraphLink) := do
  let conns := spanningTreeOrder lib graph type seed
  let pool := conns.map routerGraphLinkCreate
  let (assigned, levels) ← spanningTreeRounds graph.hosts conns.length 0 pool []
  Except.ok ({ graph with conns := conns }, levels, assigned)

/-- `router_graph_make_deadlock_prone_links`. -/
def routerGraphMakeDeadlockProneLinks (graph : OverlayGraph) : List RouterGraphLink :=
  graph.conns.map fun conn => { routerGraphLinkCreate conn with level0 := 0, level1 := 0 }

theorem spanningTreeOrder_perm (lib : Libc) (g : OverlayGraph) (type : OrderedLinkRouterType)
    (seed : ℤ) : (spanningTreeOrder lib g type seed).Perm g.conns := by
  cases type with
  | random => exact vectorShuffle_perm _ _ _
  | band => exact lib.qsort_perm _ _
  | hops => exact lib.qsort_perm _ _
  | hub => exact lib.qsort_perm _ _

/-! ### The rounds compute the greedy forests -/

/-- The link of a connection with the given level in both directions. -/
def leveledLink (p : OverlayEdge × ℕ) : RouterGraphLink :=
  { routerGraphLinkCreate p.1 with level0 := p.2, level1 := p.2 }

theorem chooseSpTreeLoop_spec {S : Finset ℕ} {G : SimpleGraph ℕ} {linkUset : UnionSet ℕ}
    (hrep : linkUset.Rep S G) (level : ℕ) {es : List OverlayEdge}
    (hes : ∀ e ∈ es, e.n0 ∈ S ∧ e.n1 ∈ S) (remain assigned : List RouterGraphLink) :
    ∃ kept dropped, Sift OverlayEdge.ends G es kept dropped ∧
      chooseSpTreeLoop level (es.map routerGraphLinkCreate) linkUset remain assigned =
        Except.ok (remain ++ dropped.map routerGraphLinkCreate,
          assigned ++ kept.map fun e => leveledLink (e, level)) := by
  induction es generalizing G linkUset remain assigned with
  | nil => exact ⟨[], [], Sift.nil, by simp [chooseSpTreeLoop]⟩
  | cons e es ih =>
      obtain ⟨h0, h1⟩ := hes e List.mem_cons_self
      have hes' : ∀ x ∈ es, x.n0 ∈ S ∧ x.n1 ∈ S := fun x hx => hes x (List.mem_cons_of_mem _ hx)
      obtain ⟨same, hsame, hiff⟩ := hrep.isSameSet h0 h1
      have hstep : unionSetIsSameSet linkUset (routerGraphLinkCreate e).conn.n0
          (routerGraphLinkCreate e).conn.n1 = Except.ok same := hsame
      cases same with
      | true =>
          obtain ⟨kept, dropped, hsift, hrun⟩ :=
            ih hrep hes' (remain ++ [routerGraphLinkCreate e]) assigned
          refine ⟨kept, e :: dropped, Sift.drop (hiff.1 rfl) hsift, ?_⟩
          rw [List.map_cons, chooseSpTreeLoop, hstep]
          simp only [bind, Except.bind, if_true, hrun]
          simp
      | false =>
          have hn : ¬ G.Reachable e.n0 e.n1 := fun hr => Bool.false_ne_true (hiff.2 hr)
          obtain ⟨uset', hmerge, hrep'⟩ := hrep.mergeSet h0 h1 hn
          have hmerge' : unionSetMergeSet linkUset (routerGraphLinkCreate e).conn.n0
              (routerGraphLinkCreate e).conn.n1 = Except.ok uset' := hmerge
          obtain ⟨kept, dropped, hsift, hrun⟩ :=
            ih hrep' hes' remain (assigned ++ [leveledLink (e, level)])
          refine ⟨e :: kept, dropped, Sift.keep hn hsift, ?_⟩
          rw [List.map_cons, chooseSpTreeLoop, hstep]
          simp only [bind, Except.bind, hmerge', Bool.false_eq_true, if_false]
          refine hrun.trans ?_
          simp

/-- The union set of `choose_sp_tree_links` starts with every host in a set of its own. -/
theorem rep_hosts {hosts : List OverlayNode} (hnodup : (hosts.map OverlayNode.pid).Nodup) :
    (hosts.foldl (fun uset node => unionSetAdd uset node.pid) unionSetCreate).Rep
      (hosts.map OverlayNode.pid).toFinset ⊥ := by
  have key : ∀ (l : List OverlayNode) (u : UnionSet ℕ) (S : Finset ℕ), u.Rep S ⊥ →
      (l.map OverlayNode.pid).Nodup → (∀ node ∈ l, node.pid ∉ S) →
      (l.foldl (fun uset node => unionSetAdd uset node.pid) u).Rep
        (S ∪ (l.map OverlayNode.pid).toFinset) ⊥ := by
    intro l
    induction l with
    | nil =>
        intro u S hu _ _
        simpa using hu
    | cons node l ih =>
        intro u S hu hnd hS
        rw [List.map_cons, List.nodup_cons] at hnd
        have h := ih _ _ (hu.add (hS node List.mem_cons_self)) hnd.2 ?_
        · rw [List.foldl_cons, List.map_cons, List.toFinset_cons, Finset.union_insert,
            ← Finset.insert_union]
          exact h
        · intro x hx hmem
          rcases Finset.mem_insert.1 hmem with he | hmem
          · exact hnd.1 (he ▸ List.mem_map_of_mem hx)
          · exact hS x (List.mem_cons_of_mem _ hx) hmem
  simpa using key hosts unionSetCreate ∅ UnionSet.rep_create hnodup (by simp)

theorem spanningTreeRounds_spec {g : OverlayGraph} (hg : g.Proper) {fuel : ℕ} (level : ℕ)
    {es : List OverlayEdge} (hes : es ⊆ g.conns) (hfuel : es.length ≤ fuel)
    (assigned : List RouterGraphLink) :
    ∃ asg levels, Layers OverlayEdge.ends es level asg ∧ level ≤ levels ∧
      (∀ p ∈ asg, p.2 < levels) ∧ (∀ k, level ≤ k → k < levels → layer asg k ≠ []) ∧
      spanningTreeRounds g.hosts fuel level (es.map routerGraphLinkCreate) assigned =
        Except.ok (assigned ++ asg.map leveledLink, levels) := by
  induction fuel generalizing level es assigned with
  | zero =>
      obtain rfl := List.length_eq_zero_iff.1 (Nat.le_zero.1 hfuel)
      exact ⟨[], level, Layers.nil, le_rfl, by simp, by omega, by simp [spanningTreeRounds]⟩
  | succ fuel ih =>
      rcases eq_or_ne es [] with rfl | hne
      · exact ⟨[], level, Layers.nil, le_rfl, by simp, by omega, by simp [spanningTreeRounds]⟩
      have hmem : ∀ e ∈ es, e.n0 ∈ (g.hosts.map OverlayNode.pid).toFinset ∧
          e.n1 ∈ (g.hosts.map OverlayNode.pid).toFinset := by
        intro e he
        simpa using hg.mem e (hes he)
      obtain ⟨kept, dropped, hsift, hrun⟩ :=
        chooseSpTreeLoop_spec (rep_hosts hg.nodup) level hmem [] assigned
      have hkept := hsift.kept_ne_nil hne fun e he => hg.ne e (hes he)
      have hlt := hsift.length_lt hkept
      obtain ⟨asg, levels, hlayers, hle, hlevels, hfull, hrounds⟩ :=
        ih (level + 1) (fun e he => hes (hsift.perm.subset (List.mem_append_right _ he)))
          (show dropped.length ≤ fuel by omega) (assigned ++ kept.map fun e => leveledLink (e, level))
      refine ⟨_, levels, Layers.pass hne hsift hlayers, by omega, ?_, ?_, ?_⟩
      · intro p hp
        rcases List.mem_append.1 hp with hp | hp
        · obtain ⟨e, _, rfl⟩ := List.mem_map.1 hp
          exact hle
        · exact hlevels p hp
      · intro k hk hk'
        rw [hlayers.layer_of_pass]
        split
        · exact hkept
        · exact hfull k (by omega) hk'
      · have hempty : (es.map routerGraphLinkCreate).isEmpty = false := by simpa using hne
        rw [spanningTreeRounds, hempty]
        simp only [Bool.false_eq_true, if_false, chooseSpTreeLinks, hrun, bind, Except.bind,
          List.nil_append, hrounds]
        simp [Function.comp_def]

/-- **`router_graph_make_spanning_trees` numbers the connections by the greedy forests of their
order.** -/
theorem routerGraphMakeSpanningTrees_spec (lib : Libc) {g : OverlayGraph} (hg : g.Proper)
    (type : OrderedLinkRouterType) (seed : ℤ) :
    ∃ asg levels, Layers OverlayEdge.ends (spanningTreeOrder lib g type seed) 0 asg ∧
      (∀ p ∈ asg, p.2 < levels) ∧ (∀ k < levels, layer asg k ≠ []) ∧
      routerGraphMakeSpanningTrees lib g type seed =
        Except.ok ({ g with conns := spanningTreeOrder lib g type seed }, levels,
          asg.map leveledLink) := by
  obtain ⟨asg, levels, hlayers, _, hlevels, hfull, hrounds⟩ :=
    spanningTreeRounds_spec hg 0 (spanningTreeOrder_perm lib g type seed).subset le_rfl []
  refine ⟨asg, levels, hlayers, hlevels, fun k hk => hfull k (Nat.zero_le k) hk, ?_⟩
  simp [routerGraphMakeSpanningTrees, hrounds, bind, Except.bind]

/-- A graph with a connection has a level. -/
theorem levels_pos {lib : Libc} {g : OverlayGraph} {type : OrderedLinkRouterType} {seed : ℤ}
    {asg : List (OverlayEdge × ℕ)} {levels : ℕ}
    (h : Layers OverlayEdge.ends (spanningTreeOrder lib g type seed) 0 asg)
    (hlevels : ∀ p ∈ asg, p.2 < levels) (hne : g.conns ≠ []) : 0 < levels := by
  obtain ⟨e, he⟩ := List.exists_mem_of_ne_nil _ hne
  have hmem := (h.perm.trans (spanningTreeOrder_perm lib g type seed)).symm.subset he
  obtain ⟨p, hp, _⟩ := List.mem_map.1 hmem
  exact (Nat.zero_le _).trans_lt (hlevels p hp)

/-! ### Their levels -/

section Levels

variable {asg : List (OverlayEdge × ℕ)}

theorem leveledLink_symmetric : Symmetric (asg.map leveledLink) := by
  intro link hl
  obtain ⟨p, _, rfl⟩ := List.mem_map.1 hl
  rfl

theorem levelGraph_leveledLink (asg : List (OverlayEdge × ℕ)) (k : ℕ) :
    levelGraph (asg.map leveledLink) k = graph ((layer asg k).map OverlayEdge.ends) := by
  rw [levelGraph, layer, List.filter_map, List.map_map, List.map_map]
  congr 1
  refine congrArg₂ _ rfl (List.filter_congr fun p _ => ?_)
  simp [leveledLink]

/-- **The numbers of the greedy forests are deadlock-free.** -/
theorem spanningTrees_deadlockFree {g : OverlayGraph} {n : ℕ} (hg : g.Simple n)
    {es : List OverlayEdge} (hes : es ⊆ g.conns) (h : Layers OverlayEdge.ends es 0 asg) :
    LevelsDeadlockFree (asg.map leveledLink) := by
  refine deadlockFree_of_forests leveledLink_symmetric ?_ ?_
  · intro link hl
    obtain ⟨p, hp, rfl⟩ := List.mem_map.1 hl
    exact hg.ne (hes (h.perm.subset (List.mem_map_of_mem hp)))
  · intro k hk
    lift k to ℕ using hk
    rw [levelGraph_leveledLink]
    exact h.acyclic k

/-- **The numbers of the greedy forests are complete.** -/
theorem spanningTrees_complete {g : OverlayGraph} {n : ℕ} (hconn : g.Connected n)
    {es : List OverlayEdge} (hes : es.Perm g.conns) (h : Layers OverlayEdge.ends es 0 asg)
    {numLevels : ℕ} (hlevels : 0 < numLevels) :
    LevelsComplete (asg.map leveledLink) n numLevels := by
  refine complete_of_span leveledLink_symmetric hlevels fun u hu v hv => ?_
  have h0 : levelGraph (asg.map leveledLink) 0 = graph ((layer asg 0).map OverlayEdge.ends) := by
    have := levelGraph_leveledLink asg 0
    exact_mod_cast this
  rw [h0]
  refine h.span.reachable ?_
  rw [graph_perm (hes.map _)]
  exact hconn u hu v hv

end Levels

/-! ### Nested forests -/

/-- The graph of the links whose level is at least `k`. -/
def levelsFromGraph (links : List RouterGraphLink) (k : ℤ) : SimpleGraph ℕ :=
  graph ((links.filter fun link => k ≤ link.level0).map fun link => link.conn.ends)

theorem levelsFromGraph_leveledLink (asg : List (OverlayEdge × ℕ)) (k : ℕ) :
    levelsFromGraph (asg.map leveledLink) k =
      graph (((asg.filter fun p => k ≤ p.2).map Prod.fst).map OverlayEdge.ends) := by
  rw [levelsFromGraph, List.filter_map, List.map_map, List.map_map]
  congr 1
  refine congrArg₂ _ rfl (List.filter_congr fun p _ => ?_)
  simp [leveledLink]

theorem levelGraph_le_levelsFrom (links : List RouterGraphLink) (k : ℤ) :
    levelGraph links k ≤ levelsFromGraph links k := by
  refine graph_mono (List.map_subset _ fun link hl => ?_)
  rw [List.mem_filter, decide_eq_true_eq] at hl ⊢
  exact ⟨hl.1, hl.2.ge⟩

/-- The levels of ordered-link routing: `levels` nested forests, each of which connects whatever
the links of its level and above connect. -/
structure NestedForests (conns : List OverlayEdge) (levels : ℕ) (links : List RouterGraphLink) :
    Prop where
  once : (links.map RouterGraphLink.conn).Perm conns
  level : ∀ link ∈ links, link.level0 = link.level1 ∧ 0 ≤ link.level0 ∧ link.level0 < levels
  nonempty : ∀ k < levels, ∃ link ∈ links, link.level0 = (k : ℤ)
  noCycle : ∀ k < levels, NoCycle
    ((links.filter fun link => link.level0 = (k : ℤ)).map fun link => link.conn.ends)
  maximal : ∀ k < levels, ∀ u v,
    (levelGraph links k).Reachable u v ↔ (levelsFromGraph links k).Reachable u v
  inside : ∀ link ∈ links, ∀ k : ℕ, k ≤ link.level0 →
    (levelGraph links k).Reachable link.conn.n0 link.conn.n1

theorem nestedForests_leveledLink {asg : List (OverlayEdge × ℕ)} {es conns : List OverlayEdge}
    {levels : ℕ} (h : Layers OverlayEdge.ends es 0 asg) (hperm : es.Perm conns)
    (hlevels : ∀ p ∈ asg, p.2 < levels) (hfull : ∀ k < levels, layer asg k ≠ []) :
    NestedForests conns levels (asg.map leveledLink) := by
  have hspan : ∀ k : ℕ, Span (levelGraph (asg.map leveledLink) k)
      (((asg.filter fun p => k ≤ p.2).map Prod.fst).map OverlayEdge.ends) := by
    intro k
    rw [levelGraph_leveledLink]
    exact h.span_of_le (Nat.zero_le k)
  refine ⟨?_, ?_, ?_, ?_, ?_, ?_⟩
  · rw [List.map_map]
    exact h.perm.trans hperm
  · intro link hl
    obtain ⟨p, hp, rfl⟩ := List.mem_map.1 hl
    exact ⟨rfl, Int.natCast_nonneg _, Int.ofNat_lt.2 (hlevels p hp)⟩
  · intro k hk
    obtain ⟨e, he⟩ := List.exists_mem_of_ne_nil _ (hfull k hk)
    exact ⟨leveledLink (e, k), List.mem_map_of_mem (mem_layer.1 he), rfl⟩
  · intro k _
    have hlinks : (((asg.map leveledLink).filter fun link => link.level0 = (k : ℤ)).map
        fun link => link.conn.ends) = (layer asg k).map OverlayEdge.ends := by
      rw [layer, List.filter_map, List.map_map, List.map_map]
      refine congrArg₂ _ rfl (List.filter_congr fun p _ => ?_)
      simp [leveledLink]
    rw [hlinks]
    exact h.noCycle k
  · intro k _ u v
    constructor
    · exact fun hr => hr.mono (levelGraph_le_levelsFrom _ _)
    · intro hr
      rw [levelsFromGraph_leveledLink] at hr
      exact (hspan k).reachable hr
  · intro link hl k hk
    obtain ⟨p, hp, rfl⟩ := List.mem_map.1 hl
    have hkp : k ≤ p.2 := Int.ofNat_le.1 hk
    have hmem : p ∈ asg.filter fun p => k ≤ p.2 := List.mem_filter.2 ⟨hp, by simpa using hkp⟩
    exact hspan k _ (List.mem_map_of_mem (List.mem_map_of_mem hmem))

/-- **`router_graph_make_spanning_trees` returns, and its levels are nested maximal forests.** -/
theorem spanningTrees_nested (lib : Libc) (graph : OverlayGraph) (hgraph : graph.Proper)
    (type : OrderedLinkRouterType) (seed : ℤ) :
    ∃ graph' levels links,
      routerGraphMakeSpanningTrees lib graph type seed = Except.ok (graph', levels, links) ∧
      NestedForests graph.conns levels links := by
  obtain ⟨asg, levels, hlayers, hlevels, hfull, hrun⟩ :=
    routerGraphMakeSpanningTrees_spec lib hgraph type seed
  exact ⟨_, levels, _, hrun,
    nestedForests_leveledLink hlayers (spanningTreeOrder_perm lib graph type seed) hlevels hfull⟩

/-- Three hosts in a triangle, two of which have a second connection. -/
def triangleGraph : OverlayGraph :=
  [⟨0, 1, 1, 1⟩, ⟨1, 2, 1, 1⟩, ⟨0, 1, 2, 3⟩, ⟨2, 0, 1, 2⟩].foldl overlayGraphInsertConn
    (overlayGraphAddNode (overlayGraphAddNode (overlayGraphAddNode overlayGraphCreate 0 "a")
      1 "b") 2 "c")

theorem spanningTrees_nested_triangle : ∃ graph' levels links,
    routerGraphMakeSpanningTrees (Libc.insertion fun _ i => i) triangleGraph
      OrderedLinkRouterType.random 7 = Except.ok (graph', levels, links) ∧
    NestedForests triangleGraph.conns levels links :=
  spanningTrees_nested _ triangleGraph
    ⟨by decide, by decide, by decide⟩ OrderedLinkRouterType.random 7

/-- One level for all links is complete. -/
theorem deadlockProne_complete {g : OverlayGraph} {n : ℕ} (hconn : g.Connected n) :
    LevelsComplete (routerGraphMakeDeadlockProneLinks g) n 1 := by
  have hsym : Symmetric (routerGraphMakeDeadlockProneLinks g) := by
    intro link hl
    obtain ⟨e, _, rfl⟩ := List.mem_map.1 hl
    rfl
  refine complete_of_span hsym Nat.one_pos fun u hu v hv => ?_
  have hgraph : levelGraph (routerGraphMakeDeadlockProneLinks g) 0 = g.links := by
    rw [levelGraph, routerGraphMakeDeadlockProneLinks, List.filter_map, List.map_map,
      OverlayGraph.links]
    congr 1
    refine congrArg₂ _ rfl (List.filter_eq_self.2 fun e _ => ?_)
    simp
  rw [hgraph]
  exact hconn u hu v hv

end DLFree

/-
**The priorities of ordered-link routing: the three sorted orders of `graph/router.c`.**

`router_graph_make_spanning_trees` sorts the connections before it takes out the spanning trees, so
that links of high priority get low levels.  When a link is left for level `m`, the tree of every
smaller level already joins its ends by links that came before it in the order.  For the widths and
the lengths these are links of at least its priority.  `overlay_edge_sort_by_degree` puts the smaller
degrees first, although its comment and the routing types of `gxp.h` say the hubs come first; the
documented priority is then met only where the order cannot matter.

Main definitions:

* `hubDegree` — the number of connections of the two ends of a link;
* `HasPriority` — one link has at least the documented priority of another;
* `RespectsPriority` — the trees of smaller levels join the ends of a link by links of at least its
  priority.

Main results:

* `Layers.comesBefore_of_path` — the links of those paths came before the link in the order;
* `spanningTrees_priority_iff` — **bandwidth and hops are respected in every graph, hubs exactly
  where all links of a cycle have the same degree**.
-/

import DLFree.CycleColours
import DLFree.Router

set_option relaxedAutoImplicit false
set_option autoImplicit false

namespace DLFree

open ForestLayers LinkGraph CycleColours

/-! ### The three orders -/

/-- The degrees of two hosts together. -/
def endsDegree (graph : OverlayGraph) : Sym2 ℕ → ℕ :=
  Sym2.lift ⟨fun u v => (graph.nodeConns u).length + (graph.nodeConns v).length,
    fun _ _ => Nat.add_comm _ _⟩

/-- The degrees of the two hosts of a link together. -/
def hubDegree (graph : OverlayGraph) (e : OverlayEdge) : ℕ := endsDegree graph s(e.n0, e.n1)

/-- The documented priorities: the link `x` has at least the priority of `e`. -/
def HasPriority (graph : OverlayGraph) (type : OrderedLinkRouterType) (x e : OverlayEdge) : Prop :=
  match type with
  | OrderedLinkRouterType.random => True
  | OrderedLinkRouterType.band => e.width ≤ x.width
  | OrderedLinkRouterType.hops => x.len ≤ e.len
  | OrderedLinkRouterType.hub => hubDegree graph e ≤ hubDegree graph x

/-- What the sort of the source guarantees of a link `x` that comes before `e`. -/
def ComesBefore (graph : OverlayGraph) (type : OrderedLinkRouterType) (x e : OverlayEdge) : Prop :=
  match type with
  | OrderedLinkRouterType.random => True
  | OrderedLinkRouterType.band => e.width ≤ x.width
  | OrderedLinkRouterType.hops => x.len ≤ e.len
  | OrderedLinkRouterType.hub => hubDegree graph x ≤ hubDegree graph e

theorem overlayEdgeSortByWidth_le {e0 e1 : OverlayEdge} :
    overlayEdgeSortByWidth e0 e1 ≤ 0 ↔ e1.width ≤ e0.width := by
  unfold overlayEdgeSortByWidth
  split_ifs with h₁ h₂
  · exact iff_of_true (by omega) (le_of_lt h₁)
  · exact iff_of_true le_rfl h₂.ge
  · exact iff_of_false (by omega) fun h => h₂ (le_antisymm (not_lt.1 h₁) h)

theorem overlayEdgeSortByLength_le {e0 e1 : OverlayEdge} :
    overlayEdgeSortByLength e0 e1 ≤ 0 ↔ e0.len ≤ e1.len := by
  unfold overlayEdgeSortByLength
  split_ifs with h₁ h₂
  · exact iff_of_true (by omega) h₁.le
  · exact iff_of_true le_rfl h₂.le
  · exact iff_of_false (by omega) fun h => h₂ (le_antisymm h (not_lt.1 h₁))

theorem overlayEdgeSortByDegree_le {graph : OverlayGraph} {e0 e1 : OverlayEdge} :
    overlayEdgeSortByDegree graph e0 e1 ≤ 0 ↔ hubDegree graph e0 ≤ hubDegree graph e1 := by
  show (if hubDegree graph e0 < hubDegree graph e1 then (-1 : ℤ)
    else if hubDegree graph e0 = hubDegree graph e1 then 0 else 1) ≤ 0 ↔ _
  split_ifs <;> omega

/-- A comparator that compares a key orders its arguments. -/
theorem TotalCmp.of_key {α κ : Type} [LinearOrder κ] {cmp : α → α → ℤ} (key : α → κ)
    (h : ∀ a b, cmp a b ≤ 0 ↔ key a ≤ key b) : TotalCmp cmp where
  total a b := by
    rw [h, h]
    exact le_total _ _
  trans a b c := by
    rw [h, h, h]
    exact le_trans

/-- **The connections are left in the order of the comparator.** -/
theorem spanningTreeOrder_sorted (lib : Libc) (graph : OverlayGraph) (type : OrderedLinkRouterType)
    (seed : ℤ) : (spanningTreeOrder lib graph type seed).Pairwise (ComesBefore graph type) := by
  cases type with
  | random => exact List.pairwise_iff_getElem.2 fun _ _ _ _ _ => trivial
  | band =>
      have hcmp : TotalCmp overlayEdgeSortByWidth := TotalCmp.of_key (fun e => -e.width)
        fun _ _ => overlayEdgeSortByWidth_le.trans neg_le_neg_iff.symm
      exact (lib.qsort_sorted _ _ hcmp).imp fun h => overlayEdgeSortByWidth_le.1 h
  | hops =>
      have hcmp : TotalCmp overlayEdgeSortByLength :=
        TotalCmp.of_key OverlayEdge.len fun _ _ => overlayEdgeSortByLength_le
      exact (lib.qsort_sorted _ _ hcmp).imp fun h => overlayEdgeSortByLength_le.1 h
  | hub =>
      have hcmp : TotalCmp (overlayEdgeSortByDegree graph) :=
        TotalCmp.of_key (hubDegree graph) fun _ _ => overlayEdgeSortByDegree_le
      exact (lib.qsort_sorted _ _ hcmp).imp fun h => overlayEdgeSortByDegree_le.1 h

/-! ### Paths of smaller levels -/

/-- The trees of smaller levels join the ends of a link, by links of at least its priority. -/
def RespectsPriority (graph : OverlayGraph) (type : OrderedLinkRouterType)
    (links : List RouterGraphLink) : Prop :=
  ∀ link ∈ links, ∀ k : ℕ, (k : ℤ) < link.level0 →
    (levelGraph links k).Reachable link.conn.n0 link.conn.n1 ∧
    ∀ p : (levelGraph links k).Walk link.conn.n0 link.conn.n1, p.IsPath →
      ∀ x ∈ links, x.level0 = (k : ℤ) → s(x.conn.n0, x.conn.n1) ∈ p.edges →
        HasPriority graph type x.conn link.conn

section Paths

variable {asg : List (OverlayEdge × ℕ)} {es : List OverlayEdge}
  (h : Layers OverlayEdge.ends es 0 asg)
include h

/-- **The path of a smaller level between the ends of a link consists of links that came before
it.** -/
theorem comesBefore_of_path {R : OverlayEdge → OverlayEdge → Prop} (hes : es.Pairwise R)
    {e : OverlayEdge} {m k : ℕ} (he : (e, m) ∈ asg) (hk : k < m)
    {p : (graph ((layer asg k).map OverlayEdge.ends)).Walk e.n0 e.n1} (hp : p.IsPath)
    {x : OverlayEdge} (hx : x ∈ layer asg k) (hxp : s(x.n0, x.n1) ∈ p.edges) : R x e := by
  obtain ⟨pre, hpre, hR, hreach⟩ := h.before hes he (Nat.zero_le k) hk
  obtain ⟨q, hq⟩ := hreach.exists_isPath
  -- the path of the links before `e` is the only path of the level
  have hle : graph (pre.map OverlayEdge.ends) ≤ graph ((layer asg k).map OverlayEdge.ends) :=
    graph_mono (List.map_subset _ hpre)
  have heq := ((h.acyclic k).subsingleton_path _ _).elim ⟨p, hp⟩ ⟨q.mapLe hle, hq.mapLe hle⟩
  have hxq : s(x.n0, x.n1) ∈ q.edges := by
    rw [← q.edges_mapLe_eq_edges hle, ← Subtype.mk.inj heq]
    exact hxp
  obtain ⟨-, hmem⟩ := adj_iff.1 (q.adj_of_mem_edges hxq)
  have hy : ∃ y ∈ pre, x.ends = y.ends ∨ x.ends = y.ends.swap := by
    rcases hmem with hmem | hmem <;> obtain ⟨y, hy, hye⟩ := List.mem_map.1 hmem
    · exact ⟨y, hy, Or.inl hye.symm⟩
    · exact ⟨y, hy, Or.inr (by rw [hye]; rfl)⟩
  obtain ⟨y, hy, hends⟩ := hy
  rw [(h.noCycle k).eq_of_ends hx (hpre hy) hends]
  exact hR y hy

/-- The smaller levels join the ends of a link. -/
theorem reachable_of_lt {e : OverlayEdge} {m k : ℕ} (he : (e, m) ∈ asg) (hk : k < m) :
    (levelGraph (asg.map leveledLink) k).Reachable e.n0 e.n1 := by
  rw [levelGraph_leveledLink]
  have hmem : (e, m) ∈ asg.filter fun p => k ≤ p.2 :=
    List.mem_filter.2 ⟨he, by simpa using hk.le⟩
  exact h.span_of_le (Nat.zero_le k) _ (List.mem_map_of_mem (List.mem_map_of_mem hmem))

/-- Every path of the levels has the order of the sort. -/
theorem path_comesBefore {graph : OverlayGraph} {type : OrderedLinkRouterType}
    (hes : es.Pairwise (ComesBefore graph type)) {link : RouterGraphLink}
    (hlink : link ∈ asg.map leveledLink) {k : ℕ} (hk : (k : ℤ) < link.level0)
    {p : (levelGraph (asg.map leveledLink) k).Walk link.conn.n0 link.conn.n1} (hp : p.IsPath)
    {x : RouterGraphLink} (hx : x ∈ asg.map leveledLink) (hxk : x.level0 = (k : ℤ))
    (hxp : s(x.conn.n0, x.conn.n1) ∈ p.edges) : ComesBefore graph type x.conn link.conn := by
  obtain ⟨⟨e, m⟩, he, rfl⟩ := List.mem_map.1 hlink
  obtain ⟨⟨y, j⟩, hy, rfl⟩ := List.mem_map.1 hx
  obtain rfl : j = k := Int.ofNat_inj.1 hxk
  have hgraph := levelGraph_leveledLink asg j
  have hxp' : s(y.n0, y.n1) ∈ (p.mapLe hgraph.le).edges :=
    (p.edges_mapLe_eq_edges hgraph.le).symm ▸ hxp
  exact comesBefore_of_path h hes he (Int.ofNat_lt.1 hk) (hp.mapLe hgraph.le) (mem_layer.2 hy) hxp'

/-- **Links of one degree on every cycle respect any priority among hubs.** -/
theorem respectsPriority_of_uniform {g : OverlayGraph} (hperm : es.Perm g.conns)
    (hloop : ∀ e ∈ g.conns, e.n0 ≠ e.n1) (hu : UniformCycles g.links (endsDegree g)) :
    RespectsPriority g OrderedLinkRouterType.hub (asg.map leveledLink) := by
  intro link hlink k hk
  obtain ⟨⟨e, m⟩, he, rfl⟩ := List.mem_map.1 hlink
  refine ⟨reachable_of_lt h he (Int.ofNat_lt.1 hk), fun p hp x _ _ hxp => ?_⟩
  have hacyc : (levelGraph (asg.map leveledLink) k).IsAcyclic := by
    rw [levelGraph_leveledLink]
    exact h.acyclic k
  have hsub : layer asg k ⊆ g.conns := fun y hy =>
    hperm.subset (h.perm.subset (List.mem_map_of_mem (mem_layer.1 hy)))
  have hle : levelGraph (asg.map leveledLink) k ≤ g.links := by
    rw [levelGraph_leveledLink]
    exact graph_mono (List.map_subset _ hsub)
  have hmem : e ∈ g.conns := hperm.subset (h.perm.subset (List.mem_map_of_mem he))
  have hadj : g.links.Adj e.n0 e.n1 :=
    adj_iff.2 ⟨hloop e hmem, Or.inl (List.mem_map_of_mem hmem)⟩
  exact (hu.uniformPaths hacyc hle _ _ hadj p hp _ hxp).ge

/-- **In an order of growing degrees, only graphs with links of one degree on every cycle give the
hubs their priority.** -/
theorem uniform_of_respectsPriority {g : OverlayGraph} (hperm : es.Perm g.conns)
    (hloop : ∀ e ∈ g.conns, e.n0 ≠ e.n1)
    (hes : es.Pairwise (ComesBefore g OrderedLinkRouterType.hub))
    (hr : RespectsPriority g OrderedLinkRouterType.hub (asg.map leveledLink)) :
    UniformCycles g.links (endsDegree g) := by
  have hgraph := levelGraph_leveledLink asg 0
  have hacyc : (levelGraph (asg.map leveledLink) (0 : ℕ)).IsAcyclic := by
    rw [hgraph]
    exact h.acyclic 0
  have hspan : ∀ e ∈ g.conns,
      (levelGraph (asg.map leveledLink) (0 : ℕ)).Reachable e.n0 e.n1 := fun e he => by
    rw [hgraph]
    exact h.span _ (List.mem_map_of_mem (hperm.symm.subset he))
  have hle : levelGraph (asg.map leveledLink) (0 : ℕ) ≤ g.links := by
    rw [hgraph]
    refine graph_mono (List.map_subset _ fun y hy => ?_)
    exact hperm.subset (h.perm.subset (List.mem_map_of_mem (mem_layer.1 hy)))
  rw [uniformCycles_iff hacyc hle]
  · -- the two orders leave only equal degrees on a path
    have hpath : ∀ e ∈ g.conns, ∀ p : (levelGraph (asg.map leveledLink) (0 : ℕ)).Walk e.n0 e.n1,
        p.IsPath → ∀ f ∈ p.edges, endsDegree g f = endsDegree g s(e.n0, e.n1) := by
      intro e he p hp f hf
      obtain ⟨⟨e', m⟩, hem, rfl⟩ := List.mem_map.1 (h.perm.symm.subset (hperm.symm.subset he))
      rcases Nat.eq_zero_or_pos m with rfl | hm
      · have hlevel : leveledLink (e', 0) ∈ asg.map leveledLink := List.mem_map_of_mem hem
        have hadj : (levelGraph (asg.map leveledLink) (0 : ℕ)).Adj e'.n0 e'.n1 :=
          levelGraph_adj_iff.2 ⟨hloop _ he, _, hlevel, rfl, Or.inl rfl⟩
        rw [edges_eq_of_adj hacyc hp hadj, List.mem_singleton] at hf
        rw [hf]
      · induction f using Sym2.ind with
        | _ u v =>
            have hadj := p.adj_of_mem_edges hf
            obtain ⟨-, x, hx, hxk, hxe⟩ := levelGraph_adj_iff.1 hadj
            have hxf : s(x.conn.n0, x.conn.n1) = s(u, v) := by
              rcases hxe with hxe | hxe <;> obtain ⟨rfl, rfl⟩ := Prod.mk.inj hxe
              · rfl
              · exact Sym2.eq_swap
            have hlink : leveledLink (e', m) ∈ asg.map leveledLink := List.mem_map_of_mem hem
            have hlt : ((0 : ℕ) : ℤ) < (leveledLink (e', m)).level0 := Int.ofNat_lt.2 hm
            have hxp : s(x.conn.n0, x.conn.n1) ∈ p.edges := hxf ▸ hf
            have hup := path_comesBefore h hes hlink hlt hp hx hxk hxp
            have hdown := (hr _ hlink 0 hlt).2 p hp x hx hxk hxp
            rw [← hxf]
            exact le_antisymm hup hdown
    intro a b hab p hp f hf
    rcases (adj_iff.1 hab).2 with hm | hm <;> obtain ⟨e, he, hee⟩ := List.mem_map.1 hm <;>
      obtain ⟨rfl, rfl⟩ := Prod.mk.inj hee
    · exact hpath e he p hp f hf
    · rw [Sym2.eq_swap]
      refine hpath e he p.reverse hp.reverse f ?_
      rw [SimpleGraph.Walk.edges_reverse]
      exact List.mem_reverse.2 hf
  · intro a b hab
    rcases (adj_iff.1 hab).2 with hm | hm <;> obtain ⟨e, he, hee⟩ := List.mem_map.1 hm <;>
      obtain ⟨rfl, rfl⟩ := Prod.mk.inj hee
    · exact hspan e he
    · exact (hspan e he).symm

end Paths

/-- **`router_graph_make_spanning_trees` respects the widths and the lengths in every graph, and the
hubs exactly where all links of a cycle have ends of the same degree.** -/
theorem spanningTrees_priority_iff (lib : Libc) (graph : OverlayGraph) (hgraph : graph.Proper)
    (type : OrderedLinkRouterType) (seed : ℤ) :
    ∃ graph' levels links,
      routerGraphMakeSpanningTrees lib graph type seed = Except.ok (graph', levels, links) ∧
      (RespectsPriority graph type links ↔ (type = OrderedLinkRouterType.hub →
        UniformCycles graph.links (endsDegree graph))) := by
  obtain ⟨asg, levels, hlayers, -, -, hrun⟩ :=
    routerGraphMakeSpanningTrees_spec lib hgraph type seed
  have hsorted := spanningTreeOrder_sorted lib graph type seed
  have hperm := spanningTreeOrder_perm lib graph type seed
  refine ⟨_, levels, _, hrun, ?_⟩
  by_cases hhub : type = OrderedLinkRouterType.hub
  · subst hhub
    constructor
    · exact fun hr _ => uniform_of_respectsPriority hlayers hperm hgraph.ne hsorted hr
    · exact fun hu => respectsPriority_of_uniform hlayers hperm hgraph.ne (hu rfl)
  · refine iff_of_true (fun link hlink k hk => ?_) fun h => absurd h hhub
    obtain ⟨⟨e, m⟩, he, rfl⟩ := List.mem_map.1 hlink
    refine ⟨reachable_of_lt hlayers he (Int.ofNat_lt.1 hk), fun p hp x hx hxk hxp => ?_⟩
    have hbefore := path_comesBefore hlayers hsorted hlink hk hp hx hxk hxp
    cases type with
    | random => trivial
    | band => exact hbefore
    | hops => exact hbefore
    | hub => exact absurd rfl hhub

/-- A triangle with a fourth host at one of its corners. -/
def hubGraph : OverlayGraph :=
  [⟨0, 1, 1, 1⟩, ⟨1, 2, 1, 1⟩, ⟨0, 2, 1, 1⟩, ⟨0, 3, 1, 1⟩].foldl overlayGraphInsertConn
    (overlayGraphAddNode (overlayGraphAddNode (overlayGraphAddNode (overlayGraphAddNode
      overlayGraphCreate 0 "a") 1 "b") 2 "c") 3 "d")

theorem hubGraph_proper : hubGraph.Proper := ⟨by decide, by decide, by decide⟩

theorem spanningTrees_priority_hub : ∃ graph' levels links,
    routerGraphMakeSpanningTrees (Libc.insertion fun _ i => i) hubGraph
      OrderedLinkRouterType.hub 7 = Except.ok (graph', levels, links) ∧
    (RespectsPriority hubGraph OrderedLinkRouterType.hub links ↔
      (OrderedLinkRouterType.hub = OrderedLinkRouterType.hub →
        UniformCycles hubGraph.links (endsDegree hubGraph))) :=
  spanningTrees_priority_iff _ hubGraph hubGraph_proper OrderedLinkRouterType.hub 7

/-- The levels that the source gives to the connections of `hubGraph`: the link `02`, whose ends have
the largest degrees, comes last. -/
def hubLinks : List RouterGraphLink :=
  [(⟨1, 2, 1, 1⟩, 0), (⟨0, 3, 1, 1⟩, 0), (⟨0, 1, 1, 1⟩, 0), (⟨0, 2, 1, 1⟩, 1)].map leveledLink

/-- The tree of level 0 joins the hosts 0 and 2 over host 1, which is less of a hub. -/
theorem hubLinks_not_respects :
    ¬ RespectsPriority hubGraph OrderedLinkRouterType.hub hubLinks := by
  intro hr
  have h01 : (levelGraph hubLinks (0 : ℕ)).Adj 0 1 := levelGraph_adj_iff.2
    ⟨by decide, leveledLink (⟨0, 1, 1, 1⟩, 0), by decide, rfl, Or.inl rfl⟩
  have h12 : (levelGraph hubLinks (0 : ℕ)).Adj 1 2 := levelGraph_adj_iff.2
    ⟨by decide, leveledLink (⟨1, 2, 1, 1⟩, 0), by decide, rfl, Or.inl rfl⟩
  have hpath : (SimpleGraph.Walk.cons h01 (SimpleGraph.Walk.cons h12
      SimpleGraph.Walk.nil)).IsPath := by
    simp [SimpleGraph.Walk.cons_isPath_iff]
  have h : hubDegree hubGraph ⟨0, 2, 1, 1⟩ ≤ hubDegree hubGraph ⟨1, 2, 1, 1⟩ :=
    (hr (leveledLink (⟨0, 2, 1, 1⟩, 1)) (by decide) 0 (by decide)).2 _ hpath
      (leveledLink (⟨1, 2, 1, 1⟩, 0)) (by decide) rfl (by simp [leveledLink, routerGraphLinkCreate])
  exact absurd h (by decide)

theorem spanningTrees_priority_triangle : ∃ graph' levels links,
    routerGraphMakeSpanningTrees (Libc.insertion fun _ i => i) hubGraph
      OrderedLinkRouterType.hub 7 = Except.ok (graph', levels, links) ∧
    ¬ RespectsPriority hubGraph OrderedLinkRouterType.hub links :=
  ⟨{ hubGraph with conns := [⟨1, 2, 1, 1⟩, ⟨0, 3, 1, 1⟩, ⟨0, 1, 1, 1⟩, ⟨0, 2, 1, 1⟩] }, 2, hubLinks,
    rfl, hubLinks_not_respects⟩

end DLFree

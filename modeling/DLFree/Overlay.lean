/-
**Overlay graphs: `graph/overlay.c`.**

An overlay graph has hosts and connections between them.  A host is named by its pid, which is its
index among the hosts, and a connection is kept as a value: the source never compares two
connections, and it changes a connection only right after it has created it.

Lengths and widths are exact numbers here.  The topology file enters through the function that
`xml_topology_traverse` computes from it.

Main definitions:

* `OverlayGraph` — `struct overlay_graph` with the `conns` of its hosts;
* `overlayGraphAddNode`, `overlayGraphMakeConn`, `overlayGraphInsertConn` — how graphs are built;
* `overlayEdgeSortByWidth`, `overlayEdgeSortByLength`, `overlayEdgeSortByDegree` — the comparators;
* `OverlayGraph.Simple`, `OverlayGraph.Connected` — hosts `0..n-1`, no loop, one connection a pair.

Main results:

* `OverlayGraph.Simple.of_perm` — reordering the connections keeps a simple graph simple;
* `OverlayGraph.lenIn_le`, `OverlayGraph.lenIn_cons` — the length of the connections among the
  hosts of a route is at most that of all connections, and grows along the route.
-/

import DLFree.Libc
import DLFree.ForestLayers
import Mathlib.Algebra.Order.Ring.Rat
import Mathlib.Algebra.Order.BigOperators.Group.List

set_option relaxedAutoImplicit false
set_option autoImplicit false

namespace DLFree

/-- `struct overlay_edge`; its ends are given by their pids. -/
structure OverlayEdge where
  n0 : ℕ
  n1 : ℕ
  len : ℚ
  width : ℚ
  deriving DecidableEq, Repr

/-- The two ends of a connection. -/
def OverlayEdge.ends (e : OverlayEdge) : ℕ × ℕ := (e.n0, e.n1)

/-- `struct overlay_node`, without its connections. -/
structure OverlayNode where
  pid : ℕ
  name : String
  deriving DecidableEq, Repr

/-- `struct overlay_graph`; `nodeConns pid` is the vector `conns` of that host. -/
structure OverlayGraph where
  conns : List OverlayEdge
  hosts : List OverlayNode
  nodeConns : ℕ → List OverlayEdge

/-- What `xml_topology_traverse` finds between two hosts: the length and the width. -/
abbrev XmlTopology := String → String → Option (ℚ × ℚ)

/-- `overlay_graph_create`. -/
def overlayGraphCreate : OverlayGraph where
  conns := []
  hosts := []
  nodeConns := fun _ => []

/-- `overlay_graph_add_node`. -/
def overlayGraphAddNode (graph : OverlayGraph) (pid : ℕ) (hostname : String) : OverlayGraph :=
  { graph with hosts := graph.hosts ++ [⟨pid, hostname⟩] }

/-- `overlay_graph_add_conn` adds the new connection to the graph and to both of its ends. -/
def overlayGraphInsertConn (graph : OverlayGraph) (e : OverlayEdge) : OverlayGraph where
  conns := graph.conns ++ [e]
  hosts := graph.hosts
  nodeConns := fun v => graph.nodeConns v ++ (if v = e.n0 then [e] else []) ++
    if v = e.n1 then [e] else []

/-- The connection that `overlay_graph_add_conn` creates. -/
def overlayGraphMakeConn (xmlTop : XmlTopology) (src dst : OverlayNode) :
    Except Abort OverlayEdge :=
  match xmlTop src.name dst.name with
  | none => Except.error Abort.assertion
  | some (len, width) => Except.ok ⟨src.pid, dst.pid, len, width⟩

theorem mem_nodeConns_insertConn {graph : OverlayGraph} {e x : OverlayEdge} {v : ℕ} :
    x ∈ (overlayGraphInsertConn graph e).nodeConns v ↔
      x ∈ graph.nodeConns v ∨ (x = e ∧ (e.n0 = v ∨ e.n1 = v)) := by
  have hite : ∀ u : ℕ, x ∈ (if v = u then [e] else []) ↔ x = e ∧ u = v := by
    intro u
    by_cases hu : v = u
    · simp [hu]
    · simp [hu, Ne.symm hu]
  rw [overlayGraphInsertConn, List.mem_append, List.mem_append, hite, hite]
  tauto

/-! ### Comparators -/

/-- `overlay_edge_sort_by_width`: the wider connection comes first. -/
def overlayEdgeSortByWidth (e0 e1 : OverlayEdge) : ℤ :=
  if e0.width > e1.width then -1 else if e0.width = e1.width then 0 else 1

/-- `overlay_edge_sort_by_length`: the shorter connection comes first. -/
def overlayEdgeSortByLength (e0 e1 : OverlayEdge) : ℤ :=
  if e0.len < e1.len then -1 else if e0.len = e1.len then 0 else 1

/-- `overlay_edge_sort_by_degree`: the connection whose ends have fewer connections comes first. -/
def overlayEdgeSortByDegree (graph : OverlayGraph) (e0 e1 : OverlayEdge) : ℤ :=
  let c0 := (graph.nodeConns e0.n0).length + (graph.nodeConns e0.n1).length
  let c1 := (graph.nodeConns e1.n0).length + (graph.nodeConns e1.n1).length
  if c0 < c1 then -1 else if c0 = c1 then 0 else 1

/-! ### Simple connected graphs -/

namespace OverlayGraph

/-- The undirected graph of the connections. -/
def links (g : OverlayGraph) : SimpleGraph ℕ := LinkGraph.graph (g.conns.map OverlayEdge.ends)

/-- The hosts are `0..n-1`, no connection is a loop and no two join the same hosts. -/
structure Simple (g : OverlayGraph) (n : ℕ) : Prop where
  hosts : g.hosts.map OverlayNode.pid = List.range n
  lt : ∀ e ∈ g.conns, e.n0 < n ∧ e.n1 < n
  simple : ForestLayers.Simple OverlayEdge.ends g.conns
  nodeConns : ∀ v e, e ∈ g.nodeConns v ↔ e ∈ g.conns ∧ (e.n0 = v ∨ e.n1 = v)

/-- Every connection joins two distinct hosts, and no two hosts share a pid.  Two connections may
join the same hosts. -/
structure Proper (g : OverlayGraph) : Prop where
  nodup : (g.hosts.map OverlayNode.pid).Nodup
  mem : ∀ e ∈ g.conns, e.n0 ∈ g.hosts.map OverlayNode.pid ∧ e.n1 ∈ g.hosts.map OverlayNode.pid
  ne : ∀ e ∈ g.conns, e.n0 ≠ e.n1

/-- Every host reaches every other host. -/
def Connected (g : OverlayGraph) (n : ℕ) : Prop := ∀ u < n, ∀ v < n, g.links.Reachable u v

variable {g h : OverlayGraph} {n : ℕ}

theorem Simple.length_hosts (hg : g.Simple n) : g.hosts.length = n := by
  rw [← List.length_map (f := OverlayNode.pid), hg.hosts, List.length_range]

/-- A host is found under its pid. -/
theorem Simple.host (hg : g.Simple n) {i : ℕ} (hi : i < n) :
    ∃ node, g.hosts[i]? = some node ∧ node.pid = i := by
  have hlt : i < g.hosts.length := by rwa [hg.length_hosts]
  refine ⟨g.hosts[i], List.getElem?_eq_getElem hlt, ?_⟩
  have hpid := congrArg (fun l => l[i]?) hg.hosts
  rw [List.getElem?_map, List.getElem?_eq_getElem hlt, List.getElem?_range hi] at hpid
  exact Option.some.inj hpid

theorem Simple.ne (hg : g.Simple n) {e : OverlayEdge} (he : e ∈ g.conns) : e.n0 ≠ e.n1 :=
  hg.simple.loop e he

theorem Simple.proper (hg : g.Simple n) : g.Proper where
  nodup := hg.hosts ▸ List.nodup_range
  mem e he := by simpa [hg.hosts] using hg.lt e he
  ne _ he := hg.ne he

theorem samePair_symm {e f : OverlayEdge}
    (h : ¬ ForestLayers.SamePair OverlayEdge.ends e f) :
    ¬ ForestLayers.SamePair OverlayEdge.ends f e := by
  rintro (h' | h')
  · exact h (Or.inl h'.symm)
  · exact h (Or.inr (by rw [h', Prod.swap_swap]))

theorem Simple.links_adj (hg : g.Simple n) {u v : ℕ} :
    g.links.Adj u v ↔
      ∃ e ∈ g.conns, (e.n0 = u ∧ e.n1 = v) ∨ (e.n0 = v ∧ e.n1 = u) := by
  rw [links, LinkGraph.adj_iff]
  constructor
  · rintro ⟨_, hm | hm⟩ <;> obtain ⟨e, he, hee⟩ := List.mem_map.1 hm <;>
      simp only [OverlayEdge.ends, Prod.mk.injEq] at hee
    · exact ⟨e, he, Or.inl hee⟩
    · exact ⟨e, he, Or.inr hee⟩
  · rintro ⟨e, he, ⟨rfl, rfl⟩ | ⟨rfl, rfl⟩⟩
    · exact ⟨hg.ne he, Or.inl (List.mem_map_of_mem he)⟩
    · exact ⟨(hg.ne he).symm, Or.inr (List.mem_map_of_mem he)⟩

theorem Simple.adj_lt (hg : g.Simple n) {u v : ℕ} (h : g.links.Adj u v) : u < n ∧ v < n := by
  obtain ⟨e, he, ⟨rfl, rfl⟩ | ⟨rfl, rfl⟩⟩ := hg.links_adj.1 h
  · exact hg.lt e he
  · exact (hg.lt e he).symm

/-- Reordering the connections keeps a simple graph simple. -/
theorem Simple.of_perm (hg : g.Simple n) {conns : List OverlayEdge} (hp : conns.Perm g.conns) :
    ({ g with conns := conns } : OverlayGraph).Simple n where
  hosts := hg.hosts
  lt e he := hg.lt e (hp.subset he)
  simple := ⟨fun e he => hg.simple.loop e (hp.subset he),
    (hp.pairwise_iff fun h => samePair_symm h).2 hg.simple.pair⟩
  nodeConns v e := by rw [hg.nodeConns]; simp only [hp.mem_iff]

/-- Two hosts are joined by a connection. -/
def Linked (g : OverlayGraph) (i j : ℕ) : Prop :=
  ∃ e ∈ g.conns, (e.n0 = i ∧ e.n1 = j) ∨ (e.n0 = j ∧ e.n1 = i)

instance (g : OverlayGraph) (i j : ℕ) : Decidable (g.Linked i j) :=
  inferInstanceAs (Decidable (∃ e ∈ g.conns, (e.n0 = i ∧ e.n1 = j) ∨ (e.n0 = j ∧ e.n1 = i)))

theorem linked_insertConn {e : OverlayEdge} {i j : ℕ} :
    (overlayGraphInsertConn g e).Linked i j ↔
      g.Linked i j ∨ ((e.n0 = i ∧ e.n1 = j) ∨ (e.n0 = j ∧ e.n1 = i)) := by
  constructor
  · rintro ⟨x, hx, h⟩
    rcases List.mem_append.1 hx with hx | hx
    · exact Or.inl ⟨x, hx, h⟩
    · rw [List.mem_singleton.1 hx] at h
      exact Or.inr h
  · rintro (⟨x, hx, h⟩ | h)
    · exact ⟨x, List.mem_append_left _ hx, h⟩
    · exact ⟨e, List.mem_append_right _ List.mem_cons_self, h⟩

/-- A connection between two hosts that are not joined keeps a simple graph simple. -/
theorem Simple.insertConn (hg : g.Simple n) {e : OverlayEdge} (hlt : e.n0 < n ∧ e.n1 < n)
    (hne : e.n0 ≠ e.n1) (hno : ¬ g.Linked e.n0 e.n1) : (overlayGraphInsertConn g e).Simple n where
  hosts := hg.hosts
  lt x hx := by
    rcases List.mem_append.1 hx with hx | hx
    · exact hg.lt x hx
    · rw [List.mem_singleton.1 hx]
      exact hlt
  simple := by
    refine ⟨fun x hx => ?_, List.pairwise_append.2 ⟨hg.simple.pair, List.pairwise_singleton _ _, ?_⟩⟩
    · rcases List.mem_append.1 hx with hx | hx
      · exact hg.ne hx
      · rw [List.mem_singleton.1 hx]
        exact hne
    · intro x hx y hy hsame
      rw [List.mem_singleton.1 hy] at hsame
      simp only [ForestLayers.SamePair, OverlayEdge.ends, Prod.swap_prod_mk, Prod.mk.injEq] at hsame
      exact hno ⟨x, hx, hsame⟩
  nodeConns v x := by
    rw [mem_nodeConns_insertConn, hg.nodeConns, overlayGraphInsertConn, List.mem_append,
      List.mem_singleton]
    constructor
    · rintro (⟨h₁, h₂⟩ | ⟨rfl, h₂⟩)
      · exact ⟨Or.inl h₁, h₂⟩
      · exact ⟨Or.inr rfl, h₂⟩
    · rintro ⟨h₁ | rfl, h₂⟩
      · exact Or.inl ⟨h₁, h₂⟩
      · exact Or.inr ⟨rfl, h₂⟩

/-- More connections keep a graph connected. -/
theorem Connected.insertConn (hg : g.Connected n) (e : OverlayEdge) :
    (overlayGraphInsertConn g e).Connected n := by
  intro u hu v hv
  refine (hg u hu v hv).mono ?_
  rw [links, links, overlayGraphInsertConn, List.map_append]
  exact LinkGraph.graph_mono (List.subset_append_left _ _)

theorem links_of_perm {conns : List OverlayEdge} (hp : conns.Perm g.conns) :
    ({ g with conns := conns } : OverlayGraph).links = g.links :=
  LinkGraph.graph_perm (hp.map _)

/-! ### Lengths of routes -/

/-- The length of all connections together. -/
def totalLen (g : OverlayGraph) : ℚ := (g.conns.map OverlayEdge.len).sum

theorem totalLen_of_perm {conns : List OverlayEdge} (hp : conns.Perm g.conns) :
    ({ g with conns := conns } : OverlayGraph).totalLen = g.totalLen :=
  (hp.map _).sum_eq

/-- The length of the connections whose ends both lie in `p`. -/
def lenIn (g : OverlayGraph) (p : List ℕ) : ℚ :=
  (g.conns.map fun e => if e.n0 ∈ p ∧ e.n1 ∈ p then e.len else 0).sum

theorem lenIn_le (hpos : ∀ e ∈ g.conns, 0 < e.len) (p : List ℕ) : g.lenIn p ≤ g.totalLen := by
  refine List.sum_le_sum fun e he => ?_
  split
  · exact le_rfl
  · exact (hpos e he).le

/-- A sum in which no term decreases and one grows by `c` grows by `c`. -/
theorem sum_add_le {α : Type} {l : List α} {f k : α → ℚ} {c : ℚ} {a : α}
    (hfk : ∀ x ∈ l, f x ≤ k x) (ha : a ∈ l) (hc : f a + c ≤ k a) :
    (l.map f).sum + c ≤ (l.map k).sum := by
  obtain ⟨s, t, rfl⟩ := List.append_of_mem ha
  have hs : (s.map f).sum ≤ (s.map k).sum :=
    List.sum_le_sum fun x hx => hfk x (List.mem_append_left _ hx)
  have ht : (t.map f).sum ≤ (t.map k).sum :=
    List.sum_le_sum fun x hx => hfk x (List.mem_append_right _ (List.mem_cons_of_mem _ hx))
  simp only [List.map_append, List.map_cons, List.sum_append, List.sum_cons]
  linarith

/-- One more host next to the route adds at least the connection that leads to it. -/
theorem lenIn_cons (hpos : ∀ e ∈ g.conns, 0 < e.len) {p : List ℕ} {v : ℕ} (hv : v ∉ p)
    {e : OverlayEdge} (he : e ∈ g.conns)
    (hends : (e.n0 = v ∧ e.n1 ∈ p) ∨ (e.n1 = v ∧ e.n0 ∈ p)) :
    g.lenIn p + e.len ≤ g.lenIn (v :: p) := by
  refine sum_add_le (fun x hx => ?_) he ?_
  · by_cases h : x.n0 ∈ p ∧ x.n1 ∈ p
    · rw [if_pos h, if_pos ⟨List.mem_cons_of_mem _ h.1, List.mem_cons_of_mem _ h.2⟩]
    · rw [if_neg h]
      split
      · exact (hpos x hx).le
      · exact le_rfl
  · have hout : ¬ (e.n0 ∈ p ∧ e.n1 ∈ p) := by
      rcases hends with ⟨h, _⟩ | ⟨h, _⟩
      · exact fun h' => hv (h ▸ h'.1)
      · exact fun h' => hv (h ▸ h'.2)
    have hin : e.n0 ∈ v :: p ∧ e.n1 ∈ v :: p := by
      rcases hends with ⟨h, h'⟩ | ⟨h, h'⟩
      · exact ⟨by simp [h], List.mem_cons_of_mem _ h'⟩
      · exact ⟨List.mem_cons_of_mem _ h', by simp [h]⟩
    rw [if_neg hout, if_pos hin, zero_add]

end OverlayGraph

end DLFree

/-
**Overlays on a topology tree.**

A connection of an overlay has the length and the width that `xml_topology_traverse` finds between
its hosts, so it stands for a path of the tree.  The connections of a leveled walk then follow one
walk of the tree, which cannot be shorter, nor wider at its narrowest edge, than the direct path
between its ends.  When all edges of the tree have length 1 and the ends are connected, a shortest
leveled walk is as long as the direct path, so it runs over the same edges.

Main definitions:

* `xmlTopFind` — what `overlay_graph_add_conn` takes from `xml_topology_traverse`;
* `OverlayOn` — a connected simple overlay on the hosts of a topology;
* `XmlTop.hostNode`, `hostWidth` — the node of a host, and the width between two hosts;
* `hopSum` — the sum over the steps of a list of hosts.

Main results:

* `LeveledWalk.treeWalk` — **the walk in the tree under a leveled walk**;
* `WalkEntry.width_le`, `WalkEntry.dist_le` — no entry is wider or shorter than the direct path;
* `WalkEntry.width_eq` — **the entry of two connected hosts is as wide as the direct path**.
-/

import DLFree.DijkstraOptimal
import DLFree.LocalityAware
import DLFree.Topology

set_option relaxedAutoImplicit false
set_option autoImplicit false

namespace DLFree

open LinkGraph TreePaths

/-! ### Overlays on a topology -/

/-- What `overlay_graph_add_conn` takes from `xml_topology_traverse`, which gets a new vector and
two variables that it sets. -/
def xmlTopFind (top : XmlTop) : XmlTopology := fun src dst =>
  match xmlTopologyTraverse top src dst ⟨[], 0, 0⟩ with
  | Except.ok (true, out) => some (out.len, out.width)
  | _ => none

/-- A connected simple overlay on the hosts of the topology. -/
structure OverlayOn (top : XmlTop) (g : OverlayGraph) (n : ℕ) : Prop where
  hosts : g.hosts = (overlayGraphSimulateAddNodes overlayGraphCreate
    (top.nodes.map XmlTopNode.name)).hosts
  conns : ∀ e ∈ g.conns, ∃ src ∈ g.hosts, ∃ dst ∈ g.hosts,
    overlayGraphMakeConn (xmlTopFind top) src dst = Except.ok e
  simple : g.Simple n
  connected : g.Connected n

/-- The node of a host. -/
def XmlTop.hostNode (top : XmlTop) (g : OverlayGraph) (i : ℕ) : ℕ :=
  (xmlTopologyGetNode top (overlayHostName g i)).getD 0

section Overlay

variable {top : XmlTop} {g : OverlayGraph} {n : ℕ}

/-- The host `i` and its node. -/
theorem OverlayOn.host (h : OverlayOn top g n) (htop : top.Tree) {i : ℕ} (hi : i < n) :
    ∃ node, top.nodes[top.hostNode g i]? = some node ∧ g.hosts[i]? = some ⟨i, node.name⟩ := by
  obtain ⟨host, hhost, hpid⟩ := h.simple.host hi
  obtain ⟨pid, name⟩ := host
  subst hpid
  have hmem := hhost
  rw [h.hosts, overlayGraphSimulateAddNodes_hosts, List.getElem?_mapIdx] at hmem
  obtain ⟨name', hname, heq⟩ := Option.map_eq_some_iff.1 hmem
  cases heq
  obtain ⟨node, hnode, rfl⟩ := List.mem_map.1 (List.mem_filter.1 (List.mem_of_getElem? hname)).1
  obtain ⟨a, ha⟩ := List.mem_iff_getElem?.1 hnode
  refine ⟨node, ?_, hhost⟩
  rw [XmlTop.hostNode, overlayHostName, hhost, Option.map_some, Option.getD_some,
    xmlTopologyGetNode_eq htop ha]
  exact ha

/-- Different hosts have different nodes. -/
theorem OverlayOn.hostNode_inj (h : OverlayOn top g n) (htop : top.Tree) {i j : ℕ} (hi : i < n)
    (hj : j < n) (hij : top.hostNode g i = top.hostNode g j) : i = j := by
  obtain ⟨node, hnode, hhost⟩ := h.host htop hi
  obtain ⟨node', hnode', hhost'⟩ := h.host htop hj
  rw [hij, hnode', Option.some.injEq] at hnode
  subst hnode
  have hnodup := htop.names.filter fun name => isHostName name
  have hnames : ∀ (k : ℕ) (name : String), g.hosts[k]? = some ⟨k, name⟩ →
      ((top.nodes.map XmlTopNode.name).filter isHostName)[k]? = some name := by
    intro k name hk
    rw [h.hosts, overlayGraphSimulateAddNodes_hosts, List.getElem?_mapIdx] at hk
    obtain ⟨name', hname, heq⟩ := Option.map_eq_some_iff.1 hk
    cases heq
    exact hname
  have hi' := hnames i _ hhost
  have hj' := hnames j _ hhost'
  obtain ⟨hlt, hget⟩ := List.getElem?_eq_some_iff.1 hi'
  obtain ⟨hlt', hget'⟩ := List.getElem?_eq_some_iff.1 hj'
  exact (List.Nodup.getElem_inj_iff hnodup).1 (hget.trans hget'.symm)

/-- The direct path between two hosts. -/
theorem OverlayOn.exists_path (h : OverlayOn top g n) (htop : top.Tree) {i j : ℕ} (hi : i < n)
    (hj : j < n) : ∃ d : top.graph.Walk (top.hostNode g i) (top.hostNode g j), d.IsPath := by
  obtain ⟨node, hnode, _⟩ := h.host htop hi
  obtain ⟨node', hnode', _⟩ := h.host htop hj
  have hra := htop.reach _ (List.getElem?_eq_some_iff.1 hnode).1
  have hrb := htop.reach _ (List.getElem?_eq_some_iff.1 hnode').1
  exact (hra.symm.trans hrb).exists_isPath

/-- The direct path is what `xml_topology_traverse` finds. -/
theorem OverlayOn.traverse_eq (h : OverlayOn top g n) (htop : top.Tree) {i j : ℕ} (hi : i < n)
    (hj : j < n) {d : top.graph.Walk (top.hostNode g i) (top.hostNode g j)} (hd : d.IsPath)
    (len width : ℚ) :
    xmlTopologyTraverse top (overlayHostName g i) (overlayHostName g j) ⟨[], len, width⟩ =
      Except.ok (true, ⟨d.support, top.pathLen 0 d, bottleneck top.widthAt fltMax d⟩) := by
  obtain ⟨node, hnode, hhost⟩ := h.host htop hi
  obtain ⟨node', hnode', hhost'⟩ := h.host htop hj
  have hrun := xmlTopologyTraverse_eq htop hnode hnode' len width hd
  rw [overlayHostName, overlayHostName, hhost, hhost']
  exact hrun

theorem OverlayOn.find_eq (h : OverlayOn top g n) (htop : top.Tree) {i j : ℕ} (hi : i < n)
    (hj : j < n) {d : top.graph.Walk (top.hostNode g i) (top.hostNode g j)} (hd : d.IsPath) :
    xmlTopFind top (overlayHostName g i) (overlayHostName g j) =
      some (top.pathLen 0 d, bottleneck top.widthAt fltMax d) := by
  rw [xmlTopFind, h.traverse_eq htop hi hj hd]

/-- A connection has the length and the width of the path between its hosts. -/
theorem OverlayOn.conn (h : OverlayOn top g n) (htop : top.Tree) {e : OverlayEdge}
    (he : e ∈ g.conns) : ∃ d : top.graph.Walk (top.hostNode g e.n0) (top.hostNode g e.n1),
      d.IsPath ∧ e.len = top.pathLen 0 d ∧ e.width = bottleneck top.widthAt fltMax d := by
  obtain ⟨src, hsrc, dst, hdst, hmake⟩ := h.conns e he
  have hname : ∀ host ∈ g.hosts, host.pid < n ∧ overlayHostName g host.pid = host.name := by
    intro host hmem
    obtain ⟨i, hi⟩ := List.mem_iff_getElem?.1 hmem
    have hlt := (List.getElem?_eq_some_iff.1 hi).1
    rw [h.simple.length_hosts] at hlt
    obtain ⟨node, _, hhost⟩ := h.host htop hlt
    rw [hhost, Option.some.injEq] at hi
    subst hi
    exact ⟨hlt, by rw [overlayHostName, hhost]; rfl⟩
  obtain ⟨hi, hsname⟩ := hname src hsrc
  obtain ⟨hj, hdname⟩ := hname dst hdst
  obtain ⟨d, hd⟩ := h.exists_path htop hi hj
  rw [overlayGraphMakeConn, ← hsname, ← hdname, h.find_eq htop hi hj hd] at hmake
  cases hmake
  exact ⟨d, hd, rfl, rfl⟩

/-- The width that `xml_topology_traverse` finds between two hosts. -/
def hostWidth (top : XmlTop) (g : OverlayGraph) (i j : ℕ) : ℚ :=
  ((xmlTopFind top (overlayHostName g i) (overlayHostName g j)).map Prod.snd).getD 0

theorem OverlayOn.hostWidth_eq (h : OverlayOn top g n) (htop : top.Tree) {i j : ℕ} (hi : i < n)
    (hj : j < n) {d : top.graph.Walk (top.hostNode g i) (top.hostNode g j)} (hd : d.IsPath) :
    hostWidth top g i j = bottleneck top.widthAt fltMax d := by
  rw [hostWidth, h.find_eq htop hi hj hd]
  rfl

/-- A connection is as wide as the topology between its ends, in both directions. -/
theorem OverlayOn.hostWidth_conn (h : OverlayOn top g n) (htop : top.Tree) {e : OverlayEdge}
    (he : e ∈ g.conns) :
    hostWidth top g e.n0 e.n1 = e.width ∧ hostWidth top g e.n1 e.n0 = e.width := by
  obtain ⟨d, hd, _, hwidth⟩ := h.conn htop he
  obtain ⟨h0, h1⟩ := h.simple.lt e he
  rw [h.hostWidth_eq htop h0 h1 hd, h.hostWidth_eq htop h1 h0 hd.reverse, bottleneck_reverse,
    hwidth]
  exact ⟨rfl, rfl⟩

end Overlay

/-! ### Sums over the steps of a list -/

/-- The sum of `d` over the steps of a list of hosts. -/
def hopSum (d : ℕ → ℕ → ℕ) (p : List ℕ) : ℕ :=
  ((List.range (p.length - 1)).map fun j => d (p.getD j 0) (p.getD (j + 1) 0)).sum

theorem hopSum_append (d : ℕ → ℕ → ℕ) (p : List ℕ) (u v : ℕ) :
    hopSum d (p ++ [u] ++ [v]) = hopSum d (p ++ [u]) + d u v := by
  have hlen : (p ++ [u] ++ [v]).length - 1 = p.length + 1 := by simp
  have hlen' : (p ++ [u]).length - 1 = p.length := by simp
  rw [hopSum, hopSum, hlen, hlen', List.range_succ, List.map_append, List.sum_append]
  congr 1
  · refine congrArg List.sum (List.map_congr_left fun j hj => ?_)
    have hj' := List.mem_range.1 hj
    have hget : ∀ i, i < (p ++ [u]).length → (p ++ [u] ++ [v]).getD i 0 = (p ++ [u]).getD i 0 := by
      intro i hi
      rw [List.getD_eq_getElem?_getD, List.getD_eq_getElem?_getD, List.getElem?_append_left hi]
    rw [List.length_append, List.length_singleton] at hget
    rw [hget j (by omega), hget (j + 1) (by omega)]
  · simp

/-! ### The walk in the tree -/

section Walks

variable {top : XmlTop} {g : OverlayGraph} {n : ℕ} {links : List RouterGraphLink} {src v : ℕ}
  {k : ℤ} {p : List ℕ} {es : List RouterGraphLink}

/-- The edges of the tree between two hosts. -/
noncomputable def XmlTop.hostDist (top : XmlTop) (g : OverlayGraph) (i j : ℕ) : ℕ :=
  top.graph.dist (top.hostNode g i) (top.hostNode g j)

theorem LeveledWalk.last (h : LeveledWalk links src v k p es) : ∃ p', p = p' ++ [v] := by
  cases h with
  | source => exact ⟨[], rfl⟩
  | step => exact ⟨_, rfl⟩

theorem LeveledWalk.path_lt (h : LeveledWalk links src v k p es)
    (hlt : ∀ link ∈ links, link.conn.n0 < n ∧ link.conn.n1 < n) (hsrc : src < n) :
    ∀ x ∈ p, x < n := by
  induction h with
  | source => simpa using hsrc
  | @step u v j k p es link _ hlink hleads _ ih =>
      intro x hx
      rcases List.mem_append.1 hx with hx | hx
      · exact ih x hx
      · rw [List.mem_singleton.1 hx]
        obtain ⟨h0, h1⟩ := hlt link hlink
        rcases hleads with ⟨_, rfl, _⟩ | ⟨_, rfl, _⟩
        · exact h1
        · exact h0

/-- A link that leads from `u` to `v` stands for the path between their nodes. -/
theorem OverlayOn.leads (h : OverlayOn top g n) (htop : top.Tree)
    (hlinks : ∀ link ∈ links, link.conn ∈ g.conns) {link : RouterGraphLink} (hlink : link ∈ links)
    {u : ℕ} (hleads : link.Leads u v k) :
    ∃ d : top.graph.Walk (top.hostNode g u) (top.hostNode g v),
      d.IsPath ∧ link.conn.width = bottleneck top.widthAt fltMax d := by
  obtain ⟨d, hd, _, hwidth⟩ := h.conn htop (hlinks link hlink)
  rcases hleads with ⟨rfl, rfl, _⟩ | ⟨rfl, rfl, _⟩
  · exact ⟨d, hd, hwidth⟩
  · exact ⟨d.reverse, hd.reverse, by rw [bottleneck_reverse, hwidth]⟩

/-- **The connections of a leveled walk follow one walk of the tree**, which has their steps and their
narrowest edge. -/
theorem LeveledWalk.treeWalk (h : OverlayOn top g n) (htop : top.Tree)
    (hlinks : ∀ link ∈ links, link.conn ∈ g.conns) (hwalk : LeveledWalk links src v k p es) :
    ∃ q : top.graph.Walk (top.hostNode g src) (top.hostNode g v),
      q.length = hopSum (top.hostDist g) p ∧
      ∀ x ≤ fltMax, (∀ link ∈ es, x ≤ link.conn.width) ↔ ∀ e ∈ q.edges, x ≤ top.widthAt e := by
  induction hwalk with
  | source => exact ⟨SimpleGraph.Walk.nil, rfl, by simp⟩
  | @step u v j k p es link hwalk hlink hleads _ ih =>
      obtain ⟨q, hhops, hwidth⟩ := ih
      obtain ⟨d, hd, hdwidth⟩ := h.leads htop hlinks hlink hleads
      refine ⟨q.append d, ?_, fun x hx => ?_⟩
      · obtain ⟨p', rfl⟩ := hwalk.last
        rw [SimpleGraph.Walk.length_append, hhops, hopSum_append, length_eq_dist htop.acyclic hd]
        rfl
      · rw [SimpleGraph.Walk.edges_append, List.forall_mem_append, List.forall_mem_append,
          hwidth x hx, List.forall_mem_singleton, hdwidth, le_bottleneck, and_iff_right hx]

variable {dst : ℕ} {entry : OverlayRtableEntry}
  {d : top.graph.Walk (top.hostNode g src) (top.hostNode g dst)}

/-- No walk over connections is wider than the direct path. -/
theorem walkWidth_le_bottleneck (htop : top.Tree) (hd : d.IsPath)
    {q : top.graph.Walk (top.hostNode g src) (top.hostNode g dst)}
    (hq : ∀ x ≤ fltMax, (∀ link ∈ es, x ≤ link.conn.width) ↔ ∀ e ∈ q.edges, x ≤ top.widthAt e) :
    walkWidth es maxDijkstraWidth ≤ bottleneck top.widthAt fltMax d := by
  obtain ⟨hmax, hle⟩ := walkWidth_le es maxDijkstraWidth
  have hflt : walkWidth es maxDijkstraWidth ≤ fltMax :=
    hmax.trans (by norm_num [maxDijkstraWidth, fltMax])
  refine le_trans ?_ (bottleneck_le htop.acyclic hd q)
  exact le_bottleneck.2 ⟨hflt, (hq _ hflt).1 hle⟩

/-- The conversion to `int` is monotone. -/
theorem truncToInt_mono {a b : ℚ} (h : a ≤ b) : truncToInt a ≤ truncToInt b := by
  simp only [truncToInt]
  split <;> split
  · exact Int.floor_le_floor h
  · linarith
  · exact (Int.ceil_nonpos.2 (by linarith)).trans (Int.floor_nonneg.2 (by assumption))
  · exact Int.ceil_le_ceil h

/-- **An entry is at most as wide as the direct path.** -/
theorem WalkEntry.width_le (hentry : WalkEntry links src dst entry p es) (h : OverlayOn top g n)
    (htop : top.Tree) (hlinks : ∀ link ∈ links, link.conn ∈ g.conns) (hd : d.IsPath) :
    entry.width ≤ truncToInt (bottleneck top.widthAt fltMax d) := by
  obtain ⟨k, hwalk⟩ := hentry.walk
  obtain ⟨q, _, hq⟩ := hwalk.treeWalk h htop hlinks
  rw [hentry.width]
  exact truncToInt_mono (walkWidth_le_bottleneck htop hd hq)

/-- **The path of an entry runs over at least as many edges of the tree as the direct path.** -/
theorem WalkEntry.dist_le (hentry : WalkEntry links src dst entry p es) (h : OverlayOn top g n)
    (htop : top.Tree) (hlinks : ∀ link ∈ links, link.conn ∈ g.conns) :
    top.hostDist g src dst ≤ hopSum (top.hostDist g) p := by
  obtain ⟨k, hwalk⟩ := hentry.walk
  obtain ⟨q, hhops, _⟩ := hwalk.treeWalk h htop hlinks
  exact hhops ▸ SimpleGraph.dist_le q

/-- In a tree whose edges have length 1 the length of a walk is the number of its edges, as long as a
`float` can count them. -/
theorem pathLen_unit (hunit : ∀ e ∈ top.edges, e.len = 1) (htop : top.Tree) {a b : ℕ}
    (q : top.graph.Walk a b) (hshort : q.length ≤ 2 ^ 24) : top.pathLen 0 q = q.length := by
  have hlens : q.edges.map top.lenAt = List.replicate q.length 1 := by
    rw [← SimpleGraph.Walk.length_edges, List.eq_replicate_iff, List.length_map]
    refine ⟨rfl, fun x hx => ?_⟩
    obtain ⟨y, hy, rfl⟩ := List.mem_map.1 hx
    induction y with
    | _ u v =>
      obtain ⟨e, he, hends⟩ := XmlTop.exists_edge_of_adj (SimpleGraph.Walk.adj_of_mem_edges q hy)
      have hpair : s(u, v) = s(e.n0, e.n1) := by
        rw [eq_comm, Sym2.eq_iff]
        exact hends
      rw [hpair, (htop.attributes he).1, hunit e he]
  have hsum : (List.replicate q.length (1 : ℚ)).sum = q.length := by simp
  have hle : (q.length : ℚ) ≤ 2 ^ 24 := by exact_mod_cast hshort
  have hmax : (2 : ℚ) ^ 24 ≤ fltMax := by norm_num [fltMax]
  have hexact : ExactLengths (List.replicate q.length 1) := by
    refine ⟨0, by norm_num, fun x hx => ⟨1, ?_⟩, ?_, ?_⟩
    · rw [List.eq_of_mem_replicate hx]
      norm_num
    · rw [hsum, zpow_zero, mul_one]
      exact hle
    · rw [hsum]
      exact hle.trans hmax
  rw [XmlTop.pathLen, hlens, hexact.sum_eq, hsum]

/-- The connections are as long as the paths between their hosts have edges. -/
def XmlTop.UnitConns (top : XmlTop) (g : OverlayGraph) : Prop :=
  ∀ e ∈ g.conns, e.len = top.hostDist g e.n0 e.n1

theorem OverlayOn.unitConns (h : OverlayOn top g n) (htop : top.Tree)
    (hunit : ∀ e ∈ top.edges, e.len = 1)
    (hshort : ∀ i < n, ∀ j < n, top.hostDist g i j ≤ 2 ^ 24) : top.UnitConns g := by
  intro e he
  obtain ⟨d, hd, hlen, _⟩ := h.conn htop he
  obtain ⟨h0, h1⟩ := h.simple.lt e he
  have hdist : d.length = top.hostDist g e.n0 e.n1 := length_eq_dist htop.acyclic hd
  rw [hlen, pathLen_unit hunit htop d (hdist ▸ hshort _ h0 _ h1), hdist]

/-- Then a leveled walk is as long as its steps have edges. -/
theorem LeveledWalk.walkLen_unit (hconns : top.UnitConns g)
    (hlinks : ∀ link ∈ links, link.conn ∈ g.conns) (hwalk : LeveledWalk links src v k p es) :
    walkLen es = hopSum (top.hostDist g) p := by
  induction hwalk with
  | source => rfl
  | @step u v j k p es link hwalk hlink hleads _ ih =>
      have hstep : link.conn.len = top.hostDist g u v := by
        rw [hconns _ (hlinks link hlink)]
        rcases hleads with ⟨rfl, rfl, _⟩ | ⟨rfl, rfl, _⟩
        · rfl
        · exact congrArg _ SimpleGraph.dist_comm
      obtain ⟨p', rfl⟩ := hwalk.last
      rw [walkLen_append, ih, hopSum_append, hstep, Nat.cast_add]

/-- **The entry of two connected hosts is as wide as the direct path**, up to `MAX_DIJKSTRA_WIDTH`,
when all edges have length 1: no level forbids the connection, and every walk of its length runs
over the same edges. -/
theorem WalkEntry.width_eq (hentry : WalkEntry links src dst entry p es) (h : OverlayOn top g n)
    (htop : top.Tree) (hconns : top.UnitConns g)
    (hlinks : ∀ link ∈ links, link.conn ∈ g.conns) (hd : d.IsPath) {link : RouterGraphLink}
    (hlink : link ∈ links) (hk : 0 ≤ k) (hleads : link.Leads src dst k) :
    entry.width = truncToInt (min maxDijkstraWidth (bottleneck top.widthAt fltMax d)) := by
  obtain ⟨k', hwalk⟩ := hentry.walk
  obtain ⟨q, hhops, hq⟩ := hwalk.treeWalk h htop hlinks
  -- the connection itself is a leveled walk, as long as the direct path
  have hdirect := LeveledWalk.step LeveledWalk.source hlink hleads hk
  have hle := hentry.least _ _ _ hdirect
  have hone : hopSum (top.hostDist g) ([] ++ [src] ++ [dst]) = d.length := by
    rw [hopSum_append, length_eq_dist htop.acyclic hd]
    exact Nat.zero_add _
  rw [hwalk.walkLen_unit hconns hlinks, ← hhops, hdirect.walkLen_unit hconns hlinks,
    Nat.cast_le] at hle
  replace hle : q.length ≤ d.length := hle.trans hone.le
  have hsame : bottleneck top.widthAt fltMax q = bottleneck top.widthAt fltMax d :=
    bottleneck_eq htop.acyclic hd hle
  rw [hentry.width]
  congr 1
  refine le_antisymm (le_min (walkWidth_le es _).1 (walkWidth_le_bottleneck htop hd hq)) ?_
  rcases walkWidth_mem es maxDijkstraWidth with hw | ⟨x, hx, hw⟩
  · exact (min_le_left _ _).trans hw.ge
  · rw [hw, ← hsame]
    refine (min_le_right _ _).trans ?_
    exact (hq _ (bottleneck_le_top q)).2 (fun e he => bottleneck_le_of_mem he) x hx

end Walks

/-! ### Two hosts -/

/-- Two hosts below the root. -/
def pairTop (width : ℚ) : XmlTop :=
  let root := xmlTopologyAddNode xmlTopologyCreate "ROOT" none
  let host := xmlTopologyAddEdge root.1 root.2 "a" 1 width
  (xmlTopologyAddEdge host.1 root.2 "b" 1 width).1

/-- The two hosts with a connection. -/
def pairGraph (width : ℚ) : OverlayGraph :=
  overlayGraphInsertConn ⟨[], [⟨0, "a"⟩, ⟨1, "b"⟩], fun _ => []⟩ ⟨0, 1, 2, width⟩

theorem pairTop_built {width : ℚ} (h : width ≤ fltMax) : (pairTop width).Built := by
  refine XmlTop.Built.edge (XmlTop.Built.edge (XmlTop.Built.root "ROOT") ?_ ?_ h) ?_ ?_ h
  · exact Nat.one_pos
  · decide
  · exact Nat.two_pos
  · intro node hnode
    rcases List.mem_pair.1 hnode with rfl | rfl <;> simp [xmlTopNodeAddEdge]

theorem pairTop_unit (width : ℚ) : ∀ e ∈ (pairTop width).edges, e.len = 1 := by
  intro e he
  rcases List.mem_pair.1 he with rfl | rfl <;> rfl

theorem pairTop_width (width : ℚ) : ∀ e ∈ (pairTop width).edges, e.width = width := by
  intro e he
  rcases List.mem_pair.1 he with rfl | rfl <;> rfl

theorem mem_pairGraph_conns {width : ℚ} {e : OverlayEdge} :
    e ∈ (pairGraph width).conns ↔ e = ⟨0, 1, 2, width⟩ := List.mem_singleton

theorem pairGraph_simple (width : ℚ) : (pairGraph width).Simple 2 where
  hosts := rfl
  lt e he := by
    rw [mem_pairGraph_conns.1 he]
    exact ⟨Nat.zero_lt_two, Nat.one_lt_two⟩
  simple := by
    refine ⟨fun e he => ?_, List.pairwise_singleton _ (⟨0, 1, 2, width⟩ : OverlayEdge)⟩
    rw [mem_pairGraph_conns.1 he]
    exact Nat.zero_ne_one
  nodeConns v e := by
    rw [mem_pairGraph_conns, pairGraph, mem_nodeConns_insertConn]
    constructor
    · rintro (h | ⟨rfl, h⟩)
      · cases h
      · exact ⟨rfl, h⟩
    · rintro ⟨rfl, h⟩
      exact Or.inr ⟨rfl, h⟩

theorem pairGraph_connected (width : ℚ) : (pairGraph width).Connected 2 := by
  have hadj : (pairGraph width).links.Adj 0 1 :=
    (pairGraph_simple width).links_adj.2 ⟨_, mem_pairGraph_conns.2 rfl, Or.inl ⟨rfl, rfl⟩⟩
  intro u hu v hv
  obtain rfl | rfl : u = 0 ∨ u = 1 := by omega
  all_goals obtain rfl | rfl : v = 0 ∨ v = 1 := by omega
  · exact SimpleGraph.Reachable.refl _
  · exact hadj.reachable
  · exact hadj.reachable.symm
  · exact SimpleGraph.Reachable.refl _

theorem pairGraph_on {width : ℚ} (hfind : xmlTopFind (pairTop width) "a" "b" = some (2, width)) :
    OverlayOn (pairTop width) (pairGraph width) 2 where
  hosts := by
    have hnames : (["ROOT", "a", "b"].filter fun name => isHostName name) = ["a", "b"] := by decide
    rw [overlayGraphSimulateAddNodes_hosts]
    exact (congrArg (fun names => names.mapIdx OverlayNode.mk) hnames).symm
  conns e he := by
    rw [mem_pairGraph_conns.1 he]
    refine ⟨⟨0, "a"⟩, List.mem_cons_self, ⟨1, "b"⟩, List.mem_cons_of_mem _ List.mem_cons_self, ?_⟩
    rw [overlayGraphMakeConn, hfind]
  simple := pairGraph_simple width
  connected := pairGraph_connected width

/-- The width between the two hosts. -/
theorem pairGraph_width {width : ℚ} (hle : width ≤ fltMax)
    (hfind : xmlTopFind (pairTop width) "a" "b" = some (2, width)) {i j : ℕ} (hi : i < 2)
    (hj : j < 2) (hij : i ≠ j) : hostWidth (pairTop width) (pairGraph width) i j = width := by
  have hconn := (pairGraph_on hfind).hostWidth_conn (pairTop_built hle).tree
    (mem_pairGraph_conns.2 rfl)
  obtain ⟨rfl, rfl⟩ | ⟨rfl, rfl⟩ : (i = 0 ∧ j = 1) ∨ (i = 1 ∧ j = 0) := by omega
  · exact hconn.1
  · exact hconn.2

end DLFree

/-
**The topology tree: `xml/topology.c`.**

A topology is a tree of named nodes; a node is named here by its index in the vector `nodes`, and an
edge is kept as a value, as nothing changes it after it has been created.  `xml_topology_traverse`
looks for a path by backtracking.  It writes the length and the width of the path into variables of
its caller while it searches, so branches that fail overwrite them; a branch that goes on writes them
again from what it has kept.

Names are compared as whole strings, as `strcmp` does.  Lengths are added as `float`s, one rounding
for each edge from the start of the path on; widths are only compared.

Main definitions:

* `XmlTopNode`, `XmlTop` — `struct xml_top_node` and `struct xml_topology`;
* `xmlTopologyAddNode`, `xmlTopologyAddEdge`, `xmlTopologyTraverse` — the functions of the source;
* `XmlTop.Built` — what calls of these functions build;
* `XmlTop.Shape`, `XmlTop.Tree` — a tree, and a tree whose nodes have different names;
* `XmlTop.pathLen` — the lengths of a path, added as `float`s;
* `XmlTop.TreePath` — the path between two nodes with its lengths and its width.

Main results:

* `XmlTop.Built.tree` — what is built is a tree;
* `xmlTraverse_spec` — what a call finds, and what it leaves when it finds nothing;
* `xmlTopologyTraverse_path` — **the traversal returns with the only path, its length and its width,
  and with the path the other way round from the other end**;
* `ExactLengths.sum_eq` — when the length is the sum of the lengths of the edges, in both directions;
* `xmlTopologyTraverse_path_long` — a path that is not as long in one direction as in the other.
-/

import DLFree.Libc
import DLFree.LinkGraph
import DLFree.TreePaths

set_option relaxedAutoImplicit false
set_option autoImplicit false

namespace DLFree

open LinkGraph TreePaths

/-! ### The code -/

/-- `struct xml_top_edge`; its ends are given by their indices. -/
structure XmlTopEdge where
  n0 : ℕ
  n1 : ℕ
  len : ℚ
  width : ℚ
  deriving DecidableEq, Repr

/-- `struct xml_top_node`. -/
structure XmlTopNode where
  name : String
  parent : Option ℕ
  edges : List XmlTopEdge
  deriving DecidableEq, Repr

/-- `struct xml_topology`. -/
structure XmlTop where
  nodes : List XmlTopNode
  edges : List XmlTopEdge
  deriving DecidableEq, Repr

/-- `xml_topology_create`. -/
def xmlTopologyCreate : XmlTop := ⟨[], []⟩

/-- `xml_topology_add_node`: the topology and the new node. -/
def xmlTopologyAddNode (top : XmlTop) (nodename : String) (parent : Option ℕ) : XmlTop × ℕ :=
  ({ top with nodes := top.nodes ++ [⟨nodename, parent, []⟩] }, top.nodes.length)

/-- `xml_top_node_add_edge`. -/
def xmlTopNodeAddEdge (e : XmlTopEdge) (node : XmlTopNode) : XmlTopNode :=
  { node with edges := node.edges ++ [e] }

/-- `xml_topology_add_edge`: the topology and the new node. -/
def xmlTopologyAddEdge (top : XmlTop) (parent : ℕ) (nodename : String) (len width : ℚ) :
    XmlTop × ℕ :=
  let newEdge : XmlTopEdge := ⟨parent, top.nodes.length, len, width⟩
  ({ nodes := top.nodes.modify parent (xmlTopNodeAddEdge newEdge) ++
        [⟨nodename, some parent, [newEdge]⟩]
     edges := top.edges ++ [newEdge] }, top.nodes.length)

/-- `xml_topology_get_node`. -/
def xmlTopologyGetNode (top : XmlTop) (nodename : String) : Option ℕ :=
  top.nodes.findIdx? fun node => node.name = nodename

/-- What the caller of `xml_topology_traverse` owns: the vector `path`, `*len` and `*width`. -/
structure XmlOut where
  path : List ℕ
  len : ℚ
  width : ℚ
  deriving DecidableEq, Repr

/-- The loop of `xml_topology_traverse` over the edges of its node; `traverse` is the call for the
other end of an edge. -/
def xmlTraverseEdges (top : XmlTop) (traverse : XmlOut → Except Abort (Bool × XmlOut))
    (node : XmlTopNode) (tmpLen tmpWidth : ℚ) :
    List XmlTopEdge → XmlOut → Except Abort (Bool × XmlOut)
  | [], out => Except.ok (false, out)
  | edge :: edges, out =>
      match top.nodes[edge.n0]? with
      | none => Except.error Abort.badAccess
      | some n0 =>
          let child := if node.name = n0.name then edge.n1 else edge.n0
          if child ∈ out.path then xmlTraverseEdges top traverse node tmpLen tmpWidth edges out
          else do
            let (found, out) ← traverse
              { path := out.path ++ [child]
                len := floatAdd tmpLen edge.len
                width := if tmpWidth > edge.width then edge.width else tmpWidth }
            if found then Except.ok (true, out)
            else
              xmlTraverseEdges top traverse node tmpLen tmpWidth edges
                { out with path := out.path.dropLast }

/-- `xml_topology_traverse`, with the number of calls that may be open at once. -/
def xmlTraverse (top : XmlTop) (srcname dstname : String) :
    ℕ → XmlOut → Except Abort (Bool × XmlOut)
  | 0, _ => Except.error Abort.diverges
  | fuel + 1, out => do
      let out ←
        if out.path.isEmpty then
          match xmlTopologyGetNode top srcname with
          | none => Except.error Abort.assertion
          | some node => Except.ok { path := [node], len := 0, width := fltMax }
        else Except.ok out
      match out.path.getLast? with
      | none => Except.error Abort.badAccess
      | some last =>
          match top.nodes[last]? with
          | none => Except.error Abort.badAccess
          | some node =>
              if node.name = dstname then Except.ok (true, out)
              else
                xmlTraverseEdges top (xmlTraverse top srcname dstname fuel) node out.len out.width
                  node.edges out

/-- `xml_topology_traverse`: whether it found the node, and what it leaves to its caller. -/
def xmlTopologyTraverse (top : XmlTop) (srcname dstname : String) (out : XmlOut) :
    Except Abort (Bool × XmlOut) :=
  xmlTraverse top srcname dstname (top.nodes.length + 1) out

/-- What the list of the edges of a node does not touch is there for every node, the new one last. -/
theorem xmlTopologyAddEdge_map {γ : Type} (field : XmlTopNode → γ)
    (hfield : ∀ e node, field (xmlTopNodeAddEdge e node) = field node) (top : XmlTop) (parent : ℕ)
    (nodename : String) (len width : ℚ) :
    (xmlTopologyAddEdge top parent nodename len width).1.nodes.map field =
      top.nodes.map field ++
        [field ⟨nodename, some parent, [⟨parent, top.nodes.length, len, width⟩]⟩] := by
  have hmodify : (top.nodes.modify parent (xmlTopNodeAddEdge ⟨parent, top.nodes.length, len,
      width⟩)).map field = top.nodes.map field := by
    refine List.ext_getElem? fun i => ?_
    rw [List.getElem?_map, List.getElem?_map]
    by_cases hi : parent = i
    · subst hi
      rw [List.getElem?_modify_eq, Option.map_eq_map, Option.map_map]
      exact congrArg (fun f => Option.map f top.nodes[parent]?) (funext fun node => hfield _ node)
    · rw [List.getElem?_modify_ne _ _ hi]
  simp only [xmlTopologyAddEdge, List.map_append, hmodify, List.map_cons, List.map_nil]

theorem xmlTopologyAddEdge_names (top : XmlTop) (parent : ℕ) (nodename : String) (len width : ℚ) :
    (xmlTopologyAddEdge top parent nodename len width).1.nodes.map XmlTopNode.name =
      top.nodes.map XmlTopNode.name ++ [nodename] :=
  xmlTopologyAddEdge_map XmlTopNode.name (fun _ _ => rfl) top parent nodename len width

theorem xmlTopologyAddEdge_parents (top : XmlTop) (parent : ℕ) (nodename : String)
    (len width : ℚ) :
    (xmlTopologyAddEdge top parent nodename len width).1.nodes.map XmlTopNode.parent =
      top.nodes.map XmlTopNode.parent ++ [some parent] :=
  xmlTopologyAddEdge_map XmlTopNode.parent (fun _ _ => rfl) top parent nodename len width

/-- The nodes after one more edge: the new one, and the old ones, the parent with the edge. -/
theorem xmlTopologyAddEdge_node {top : XmlTop} {parent : ℕ} {nodename : String} {len width : ℚ}
    {v : ℕ} {node : XmlTopNode}
    (h : (xmlTopologyAddEdge top parent nodename len width).1.nodes[v]? = some node) :
    (v = top.nodes.length ∧
      node = ⟨nodename, some parent, [⟨parent, top.nodes.length, len, width⟩]⟩) ∨
    ∃ old, top.nodes[v]? = some old ∧ node =
      if v = parent then xmlTopNodeAddEdge ⟨parent, top.nodes.length, len, width⟩ old else old := by
  rcases lt_or_ge v top.nodes.length with hv | hv
  · have hv' : v < (top.nodes.modify parent (xmlTopNodeAddEdge ⟨parent, top.nodes.length, len,
        width⟩)).length := by simpa using hv
    refine Or.inr ⟨top.nodes[v], List.getElem?_eq_getElem hv, ?_⟩
    simp only [xmlTopologyAddEdge] at h
    rw [List.getElem?_append_left hv', List.getElem?_modify, List.getElem?_eq_getElem hv] at h
    rw [Option.map_eq_map, Option.map_some, Option.some.injEq] at h
    rw [← h]
    by_cases hp : parent = v
    · rw [if_pos hp, if_pos hp.symm]
    · rw [if_neg hp, if_neg (Ne.symm hp)]
  · simp only [xmlTopologyAddEdge] at h
    rw [List.getElem?_append_right (by simpa using hv), List.getElem?_singleton,
      List.length_modify] at h
    split at h
    · exact Or.inl ⟨by omega, (Option.some.inj h).symm⟩
    · cases h

/-! ### What is built is a tree -/

/-- The two ends of an edge. -/
def XmlTopEdge.ends (e : XmlTopEdge) : ℕ × ℕ := (e.n0, e.n1)

namespace XmlTop

/-- The topologies that one call of `xml_topology_add_node` and calls of `xml_topology_add_edge` with
distinct names build.  A width is a `float`, so it is at most `FLT_MAX`. -/
inductive Built : XmlTop → Prop
  | root (nodename : String) : Built (xmlTopologyAddNode xmlTopologyCreate nodename none).1
  | edge {top : XmlTop} {parent : ℕ} {nodename : String} {len width : ℚ} : Built top →
      parent < top.nodes.length → (∀ node ∈ top.nodes, node.name ≠ nodename) → width ≤ fltMax →
      Built (xmlTopologyAddEdge top parent nodename len width).1

/-- The graph of the edges. -/
def graph (top : XmlTop) : SimpleGraph ℕ := LinkGraph.graph (top.edges.map XmlTopEdge.ends)

/-- The edge between two linked nodes. -/
def edgeAt (top : XmlTop) (x : Sym2 ℕ) : Option XmlTopEdge :=
  top.edges.find? fun e => s(e.n0, e.n1) = x

/-- The length of the edge between two linked nodes. -/
def lenAt (top : XmlTop) (x : Sym2 ℕ) : ℚ := ((top.edgeAt x).map XmlTopEdge.len).getD 0

/-- The width of the edge between two linked nodes. -/
def widthAt (top : XmlTop) (x : Sym2 ℕ) : ℚ := ((top.edgeAt x).map XmlTopEdge.width).getD fltMax

/-- The lengths of the edges of a walk, added to `len` one after another as `float`s. -/
def pathLen (top : XmlTop) (len : ℚ) {a b : ℕ} (p : top.graph.Walk a b) : ℚ :=
  floatFormat.sumFrom len (p.edges.map top.lenAt)

@[simp] theorem pathLen_nil {top : XmlTop} (len : ℚ) (a : ℕ) :
    top.pathLen len (SimpleGraph.Walk.nil : top.graph.Walk a a) = len := rfl

theorem pathLen_cons {top : XmlTop} (len : ℚ) {a b c : ℕ} (h : top.graph.Adj a b)
    (p : top.graph.Walk b c) :
    top.pathLen len (SimpleGraph.Walk.cons h p) = top.pathLen (floatAdd len (top.lenAt s(a, b))) p :=
  rfl

/-- The edges form a tree over all nodes, and every node lists its edges. -/
structure Shape (top : XmlTop) : Prop where
  pos : 0 < top.nodes.length
  nodeEdges : ∀ (v : ℕ) (node : XmlTopNode), top.nodes[v]? = some node →
    node.edges = top.edges.filter fun e => e.n0 = v ∨ e.n1 = v
  ends : ∀ e ∈ top.edges, e.n0 < e.n1 ∧ e.n1 < top.nodes.length
  noCycle : NoCycle (top.edges.map XmlTopEdge.ends)
  acyclic : top.graph.IsAcyclic
  reach : ∀ v < top.nodes.length, top.graph.Reachable 0 v

/-- A tree whose nodes have different names. -/
structure Tree (top : XmlTop) : Prop extends Shape top where
  names : (top.nodes.map XmlTopNode.name).Nodup

variable {top : XmlTop}

theorem Shape.not_reachable (h : top.Shape) {v : ℕ} (hv : v < top.nodes.length) :
    ¬ top.graph.Reachable v top.nodes.length := by
  intro hr
  have hmem := mem_of_reachable (S := {u | u < top.nodes.length}) (fun u w hu hadj => ?_) hv hr
  · exact lt_irrefl top.nodes.length hmem
  · obtain ⟨-, he | he⟩ := adj_iff.1 hadj <;> obtain ⟨e, hmem, hee⟩ := List.mem_map.1 he <;>
      obtain ⟨rfl, rfl⟩ := Prod.mk.inj hee
    · exact (h.ends e hmem).2
    · exact (h.ends e hmem).1.trans (h.ends e hmem).2

/-- **One more edge to a new node keeps a tree.** -/
theorem Shape.addEdge (h : top.Shape) {parent : ℕ} (nodename : String) (len width : ℚ)
    (hparent : parent < top.nodes.length) :
    (xmlTopologyAddEdge top parent nodename len width).1.Shape := by
  have hnew := h.not_reachable hparent
  have hlen : (xmlTopologyAddEdge top parent nodename len width).1.nodes.length =
      top.nodes.length + 1 := by
    simp [xmlTopologyAddEdge]
  have hedges : (xmlTopologyAddEdge top parent nodename len width).1.edges =
      top.edges ++ [⟨parent, top.nodes.length, len, width⟩] := rfl
  have hends : (xmlTopologyAddEdge top parent nodename len width).1.edges.map XmlTopEdge.ends =
      top.edges.map XmlTopEdge.ends ++ [(parent, top.nodes.length)] := by
    rw [hedges, List.map_append]
    rfl
  have hgraph : (xmlTopologyAddEdge top parent nodename len width).1.graph =
      LinkGraph.graph (top.edges.map XmlTopEdge.ends ++ [(parent, top.nodes.length)]) := by
    rw [graph, hends]
  refine ⟨by omega, ?_, ?_, ?_, ?_, ?_⟩
  · intro v node hnode
    rw [hedges, List.filter_append]
    rcases xmlTopologyAddEdge_node hnode with ⟨rfl, rfl⟩ | ⟨old, hold, rfl⟩
    · -- the new node has the new edge only
      have hnone : top.edges.filter (fun e => e.n0 = top.nodes.length ∨ e.n1 = top.nodes.length) =
          [] := by
        rw [List.filter_eq_nil_iff]
        intro e he
        have := h.ends e he
        simp only [decide_eq_true_eq]
        omega
      rw [hnone]
      simp
    · have hv : v < top.nodes.length := (List.getElem?_eq_some_iff.1 hold).1
      have hne : ¬ top.nodes.length = v := by omega
      rw [← h.nodeEdges v old hold]
      by_cases hp : parent = v
      · subst hp
        simp [xmlTopNodeAddEdge]
      · simp [hp, hne, Ne.symm hp]
  · intro e he
    rw [hedges] at he
    rw [hlen]
    rcases List.mem_append.1 he with he | he
    · have := h.ends e he
      omega
    · rw [List.mem_singleton] at he
      subst he
      exact ⟨hparent, Nat.lt_succ_self _⟩
  · rw [hends]
    exact h.noCycle.append hnew
  · rw [hgraph]
    exact isAcyclic_append h.acyclic hnew
  · intro v hv
    rw [hgraph, graph_append_singleton]
    rw [hlen] at hv
    rcases Nat.lt_succ_iff_lt_or_eq.1 hv with hv | rfl
    · exact (h.reach v hv).mono le_sup_left
    · refine reachable_sup_edge.2 (Or.inr (Or.inl ⟨h.reach parent hparent, ?_⟩))
      exact SimpleGraph.Reachable.refl _

/-- A node without edges is a tree. -/
theorem shape_root (nodename : String) :
    (xmlTopologyAddNode xmlTopologyCreate nodename none).1.Shape := by
  have hnil : (xmlTopologyAddNode xmlTopologyCreate nodename none).1.edges = [] := rfl
  have hgraph : (xmlTopologyAddNode xmlTopologyCreate nodename none).1.graph = ⊥ := graph_nil
  refine ⟨Nat.one_pos, fun v node hnode => ?_, by simp [hnil], noCycle_nil, ?_, fun v hv => ?_⟩
  · have hmem : node ∈ [(⟨nodename, none, []⟩ : XmlTopNode)] := List.mem_of_getElem? hnode
    rw [List.mem_singleton.1 hmem]
    rfl
  · rw [hgraph]
    exact SimpleGraph.isAcyclic_bot
  · obtain rfl : v = 0 := Nat.lt_one_iff.1 hv
    exact SimpleGraph.Reachable.refl _

/-- **What is built is a tree whose nodes have different names.** -/
theorem Built.tree (h : top.Built) : top.Tree := by
  induction h with
  | root nodename => exact ⟨shape_root nodename, List.nodup_singleton _⟩
  | @edge top parent nodename len width _ hparent hname _ ih =>
      refine ⟨ih.toShape.addEdge nodename len width hparent, ?_⟩
      rw [xmlTopologyAddEdge_names, List.nodup_append]
      refine ⟨ih.names, List.nodup_singleton _, fun a ha b hb hab => ?_⟩
      obtain ⟨node, hnode, rfl⟩ := List.mem_map.1 ha
      rw [List.mem_singleton] at hb
      exact hname node hnode (hab.trans hb)

theorem Built.width_le (h : top.Built) : ∀ e ∈ top.edges, e.width ≤ fltMax := by
  induction h with
  | root nodename => exact fun e he => absurd he List.not_mem_nil
  | edge _ _ _ hwidth ih =>
      intro e he
      rcases List.mem_append.1 he with he | he
      · exact ih e he
      · rw [List.mem_singleton] at he
        exact he ▸ hwidth

/-! ### Looking up edges -/

theorem Shape.edgeAt_eq (h : top.Shape) {e : XmlTopEdge} (he : e ∈ top.edges) :
    top.edgeAt s(e.n0, e.n1) = some e := by
  cases hf : top.edgeAt s(e.n0, e.n1) with
  | none =>
      have := List.find?_eq_none.1 hf e he
      simp at this
  | some x =>
      have hx := List.mem_of_find?_eq_some hf
      have hxe := List.find?_some hf
      simp only [decide_eq_true_eq, Sym2.eq_iff] at hxe
      have hends : x.ends = e.ends ∨ x.ends = e.ends.swap := by
        rcases hxe with ⟨h₀, h₁⟩ | ⟨h₀, h₁⟩
        · exact Or.inl (Prod.ext h₀ h₁)
        · exact Or.inr (Prod.ext h₀ h₁)
      rw [h.noCycle.eq_of_ends hx he hends]

theorem Shape.attributes (h : top.Shape) {e : XmlTopEdge} (he : e ∈ top.edges) :
    top.lenAt s(e.n0, e.n1) = e.len ∧ top.widthAt s(e.n0, e.n1) = e.width := by
  simp only [lenAt, widthAt, h.edgeAt_eq he]
  exact ⟨rfl, rfl⟩

theorem Built.widthAt_le (h : top.Built) (x : Sym2 ℕ) : top.widthAt x ≤ fltMax := by
  cases hx : top.edgeAt x with
  | none =>
      simp only [widthAt, hx]
      exact le_rfl
  | some e =>
      simp only [widthAt, hx]
      exact h.width_le e (List.mem_of_find?_eq_some hx)

theorem Shape.adj_of_mem (h : top.Shape) {e : XmlTopEdge} (he : e ∈ top.edges) :
    top.graph.Adj e.n0 e.n1 :=
  adj_iff.2 ⟨(h.ends e he).1.ne, Or.inl (List.mem_map_of_mem he)⟩

theorem exists_edge_of_adj {u v : ℕ} (hadj : top.graph.Adj u v) :
    ∃ e ∈ top.edges, (e.n0 = u ∧ e.n1 = v) ∨ (e.n0 = v ∧ e.n1 = u) := by
  obtain ⟨-, he | he⟩ := adj_iff.1 hadj <;> obtain ⟨e, hmem, hee⟩ := List.mem_map.1 he <;>
    obtain ⟨rfl, rfl⟩ := Prod.mk.inj hee
  · exact ⟨e, hmem, Or.inl ⟨rfl, rfl⟩⟩
  · exact ⟨e, hmem, Or.inr ⟨rfl, rfl⟩⟩

theorem Shape.lt_of_adj (h : top.Shape) {u v : ℕ} (hadj : top.graph.Adj u v) :
    u < top.nodes.length ∧ v < top.nodes.length := by
  obtain ⟨e, he, hends⟩ := exists_edge_of_adj hadj
  have := h.ends e he
  omega

/-- Two nodes with the same name are the same. -/
theorem Tree.index_eq (h : top.Tree) {u v : ℕ} {nu nv : XmlTopNode}
    (hu : top.nodes[u]? = some nu) (hv : top.nodes[v]? = some nv) (hname : nu.name = nv.name) :
    u = v := by
  have hul := (List.getElem?_eq_some_iff.1 hu).1
  have hvl := (List.getElem?_eq_some_iff.1 hv).1
  have hul' : u < (top.nodes.map XmlTopNode.name).length := by simpa using hul
  have hvl' : v < (top.nodes.map XmlTopNode.name).length := by simpa using hvl
  refine (@List.Nodup.getElem_inj_iff _ _ h.names u hul' v hvl').1 ?_
  have hu' : (top.nodes.map XmlTopNode.name)[u]? = some nu.name := by rw [List.getElem?_map, hu]; rfl
  have hv' : (top.nodes.map XmlTopNode.name)[v]? = some nv.name := by rw [List.getElem?_map, hv]; rfl
  rw [List.getElem?_eq_getElem hul', Option.some.injEq] at hu'
  rw [List.getElem?_eq_getElem hvl', Option.some.injEq] at hv'
  rw [hu', hv', hname]

end XmlTop

/-! ### The search -/

section Traverse

variable {top : XmlTop} {v d : ℕ} {π : List ℕ} {tmpLen tmpWidth : ℚ}

/-- What a call of `xml_topology_traverse` does that has come to `v` over the nodes in `π`: it finds
the path to `d` that avoids `π`, and when there is none it leaves `path` as it was. -/
structure Finds (top : XmlTop) (π : List ℕ) (v d : ℕ) (out : XmlOut)
    (result : Except Abort (Bool × XmlOut)) : Prop where
  found : ∀ p : top.graph.Walk v d, p.IsPath → (∀ x ∈ π, x ∉ p.support) →
    result = Except.ok (true, ⟨π ++ p.support, top.pathLen out.len p,
      bottleneck top.widthAt out.width p⟩)
  missed : (∀ p : top.graph.Walk v d, p.IsPath → ∃ x ∈ π, x ∈ p.support) →
    ∃ len width, result = Except.ok (false, ⟨π ++ [v], len, width⟩)

/-- The next node over an edge of `v`. -/
theorem XmlTop.Tree.child (h : top.Tree) {node : XmlTopNode} (hv : top.nodes[v]? = some node)
    {e : XmlTopEdge} (he : e ∈ top.edges) (hev : e.n0 = v ∨ e.n1 = v) :
    ∃ n0 c, top.nodes[e.n0]? = some n0 ∧
      (if node.name = n0.name then e.n1 else e.n0) = c ∧ top.graph.Adj v c ∧
      s(e.n0, e.n1) = s(v, c) ∧ top.lenAt s(v, c) = e.len ∧ top.widthAt s(v, c) = e.width := by
  obtain ⟨hlt, hlt'⟩ := h.ends e he
  obtain ⟨n0, hn0⟩ : ∃ n0, top.nodes[e.n0]? = some n0 :=
    ⟨_, List.getElem?_eq_getElem (hlt.trans hlt')⟩
  obtain ⟨hlen, hwidth⟩ := h.attributes he
  have hadj := h.adj_of_mem he
  refine ⟨n0, _, hn0, rfl, ?_⟩
  by_cases hname : node.name = n0.name
  · obtain rfl := h.index_eq hv hn0 hname
    rw [if_pos hname]
    exact ⟨hadj, rfl, hlen, hwidth⟩
  · -- the first end is another node, so `v` is the second one
    have hv1 : e.n1 = v := by
      refine hev.resolve_left fun h0 => hname ?_
      rw [h0, hv, Option.some.injEq] at hn0
      rw [hn0]
    have hswap : s(e.n1, e.n0) = s(e.n0, e.n1) := Sym2.eq_swap
    rw [if_neg hname, ← hv1, hswap]
    exact ⟨hadj.symm, rfl, hlen, hwidth⟩

/-- Two paths of a forest from one node to another start over the same node. -/
theorem XmlTop.Shape.start_eq (h : top.Shape) {c c' : ℕ} {hc : top.graph.Adj v c}
    {hc' : top.graph.Adj v c'} {p : top.graph.Walk c d} {p' : top.graph.Walk c' d}
    (hp : (SimpleGraph.Walk.cons hc p).IsPath) (hp' : (SimpleGraph.Walk.cons hc' p').IsPath) :
    c = c' := by
  have heq := (h.acyclic.subsingleton_path v d).elim ⟨_, hp⟩ ⟨_, hp'⟩
  have hsnd := congrArg SimpleGraph.Walk.snd (Subtype.mk.inj heq)
  rwa [SimpleGraph.Walk.snd_cons, SimpleGraph.Walk.snd_cons] at hsnd

/-- A path of a child that avoids the nodes on the way here is the rest of a path from here. -/
theorem isPath_cons_of_avoids {c : ℕ} (hvc : top.graph.Adj v c) {p : top.graph.Walk c d}
    (hp : p.IsPath) (havoid : ∀ x ∈ π ++ [v], x ∉ p.support) (hπ : v ∉ π) :
    (SimpleGraph.Walk.cons hvc p).IsPath ∧
      ∀ x ∈ π, x ∉ (SimpleGraph.Walk.cons hvc p).support := by
  refine ⟨(SimpleGraph.Walk.cons_isPath_iff _ _).2 ⟨hp, havoid v (by simp)⟩, fun x hx => ?_⟩
  rw [SimpleGraph.Walk.support_cons, List.mem_cons, not_or]
  exact ⟨fun he => hπ (he ▸ hx), havoid x (List.mem_append_left _ hx)⟩

/-- What the loop needs of the calls for the children. -/
def ChildrenFind (top : XmlTop) (π : List ℕ) (v d : ℕ)
    (traverse : XmlOut → Except Abort (Bool × XmlOut)) : Prop :=
  ∀ c, top.graph.Adj v c → c ∉ π ++ [v] → ∀ out, out.path = π ++ [v] ++ [c] →
    Finds top (π ++ [v]) c d out (traverse out)

variable {node : XmlTopNode} {traverse : XmlOut → Except Abort (Bool × XmlOut)}

/-- One round of the loop over the edges. -/
theorem xmlTraverseEdges_cons (h : top.Tree) (hv : top.nodes[v]? = some node)
    (traverse : XmlOut → Except Abort (Bool × XmlOut)) (tmpLen tmpWidth : ℚ)
    {e : XmlTopEdge} (he : e ∈ top.edges) (hev : e.n0 = v ∨ e.n1 = v) (es : List XmlTopEdge)
    (out : XmlOut) :
    ∃ c, top.graph.Adj v c ∧ s(e.n0, e.n1) = s(v, c) ∧
      (c ∈ out.path → xmlTraverseEdges top traverse node tmpLen tmpWidth (e :: es) out =
        xmlTraverseEdges top traverse node tmpLen tmpWidth es out) ∧
      (c ∉ out.path → ∀ found out', traverse ⟨out.path ++ [c], floatAdd tmpLen (top.lenAt s(v, c)),
          min tmpWidth (top.widthAt s(v, c))⟩ = Except.ok (found, out') →
        xmlTraverseEdges top traverse node tmpLen tmpWidth (e :: es) out =
          if found then Except.ok (true, out')
          else xmlTraverseEdges top traverse node tmpLen tmpWidth es
            { out' with path := out'.path.dropLast }) := by
  obtain ⟨n0, c, hn0, hc, hadj, hends, hlen, hwidth⟩ := h.child hv he hev
  have hmin : (if tmpWidth > e.width then e.width else tmpWidth) =
      min tmpWidth (top.widthAt s(v, c)) := by
    rw [hwidth]
    split
    · rename_i hgt
      exact (min_eq_right hgt.le).symm
    · rename_i hle
      exact (min_eq_left (not_lt.1 hle)).symm
  refine ⟨c, hadj, hends, fun hmem => ?_, fun hmem found out' hrun => ?_⟩
  · rw [xmlTraverseEdges, hn0]
    simp only [hc, if_pos hmem]
  · rw [xmlTraverseEdges, hn0]
    simp only [hc, if_neg hmem, hmin]
    rw [← hlen, hrun, ok_bind]

/-- **The loop finds the path when it goes on over one of the edges that are left.** -/
theorem xmlTraverseEdges_found (h : top.Tree) (hv : top.nodes[v]? = some node)
    (hπ : v ∉ π) (hchildren : ChildrenFind top π v d traverse) {c : ℕ} {hvc : top.graph.Adj v c}
    {p : top.graph.Walk c d} (hp : (SimpleGraph.Walk.cons hvc p).IsPath)
    (havoid : ∀ x ∈ π, x ∉ (SimpleGraph.Walk.cons hvc p).support) {es : List XmlTopEdge}
    (hes : ∀ e ∈ es, e ∈ top.edges ∧ (e.n0 = v ∨ e.n1 = v))
    (hmem : ∃ e ∈ es, s(e.n0, e.n1) = s(v, c)) {out : XmlOut} (hout : out.path = π ++ [v]) :
    xmlTraverseEdges top traverse node tmpLen tmpWidth es out =
      Except.ok (true, ⟨π ++ v :: p.support, top.pathLen (floatAdd tmpLen (top.lenAt s(v, c))) p,
        bottleneck top.widthAt (min tmpWidth (top.widthAt s(v, c))) p⟩) := by
  obtain ⟨hp', hvp⟩ := (SimpleGraph.Walk.cons_isPath_iff _ _).1 hp
  have hcout : c ∉ π ++ [v] := by
    rw [List.mem_append, List.mem_singleton, not_or]
    refine ⟨fun hc => havoid c hc ?_, hvc.ne'⟩
    rw [SimpleGraph.Walk.support_cons]
    exact List.mem_cons_of_mem _ p.start_mem_support
  induction es generalizing out with
  | nil => simp at hmem
  | cons e es ih =>
      obtain ⟨he, hev⟩ := hes e List.mem_cons_self
      obtain ⟨c₀, hadj, hends, hskip, hgo⟩ :=
        xmlTraverseEdges_cons h hv traverse tmpLen tmpWidth he hev es out
      have hrest : c₀ ≠ c → ∃ e ∈ es, s(e.n0, e.n1) = s(v, c) := by
        intro hne
        obtain ⟨x, hx, hxc⟩ := hmem
        rcases List.mem_cons.1 hx with rfl | hx
        · rw [hends, Sym2.congr_right] at hxc
          exact absurd hxc hne
        · exact ⟨x, hx, hxc⟩
      have hes' : ∀ x ∈ es, x ∈ top.edges ∧ (x.n0 = v ∨ x.n1 = v) := fun x hx =>
        hes x (List.mem_cons_of_mem _ hx)
      by_cases hin : c₀ ∈ out.path
      · rw [hskip hin]
        exact ih hes' (hrest fun hc => hcout (hc ▸ hout ▸ hin)) hout
      · have hnew : c₀ ∉ π ++ [v] := hout ▸ hin
        have hfinds := hchildren c₀ hadj hnew ⟨out.path ++ [c₀],
          floatAdd tmpLen (top.lenAt s(v, c₀)), min tmpWidth (top.widthAt s(v, c₀))⟩ (by rw [hout])
        by_cases hc : c₀ = c
        · -- the child on the path finds the rest of it
          subst hc
          have hfound := hfinds.found p hp' fun x hx => by
            rcases List.mem_append.1 hx with hx | hx
            · have := havoid x hx
              rw [SimpleGraph.Walk.support_cons, List.mem_cons, not_or] at this
              exact this.2
            · rw [List.mem_singleton] at hx
              exact hx ▸ hvp
          rw [hgo hin _ _ hfound, if_pos rfl, List.append_assoc, List.singleton_append]
        · -- from another child there is no path that avoids the nodes on the way here
          obtain ⟨len, width, hmissed⟩ := hfinds.missed fun q hq => by
            by_contra hno
            push Not at hno
            obtain ⟨hq', _⟩ := isPath_cons_of_avoids hadj hq hno hπ
            exact hc (h.start_eq hq' hp)
          rw [hgo hin _ _ hmissed, if_neg Bool.false_ne_true]
          exact ih hes' (hrest hc) (by simp)

/-- **The loop finds nothing when no path avoids the nodes on the way here.** -/
theorem xmlTraverseEdges_missed (h : top.Tree) (hv : top.nodes[v]? = some node)
    (hπ : v ∉ π) (hchildren : ChildrenFind top π v d traverse)
    (hno : ∀ p : top.graph.Walk v d, p.IsPath → ∃ x ∈ π, x ∈ p.support) {es : List XmlTopEdge}
    (hes : ∀ e ∈ es, e ∈ top.edges ∧ (e.n0 = v ∨ e.n1 = v)) {out : XmlOut}
    (hout : out.path = π ++ [v]) :
    ∃ len width, xmlTraverseEdges top traverse node tmpLen tmpWidth es out =
      Except.ok (false, ⟨π ++ [v], len, width⟩) := by
  induction es generalizing out with
  | nil => exact ⟨out.len, out.width, by rw [xmlTraverseEdges, ← hout]⟩
  | cons e es ih =>
      obtain ⟨he, hev⟩ := hes e List.mem_cons_self
      obtain ⟨c, hadj, -, hskip, hgo⟩ :=
        xmlTraverseEdges_cons h hv traverse tmpLen tmpWidth he hev es out
      have hes' : ∀ x ∈ es, x ∈ top.edges ∧ (x.n0 = v ∨ x.n1 = v) := fun x hx =>
        hes x (List.mem_cons_of_mem _ hx)
      by_cases hin : c ∈ out.path
      · rw [hskip hin]
        exact ih hes' hout
      · have hnew : c ∉ π ++ [v] := hout ▸ hin
        obtain ⟨len, width, hmissed⟩ := (hchildren c hadj hnew ⟨out.path ++ [c],
          floatAdd tmpLen (top.lenAt s(v, c)), min tmpWidth (top.widthAt s(v, c))⟩ (by rw [hout])).missed
            fun q hq => by
              by_contra havoid
              push Not at havoid
              obtain ⟨hq', havoid'⟩ := isPath_cons_of_avoids hadj hq havoid hπ
              obtain ⟨x, hx, hxq⟩ := hno _ hq'
              exact havoid' x hx hxq
        rw [hgo hin _ _ hmissed, if_neg Bool.false_ne_true]
        exact ih hes' (by simp)

/-- **What a call of `xml_topology_traverse` finds**, from any node and over any way to it. -/
theorem xmlTraverse_spec (h : top.Tree) (srcname : String) {dnode : XmlTopNode}
    (hd : top.nodes[d]? = some dnode) (fuel : ℕ) {out : XmlOut} (hout : out.path = π ++ [v])
    (hnodup : (π ++ [v]).Nodup) (hlt : ∀ x ∈ π ++ [v], x < top.nodes.length)
    (hfuel : top.nodes.length + 1 ≤ fuel + (π ++ [v]).length) :
    Finds top π v d out (xmlTraverse top srcname dnode.name fuel out) := by
  have hlen : (π ++ [v]).length ≤ top.nodes.length := by
    have hsub := hnodup.subperm fun x hx => List.mem_range.2 (hlt x hx)
    simpa using hsub.length_le
  induction fuel generalizing π v out with
  | zero => omega
  | succ fuel ih =>
      obtain ⟨node, hnode⟩ : ∃ node, top.nodes[v]? = some node :=
        ⟨_, List.getElem?_eq_getElem (hlt v (by simp))⟩
      have hπ : v ∉ π := fun hv => by
        rw [List.nodup_append] at hnodup
        exact hnodup.2.2 v hv v (by simp) rfl
      have hrun : xmlTraverse top srcname dnode.name (fuel + 1) out =
          if node.name = dnode.name then Except.ok (true, out)
          else xmlTraverseEdges top (xmlTraverse top srcname dnode.name fuel) node out.len
            out.width node.edges out := by
        have hempty : out.path.isEmpty = false := by simp [hout]
        have hlast : out.path.getLast? = some v := by simp [hout]
        rw [xmlTraverse, hempty]
        simp only [Bool.false_eq_true, if_false, ok_bind, hlast, hnode]
      rw [hrun]
      by_cases hvd : v = d
      · subst hvd
        rw [hnode, Option.some.injEq] at hd
        rw [if_pos (congrArg XmlTopNode.name hd)]
        refine ⟨fun p hp _ => ?_, fun hno => ?_⟩
        · obtain rfl := SimpleGraph.Walk.eq_nil_iff_nil.2 (SimpleGraph.Walk.isPath_iff_nil.1 hp)
          simp [← hout]
        · obtain ⟨x, hx, hxv⟩ := hno SimpleGraph.Walk.nil SimpleGraph.Walk.IsPath.nil
          rw [SimpleGraph.Walk.support_nil, List.mem_singleton] at hxv
          exact absurd (hxv ▸ hx) hπ
      · have hname : node.name ≠ dnode.name := fun he => hvd (h.index_eq hnode hd he)
        rw [if_neg hname]
        have hedges : ∀ e ∈ node.edges, e ∈ top.edges ∧ (e.n0 = v ∨ e.n1 = v) := by
          intro e he
          rw [h.nodeEdges v node hnode, List.mem_filter, decide_eq_true_eq] at he
          exact he
        have hchildren : ChildrenFind top π v d (xmlTraverse top srcname dnode.name fuel) := by
          intro c hadj hc out' hout'
          have hcn : (π ++ [v] ++ [c]).Nodup := by
            rw [List.nodup_append]
            refine ⟨hnodup, List.nodup_singleton _, fun a ha b hb hab => hc ?_⟩
            rw [List.mem_singleton] at hb
            exact hb ▸ hab ▸ ha
          have hclt : ∀ x ∈ π ++ [v] ++ [c], x < top.nodes.length := by
            intro x hx
            rcases List.mem_append.1 hx with hx | hx
            · exact hlt x hx
            · rw [List.mem_singleton] at hx
              exact hx ▸ (h.lt_of_adj hadj).2
          have hclen : (π ++ [v] ++ [c]).length ≤ top.nodes.length := by
            have hsub := hcn.subperm fun x hx => List.mem_range.2 (hclt x hx)
            simpa using hsub.length_le
          refine ih hout' hcn hclt ?_ hclen
          rw [List.length_append, List.length_singleton]
          omega
        refine ⟨fun p hp havoid => ?_, fun hno => ?_⟩
        · cases p with
          | nil => exact absurd rfl hvd
          | @cons _ c _ hvc p =>
              obtain ⟨e, he, hends⟩ := XmlTop.exists_edge_of_adj hvc
              have hmem : e ∈ node.edges := by
                rw [h.nodeEdges v node hnode, List.mem_filter, decide_eq_true_eq]
                exact ⟨he, hends.imp (fun h => h.1) fun h => h.2⟩
              have hpair : s(e.n0, e.n1) = s(v, c) := by
                rw [Sym2.eq_iff]
                exact hends
              rw [xmlTraverseEdges_found h hnode hπ hchildren hp havoid hedges ⟨e, hmem, hpair⟩ hout,
                SimpleGraph.Walk.support_cons, XmlTop.pathLen_cons, bottleneck_cons]
        · exact xmlTraverseEdges_missed h hnode hπ hchildren hno hedges hout

end Traverse

/-- Lengths whose sums are exact in `float`: multiples of one power of two that together have at most
24 digits. -/
def ExactLengths (lens : List ℚ) : Prop :=
  ∃ k : ℤ, -149 ≤ k ∧ (∀ x ∈ lens, ∃ m : ℕ, x = m * 2 ^ k) ∧
    lens.sum ≤ 2 ^ 24 * 2 ^ k ∧ lens.sum ≤ fltMax

theorem ExactLengths.perm {lens lens' : List ℚ} (h : ExactLengths lens) (hp : lens'.Perm lens) :
    ExactLengths lens' := by
  obtain ⟨k, hk, hmul, hdigits, hmax⟩ := h
  refine ⟨k, hk, fun x hx => hmul x (hp.subset hx), ?_, ?_⟩
  · rwa [hp.sum_eq]
  · rwa [hp.sum_eq]

/-- **Such lengths are added exactly.** -/
theorem ExactLengths.sum_eq {lens : List ℚ} (h : ExactLengths lens) :
    floatFormat.sumFrom 0 lens = lens.sum := by
  obtain ⟨k, hk, hmul, hdigits, hmax⟩ := h
  have hzero : (((0 : ℕ) : ℚ) * 2 ^ k) = 0 := by simp
  have hinf : fltMax < floatFormat.inf := by norm_num [fltMax, floatFormat, FloatRound.Format.inf]
  have hprec : (2 : ℚ) ^ ((floatFormat.prec : ℕ) : ℤ) = 2 ^ 24 := rfl
  have hsum := FloatRound.Format.sumFrom_eq (F := floatFormat) (m := 0) (by decide) hk hmul
    (by rw [hzero, zero_add, hprec]; exact hdigits) (by rw [hzero, zero_add]; exact hmax.trans_lt hinf)
  rwa [hzero, zero_add] at hsum

namespace XmlTop

/-- The path between two nodes, and what a traversal in each direction leaves: the path, its lengths
added as `float`s from its start, and the smallest of its widths. -/
structure TreePath (top : XmlTop) (a b : ℕ) (out back : XmlOut) : Prop where
  walk : ∃ p : top.graph.Walk a b, p.IsPath ∧ (∀ q : top.graph.Walk a b, q.IsPath → q = p) ∧
    out.path = p.support ∧ back.path = p.support.reverse ∧
    out.len = floatFormat.sumFrom 0 (p.edges.map top.lenAt) ∧
    back.len = floatFormat.sumFrom 0 (p.edges.map top.lenAt).reverse ∧
    (ExactLengths (p.edges.map top.lenAt) →
      out.len = (p.edges.map top.lenAt).sum ∧ back.len = (p.edges.map top.lenAt).sum) ∧
    (a = b → out.width = fltMax) ∧
    (a ≠ b → IsLeast {w | ∃ e ∈ p.edges, w = top.widthAt e} out.width) ∧
    back.width = out.width

/-- The width of a search over a path is the smallest of its widths. -/
theorem isLeast_bottleneck {top : XmlTop} (h : top.Built) {a b : ℕ} (hab : a ≠ b)
    (p : top.graph.Walk a b) :
    IsLeast {w | ∃ e ∈ p.edges, w = top.widthAt e} (bottleneck top.widthAt fltMax p) := by
  refine ⟨?_, ?_⟩
  · rcases @bottleneck_mem _ _ _ _ _ _ top.widthAt fltMax p with hw | ⟨e, he, hw⟩
    · -- no edge is wider than the bound, so all of them are as wide
      cases p with
      | nil => exact absurd rfl hab
      | @cons _ c _ hadj p =>
          have he : s(a, c) ∈ (SimpleGraph.Walk.cons hadj p).edges := by
            rw [SimpleGraph.Walk.edges_cons]
            exact List.mem_cons_self
          refine ⟨s(a, c), he, le_antisymm (bottleneck_le_of_mem he) ?_⟩
          show top.widthAt s(a, c) ≤ bottleneck top.widthAt fltMax _
          rw [hw]
          exact h.widthAt_le _
    · exact ⟨e, he, hw⟩
  · rintro w ⟨e, he, rfl⟩
    exact bottleneck_le_of_mem he

/-- The path between two nodes, with the lengths and the width of the searches. -/
theorem treePath_of_isPath {top : XmlTop} (h : top.Built) {a b : ℕ} {p : top.graph.Walk a b}
    (hp : p.IsPath) :
    top.TreePath a b ⟨p.support, top.pathLen 0 p, bottleneck top.widthAt fltMax p⟩
      ⟨p.reverse.support, top.pathLen 0 p.reverse, bottleneck top.widthAt fltMax p.reverse⟩ := by
  have hlens : p.reverse.edges.map top.lenAt = (p.edges.map top.lenAt).reverse := by
    rw [SimpleGraph.Walk.edges_reverse, List.map_reverse]
  refine ⟨p, hp, fun q hq => ?_, rfl, SimpleGraph.Walk.support_reverse p, rfl, ?_, fun hexact => ?_,
    fun hab => ?_, fun hab => isLeast_bottleneck h hab p, bottleneck_reverse p⟩
  · exact Subtype.mk.inj ((h.tree.acyclic.subsingleton_path a b).elim ⟨q, hq⟩ ⟨p, hp⟩)
  · rw [pathLen, hlens]
  · refine ⟨hexact.sum_eq, ?_⟩
    have hback := (hexact.perm (List.reverse_perm _)).sum_eq
    rw [List.sum_reverse] at hback
    rw [pathLen, hlens, hback]
  · subst hab
    obtain rfl := SimpleGraph.Walk.eq_nil_iff_nil.2 (SimpleGraph.Walk.isPath_iff_nil.1 hp)
    rfl

end XmlTop

/-- `xml_topology_get_node` finds the only node of a name. -/
theorem xmlTopologyGetNode_eq {top : XmlTop} (h : top.Tree) {a : ℕ} {node : XmlTopNode}
    (ha : top.nodes[a]? = some node) : xmlTopologyGetNode top node.name = some a := by
  obtain ⟨hlt, rfl⟩ := List.getElem?_eq_some_iff.1 ha
  rw [xmlTopologyGetNode, List.findIdx?_eq_some_iff_getElem]
  refine ⟨hlt, by simp, fun j hj => ?_⟩
  have hjlt : j < top.nodes.length := by omega
  simp only [decide_eq_true_eq]
  intro hname
  have := h.index_eq (List.getElem?_eq_getElem hjlt) ha hname
  omega

/-- The traversal with an empty vector. -/
theorem xmlTopologyTraverse_eq {top : XmlTop} (h : top.Tree) {a b : ℕ} {src dst : XmlTopNode}
    (ha : top.nodes[a]? = some src) (hb : top.nodes[b]? = some dst) (len width : ℚ)
    {p : top.graph.Walk a b} (hp : p.IsPath) :
    xmlTopologyTraverse top src.name dst.name ⟨[], len, width⟩ =
      Except.ok (true, ⟨p.support, top.pathLen 0 p, bottleneck top.widthAt fltMax p⟩) := by
  have hfirst : xmlTopologyTraverse top src.name dst.name ⟨[], len, width⟩ =
      xmlTraverse top src.name dst.name (top.nodes.length + 1) ⟨[a], 0, fltMax⟩ := by
    rw [xmlTopologyTraverse, xmlTraverse, xmlTraverse]
    simp only [List.isEmpty_nil, if_true, xmlTopologyGetNode_eq h ha, ok_bind,
      List.isEmpty_cons, Bool.false_eq_true, if_false]
  have hlt := (List.getElem?_eq_some_iff.1 ha).1
  have hfinds : Finds top [] a b ⟨[a], 0, fltMax⟩
      (xmlTraverse top src.name dst.name (top.nodes.length + 1) ⟨[a], 0, fltMax⟩) :=
    xmlTraverse_spec h src.name hb (top.nodes.length + 1) rfl (List.nodup_singleton a)
      (by simpa using hlt) (by simp)
  rw [hfirst, hfinds.found p hp (by simp), List.nil_append]

/-- **`xml_topology_traverse` returns, with the only path between the two nodes, its lengths added as
`float`s and the smallest of its widths**; from the other end it finds the same path the other way
round. -/
theorem xmlTopologyTraverse_path {top : XmlTop} (h : top.Built) {a b : ℕ} {src dst : XmlTopNode}
    (ha : top.nodes[a]? = some src) (hb : top.nodes[b]? = some dst) (len width : ℚ) :
    ∃ out back, top.TreePath a b out back ∧
      xmlTopologyTraverse top src.name dst.name ⟨[], len, width⟩ = Except.ok (true, out) ∧
      xmlTopologyTraverse top dst.name src.name ⟨[], len, width⟩ = Except.ok (true, back) := by
  have htree := h.tree
  have hra := htree.reach a (List.getElem?_eq_some_iff.1 ha).1
  have hrb := htree.reach b (List.getElem?_eq_some_iff.1 hb).1
  obtain ⟨p, hp⟩ := (hra.symm.trans hrb).exists_isPath
  exact ⟨_, _, XmlTop.treePath_of_isPath h hp, xmlTopologyTraverse_eq htree ha hb len width hp,
    xmlTopologyTraverse_eq htree hb ha len width hp.reverse⟩

/-- Two hosts below a switch, and the switch below the root. -/
def switchTop : XmlTop :=
  let root := xmlTopologyAddNode xmlTopologyCreate "ROOT" none
  let switch := xmlTopologyAddEdge root.1 root.2 "SW:0" 1 1000
  let host := xmlTopologyAddEdge switch.1 switch.2 "a" 1 100
  (xmlTopologyAddEdge host.1 switch.2 "b" 1 200).1

theorem switchTop_built : switchTop.Built := by
  have hbig : (1000 : ℚ) ≤ fltMax := by norm_num [fltMax]
  refine XmlTop.Built.edge (XmlTop.Built.edge (XmlTop.Built.edge (XmlTop.Built.root "ROOT")
    ?_ ?_ hbig) ?_ ?_ (le_trans (by norm_num) hbig)) ?_ ?_ (le_trans (by norm_num) hbig) <;> decide

theorem xmlTopologyTraverse_path_switch : ∃ out back, switchTop.TreePath 2 3 out back ∧
    xmlTopologyTraverse switchTop "a" "b" ⟨[], 0, 0⟩ = Except.ok (true, out) ∧
    xmlTopologyTraverse switchTop "b" "a" ⟨[], 0, 0⟩ = Except.ok (true, back) :=
  xmlTopologyTraverse_path switchTop_built
    (show switchTop.nodes[2]? = some ⟨"a", some 1, [⟨1, 2, 1, 100⟩]⟩ from rfl)
    (show switchTop.nodes[3]? = some ⟨"b", some 1, [⟨1, 3, 1, 200⟩]⟩ from rfl) 0 0

example : xmlTopologyTraverse switchTop "a" "b" ⟨[], 0, 0⟩ =
    Except.ok (true, ⟨[2, 1, 3], 2, 100⟩) := by decide +kernel

/-- A chain with one edge that is much longer than the other two. -/
def longTop : XmlTop :=
  let a := xmlTopologyAddNode xmlTopologyCreate "a" none
  let b := xmlTopologyAddEdge a.1 a.2 "b" 16777216 100
  let c := xmlTopologyAddEdge b.1 b.2 "c" 1 100
  (xmlTopologyAddEdge c.1 c.2 "d" 1 100).1

/-- **The length depends on the order in which it is added**: `16777217` is not a `float`. -/
theorem xmlTopologyTraverse_path_long : longTop.Built ∧
    (longTop.edges.map XmlTopEdge.len).sum = 16777218 ∧
    xmlTopologyTraverse longTop "a" "d" ⟨[], 0, 0⟩ =
      Except.ok (true, ⟨[0, 1, 2, 3], 16777216, 100⟩) ∧
    xmlTopologyTraverse longTop "d" "a" ⟨[], 0, 0⟩ =
      Except.ok (true, ⟨[3, 2, 1, 0], 16777218, 100⟩) := by
  have hbig : (100 : ℚ) ≤ fltMax := by norm_num [fltMax]
  refine ⟨?_, by decide +kernel, by decide +kernel, by decide +kernel⟩
  refine XmlTop.Built.edge (XmlTop.Built.edge (XmlTop.Built.edge (XmlTop.Built.root "a")
    ?_ ?_ hbig) ?_ ?_ hbig) ?_ ?_ hbig <;> decide

end DLFree

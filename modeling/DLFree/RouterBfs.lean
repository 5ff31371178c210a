/-
**Breadth-first spanning trees for ordered-link routing: `router_graph_make_bfs_spanning_trees`.**

One breadth-first search is started from every host in turn.  A search uses only links that no
earlier search has labelled, and labels the links of its tree with the current level; the level
grows when a search labelled at least one link.  So every level is a tree, and the first one spans
the overlay.

The links live in one vector and the hosts refer to them by their index in it.

Main definitions:

* `RouterBfsNode` — `struct router_bfs_node`;
* `routerGraphDoBfsSearch`, `routerGraphMakeBfsSpanningTrees` — the functions of the source;
* `SearchInv`, `TreesInv` — what holds during one search and between searches.

Main results:

* `routerGraphDoBfsSearch_spec` — one search labels a tree that it cannot extend;
* `routerGraphMakeBfsSpanningTrees_spec` — **the levels are deadlock-free and complete**.
-/

import DLFree.Discovery
import DLFree.RouterUpdown

set_option relaxedAutoImplicit false
set_option autoImplicit false

namespace DLFree

open Discovery LinkGraph

/-! ### The code -/

/-- `struct router_bfs_node`; `links` holds the indices of the links in the pool. -/
structure RouterBfsNode where
  pid : ℕ
  value : ℚ
  links : List ℕ
  deriving DecidableEq, Repr

/-- `bfs_node_map` and `bfs_node_vec`. -/
structure RouterBfsNodes where
  nodeMap : ℕ → Option RouterBfsNode
  nodeVec : List ℕ

/-- The link `i` is added to the node of `pid`, which is created when it does not exist. -/
def routerBfsAddLink (avgdistMap : ℕ → ℚ) (i : ℕ) (nodes : RouterBfsNodes) (pid : ℕ) :
    RouterBfsNodes :=
  match nodes.nodeMap pid with
  | none =>
      { nodeMap := Function.update nodes.nodeMap pid (some ⟨pid, avgdistMap pid, [i]⟩)
        nodeVec := nodes.nodeVec ++ [pid] }
  | some bfsNode =>
      { nodes with
        nodeMap := Function.update nodes.nodeMap pid
          (some { bfsNode with links := bfsNode.links ++ [i] }) }

/-- `router_bfs_node_sorter`: the node of larger value comes first. -/
def routerBfsNodeSorter (n0 n1 : RouterBfsNode) : ℤ :=
  if n0.value < n1.value then 1 else if n0.value = n1.value then 0 else -1

/-- The state of `router_graph_do_bfs_search`. -/
structure RouterBfsSearch where
  nodeQueue : List ℕ
  visited : ℕ → Bool
  links : List RouterGraphLink
  linkLabeled : Bool

/-- One link of `pid` in `router_graph_do_bfs_search`. -/
def routerBfsVisitLink (level pid : ℕ) (st : RouterBfsSearch) (i : ℕ) : RouterBfsSearch :=
  match st.links[i]? with
  | none => st
  | some link =>
      if link.level0 ≠ -1 ∨ link.level1 ≠ -1 then st
      else
        let next := link.conn.other pid
        if st.visited next then st
        else
          { nodeQueue := st.nodeQueue ++ [next]
            visited := Function.update st.visited next true
            links := st.links.set i { link with level0 := level, level1 := level }
            linkLabeled := true }

/-- The loop of `router_graph_do_bfs_search` over its queue. -/
def routerBfsLoop (nodeMap : ℕ → Option RouterBfsNode) (level : ℕ) :
    ℕ → RouterBfsSearch → Except Abort RouterBfsSearch
  | fuel, st =>
      match st.nodeQueue with
      | [] => Except.ok st
      | pid :: nodeQueue =>
          match fuel with
          | 0 => Except.error Abort.diverges
          | fuel + 1 =>
              match nodeMap pid with
              | none => Except.error Abort.badAccess
              | some bfsNode =>
                  routerBfsLoop nodeMap level fuel
                    (bfsNode.links.foldl (routerBfsVisitLink level pid)
                      { st with nodeQueue := nodeQueue })

/-- `router_graph_do_bfs_search`: the links after the search and whether one was labelled. -/
def routerGraphDoBfsSearch (nnodes : ℕ) (nodeMap : ℕ → Option RouterBfsNode) (level : ℕ)
    (links : List RouterGraphLink) (bfsNode : RouterBfsNode) :
    Except Abort (List RouterGraphLink × Bool) := do
  let st ← routerBfsLoop nodeMap level nnodes
    { nodeQueue := [bfsNode.pid]
      visited := Function.update (fun _ => false) bfsNode.pid true
      links := links
      linkLabeled := false }
  Except.ok (st.links, st.linkLabeled)

/-- The nodes that `router_graph_make_bfs_spanning_trees` builds, before it shuffles their
links. -/
def routerBfsCollect (avgdistMap : ℕ → ℚ) (conns : List OverlayEdge) : RouterBfsNodes :=
  conns.zipIdx.foldl
    (fun nodes p =>
      routerBfsAddLink avgdistMap p.2 (routerBfsAddLink avgdistMap p.2 nodes p.1.n0) p.1.n1)
    ⟨fun _ => none, []⟩

/-- `router_graph_make_bfs_spanning_trees`: the number of levels and the links. -/
def routerGraphMakeBfsSpanningTrees (lib : Libc) (graph : OverlayGraph) (nnodes : ℕ)
    (avgdistMap : ℕ → ℚ) (seed : ℤ) : Except Abort (ℕ × List RouterGraphLink) := do
  let nodes := routerBfsCollect avgdistMap graph.conns
  let nodeMap := fun pid => (nodes.nodeMap pid).map fun bfsNode =>
    { bfsNode with links := vectorShuffle lib seed bfsNode.links }
  let nodeVec := lib.qsort routerBfsNodeSorter (nodes.nodeVec.filterMap nodeMap)
  nodeVec.foldlM (fun st bfsNode => do
      let (links, labeled) ← routerGraphDoBfsSearch nnodes nodeMap st.1 st.2 bfsNode
      Except.ok (if labeled then st.1 + 1 else st.1, links))
    (0, graph.conns.map routerGraphLinkCreate)

/-! ### The nodes -/

/-- The connection `i` has an end at `v`. -/
def Touches (conns : List OverlayEdge) (v i : ℕ) : Prop :=
  ∃ conn, conns[i]? = some conn ∧ (conn.n0 = v ∨ conn.n1 = v)

/-- There is a node for every host that some link touches, and it lists the links that touch it. -/
structure NodesOf (P : ℕ → ℕ → Prop) (nodeMap : ℕ → Option RouterBfsNode) : Prop where
  node : ∀ v bfsNode, nodeMap v = some bfsNode → bfsNode.pid = v ∧ ∀ i, i ∈ bfsNode.links ↔ P v i
  isSome : ∀ v, (∃ bfsNode, nodeMap v = some bfsNode) ↔ ∃ i, P v i

theorem NodesOf.addLink {P : ℕ → ℕ → Prop} {nodes : RouterBfsNodes} (h : NodesOf P nodes.nodeMap)
    (hvec : ∀ v, v ∈ nodes.nodeVec ↔ ∃ bfsNode, nodes.nodeMap v = some bfsNode)
    (avgdistMap : ℕ → ℚ) (i pid : ℕ) :
    NodesOf (fun v j => P v j ∨ (v = pid ∧ j = i)) (routerBfsAddLink avgdistMap i nodes pid).nodeMap ∧
      ∀ v, v ∈ (routerBfsAddLink avgdistMap i nodes pid).nodeVec ↔
        ∃ bfsNode, (routerBfsAddLink avgdistMap i nodes pid).nodeMap v = some bfsNode := by
  cases hm : nodes.nodeMap pid with
  | none =>
      have hno : ∀ j, ¬ P pid j := fun j hj => by
        obtain ⟨b, hb⟩ := (h.isSome pid).2 ⟨j, hj⟩
        rw [hm] at hb
        cases hb
      simp only [routerBfsAddLink, hm]
      refine ⟨⟨fun v b hb => ?_, fun v => ?_⟩, fun v => ?_⟩ <;> by_cases hv : v = pid
      · subst hv
        rw [Function.update_self, Option.some.injEq] at hb
        subst hb
        exact ⟨rfl, fun j => by simp [hno j]⟩
      · rw [Function.update_of_ne hv] at hb
        simpa [hv] using h.node v b hb
      · subst hv
        simp
      · rw [Function.update_of_ne hv, h.isSome]
        simp [hv]
      · subst hv
        simp
      · rw [Function.update_of_ne hv, List.mem_append, hvec]
        simp [hv]
  | some b₀ =>
      obtain ⟨hpid, hlinks⟩ := h.node pid b₀ hm
      simp only [routerBfsAddLink, hm]
      refine ⟨⟨fun v b hb => ?_, fun v => ?_⟩, fun v => ?_⟩ <;> by_cases hv : v = pid
      · subst hv
        rw [Function.update_self, Option.some.injEq] at hb
        subst hb
        exact ⟨hpid, fun j => by simp [hlinks]⟩
      · rw [Function.update_of_ne hv] at hb
        simpa [hv] using h.node v b hb
      · subst hv
        simp
      · rw [Function.update_of_ne hv, h.isSome]
        simp [hv]
      · subst hv
        simp [hvec, hm]
      · rw [Function.update_of_ne hv, hvec]

/-- The nodes that are collected list the links of their hosts. -/
theorem routerBfsCollect_spec (avgdistMap : ℕ → ℚ) (conns : List OverlayEdge) :
    NodesOf (Touches conns) (routerBfsCollect avgdistMap conns).nodeMap ∧
      ∀ v, v ∈ (routerBfsCollect avgdistMap conns).nodeVec ↔
        ∃ bfsNode, (routerBfsCollect avgdistMap conns).nodeMap v = some bfsNode := by
  induction conns using List.reverseRecOn with
  | nil =>
      refine ⟨⟨fun v b hb => ?_, fun v => ?_⟩, fun v => ?_⟩
      · cases hb
      · simp [routerBfsCollect, Touches]
      · simp [routerBfsCollect]
  | append_singleton conns conn ih =>
      obtain ⟨h, hvec⟩ := ih
      obtain ⟨h₁, hvec₁⟩ := h.addLink hvec avgdistMap conns.length conn.n0
      obtain ⟨h₂, hvec₂⟩ := h₁.addLink hvec₁ avgdistMap conns.length conn.n1
      have hrun : routerBfsCollect avgdistMap (conns ++ [conn]) =
          routerBfsAddLink avgdistMap conns.length (routerBfsAddLink avgdistMap conns.length
            (routerBfsCollect avgdistMap conns) conn.n0) conn.n1 := by
        simp [routerBfsCollect, List.zipIdx_append]
      have htouch : (fun v j => (Touches conns v j ∨ (v = conn.n0 ∧ j = conns.length)) ∨
          (v = conn.n1 ∧ j = conns.length)) = Touches (conns ++ [conn]) := by
        funext v j
        rw [eq_iff_iff, Touches, Touches]
        rcases lt_trichotomy j conns.length with hj | hj | hj
        · rw [List.getElem?_append_left hj]
          simp [hj.ne]
        · subst hj
          simp [eq_comm]
        · have h₁ : conns[j]? = none := List.getElem?_eq_none hj.le
          have h₂ : (conns ++ [conn])[j]? = none := List.getElem?_eq_none (by simp; omega)
          simp [h₁, h₂, hj.ne']
      rw [hrun]
      rw [htouch] at h₂
      exact ⟨h₂, hvec₂⟩

/-- Shuffling the links of every node keeps what the nodes list. -/
theorem NodesOf.shuffle {P : ℕ → ℕ → Prop} {nodeMap : ℕ → Option RouterBfsNode}
    (h : NodesOf P nodeMap) (lib : Libc) (seed : ℤ) :
    NodesOf P fun pid => (nodeMap pid).map fun bfsNode =>
      { bfsNode with links := vectorShuffle lib seed bfsNode.links } := by
  refine ⟨fun v b hb => ?_, fun v => ?_⟩
  · obtain ⟨b₀, hb₀, rfl⟩ := Option.map_eq_some_iff.1 hb
    obtain ⟨hpid, hlinks⟩ := h.node v b₀ hb₀
    exact ⟨hpid, fun i => by rw [← hlinks i]; exact (vectorShuffle_perm _ _ _).mem_iff⟩
  · rw [← h.isSome]
    simp

/-! ### One search -/

theorem OverlayEdge.ends_other {conn : OverlayEdge} {v : ℕ} (h : conn.n0 = v ∨ conn.n1 = v) :
    conn.ends = (v, conn.other v) ∨ conn.ends = (conn.other v, v) := by
  rw [OverlayEdge.other, OverlayEdge.ends]
  by_cases h0 : conn.n0 = v
  · rw [if_pos h0, h0]
    exact Or.inl rfl
  · rw [if_neg h0, h.resolve_left h0]
    exact Or.inr rfl

/-- The link with a level given by the search. -/
def labelLink (level : ℕ) (link : RouterGraphLink) : RouterGraphLink :=
  { link with level0 := level, level1 := level }

/-- What holds during a search that started with the links `old`; the hosts in `pending` still
have to be looked at. -/
structure SearchInv (old : List RouterGraphLink) (level root : ℕ) (st : RouterBfsSearch)
    (pending vs : List ℕ) (es : List (ℕ × ℕ)) : Prop where
  found : Found (levelGraph old (-1)) root vs es
  visited : ∀ v, st.visited v = true ↔ v ∈ vs
  link : ∀ (i : ℕ) link', st.links[i]? = some link' → ∃ link, old[i]? = some link ∧
    (link' = link ∨ (link.level0 = -1 ∧ link' = labelLink level link ∧
      (link.conn.ends ∈ es ∨ link.conn.ends.swap ∈ es)))
  length : st.links.length = old.length
  tree : ∀ e ∈ es, ∃ link' ∈ st.links, link'.level0 = level ∧
    (link'.conn.ends = e ∨ link'.conn.ends = e.swap)
  labeled : st.linkLabeled = false → es = []
  waiting : ∀ v ∈ pending, v ∈ vs
  closed : ∀ u ∈ vs, u ∉ pending → ∀ v, (levelGraph old (-1)).Adj u v → v ∈ vs

section Search

variable {old : List RouterGraphLink} {level root n : ℕ}

/-- The hosts of a search are among the `n` hosts. -/
theorem search_length_le (hends : ∀ link ∈ old, link.conn.n0 < n ∧ link.conn.n1 < n)
    (hroot : root < n) {vs : List ℕ} {es : List (ℕ × ℕ)}
    (hf : Found (levelGraph old (-1)) root vs es) : vs.length ≤ n := by
  have hlt : ∀ v ∈ vs, v < n := by
    refine hf.subset (S := {v | v < n}) hroot fun u v _ hadj => ?_
    obtain ⟨_, link, hl, _, he | he⟩ := levelGraph_adj_iff.1 hadj <;>
      simp only [OverlayEdge.ends, Prod.mk.injEq] at he
    · exact he.2 ▸ (hends link hl).2
    · exact he.1 ▸ (hends link hl).1
  simpa using (hf.nodup.subperm fun v hv => List.mem_range.2 (hlt v hv)).length_le

/-- Looking at one link of a host: its other end is discovered unless an earlier search has used
the link. -/
theorem routerBfsVisitLink_spec (hsym : Symmetric old)
    (hends : ∀ link ∈ old, link.conn.n0 < n ∧ link.conn.n1 < n)
    (hroot : root < n) {st : RouterBfsSearch} {pid i : ℕ} {vs : List ℕ} {es : List (ℕ × ℕ)}
    (h : SearchInv old level root st (pid :: st.nodeQueue) vs es) {link : RouterGraphLink}
    (hi : old[i]? = some link) (hpid : link.conn.n0 = pid ∨ link.conn.n1 = pid) :
    ∃ vs' es', SearchInv old level root (routerBfsVisitLink level pid st i)
        (pid :: (routerBfsVisitLink level pid st i).nodeQueue) vs' es' ∧
      (∀ v ∈ vs, v ∈ vs') ∧ (link.level0 = -1 → link.conn.other pid ∈ vs') ∧
      (routerBfsVisitLink level pid st i).nodeQueue.length + (n - vs'.length) ≤
        st.nodeQueue.length + (n - vs.length) := by
  have hlink : link ∈ old := List.mem_of_getElem? hi
  have hilt : i < st.links.length := by
    rw [h.length]
    exact (List.getElem?_eq_some_iff.1 hi).1
  obtain ⟨link', hi'⟩ : ∃ link', st.links[i]? = some link' := ⟨_, List.getElem?_eq_getElem hilt⟩
  obtain ⟨link₀, hi₀, hrel⟩ := h.link i link' hi'
  rw [hi, Option.some.injEq] at hi₀
  subst hi₀
  by_cases hused : link'.level0 ≠ -1 ∨ link'.level1 ≠ -1
  · have hvisit : routerBfsVisitLink level pid st i = st := by
      rw [routerBfsVisitLink, hi']
      simp only [if_pos hused]
    rw [hvisit]
    refine ⟨vs, es, h, fun _ hv => hv, fun hfree => ?_, le_rfl⟩
    rcases hrel with rfl | ⟨_, _, hes⟩
    · rcases hused with hu | hu
      · exact absurd hfree hu
      · exact absurd ((hsym link' hlink).symm.trans hfree) hu
    · have hboth : link.conn.n0 ∈ vs ∧ link.conn.n1 ∈ vs := by
        rcases hes with he | he
        · exact ⟨(h.found.ends _ he).1, (h.found.ends _ he).2.1⟩
        · exact ⟨(h.found.ends _ he).2.1, (h.found.ends _ he).1⟩
      rw [OverlayEdge.other]
      split
      · exact hboth.2
      · exact hboth.1
  · have hfree' : link'.level0 = -1 := not_not.1 fun hc => hused (Or.inl hc)
    have hsame : link' = link := by
      rcases hrel with hrel | ⟨_, hrel, _⟩
      · exact hrel
      · rw [hrel] at hfree'
        simp only [labelLink] at hfree'
        omega
    subst hsame
    by_cases hvis : link'.conn.other pid ∈ vs
    · have hvisit : routerBfsVisitLink level pid st i = st := by
        rw [routerBfsVisitLink, hi']
        simp only [if_neg hused, if_pos ((h.visited _).2 hvis)]
      rw [hvisit]
      exact ⟨vs, es, h, fun _ hv => hv, fun _ => hvis, le_rfl⟩
    · have hvisit : routerBfsVisitLink level pid st i =
          { nodeQueue := st.nodeQueue ++ [link'.conn.other pid]
            visited := Function.update st.visited (link'.conn.other pid) true
            links := st.links.set i (labelLink level link')
            linkLabeled := true } := by
        rw [routerBfsVisitLink, hi']
        simp only [if_neg hused, if_neg (mt (h.visited _).1 hvis)]
        rfl
      rw [hvisit]
      have hpidvs : pid ∈ vs := h.waiting pid List.mem_cons_self
      have hendo := OverlayEdge.ends_other hpid
      have hadj : (levelGraph old (-1)).Adj pid (link'.conn.other pid) :=
        levelGraph_adj_iff.2 ⟨fun he => hvis (he ▸ hpidvs), link', hlink, hfree', hendo⟩
      have hfound := h.found.step hpidvs hvis hadj
      have hlen := search_length_le hends hroot hfound
      have hkeep : ∀ link'' ∈ st.links, link''.level0 ≠ -1 →
          link'' ∈ st.links.set i (labelLink level link') := by
        intro x hx hx'
        obtain ⟨j, hj⟩ := List.mem_iff_getElem?.1 hx
        refine List.mem_iff_getElem?.2 ⟨j, ?_⟩
        by_cases hij : i = j
        · subst hij
          rw [hi', Option.some.injEq] at hj
          exact absurd (hj ▸ hfree') hx'
        · rw [List.getElem?_set_ne hij, hj]
      have hnew : labelLink level link' ∈ st.links.set i (labelLink level link') :=
        List.mem_iff_getElem?.2 ⟨i, List.getElem?_set_self hilt⟩
      refine ⟨vs ++ [link'.conn.other pid], es ++ [(pid, link'.conn.other pid)],
        ⟨hfound, ?_, ?_, ?_, ?_, ?_, ?_, ?_⟩, ?_, ?_, ?_⟩
      · intro v
        by_cases hv : v = link'.conn.other pid
        · subst hv; simp
        · dsimp only
          rw [Function.update_of_ne hv, h.visited]
          simp [hv]
      · intro j x hj
        by_cases hij : i = j
        · subst hij
          rw [List.getElem?_set_self hilt, Option.some.injEq] at hj
          refine ⟨link', hi, Or.inr ⟨hfree', hj.symm, ?_⟩⟩
          rcases hendo with he | he
          · exact Or.inl (by simp [he])
          · exact Or.inr (by simp [he])
        · rw [List.getElem?_set_ne hij] at hj
          obtain ⟨y, hy, hrel'⟩ := h.link j x hj
          refine ⟨y, hy, hrel'.imp id (And.imp_right (And.imp_right fun hes => ?_))⟩
          exact hes.imp (List.mem_append_left _) (List.mem_append_left _)
      · rw [List.length_set, h.length]
      · intro e he
        rcases List.mem_append.1 he with he | he
        · obtain ⟨x, hx, hlev, hxe⟩ := h.tree e he
          exact ⟨x, hkeep x hx (by omega), hlev, hxe⟩
        · rw [List.mem_singleton] at he
          subst he
          exact ⟨_, hnew, rfl, hendo⟩
      · exact fun hf => by cases hf
      · intro v hv
        simp only [List.mem_cons, List.mem_append, List.not_mem_nil, or_false] at hv ⊢
        rcases hv with rfl | hv | rfl
        · exact Or.inl hpidvs
        · exact Or.inl (h.waiting v (List.mem_cons_of_mem _ hv))
        · exact Or.inr rfl
      · intro u hu hpend v hadj'
        simp only [List.mem_cons, List.mem_append, List.not_mem_nil, or_false, not_or] at hu hpend ⊢
        rcases hu with hu | hu
        · exact Or.inl (h.closed u hu (by simp [hpend.1, hpend.2.1]) v hadj')
        · exact absurd hu hpend.2.2
      · exact fun v hv => List.mem_append_left _ hv
      · exact fun _ => by simp
      · simp only [List.length_append, List.length_singleton] at hlen ⊢
        omega

theorem routerBfsVisitLinks_spec (hsym : Symmetric old)
    (hends : ∀ link ∈ old, link.conn.n0 < n ∧ link.conn.n1 < n) (hroot : root < n) {pid : ℕ}
    {is : List ℕ} (his : ∀ i ∈ is, Touches (old.map RouterGraphLink.conn) pid i)
    {st : RouterBfsSearch} {vs : List ℕ} {es : List (ℕ × ℕ)}
    (h : SearchInv old level root st (pid :: st.nodeQueue) vs es) :
    ∃ vs' es', SearchInv old level root (is.foldl (routerBfsVisitLink level pid) st)
        (pid :: (is.foldl (routerBfsVisitLink level pid) st).nodeQueue) vs' es' ∧
      (∀ v ∈ vs, v ∈ vs') ∧
      (∀ i ∈ is, ∀ link, old[i]? = some link → link.level0 = -1 → link.conn.other pid ∈ vs') ∧
      (is.foldl (routerBfsVisitLink level pid) st).nodeQueue.length + (n - vs'.length) ≤
        st.nodeQueue.length + (n - vs.length) := by
  induction is generalizing st vs es with
  | nil => exact ⟨vs, es, h, fun _ hv => hv, by simp, le_rfl⟩
  | cons i is ih =>
      obtain ⟨conn, hi, hpid⟩ := his i List.mem_cons_self
      rw [List.getElem?_map, Option.map_eq_some_iff] at hi
      obtain ⟨link, hi, rfl⟩ := hi
      obtain ⟨vs₁, es₁, h₁, hsub₁, hmem₁, hlen₁⟩ :=
        routerBfsVisitLink_spec hsym hends hroot h hi hpid
      obtain ⟨vs₂, es₂, h₂, hsub₂, hmem₂, hlen₂⟩ :=
        ih (fun j hj => his j (List.mem_cons_of_mem _ hj)) h₁
      refine ⟨vs₂, es₂, h₂, fun v hv => hsub₂ v (hsub₁ v hv), ?_, hlen₂.trans hlen₁⟩
      intro j hj link' hj' hfree
      rcases List.mem_cons.1 hj with rfl | hj
      · rw [hi, Option.some.injEq] at hj'
        subst hj'
        exact hsub₂ _ (hmem₁ hfree)
      · exact hmem₂ j hj link' hj' hfree

variable {nodeMap : ℕ → Option RouterBfsNode}

/-- Every discovered host has a node. -/
theorem exists_node (hnodes : NodesOf (Touches (old.map RouterGraphLink.conn)) nodeMap)
    (hroot : ∃ bfsNode, nodeMap root = some bfsNode) {vs : List ℕ} {es : List (ℕ × ℕ)}
    (hf : Found (levelGraph old (-1)) root vs es) : ∀ v ∈ vs, ∃ bfsNode, nodeMap v = some bfsNode := by
  refine hf.subset (S := {v | ∃ bfsNode, nodeMap v = some bfsNode}) hroot fun u v _ hadj => ?_
  obtain ⟨_, link, hl, _, he⟩ := levelGraph_adj_iff.1 hadj
  obtain ⟨i, hi⟩ := List.mem_iff_getElem?.1 hl
  refine (hnodes.isSome v).2 ⟨i, link.conn, by simp [hi], ?_⟩
  simp only [OverlayEdge.ends, Prod.mk.injEq] at he
  exact he.elim (fun h => Or.inr h.2) fun h => Or.inl h.1

/-- The search ends when no unused link leaves the discovered hosts. -/
theorem routerBfsLoop_spec (hsym : Symmetric old)
    (hends : ∀ link ∈ old, link.conn.n0 < n ∧ link.conn.n1 < n) (hroot : root < n)
    (hnodes : NodesOf (Touches (old.map RouterGraphLink.conn)) nodeMap)
    (hrootNode : ∃ bfsNode, nodeMap root = some bfsNode) (fuel : ℕ) {st : RouterBfsSearch}
    {vs : List ℕ} {es : List (ℕ × ℕ)} (h : SearchInv old level root st st.nodeQueue vs es)
    (hfuel : st.nodeQueue.length + (n - vs.length) ≤ fuel) :
    ∃ st' vs' es', routerBfsLoop nodeMap level fuel st = Except.ok st' ∧
      SearchInv old level root st' [] vs' es' := by
  induction fuel generalizing st vs es with
  | zero =>
      have hq := List.length_eq_zero_iff.1 (by omega : st.nodeQueue.length = 0)
      rw [hq] at h
      exact ⟨st, vs, es, by simp [routerBfsLoop, hq], h⟩
  | succ fuel ih =>
      cases hq : st.nodeQueue with
      | nil =>
          rw [hq] at h
          exact ⟨st, vs, es, by simp [routerBfsLoop, hq], h⟩
      | cons pid nodeQueue =>
          rw [hq] at h
          obtain ⟨bfsNode, hnode⟩ :=
            exists_node hnodes hrootNode h.found pid (h.waiting pid List.mem_cons_self)
          obtain ⟨_, hlinks⟩ := hnodes.node pid bfsNode hnode
          have hpop : SearchInv old level root { st with nodeQueue := nodeQueue }
              (pid :: nodeQueue) vs es :=
            ⟨h.found, h.visited, h.link, h.length, h.tree, h.labeled, h.waiting, h.closed⟩
          obtain ⟨vs₁, es₁, h₁, _, hmem, hlen⟩ :=
            routerBfsVisitLinks_spec hsym hends hroot (fun i hi => (hlinks i).1 hi) hpop
          have hdone : SearchInv old level root
              (bfsNode.links.foldl (routerBfsVisitLink level pid) { st with nodeQueue := nodeQueue })
              (bfsNode.links.foldl (routerBfsVisitLink level pid)
                { st with nodeQueue := nodeQueue }).nodeQueue vs₁ es₁ := by
            refine ⟨h₁.found, h₁.visited, h₁.link, h₁.length, h₁.tree, h₁.labeled,
              fun v hv => h₁.waiting v (List.mem_cons_of_mem _ hv), ?_⟩
            intro u hu hpend v hadj
            by_cases hup : u = pid
            · subst hup
              obtain ⟨hne, link, hl, hfree, he⟩ := levelGraph_adj_iff.1 hadj
              obtain ⟨i, hi⟩ := List.mem_iff_getElem?.1 hl
              simp only [OverlayEdge.ends, Prod.mk.injEq] at he
              have htouch : Touches (old.map RouterGraphLink.conn) u i :=
                ⟨link.conn, by simp [hi], he.elim (fun h => Or.inl h.1) fun h => Or.inr h.2⟩
              have hother : link.conn.other u = v := by
                rw [OverlayEdge.other]
                rcases he with ⟨h0, h1⟩ | ⟨h0, h1⟩
                · rw [if_pos h0, h1]
                · rw [if_neg (fun h' => hne (h'.symm.trans h0)), h0]
              exact hother ▸ hmem i ((hlinks i).2 htouch) link hi hfree
            · exact h₁.closed u hu (by simp [hup, hpend]) v hadj
          have hlen' : (bfsNode.links.foldl (routerBfsVisitLink level pid)
              { st with nodeQueue := nodeQueue }).nodeQueue.length + (n - vs₁.length) ≤ fuel := by
            rw [hq, List.length_cons] at hfuel
            have := hlen
            dsimp only at this
            omega
          obtain ⟨st', vs', es', hrun, h'⟩ := ih hdone hlen'
          refine ⟨st', vs', es', ?_, h'⟩
          rw [routerBfsLoop, hq]
          simp only [hnode]
          exact hrun

/-- **One search labels a tree that it cannot extend.** -/
theorem routerGraphDoBfsSearch_spec (level : ℕ) (hsym : Symmetric old)
    (hends : ∀ link ∈ old, link.conn.n0 < n ∧ link.conn.n1 < n)
    (hnodes : NodesOf (Touches (old.map RouterGraphLink.conn)) nodeMap) {bfsNode : RouterBfsNode}
    (hnode : nodeMap bfsNode.pid = some bfsNode) (hroot : bfsNode.pid < n) :
    ∃ st vs es, routerGraphDoBfsSearch n nodeMap level old bfsNode =
        Except.ok (st.links, st.linkLabeled) ∧
      SearchInv old level bfsNode.pid st [] vs es := by
  have hinit : SearchInv old level bfsNode.pid
      { nodeQueue := [bfsNode.pid]
        visited := Function.update (fun _ => false) bfsNode.pid true
        links := old
        linkLabeled := false } [bfsNode.pid] [bfsNode.pid] [] := by
    refine ⟨Found.root, fun v => ?_, fun i link hi => ⟨link, hi, Or.inl rfl⟩, rfl, by simp, by simp,
      by simp, fun u hu hpend => absurd hu hpend⟩
    by_cases hv : v = bfsNode.pid
    · subst hv; simp
    · simp [hv]
  obtain ⟨st, vs, es, hrun, h⟩ := routerBfsLoop_spec hsym hends hroot hnodes ⟨_, hnode⟩ n
    hinit (by simp only [List.length_singleton]; omega)
  exact ⟨st, vs, es, by simp only [routerGraphDoBfsSearch, hrun, bind, Except.bind], h⟩

end Search

/-! ### Between the searches -/

/-- What holds of the links after the searches that used the levels below `level`. -/
structure TreesInv (g : OverlayGraph) (n level : ℕ) (links : List RouterGraphLink) : Prop where
  conns : links.map RouterGraphLink.conn = g.conns
  sym : Symmetric links
  range : ∀ link ∈ links, link.level0 = -1 ∨ (0 ≤ link.level0 ∧ link.level0 < level)
  forest : ∀ k, 0 ≤ k → (levelGraph links k).IsAcyclic
  first : level ≠ 0 → ∀ u < n, ∀ v < n, (levelGraph links 0).Reachable u v

section Trees

variable {g : OverlayGraph} {n level : ℕ} {old : List RouterGraphLink}

/-- Links that agree in where they are labelled `k` have the same graph of level `k`. -/
theorem levelGraph_le {links links' : List RouterGraphLink} {k : ℤ}
    (h : ∀ link ∈ links, link.level0 = k → link ∈ links') :
    levelGraph links k ≤ levelGraph links' k := by
  intro u v hadj
  obtain ⟨hne, link, hl, hk, he⟩ := levelGraph_adj_iff.1 hadj
  exact levelGraph_adj_iff.2 ⟨hne, link, h link hl hk, hk, he⟩

/-- The links after a search: those that were there before, and those that it has labelled. -/
theorem SearchInv.link_cases {root : ℕ} {st : RouterBfsSearch} {pending vs : List ℕ}
    {es : List (ℕ × ℕ)} (hs : SearchInv old level root st pending vs es) :
    ∀ link' ∈ st.links, link' ∈ old ∨ ∃ link ∈ old, link.level0 = -1 ∧
      link' = labelLink level link ∧ (link.conn.ends ∈ es ∨ link.conn.ends.swap ∈ es) := by
  intro link' hl
  obtain ⟨i, hi⟩ := List.mem_iff_getElem?.1 hl
  obtain ⟨link, hi', hrel⟩ := hs.link i link' hi
  have hmem : link ∈ old := List.mem_of_getElem? hi'
  rcases hrel with rfl | ⟨h₁, h₂, h₃⟩
  · exact Or.inl hmem
  · exact Or.inr ⟨link, hmem, h₁, h₂, h₃⟩

/-- A search keeps the links that have a level. -/
theorem SearchInv.keep {root : ℕ} {st : RouterBfsSearch} {pending vs : List ℕ}
    {es : List (ℕ × ℕ)} (hs : SearchInv old level root st pending vs es) :
    ∀ link ∈ old, link.level0 ≠ -1 → link ∈ st.links := by
  intro link hl hne
  obtain ⟨i, hi⟩ := List.mem_iff_getElem?.1 hl
  have hlt : i < st.links.length := by
    rw [hs.length]
    exact (List.getElem?_eq_some_iff.1 hi).1
  obtain ⟨link', hi'⟩ : ∃ link', st.links[i]? = some link' := ⟨_, List.getElem?_eq_getElem hlt⟩
  obtain ⟨link₀, hi₀, hrel⟩ := hs.link i link' hi'
  rw [hi, Option.some.injEq] at hi₀
  subst hi₀
  rcases hrel with rfl | ⟨hfree, _, _⟩
  · exact List.mem_of_getElem? hi'
  · exact absurd hfree hne

/-- The tree links of a search have its level. -/
theorem SearchInv.tree_le {root : ℕ} {st : RouterBfsSearch} {pending vs : List ℕ}
    {es : List (ℕ × ℕ)} (hs : SearchInv old level root st pending vs es) :
    graph es ≤ levelGraph st.links level := by
  intro u v hadj
  obtain ⟨hne, he⟩ := adj_iff.1 hadj
  refine levelGraph_adj_iff.2 ⟨hne, ?_⟩
  rcases he with he | he <;> obtain ⟨link, hl, hk, hends⟩ := hs.tree _ he
  · exact ⟨link, hl, hk, hends⟩
  · exact ⟨link, hl, hk, hends.symm⟩

theorem TreesInv.search (hconn : g.Connected n) (h : TreesInv g n level old)
    {root : ℕ} (hroot : root < n) {st : RouterBfsSearch} {vs : List ℕ} {es : List (ℕ × ℕ)}
    (hs : SearchInv old level root st [] vs es) :
    TreesInv g n (if st.linkLabeled then level + 1 else level) st.links ∧
      (2 ≤ n → (if st.linkLabeled then level + 1 else level) ≠ 0) := by
  have hcases := hs.link_cases
  have hlabeled : es ≠ [] → st.linkLabeled = true := fun hne => by
    by_contra hf
    exact hne (hs.labeled (Bool.not_eq_true _ ▸ hf))
  -- the first search uses all links, so its tree spans the overlay
  have hspan : level = 0 → ∀ v < n, (graph es).Reachable root v := by
    intro hlevel v hv
    have hfree : levelGraph old (-1) = g.links := by
      rw [levelGraph, OverlayGraph.links, ← h.conns, List.map_map, List.filter_eq_self.2]
      · rfl
      · intro link hl
        rcases h.range link hl with hr | ⟨h₁, h₂⟩
        · simpa using hr
        · omega
    refine hs.found.reachable v (hs.found.mem_of_closed ?_ ?_)
    · exact fun u hu w hadj => hs.closed u hu List.not_mem_nil w hadj
    · rw [hfree]
      exact hconn root hroot v hv
  refine ⟨⟨?_, ?_, ?_, ?_, ?_⟩, ?_⟩
  · rw [← h.conns]
    refine List.ext_getElem? fun i => ?_
    rw [List.getElem?_map, List.getElem?_map]
    cases hi : st.links[i]? with
    | none =>
        have hlen : old.length ≤ i := hs.length ▸ List.getElem?_eq_none_iff.1 hi
        rw [List.getElem?_eq_none hlen]
    | some link' =>
        obtain ⟨link, hi', rfl | ⟨_, rfl, _⟩⟩ := hs.link i link' hi
        · rw [hi']
        · rw [hi']
          rfl
  · intro link' hl
    rcases hcases link' hl with hl | ⟨link, _, _, rfl, _⟩
    · exact h.sym link' hl
    · rfl
  · intro link' hl
    rcases hcases link' hl with hl | ⟨link, _, _, rfl, hes⟩
    · refine (h.range link' hl).imp id (And.imp_right fun hlt => hlt.trans_le ?_)
      split <;> simp
    · have hne : es ≠ [] := by
        rintro rfl
        simp at hes
      rw [hlabeled hne]
      exact Or.inr ⟨Int.natCast_nonneg _, by simp [labelLink]⟩
  · intro k hk
    by_cases hkl : k = level
    · refine hs.found.acyclic.anti fun u v hadj => ?_
      obtain ⟨hne, link', hl, hlev, he⟩ := levelGraph_adj_iff.1 hadj
      rcases hcases link' hl with hl | ⟨link, _, _, rfl, hes⟩
      · rcases h.range link' hl with hr | ⟨h₁, h₂⟩ <;> omega
      · refine adj_iff.2 ⟨hne, ?_⟩
        change link.conn.ends = (u, v) ∨ link.conn.ends = (v, u) at he
        rcases he with he | he <;> rw [he] at hes
        · exact hes
        · exact hes.symm
    · refine (h.forest k hk).anti (levelGraph_le fun link' hl hlev => ?_)
      rcases hcases link' hl with hl | ⟨link, _, _, rfl, _⟩
      · exact hl
      · exact absurd hlev.symm hkl
  · intro hne u hu v hv
    by_cases hlevel : level = 0
    · have hle : graph es ≤ levelGraph st.links 0 := by
        have htree := hs.tree_le
        rw [hlevel] at htree
        exact_mod_cast htree
      exact ((hspan hlevel u hu).mono hle).symm.trans ((hspan hlevel v hv).mono hle)
    · refine (h.first hlevel u hu v hv).mono (levelGraph_le fun link hl hk => ?_)
      exact hs.keep link hl (by omega)
  · intro hn
    by_cases hlevel : level = 0
    · have hne : es ≠ [] := by
        rintro rfl
        have h0 := hspan hlevel 0 (by omega)
        have h1 := hspan hlevel 1 (by omega)
        rw [graph_nil, SimpleGraph.reachable_bot] at h0 h1
        omega
      rw [hlabeled hne]
      simp
    · split <;> omega

/-- Before the first search no link has a level. -/
theorem treesInv_init : TreesInv g n 0 (g.conns.map routerGraphLinkCreate) := by
  have hfresh : ∀ link ∈ g.conns.map routerGraphLinkCreate,
      link.level0 = -1 ∧ link.level1 = -1 := by
    intro link hl
    obtain ⟨e, _, rfl⟩ := List.mem_map.1 hl
    exact ⟨rfl, rfl⟩
  refine ⟨by simp [Function.comp_def, routerGraphLinkCreate], fun link hl => ?_,
    fun link hl => Or.inl (hfresh link hl).1, fun k hk => ?_, fun hne => absurd rfl hne⟩
  · rw [(hfresh link hl).1, (hfresh link hl).2]
  · have hbot : levelGraph (g.conns.map routerGraphLinkCreate) k = ⊥ := by
      ext u v
      rw [levelGraph_adj_iff]
      refine iff_of_false ?_ id
      rintro ⟨_, link, hl, hlev, _⟩
      have := (hfresh link hl).1
      omega
    rw [hbot]
    exact SimpleGraph.isAcyclic_bot

/-- A node that some link touches is one of the hosts. -/
theorem NodesOf.pid_lt (hg : g.Simple n) {nodeMap : ℕ → Option RouterBfsNode}
    (hnodes : NodesOf (Touches g.conns) nodeMap) {v : ℕ} {bfsNode : RouterBfsNode}
    (hb : nodeMap v = some bfsNode) : bfsNode.pid = v ∧ v < n := by
  obtain ⟨i, conn, hi, hends⟩ := (hnodes.isSome v).1 ⟨bfsNode, hb⟩
  have hmem := hg.lt conn (List.mem_of_getElem? hi)
  refine ⟨(hnodes.node v bfsNode hb).1, ?_⟩
  rcases hends with rfl | rfl
  · exact hmem.1
  · exact hmem.2

/-- **`router_graph_make_bfs_spanning_trees` gives deadlock-free and complete levels.** -/
theorem routerGraphMakeBfsSpanningTrees_spec (lib : Libc) (hg : g.Simple n)
    (hconn : g.Connected n) (avgdistMap : ℕ → ℚ) (seed : ℤ) :
    ∃ levels links, routerGraphMakeBfsSpanningTrees lib g n avgdistMap seed =
        Except.ok (levels, links) ∧
      links.map RouterGraphLink.conn = g.conns ∧ LevelsDeadlockFree links ∧
      LevelsComplete links n levels := by
  obtain ⟨hcollect, hvec⟩ := routerBfsCollect_spec avgdistMap g.conns
  have hnodes := hcollect.shuffle lib seed
  set nodeMap := fun pid => ((routerBfsCollect avgdistMap g.conns).nodeMap pid).map fun bfsNode =>
    { bfsNode with links := vectorShuffle lib seed bfsNode.links } with hmap
  have hlt : ∀ v bfsNode, nodeMap v = some bfsNode → bfsNode.pid = v ∧ v < n :=
    fun v bfsNode hb => hnodes.pid_lt hg hb
  -- the loop over the sorted nodes
  have loop : ∀ (vec : List RouterBfsNode),
      (∀ bfsNode ∈ vec, nodeMap bfsNode.pid = some bfsNode) →
      ∀ level links, TreesInv g n level links → ∃ level' links',
        vec.foldlM (fun st bfsNode => do
          let (links, labeled) ← routerGraphDoBfsSearch n nodeMap st.1 st.2 bfsNode
          Except.ok (if labeled then st.1 + 1 else st.1, links)) (level, links) =
            Except.ok (level', links') ∧
        TreesInv g n level' links' ∧ (2 ≤ n → level ≠ 0 ∨ vec ≠ [] → level' ≠ 0) := by
    intro vec
    induction vec with
    | nil =>
        intro _ level links h
        exact ⟨level, links, rfl, h, fun _ hne => hne.resolve_right (by simp)⟩
    | cons bfsNode vec ih =>
        intro hvecnode level links h
        have hnode := hvecnode bfsNode List.mem_cons_self
        obtain ⟨_, hroot⟩ := hlt _ _ hnode
        have hends : ∀ link ∈ links, link.conn.n0 < n ∧ link.conn.n1 < n := fun link hl =>
          hg.lt _ (h.conns ▸ List.mem_map_of_mem hl)
        obtain ⟨st, vs, es, hrun, hs⟩ := routerGraphDoBfsSearch_spec level h.sym hends
          (h.conns.symm ▸ hnodes) hnode hroot
        obtain ⟨h', hpos⟩ := h.search hconn hroot hs
        obtain ⟨level', links', hrun', h'', hpos'⟩ :=
          ih (fun b hb => hvecnode b (List.mem_cons_of_mem _ hb)) _ _ h'
        refine ⟨level', links', ?_, h'', fun hn _ => hpos' hn (Or.inl (hpos hn))⟩
        rw [List.foldlM_cons]
        simp only [hrun, bind, Except.bind]
        exact hrun'
  have hsorted := lib.qsort_perm routerBfsNodeSorter
    ((routerBfsCollect avgdistMap g.conns).nodeVec.filterMap nodeMap)
  obtain ⟨levels, links, hrun, h, hpos⟩ := loop
    (lib.qsort routerBfsNodeSorter
      ((routerBfsCollect avgdistMap g.conns).nodeVec.filterMap nodeMap)) (fun b hb => by
      obtain ⟨v, _, hv⟩ := List.mem_filterMap.1 (hsorted.subset hb)
      rw [(hlt v b hv).1, hv]) 0 _ treesInv_init
  refine ⟨levels, links, hrun, h.conns, ?_, ?_⟩
  · refine deadlockFree_of_forests h.sym (fun link hl => ?_) h.forest
    exact hg.ne (h.conns ▸ List.mem_map_of_mem hl)
  · intro src hsrc dst hdst hne
    have hn : 2 ≤ n := by omega
    -- a connected overlay of two hosts has a connection, so some search is run
    obtain ⟨w, hadj⟩ : ∃ w, g.links.Adj src w := by
      have hr := hconn src hsrc dst hdst
      rw [SimpleGraph.reachable_iff_reflTransGen] at hr
      rcases Relation.ReflTransGen.cases_head hr with he | ⟨w, hw, _⟩
      · exact absurd he hne
      · exact ⟨w, hw⟩
    obtain ⟨e, he, hends⟩ := hg.links_adj.1 hadj
    have hvecne : lib.qsort routerBfsNodeSorter
        ((routerBfsCollect avgdistMap g.conns).nodeVec.filterMap nodeMap) ≠ [] := by
      obtain ⟨i, hi⟩ := List.mem_iff_getElem?.1 he
      have htouch : Touches g.conns src i :=
        ⟨e, hi, hends.elim (fun h => Or.inl h.1) fun h => Or.inr h.2⟩
      obtain ⟨b, hb⟩ := (hcollect.isSome src).2 ⟨i, htouch⟩
      obtain ⟨b', hb'⟩ := (hnodes.isSome src).2 ⟨i, htouch⟩
      have hmem := List.mem_filterMap.2 ⟨src, (hvec src).2 ⟨b, hb⟩, hb'⟩
      exact List.ne_nil_of_mem (hsorted.symm.subset hmem)
    have hlevels := hpos hn (Or.inr hvecne)
    exact complete_of_span h.sym (Nat.pos_of_ne_zero hlevels) (h.first hlevels)
      src hsrc dst hdst hne

end Trees

end DLFree

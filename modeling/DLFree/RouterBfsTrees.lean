/-
**The levels of the breadth-first searches: which links they hold, and at which host they start.**

`router_graph_make_bfs_spanning_trees` starts a search at every host that has a link.  A search
looks at the links of its root before it has discovered another host, and two links of the root lead
to two different hosts, so it labels every link of its root that no earlier search has labelled.
After the searches from all hosts no link is left, and no host is the root of two levels.

Main definitions:

* `routerBfsRoots` — the roots of the searches that labelled a link, one for each level;
* `Labels`, `RootScan`, `RootsInv` — what holds over one search, over the links of its root, and
  between searches;
* `BfsTrees` — every link has one of the levels, and each level is a tree at its root.

Main results:

* `routerGraphDoBfsSearch_root` — a search labels every link of its root;
* `bfsSpanningTrees_trees` — **no link is left without a level, every level is a tree at its root,
  there are at most as many levels as hosts, and the first one spans them**.
-/

import DLFree.RouterBfs

set_option relaxedAutoImplicit false
set_option autoImplicit false

namespace DLFree

open Discovery LinkGraph

/-- The roots of the searches of `router_graph_make_bfs_spanning_trees` that label a link: the
search from the root number `k` uses level `k`. -/
def routerBfsSearchRoots (nnodes : ℕ) (nodeMap : ℕ → Option RouterBfsNode) :
    List RouterBfsNode → ℕ → List RouterGraphLink → List ℕ
  | [], _, _ => []
  | bfsNode :: nodeVec, level, links =>
      match routerGraphDoBfsSearch nnodes nodeMap level links bfsNode with
      | Except.error _ => []
      | Except.ok (links, true) =>
          bfsNode.pid :: routerBfsSearchRoots nnodes nodeMap nodeVec (level + 1) links
      | Except.ok (links, false) => routerBfsSearchRoots nnodes nodeMap nodeVec level links

/-- The roots of the levels that `router_graph_make_bfs_spanning_trees` returns. -/
def routerBfsRoots (lib : Libc) (graph : OverlayGraph) (nnodes : ℕ) (avgdistMap : ℕ → ℚ)
    (seed : ℤ) : List ℕ :=
  let nodes := routerBfsCollect avgdistMap graph.conns
  let nodeMap := fun pid => (nodes.nodeMap pid).map fun bfsNode =>
    { bfsNode with links := vectorShuffle lib seed bfsNode.links }
  let nodeVec := lib.qsort routerBfsNodeSorter (nodes.nodeVec.filterMap nodeMap)
  routerBfsSearchRoots nnodes nodeMap nodeVec 0 (graph.conns.map routerGraphLinkCreate)

/-- Every link has one of the levels, each level is a tree at its root, the first one spans the
hosts. -/
structure BfsTrees (g : OverlayGraph) (n levels : ℕ) (links : List RouterGraphLink)
    (roots : List ℕ) : Prop where
  conns : links.map RouterGraphLink.conn = g.conns
  level : ∀ link ∈ links, link.level0 = link.level1 ∧ 0 ≤ link.level0 ∧ link.level0 < levels
  length : roots.length = levels
  acyclic : ∀ k < levels, (levelGraph links k).IsAcyclic
  nonempty : ∀ (k root : ℕ), roots[k]? = some root →
    ∃ link ∈ links, link.level0 = (k : ℤ) ∧ (link.conn.n0 = root ∨ link.conn.n1 = root)
  tree : ∀ (k root : ℕ), roots[k]? = some root → ∀ link ∈ links, link.level0 = (k : ℤ) →
    (levelGraph links k).Reachable root link.conn.n0 ∧
      (levelGraph links k).Reachable root link.conn.n1
  le : levels ≤ n
  span : ∀ u < n, ∀ v < n, (levelGraph links 0).Reachable u v

/-! ### What one search changes -/

/-- The link has been used by some search. -/
def RouterGraphLink.Labelled (link : RouterGraphLink) : Prop := link.level0 ≠ -1 ∨ link.level1 ≠ -1

theorem labelLink_labelled (level : ℕ) (link : RouterGraphLink) :
    (labelLink level link).Labelled := by
  refine Or.inl ?_
  show (level : ℤ) ≠ -1
  omega

/-- A search leaves labelled links alone, and it reports a label only when it has set one. -/
structure Labels (level : ℕ) (st st' : RouterBfsSearch) : Prop where
  keep : ∀ (i : ℕ) (link : RouterGraphLink), st.links[i]? = some link → link.Labelled →
    st'.links[i]? = some link
  labeled : st'.linkLabeled = true →
    st.linkLabeled = true ∨ ∃ link ∈ st'.links, link.level0 = (level : ℤ)

theorem Labels.refl (level : ℕ) (st : RouterBfsSearch) : Labels level st st :=
  ⟨fun _ _ h _ => h, Or.inl⟩

theorem Labels.trans {level : ℕ} {st st' st'' : RouterBfsSearch} (h : Labels level st st')
    (h' : Labels level st' st'') : Labels level st st'' := by
  refine ⟨fun i link hi hl => h'.keep i link (h.keep i link hi hl) hl, fun hlab => ?_⟩
  rcases h'.labeled hlab with hlab | hlab
  · refine (h.labeled hlab).imp id ?_
    rintro ⟨link, hl, hk⟩
    obtain ⟨i, hi⟩ := List.mem_iff_getElem?.1 hl
    exact ⟨link, List.mem_of_getElem? (h'.keep i link hi (Or.inl (by omega))), hk⟩
  · exact Or.inr hlab

/-- Looking at a link changes nothing when it is labelled or leads to a discovered host. -/
theorem routerBfsVisitLink_cases (level pid : ℕ) {st : RouterBfsSearch} {i : ℕ}
    {link : RouterGraphLink} (hi : st.links[i]? = some link) :
    (routerBfsVisitLink level pid st i = st ∧
      (link.Labelled ∨ st.visited (link.conn.other pid) = true)) ∨
    (¬ link.Labelled ∧ routerBfsVisitLink level pid st i =
      { nodeQueue := st.nodeQueue ++ [link.conn.other pid]
        visited := Function.update st.visited (link.conn.other pid) true
        links := st.links.set i (labelLink level link)
        linkLabeled := true }) := by
  rw [routerBfsVisitLink, hi]
  by_cases hlab : link.level0 ≠ -1 ∨ link.level1 ≠ -1
  · exact Or.inl ⟨if_pos hlab, Or.inl hlab⟩
  · simp only [if_neg hlab]
    by_cases hvis : st.visited (link.conn.other pid) = true
    · exact Or.inl ⟨if_pos hvis, Or.inr hvis⟩
    · exact Or.inr ⟨hlab, if_neg hvis⟩

theorem routerBfsVisitLink_labels (level pid : ℕ) (st : RouterBfsSearch) (i : ℕ) :
    Labels level st (routerBfsVisitLink level pid st i) := by
  cases hi : st.links[i]? with
  | none =>
      rw [routerBfsVisitLink, hi]
      exact Labels.refl level st
  | some link =>
      rcases routerBfsVisitLink_cases level pid hi with ⟨hvisit, _⟩ | ⟨hfree, hvisit⟩
      · rw [hvisit]
        exact Labels.refl level st
      · rw [hvisit]
        have hlt : i < st.links.length := (List.getElem?_eq_some_iff.1 hi).1
        refine ⟨fun j x hj hx => ?_, fun _ => Or.inr ⟨labelLink level link, ?_, rfl⟩⟩
        · have hij : i ≠ j := by
            rintro rfl
            rw [hi, Option.some.injEq] at hj
            exact hfree (hj ▸ hx)
          exact (List.getElem?_set_ne hij).trans hj
        · exact List.mem_iff_getElem?.2 ⟨i, List.getElem?_set_self hlt⟩

theorem routerBfsVisitLinks_labels (level pid : ℕ) (is : List ℕ) (st : RouterBfsSearch) :
    Labels level st (is.foldl (routerBfsVisitLink level pid) st) := by
  induction is generalizing st with
  | nil => exact Labels.refl level st
  | cons i is ih => exact (routerBfsVisitLink_labels level pid st i).trans (ih _)

theorem routerBfsLoop_labels {nodeMap : ℕ → Option RouterBfsNode} {level fuel : ℕ}
    {st st' : RouterBfsSearch} (h : routerBfsLoop nodeMap level fuel st = Except.ok st') :
    Labels level st st' := by
  induction fuel generalizing st with
  | zero =>
      rw [routerBfsLoop] at h
      cases hq : st.nodeQueue with
      | nil =>
          simp only [hq, Except.ok.injEq] at h
          exact h ▸ Labels.refl level st
      | cons pid nodeQueue =>
          simp only [hq] at h
          cases h
  | succ fuel ih =>
      rw [routerBfsLoop] at h
      cases hq : st.nodeQueue with
      | nil =>
          simp only [hq, Except.ok.injEq] at h
          exact h ▸ Labels.refl level st
      | cons pid nodeQueue =>
          have hpop : Labels level st { st with nodeQueue := nodeQueue } :=
            ⟨fun _ _ hi _ => hi, Or.inl⟩
          cases hm : nodeMap pid with
          | none =>
              simp only [hq, hm] at h
              cases h
          | some bfsNode =>
              simp only [hq, hm] at h
              exact hpop.trans ((routerBfsVisitLinks_labels level pid bfsNode.links _).trans (ih h))

/-! ### The links of the root -/

/-- Two links of a host that lead to the same host join the same hosts. -/
theorem samePair_of_other {c d : OverlayEdge} {v : ℕ} (hc : c.n0 = v ∨ c.n1 = v)
    (hd : d.n0 = v ∨ d.n1 = v) (h : c.other v = d.other v) :
    ForestLayers.SamePair OverlayEdge.ends c d := by
  rcases OverlayEdge.ends_other hc with hc | hc <;> rcases OverlayEdge.ends_other hd with hd | hd
  · exact Or.inl (by rw [hc, hd, h])
  · exact Or.inr (by rw [hc, hd, h, Prod.swap_prod_mk])
  · exact Or.inr (by rw [hc, hd, h, Prod.swap_prod_mk])
  · exact Or.inl (by rw [hc, hd, h])

/-- Two different connections of a simple list do not join the same hosts. -/
theorem index_eq_of_samePair {conns : List OverlayEdge}
    (hs : ForestLayers.Simple OverlayEdge.ends conns) {i j : ℕ} {c d : OverlayEdge}
    (hi : conns[i]? = some c) (hj : conns[j]? = some d)
    (h : ForestLayers.SamePair OverlayEdge.ends c d) : i = j := by
  obtain ⟨hil, rfl⟩ := List.getElem?_eq_some_iff.1 hi
  obtain ⟨hjl, rfl⟩ := List.getElem?_eq_some_iff.1 hj
  rcases lt_trichotomy i j with hlt | heq | hgt
  · exact absurd h (List.pairwise_iff_getElem.1 hs.pair i j hil hjl hlt)
  · exact heq
  · exact absurd h (OverlayGraph.samePair_symm
      (List.pairwise_iff_getElem.1 hs.pair j i hjl hil hgt))

/-- The search when it has taken its root from the queue. -/
def routerBfsStart (old : List RouterGraphLink) (root : ℕ) : RouterBfsSearch where
  nodeQueue := []
  visited := Function.update (fun _ => false) root true
  links := old
  linkLabeled := false

/-- What holds while the search looks at the links of its root; it has looked at those in `done`. -/
structure RootScan (conns : List OverlayEdge) (root : ℕ) (st : RouterBfsSearch) (done : List ℕ) :
    Prop where
  map : st.links.map RouterGraphLink.conn = conns
  labelled : ∀ i ∈ done, ∀ link : RouterGraphLink, st.links[i]? = some link → link.Labelled
  visited : ∀ v, st.visited v = true → v = root ∨
    ∃ i ∈ done, ∃ conn : OverlayEdge, conns[i]? = some conn ∧
      (conn.n0 = root ∨ conn.n1 = root) ∧ conn.other root = v

section Root

variable {conns : List OverlayEdge} {root level : ℕ}
  (hs : ForestLayers.Simple OverlayEdge.ends conns)
include hs

/-- **A link of the root is labelled when the search has looked at it.** -/
theorem RootScan.visit {st : RouterBfsSearch} {done : List ℕ} (h : RootScan conns root st done)
    {i : ℕ} (hi : Touches conns root i) :
    RootScan conns root (routerBfsVisitLink level root st i) (i :: done) := by
  obtain ⟨conn, hconn, hroot⟩ := hi
  obtain ⟨link, hlink, rfl⟩ : ∃ link, st.links[i]? = some link ∧ link.conn = conn := by
    rw [← h.map, List.getElem?_map, Option.map_eq_some_iff] at hconn
    exact hconn
  have hlt : i < st.links.length := (List.getElem?_eq_some_iff.1 hlink).1
  rcases routerBfsVisitLink_cases level root hlink with ⟨hvisit, hwhy⟩ | ⟨_, hvisit⟩
  · -- a discovered host is the other end of a link before this one, so that is the same link
    have hlab : link.Labelled := by
      rcases hwhy with hlab | hvis
      · exact hlab
      · rcases h.visited _ hvis with hother | ⟨j, hj, d, hd, hdroot, hother⟩
        · have hmem := List.mem_of_getElem? hconn
          rcases OverlayEdge.ends_other hroot with he | he <;>
            exact absurd (by simp [he, hother]) (hs.loop _ hmem)
        · have hij := index_eq_of_samePair hs hd hconn (samePair_of_other hdroot hroot hother)
          exact h.labelled j hj link (hij ▸ hlink)
    rw [hvisit]
    refine ⟨h.map, fun j hj x hx => ?_, fun v hv => ?_⟩
    · rcases List.mem_cons.1 hj with rfl | hj
      · rw [hlink, Option.some.injEq] at hx
        exact hx ▸ hlab
      · exact h.labelled j hj x hx
    · refine (h.visited v hv).imp id ?_
      rintro ⟨j, hj, hrest⟩
      exact ⟨j, List.mem_cons_of_mem _ hj, hrest⟩
  · rw [hvisit]
    refine ⟨?_, fun j hj x hx => ?_, fun v hv => ?_⟩
    · rw [← h.map]
      refine List.ext_getElem? fun j => ?_
      rw [List.getElem?_map, List.getElem?_map]
      by_cases hij : i = j
      · subst hij
        rw [List.getElem?_set_self hlt, hlink]
        rfl
      · rw [List.getElem?_set_ne hij]
    · by_cases hij : i = j
      · subst hij
        rw [List.getElem?_set_self hlt, Option.some.injEq] at hx
        exact hx ▸ labelLink_labelled level link
      · rw [List.getElem?_set_ne hij] at hx
        exact h.labelled j ((List.mem_cons.1 hj).resolve_left (Ne.symm hij)) x hx
    · by_cases hother : v = link.conn.other root
      · exact Or.inr ⟨i, List.mem_cons_self, link.conn, hconn, hroot, hother.symm⟩
      · dsimp only at hv
        rw [Function.update_of_ne hother] at hv
        refine (h.visited v hv).imp id ?_
        rintro ⟨j, hj, hrest⟩
        exact ⟨j, List.mem_cons_of_mem _ hj, hrest⟩

theorem RootScan.visits {is : List ℕ} (his : ∀ i ∈ is, Touches conns root i)
    {st : RouterBfsSearch} {done : List ℕ} (h : RootScan conns root st done) :
    RootScan conns root (is.foldl (routerBfsVisitLink level root) st) (is.reverse ++ done) := by
  induction is generalizing st done with
  | nil => exact h
  | cons i is ih =>
      rw [List.foldl_cons, List.reverse_cons, List.append_assoc]
      exact ih (fun j hj => his j (List.mem_cons_of_mem _ hj))
        (h.visit hs (his i List.mem_cons_self))

/-- **A search labels every link of its root.** -/
theorem routerGraphDoBfsSearch_root {nodeMap : ℕ → Option RouterBfsNode} {n : ℕ}
    {old : List RouterGraphLink} (hold : old.map RouterGraphLink.conn = conns)
    (hnodes : NodesOf (Touches conns) nodeMap) {bfsNode : RouterBfsNode}
    (hnode : nodeMap bfsNode.pid = some bfsNode) (hn : 1 ≤ n) {links : List RouterGraphLink}
    {labeled : Bool}
    (h : routerGraphDoBfsSearch n nodeMap level old bfsNode = Except.ok (links, labeled)) :
    (∀ i, Touches conns bfsNode.pid i → ∀ link : RouterGraphLink, links[i]? = some link →
      link.Labelled) ∧ (labeled = true → ∃ link ∈ links, link.level0 = (level : ℤ)) := by
  obtain ⟨st', hloop, hst⟩ := bind_eq_ok.1 h
  cases hst
  obtain ⟨m, rfl⟩ := Nat.exists_eq_succ_of_ne_zero (by omega : n ≠ 0)
  -- the first round takes the root from the queue
  rw [routerBfsLoop] at hloop
  simp only [hnode] at hloop
  change routerBfsLoop nodeMap level m (bfsNode.links.foldl
    (routerBfsVisitLink level bfsNode.pid) (routerBfsStart old bfsNode.pid)) = Except.ok st' at hloop
  have hlinks := (hnodes.node _ _ hnode).2
  have hstart : RootScan conns bfsNode.pid (routerBfsStart old bfsNode.pid) [] := by
    refine ⟨hold, by simp, fun v hv => Or.inl ?_⟩
    by_contra hne
    have hoff : (routerBfsStart old bfsNode.pid).visited v = false := by
      simp [routerBfsStart, hne]
    rw [hoff] at hv
    cases hv
  have hscan : RootScan conns bfsNode.pid (bfsNode.links.foldl
      (routerBfsVisitLink level bfsNode.pid) (routerBfsStart old bfsNode.pid))
      (bfsNode.links.reverse ++ []) := hstart.visits hs fun i hi => (hlinks i).1 hi
  have hlabels := routerBfsLoop_labels hloop
  have hfirst := routerBfsVisitLinks_labels level bfsNode.pid bfsNode.links
    (routerBfsStart old bfsNode.pid)
  refine ⟨fun i hi link hlink => ?_, fun hlab => ?_⟩
  · have hmem : i ∈ bfsNode.links.reverse ++ [] := by simpa using (hlinks i).2 hi
    have hlt : i < (bfsNode.links.foldl (routerBfsVisitLink level bfsNode.pid)
        (routerBfsStart old bfsNode.pid)).links.length := by
      obtain ⟨conn, hconn, _⟩ := hi
      rw [← List.length_map (f := RouterGraphLink.conn), hscan.map]
      exact (List.getElem?_eq_some_iff.1 hconn).1
    have hat := List.getElem?_eq_getElem hlt
    have hmid := hscan.labelled i hmem _ hat
    rw [hlabels.keep i _ hat hmid, Option.some.injEq] at hlink
    exact hlink ▸ hmid
  · rcases (hfirst.trans hlabels).labeled hlab with hf | hex
    · cases hf
    · exact hex

end Root

/-! ### Between the searches -/

/-- What holds of the links after the searches from the hosts in `processed`; those from the hosts in
`roots` have labelled a link. -/
structure RootsInv (n level : ℕ) (links : List RouterGraphLink) (roots processed : List ℕ) :
    Prop where
  length : roots.length = level
  nodup : roots.Nodup
  lt : ∀ r ∈ roots, r < n
  sub : roots ⊆ processed
  done : ∀ v ∈ processed, ∀ link ∈ links, (link.conn.n0 = v ∨ link.conn.n1 = v) →
    link.level0 ≠ -1
  nonempty : ∀ (k root : ℕ), roots[k]? = some root →
    ∃ link ∈ links, link.level0 = (k : ℤ) ∧ (link.conn.n0 = root ∨ link.conn.n1 = root)
  tree : ∀ (k root : ℕ), roots[k]? = some root → ∀ link ∈ links, link.level0 = (k : ℤ) →
    (levelGraph links k).Reachable root link.conn.n0 ∧
      (levelGraph links k).Reachable root link.conn.n1

section Searches

variable {g : OverlayGraph} {n level root : ℕ} {old : List RouterGraphLink} {st : RouterBfsSearch}
  {vs : List ℕ} {es : List (ℕ × ℕ)}

/-- A search with a tree link has one at its root. -/
theorem Found.root_link {V : Type*} {G : SimpleGraph V} {root : V} {vs : List V}
    {es : List (V × V)} (h : Found G root vs es) (hes : es ≠ []) : ∃ v, (root, v) ∈ es := by
  induction h with
  | root => exact absurd rfl hes
  | @step vs es u v hf hu _ _ ih =>
      rcases hf.parent u hu with rfl | ⟨w, hw⟩
      · exact ⟨v, by simp⟩
      · obtain ⟨x, hx⟩ := ih (List.ne_nil_of_mem hw)
        exact ⟨x, List.mem_append_left _ hx⟩

/-- A search leaves the smaller levels as they were. -/
theorem SearchInv.smaller (hs : SearchInv old level root st [] vs es) {k : ℕ} (hk : k < level) :
    (∀ link ∈ st.links, link.level0 = (k : ℤ) → link ∈ old) ∧
      levelGraph old k ≤ levelGraph st.links k := by
  refine ⟨fun link hl hlev => ?_, levelGraph_le fun link hl hlev => hs.keep link hl (by omega)⟩
  rcases hs.link_cases link hl with hold | ⟨x, _, _, rfl, _⟩
  · exact hold
  · exact absurd (Int.ofNat_inj.1 hlev) hk.ne'

/-- The links of the new level are joined to the root. -/
theorem SearchInv.reachable (hs : SearchInv old level root st [] vs es)
    (hrange : ∀ link ∈ old, link.level0 ≠ (level : ℤ)) :
    ∀ link ∈ st.links, link.level0 = (level : ℤ) →
      (levelGraph st.links level).Reachable root link.conn.n0 ∧
        (levelGraph st.links level).Reachable root link.conn.n1 := by
  intro link hl hlev
  rcases hs.link_cases link hl with hold | ⟨x, _, _, rfl, hes⟩
  · exact absurd hlev (hrange link hold)
  · have hends : x.conn.n0 ∈ vs ∧ x.conn.n1 ∈ vs := by
      rcases hes with he | he
      · exact ⟨(hs.found.ends _ he).1, (hs.found.ends _ he).2.1⟩
      · exact ⟨(hs.found.ends _ he).2.1, (hs.found.ends _ he).1⟩
    exact ⟨(hs.found.reachable _ hends.1).mono hs.tree_le,
      (hs.found.reachable _ hends.2).mono hs.tree_le⟩

/-- **What one search does to the levels and their roots.** -/
theorem RootsInv.search {roots processed : List ℕ} (h : RootsInv n level old roots processed)
    (hT : TreesInv g n level old) (hroot : root < n)
    (hs : SearchInv old level root st [] vs es)
    (hdone : ∀ link ∈ st.links, (link.conn.n0 = root ∨ link.conn.n1 = root) → link.level0 ≠ -1)
    (hlab : st.linkLabeled = true → ∃ link ∈ st.links, link.level0 = (level : ℤ)) :
    RootsInv n (if st.linkLabeled then level + 1 else level) st.links
      (roots ++ if st.linkLabeled then [root] else []) (processed ++ [root]) := by
  have hrange : ∀ link ∈ old, link.level0 ≠ (level : ℤ) := by
    intro link hl hlev
    rcases hT.range link hl with hr | ⟨_, hr⟩ <;> omega
  have hdone' : ∀ v ∈ processed ++ [root], ∀ link ∈ st.links,
      (link.conn.n0 = v ∨ link.conn.n1 = v) → link.level0 ≠ -1 := by
    intro v hv link hl hends
    rcases List.mem_append.1 hv with hv | hv
    · rcases hs.link_cases link hl with hold | ⟨x, _, _, rfl, _⟩
      · exact h.done v hv link hold hends
      · show (level : ℤ) ≠ -1
        omega
    · rw [List.mem_singleton] at hv
      exact hdone link hl (hv ▸ hends)
  have hold : ∀ (k r : ℕ), roots[k]? = some r →
      (∃ link ∈ st.links, link.level0 = (k : ℤ) ∧ (link.conn.n0 = r ∨ link.conn.n1 = r)) ∧
      ∀ link ∈ st.links, link.level0 = (k : ℤ) →
        (levelGraph st.links k).Reachable r link.conn.n0 ∧
          (levelGraph st.links k).Reachable r link.conn.n1 := by
    intro k r hr
    have hk : k < level := h.length ▸ (List.getElem?_eq_some_iff.1 hr).1
    obtain ⟨hin, hle⟩ := hs.smaller hk
    obtain ⟨link, hl, hlev, hends⟩ := h.nonempty k r hr
    refine ⟨⟨link, hs.keep link hl (by omega), hlev, hends⟩, fun link hl hlev => ?_⟩
    obtain ⟨h₀, h₁⟩ := h.tree k r hr link (hin link hl hlev) hlev
    exact ⟨h₀.mono hle, h₁.mono hle⟩
  cases hb : st.linkLabeled with
  | false =>
      simp only [Bool.false_eq_true, if_false, List.append_nil]
      exact ⟨h.length, h.nodup, h.lt, fun r hr => List.mem_append_left _ (h.sub hr), hdone',
        fun k r hr => (hold k r hr).1, fun k r hr => (hold k r hr).2⟩
  | true =>
      simp only [if_true]
      -- the labelled link is a tree link, so the root has one, and it was free before
      have hes : es ≠ [] := by
        obtain ⟨link, hl, hlev⟩ := hlab hb
        rcases hs.link_cases link hl with hin | ⟨x, _, _, _, he⟩
        · exact absurd hlev (hrange link hin)
        · rintro rfl
          simp at he
      obtain ⟨v, hv⟩ := Found.root_link hs.found hes
      have hnew : root ∉ roots := by
        intro hmem
        obtain ⟨_, link, hl, hfree, hends⟩ := levelGraph_adj_iff.1 (hs.found.ends _ hv).2.2
        refine h.done root (h.sub hmem) link hl ?_ hfree
        exact hends.imp (fun he => (Prod.mk.inj he).1) fun he => (Prod.mk.inj he).2
      refine ⟨by rw [List.length_append, h.length, List.length_singleton], ?_, ?_, ?_, hdone', ?_, ?_⟩
      · rw [List.nodup_append]
        refine ⟨h.nodup, List.nodup_singleton _, fun a ha b hb' hab => hnew ?_⟩
        rw [List.mem_singleton] at hb'
        exact hb' ▸ hab ▸ ha
      · intro r hr
        rcases List.mem_append.1 hr with hr | hr
        · exact h.lt r hr
        · rw [List.mem_singleton] at hr
          exact hr ▸ hroot
      · exact List.append_subset.2 ⟨fun r hr => List.mem_append_left _ (h.sub hr),
          fun r hr => List.mem_append_right _ hr⟩
      · intro k r hr
        rcases lt_or_ge k roots.length with hk | hk
        · rw [List.getElem?_append_left hk] at hr
          exact (hold k r hr).1
        · rw [List.getElem?_append_right hk, List.getElem?_singleton] at hr
          obtain ⟨hk', rfl⟩ : k = level ∧ root = r := by
            split at hr
            · exact ⟨by have := h.length; omega, Option.some.inj hr⟩
            · cases hr
          obtain ⟨link, hl, hlev, hends⟩ := hs.tree _ hv
          refine ⟨link, hl, hk' ▸ hlev, ?_⟩
          exact hends.imp (fun he => (Prod.mk.inj he).1) fun he => (Prod.mk.inj he).2
      · intro k r hr
        rcases lt_or_ge k roots.length with hk | hk
        · rw [List.getElem?_append_left hk] at hr
          exact (hold k r hr).2
        · rw [List.getElem?_append_right hk, List.getElem?_singleton] at hr
          obtain ⟨rfl, rfl⟩ : k = level ∧ root = r := by
            split at hr
            · exact ⟨by have := h.length; omega, Option.some.inj hr⟩
            · cases hr
          exact hs.reachable hrange

/-- **What all searches do.** -/
theorem searches_spec (hg : g.Simple n) (hconn : g.Connected n)
    {nodeMap : ℕ → Option RouterBfsNode} (hnodes : NodesOf (Touches g.conns) nodeMap)
    (vec : List RouterBfsNode) (hvec : ∀ bfsNode ∈ vec, nodeMap bfsNode.pid = some bfsNode)
    {links : List RouterGraphLink} {roots processed : List ℕ} (hT : TreesInv g n level links)
    (hR : RootsInv n level links roots processed) :
    ∃ level' links', vec.foldlM (fun st bfsNode => do
        let (links, labeled) ← routerGraphDoBfsSearch n nodeMap st.1 st.2 bfsNode
        Except.ok (if labeled then st.1 + 1 else st.1, links)) (level, links) =
          Except.ok (level', links') ∧
      TreesInv g n level' links' ∧
      RootsInv n level' links' (roots ++ routerBfsSearchRoots n nodeMap vec level links)
        (processed ++ vec.map RouterBfsNode.pid) := by
  induction vec generalizing level links roots processed with
  | nil => exact ⟨level, links, rfl, hT, by simpa [routerBfsSearchRoots] using hR⟩
  | cons bfsNode vec ih =>
      have hnode := hvec bfsNode List.mem_cons_self
      obtain ⟨_, hroot⟩ := hnodes.pid_lt hg hnode
      have hends : ∀ link ∈ links, link.conn.n0 < n ∧ link.conn.n1 < n := fun link hl =>
        hg.lt _ (hT.conns ▸ List.mem_map_of_mem hl)
      obtain ⟨st, vs, es, hrun, hs⟩ := routerGraphDoBfsSearch_spec level hT.sym hends
        (hT.conns.symm ▸ hnodes) hnode hroot
      obtain ⟨hall, hlab⟩ := routerGraphDoBfsSearch_root hg.simple hT.conns hnodes hnode
        (by omega) hrun
      obtain ⟨hT', -⟩ := hT.search hconn hroot hs
      have hdone : ∀ link ∈ st.links,
          (link.conn.n0 = bfsNode.pid ∨ link.conn.n1 = bfsNode.pid) → link.level0 ≠ -1 := by
        intro link hl htouch
        obtain ⟨i, hi⟩ := List.mem_iff_getElem?.1 hl
        have hi' : g.conns[i]? = some link.conn := by
          rw [← hT'.conns, List.getElem?_map, hi]
          rfl
        rcases hall i ⟨link.conn, hi', htouch⟩ link hi with h | h
        · exact h
        · exact fun h' => h ((hT'.sym link hl).symm.trans h')
      have hR' := hR.search hT hroot hs hdone hlab
      obtain ⟨level', links', hrun', hT'', hR''⟩ :=
        ih (fun b hb => hvec b (List.mem_cons_of_mem _ hb)) hT' hR'
      refine ⟨level', links', ?_, hT'', ?_⟩
      · rw [List.foldlM_cons]
        simp only [hrun, bind, Except.bind]
        exact hrun'
      · have hroots : routerBfsSearchRoots n nodeMap (bfsNode :: vec) level links =
            (if st.linkLabeled then [bfsNode.pid] else []) ++ routerBfsSearchRoots n nodeMap vec
              (if st.linkLabeled then level + 1 else level) st.links := by
          rw [routerBfsSearchRoots, hrun]
          cases st.linkLabeled <;> rfl
        rw [hroots, List.map_cons, ← List.append_assoc]
        rw [List.append_assoc processed] at hR''
        exact hR''

end Searches

/-- **What the searches leave**: every link has a level, and the same in both directions. -/
theorem routerGraphMakeBfsSpanningTrees_levels (lib : Libc) {g : OverlayGraph} {n : ℕ}
    (hg : g.Simple n) (hconn : g.Connected n) (avgdistMap : ℕ → ℚ) (seed : ℤ) :
    ∃ levels links processed, routerGraphMakeBfsSpanningTrees lib g n avgdistMap seed =
        Except.ok (levels, links) ∧ TreesInv g n levels links ∧
      RootsInv n levels links (routerBfsRoots lib g n avgdistMap seed) processed ∧
      ∀ link ∈ links, link.level0 = link.level1 ∧ 0 ≤ link.level0 ∧ link.level0 < levels := by
  obtain ⟨hcollect, hvec⟩ := routerBfsCollect_spec avgdistMap g.conns
  have hnodes := hcollect.shuffle lib seed
  set nodeMap := fun pid => ((routerBfsCollect avgdistMap g.conns).nodeMap pid).map fun bfsNode =>
    { bfsNode with links := vectorShuffle lib seed bfsNode.links } with hmap
  have hsorted := lib.qsort_perm routerBfsNodeSorter
    ((routerBfsCollect avgdistMap g.conns).nodeVec.filterMap nodeMap)
  have hinit : RootsInv n 0 (g.conns.map routerGraphLinkCreate) [] [] :=
    ⟨rfl, List.nodup_nil, by simp, List.nil_subset _, by simp, by simp, by simp⟩
  obtain ⟨levels, links, hrun, hT, hR⟩ := searches_spec hg hconn hnodes _ (fun b hb => by
    obtain ⟨v, _, hv⟩ := List.mem_filterMap.1 (hsorted.subset hb)
    rw [(hnodes.pid_lt hg hv).1, hv]) treesInv_init hinit
  rw [List.nil_append, List.nil_append] at hR
  -- every end of a link is one of the hosts from which a search was started
  have hall : ∀ link ∈ links, link.level0 ≠ -1 := by
    intro link hl
    obtain ⟨i, hi⟩ := List.mem_iff_getElem?.1 (hT.conns ▸ List.mem_map_of_mem hl :
      link.conn ∈ g.conns)
    have htouch : Touches g.conns link.conn.n0 i := ⟨link.conn, hi, Or.inl rfl⟩
    obtain ⟨b, hb⟩ := (hcollect.isSome link.conn.n0).2 ⟨i, htouch⟩
    obtain ⟨b', hb'⟩ := (hnodes.isSome link.conn.n0).2 ⟨i, htouch⟩
    have hmem := hsorted.symm.subset (List.mem_filterMap.2 ⟨link.conn.n0, (hvec _).2 ⟨b, hb⟩, hb'⟩)
    refine hR.done link.conn.n0 (List.mem_map.2 ⟨b', hmem, ?_⟩) link hl (Or.inl rfl)
    exact (hnodes.pid_lt hg hb').1
  refine ⟨levels, links, _, hrun, hT, hR, fun link hl => ?_⟩
  exact ⟨hT.sym link hl, (hT.range link hl).resolve_left (hall link hl)⟩

/-- **`router_graph_make_bfs_spanning_trees` leaves no link without a level, and every level is a tree
at the host from which it was searched.** -/
theorem bfsSpanningTrees_trees (lib : Libc) {g : OverlayGraph} {n : ℕ} (hg : g.Simple n)
    (hconn : g.Connected n) (avgdistMap : ℕ → ℚ) (seed : ℤ) :
    ∃ levels links, routerGraphMakeBfsSpanningTrees lib g n avgdistMap seed =
        Except.ok (levels, links) ∧
      BfsTrees g n levels links (routerBfsRoots lib g n avgdistMap seed) := by
  obtain ⟨levels, links, processed, hrun, hT, hR, hlevel⟩ :=
    routerGraphMakeBfsSpanningTrees_levels lib hg hconn avgdistMap seed
  refine ⟨levels, links, hrun, hT.conns, hlevel, hR.length, ?_, hR.nonempty, hR.tree, ?_, ?_⟩
  · exact fun k _ => hT.forest k (Int.natCast_nonneg k)
  · have hsub := hR.nodup.subperm fun r hr => List.mem_range.2 (hR.lt r hr)
    simpa [hR.length] using hsub.length_le
  · intro u hu v hv
    rcases eq_or_ne levels 0 with rfl | hne
    · -- without levels there are no links, and then there is one host
      have hnone : links = [] := by
        rw [List.eq_nil_iff_forall_not_mem]
        intro link hl
        have := hlevel link hl
        omega
      have hbot : g.links = ⊥ := by
        rw [OverlayGraph.links, ← hT.conns, hnone]
        exact graph_nil
      have huv := hconn u hu v hv
      rw [hbot, SimpleGraph.reachable_bot] at huv
      rw [huv]
    · exact hT.first hne u hu v hv

/-- Three hosts, each connected to the two others. -/
def bfsTriangle : OverlayGraph :=
  [⟨0, 1, 1, 1⟩, ⟨1, 2, 1, 1⟩, ⟨2, 0, 1, 1⟩].foldl overlayGraphInsertConn
    (overlayGraphAddNode (overlayGraphAddNode (overlayGraphAddNode overlayGraphCreate 0 "a")
      1 "b") 2 "c")

theorem bfsTriangle_simple : bfsTriangle.Simple 3 where
  hosts := by decide
  lt := by decide
  simple := ⟨by decide, by
    simp only [ForestLayers.SamePair]
    decide⟩
  nodeConns v e := by
    simp only [bfsTriangle, List.foldl_cons, List.foldl_nil, mem_nodeConns_insertConn]
    simp only [overlayGraphInsertConn, overlayGraphAddNode, overlayGraphCreate, List.nil_append,
      List.cons_append, List.mem_cons, List.not_mem_nil, or_false, false_or]
    constructor
    · rintro ((⟨rfl, h⟩ | ⟨rfl, h⟩) | ⟨rfl, h⟩)
      all_goals exact ⟨by simp, h⟩
    · rintro ⟨rfl | rfl | rfl, h⟩
      · exact Or.inl (Or.inl ⟨rfl, h⟩)
      · exact Or.inl (Or.inr ⟨rfl, h⟩)
      · exact Or.inr ⟨rfl, h⟩

theorem bfsTriangle_connected : bfsTriangle.Connected 3 := by
  have hall : ∀ u < 3, ∀ v < 3, u = v ∨ ∃ e ∈ bfsTriangle.conns,
      (e.n0 = u ∧ e.n1 = v) ∨ (e.n0 = v ∧ e.n1 = u) := by decide
  intro u hu v hv
  rcases hall u hu v hv with rfl | he
  · exact SimpleGraph.Reachable.refl _
  · exact SimpleGraph.Adj.reachable (bfsTriangle_simple.links_adj.2 he)

theorem bfsSpanningTrees_trees_triangle : ∃ levels links,
    routerGraphMakeBfsSpanningTrees (Libc.insertion fun _ i => i) bfsTriangle 3 (fun v => v) 7 =
      Except.ok (levels, links) ∧
    BfsTrees bfsTriangle 3 levels links
      (routerBfsRoots (Libc.insertion fun _ i => i) bfsTriangle 3 (fun v => v) 7) :=
  bfsSpanningTrees_trees _ bfsTriangle_simple bfsTriangle_connected _ _

end DLFree

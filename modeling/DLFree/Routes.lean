/-
**What the routes of all nodes have in common.**

The routes that leveled Dijkstra finds over one assignment of levels go over links, visit no node
twice and never go down in level.  This module draws the two consequences: the routes of all nodes
together have an acyclic dependency graph, and a node that looks up the next hop again and again
follows the route from its source to its destination.

Main definitions:

* `LevelRoutes` — the paths of all routes over one assignment of levels;
* `forward` — the nodes that are visited when every node looks up the next hop.

Main results:

* `levelRoutes_acyclic` — **routes over deadlock-free levels have an acyclic dependency graph**;
* `RoutesOk.path_mem` — the paths of a table are such routes;
* `forward_eq` — **forwarding visits the nodes of the path, in order**.
-/

import DLFree.DijkstraRoutes

set_option relaxedAutoImplicit false
set_option autoImplicit false

namespace DLFree

/-! ### Routes over deadlock-free levels -/

section Levels

variable {links : List RouterGraphLink}

/-- The paths of all routes over one assignment of levels, as a table holds them. -/
def LevelRoutes (links : List RouterGraphLink) : Set (List ℤ) :=
  {path | ∃ src dst p, Route links src dst p ∧ path = p.map Int.ofNat}

/-- Over links that join different pairs of hosts, a directed link has one level. -/
theorem LinkLevel.unique
    (hsimple : ForestLayers.Simple (fun link : RouterGraphLink => link.conn.ends) links)
    {u v : ℕ} {j k : ℤ} (hj : LinkLevel links u v j) (hk : LinkLevel links u v k) : j = k := by
  have hsymm : Std.Symm fun a b : RouterGraphLink =>
      ¬ ForestLayers.SamePair (fun link : RouterGraphLink => link.conn.ends) a b :=
    ⟨fun _ _ => OverlayGraph.samePair_symm⟩
  obtain ⟨a, ha, hj⟩ := hj
  obtain ⟨b, hb, hk⟩ := hk
  have hab : a = b := by
    by_contra hne
    refine hsimple.pair.forall ha hb hne ?_
    simp only [ForestLayers.SamePair, OverlayEdge.ends, Prod.swap_prod_mk, Prod.mk.injEq]
    rcases hj with ⟨h₀, h₁, _⟩ | ⟨h₁, h₀, _⟩ <;> rcases hk with ⟨h₀', h₁', _⟩ | ⟨h₁', h₀', _⟩ <;>
      simp [h₀, h₁, h₀', h₁']
  subst hab
  have hloop : a.conn.n0 ≠ a.conn.n1 := hsimple.loop a ha
  rcases hj with ⟨h₀, h₁, hj⟩ | ⟨h₁, h₀, hj⟩ <;> rcases hk with ⟨h₀', h₁', hk⟩ | ⟨h₁', h₀', hk⟩
  · rw [← hj, ← hk]
  · exact absurd (h₀.trans h₁'.symm) hloop
  · exact absurd (h₀'.trans h₁.symm) hloop
  · rw [← hj, ← hk]

/-- The level of a directed link, and -1 for two hosts without a link. -/
noncomputable def linkLevelOf (links : List RouterGraphLink) (a : ℕ × ℕ) : ℤ :=
  open Classical in if h : ∃ k, 0 ≤ k ∧ LinkLevel links a.1 a.2 k then h.choose else -1

theorem linkLevelOf_eq
    (hsimple : ForestLayers.Simple (fun link : RouterGraphLink => link.conn.ends) links)
    {a : ℕ × ℕ} {k : ℤ} (hpos : 0 ≤ k) (hk : LinkLevel links a.1 a.2 k) :
    linkLevelOf links a = k := by
  have h : ∃ k, 0 ≤ k ∧ LinkLevel links a.1 a.2 k := ⟨k, hpos, hk⟩
  rw [linkLevelOf, dif_pos h]
  exact h.choose_spec.2.unique hsimple hk

/-- **Routes over deadlock-free levels have an acyclic dependency graph**: their levels never
decrease, and within one level there is no cycle. -/
theorem routes_acyclic
    (hsimple : ForestLayers.Simple (fun link : RouterGraphLink => link.conn.ends) links)
    (hfree : LevelsDeadlockFree links) :
    ChannelDependency.Acyclic
      (ChannelDependency.Dep {p | ∃ src dst, Route links src dst p}) := by
  have hdep : ∀ a b, ChannelDependency.Dep {p | ∃ src dst, Route links src dst p} a b →
      ∃ j k, 0 ≤ j ∧ j ≤ k ∧ LinkLevel links a.1 a.2 j ∧ LinkLevel links b.1 b.2 k ∧
        a.1 ≠ b.2 := by
    rintro ⟨u, v⟩ ⟨v', w⟩ ⟨hv, p, ⟨src, dst, hp⟩, hin⟩
    simp only at hv hin
    subst hv
    obtain ⟨j, k, hj, hjk, huv, hvw⟩ := hp.level _ _ _ hin
    refine ⟨j, k, hj, hjk, huv, hvw, fun huw => ?_⟩
    have hnodup := hp.nodup.sublist hin.sublist
    simp only at huw
    simp [huw] at hnodup
  refine ChannelDependency.acyclic_of_level (linkLevelOf links) ?_ fun k => ?_
  · intro a b hab
    obtain ⟨j, k, hj, hjk, ha, hb, _⟩ := hdep a b hab
    rw [linkLevelOf_eq hsimple hj ha, linkLevelOf_eq hsimple (hj.trans hjk) hb]
    exact hjk
  · by_cases hk : 0 ≤ k
    · refine (hfree k hk).mono ?_
      rintro a b ⟨hab, hak, hbk⟩
      obtain ⟨i, j, hi, hij, ha, hb, hne⟩ := hdep a b hab
      rw [linkLevelOf_eq hsimple hi ha] at hak
      rw [linkLevelOf_eq hsimple (hi.trans hij) hb] at hbk
      exact ⟨hab.1, hne, hak ▸ ha, hbk ▸ hb⟩
    · refine ChannelDependency.acyclic_of_false ?_
      rintro a b ⟨hab, hak, _⟩
      obtain ⟨i, j, hi, _, ha, _, _⟩ := hdep a b hab
      rw [linkLevelOf_eq hsimple hi ha] at hak
      omega

theorem levelRoutes_acyclic
    (hsimple : ForestLayers.Simple (fun link : RouterGraphLink => link.conn.ends) links)
    (hfree : LevelsDeadlockFree links) :
    ChannelDependency.Acyclic (ChannelDependency.Dep (LevelRoutes links)) := by
  refine (routes_acyclic hsimple hfree).comap (fun a => (a.1.toNat, a.2.toNat)) ?_
  rintro ⟨u, v⟩ ⟨v', w⟩ ⟨hv, path, ⟨src, dst, p, hp, rfl⟩, hin⟩
  simp only at hv hin
  subst hv
  refine ⟨rfl, p, ⟨src, dst, hp⟩, ?_⟩
  have hmap := hin.map Int.toNat
  have hid : Int.toNat ∘ Int.ofNat = id := funext fun x => Int.toNat_natCast x
  rw [List.map_map, hid, List.map_id] at hmap
  exact hmap

/-- Every path of a table is a route. -/
theorem RoutesOk.path_mem {n src : ℕ} {rt : OverlayRtable}
    (h : RoutesOk links n src rt) {entry : OverlayRtableEntry} (he : some entry ∈ rt.entries) :
    entry.path ∈ LevelRoutes links := by
  obtain ⟨dst, hdst, hget⟩ := List.getElem_of_mem he
  have hget : rt.entries[dst]? = some (some entry) := by
    rw [List.getElem?_eq_getElem hdst, hget]
  have hne : dst ≠ src := by
    rintro rfl
    cases h.own _ hget
  obtain ⟨entry', p, hget', _, hpath, hroute⟩ := h.entry dst (h.size ▸ hdst) hne
  obtain rfl : entry = entry' := by
    simpa using hget.symm.trans hget'
  exact ⟨src, dst, p, hroute, hpath⟩

end Levels

/-! ### Forwarding -/

/-- The nodes that are visited when the node `cur` and the nodes after it look up the next hop
`k` times; `rts v` are the tables that the node `v` stores. -/
def forward (rts : ℤ → ℤ → Option OverlayRtable) (src dst : ℤ) :
    ℕ → ℤ → Except Abort (List ℤ)
  | 0, cur => Except.ok [cur]
  | k + 1, cur => do
      let next ← commNodeLookupRt cur (rts cur) src dst
      let nodes ← forward rts src dst k next
      Except.ok (cur :: nodes)

section Forward

variable {rts : ℤ → ℤ → Option OverlayRtable} {rt : OverlayRtable} {entry : OverlayRtableEntry}
  {src dst : ℤ}

theorem forward_suffix (pre : List ℤ) {post : List ℤ} {cur : ℤ}
    (hrts : ∀ v ∈ entry.path, rts v src = some rt)
    (hentry : overlayRtableGetEntry rt dst = Except.ok (some entry))
    (hnodup : entry.path.Nodup) (hpath : entry.path = pre ++ cur :: post) :
    forward rts src dst post.length cur = Except.ok (cur :: post) := by
  induction post generalizing pre cur with
  | nil => rfl
  | cons next post ih =>
      have hcur : rts cur src = some rt := hrts cur (by simp [hpath])
      have hlookup := commNodeLookupRt_eq hcur hentry hpath hnodup
      have hrest := ih (pre ++ [cur]) (show entry.path = (pre ++ [cur]) ++ next :: post by simp [hpath])
      simp only [List.length_cons, forward, hlookup, hrest, bind, Except.bind]

/-- **Forwarding visits the nodes of the path, in order**, from the source on. -/
theorem forward_eq (hrts : ∀ v ∈ entry.path, rts v src = some rt)
    (hentry : overlayRtableGetEntry rt dst = Except.ok (some entry))
    (hnodup : entry.path.Nodup) (hhead : entry.path.head? = some src) :
    forward rts src dst entry.hops.toNat src = Except.ok entry.path := by
  obtain ⟨post, hpath⟩ : ∃ post, entry.path = src :: post := List.head?_eq_some_iff.1 hhead
  have hlen : entry.hops.toNat = post.length := by
    simp [OverlayRtableEntry.hops, hpath]
  rw [hlen, forward_suffix [] hrts hentry hnodup hpath, hpath]

/-- Every node of the path but the last looks up the node that follows it. -/
theorem lookup_of_mem_path (hrts : ∀ v ∈ entry.path, rts v src = some rt)
    (hentry : overlayRtableGetEntry rt dst = Except.ok (some entry))
    (hnodup : entry.path.Nodup) {u v : ℤ} (huv : [u, v] <:+: entry.path) :
    commNodeLookupRt u (rts u) src dst = Except.ok v := by
  obtain ⟨pre, post, hpath⟩ := huv
  have hpath : entry.path = pre ++ u :: v :: post := by simp [← hpath]
  exact commNodeLookupRt_eq (hrts u (by simp [hpath])) hentry hpath hnodup

end Forward

end DLFree

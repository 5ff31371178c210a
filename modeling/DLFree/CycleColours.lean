/-
**Colours of edges that are constant on cycles.**

The edges of a graph have colours.  Every cycle has edges of one colour only if every edge has the
colour of the tree edges that join its ends; and a spanning forest in which that holds is enough for
all cycles, because two links of a cycle that follow one another at a node start the tree paths to
two nodes that the rest of the cycle connects around that node.

Main definitions:

* `CycleColours.UniformCycles` — every cycle has one colour;
* `CycleColours.UniformPaths` — the forest joins the ends of a link by links of its colour.

Main results:

* `CycleColours.UniformCycles.uniformPaths` — one colour on cycles is one colour on the paths of any
  forest;
* `CycleColours.uniformCycles_iff` — **a spanning forest decides about all cycles**.
-/

import Mathlib.Combinatorics.SimpleGraph.Acyclic

set_option relaxedAutoImplicit false
set_option autoImplicit false

namespace CycleColours

variable {V C : Type*} {G T : SimpleGraph V} {col : Sym2 V → C}

/-- All edges of a cycle have the same colour. -/
def UniformCycles (G : SimpleGraph V) (col : Sym2 V → C) : Prop :=
  ∀ (v : V) (c : G.Walk v v), c.IsCycle → ∀ e ∈ c.edges, ∀ f ∈ c.edges, col e = col f

/-- All edges of a path of `T` between the ends of an edge of `G` have the colour of that edge. -/
def UniformPaths (G T : SimpleGraph V) (col : Sym2 V → C) : Prop :=
  ∀ (a b : V), G.Adj a b → ∀ p : T.Walk a b, p.IsPath → ∀ e ∈ p.edges, col e = col s(a, b)

/-- The path between two linked nodes of a forest is their link. -/
theorem edges_eq_of_adj {a b : V} (hT : T.IsAcyclic) {p : T.Walk a b} (hp : p.IsPath)
    (hadj : T.Adj a b) : p.edges = [s(a, b)] := by
  have heq := (hT.subsingleton_path a b).elim ⟨p, hp⟩ (SimpleGraph.Path.singleton hadj)
  rw [Subtype.mk.inj heq]
  rfl

/-- **Cycles of one colour make the paths of every forest inside the graph have one colour.** -/
theorem UniformCycles.uniformPaths (h : UniformCycles G col) (hT : T.IsAcyclic) (hle : T ≤ G) :
    UniformPaths G T col := by
  intro a b hab p hp e he
  by_cases hmem : s(a, b) ∈ p.edges
  · rw [edges_eq_of_adj hT hp (p.adj_of_mem_edges hmem), List.mem_singleton] at he
    rw [he]
  · -- the path and the edge between its ends are a cycle
    have hcycle : (SimpleGraph.Walk.cons hab.symm (p.mapLe hle)).IsCycle := by
      rw [SimpleGraph.Walk.cons_isCycle_iff]
      refine ⟨hp.mapLe hle, ?_⟩
      rw [SimpleGraph.Walk.edges_mapLe_eq_edges, Sym2.eq_swap]
      exact hmem
    have hedges : (SimpleGraph.Walk.cons hab.symm (p.mapLe hle)).edges = s(b, a) :: p.edges := by
      rw [SimpleGraph.Walk.edges_cons, SimpleGraph.Walk.edges_mapLe_eq_edges]
    rw [Sym2.eq_swap (a := a)]
    exact h b _ hcycle e (by rw [hedges]; exact List.mem_cons_of_mem _ he) _
      (by rw [hedges]; exact List.mem_cons_self)

/-! ### Around one node -/

section Around

variable (hT : T.IsAcyclic) (hpaths : UniformPaths G T col)
include hT hpaths

/-- The tree paths from a node to two linked nodes start with the same colour. -/
theorem start_colour_adj {v x y : V} (hx : x ≠ v) (hy : y ≠ v) (hxy : G.Adj x y)
    {r : T.Walk x y} (hr : r.IsPath) {p : T.Walk v x} (hp : p.IsPath) {q : T.Walk v y}
    (hq : q.IsPath) : col s(v, p.snd) = col s(v, q.snd) := by
  classical
  by_cases hv : v ∈ r.support
  · -- the path between the two nodes consists of the two paths
    have hleft := (hT.subsingleton_path v x).elim ⟨p, hp⟩ ⟨_, (hr.takeUntil hv).reverse⟩
    have hright := (hT.subsingleton_path v y).elim ⟨q, hq⟩ ⟨_, hr.dropUntil hv⟩
    have hpe : s(v, p.snd) ∈ r.edges := by
      have h := SimpleGraph.Walk.mk_start_snd_mem_edges
        (SimpleGraph.Walk.not_nil_of_ne hx.symm : ¬ p.Nil)
      rw [Subtype.mk.inj hleft] at h ⊢
      rw [SimpleGraph.Walk.edges_reverse, List.mem_reverse] at h
      exact r.edges_takeUntil_subset_edges hv h
    have hqe : s(v, q.snd) ∈ r.edges := by
      have h := SimpleGraph.Walk.mk_start_snd_mem_edges
        (SimpleGraph.Walk.not_nil_of_ne hy.symm : ¬ q.Nil)
      rw [Subtype.mk.inj hright] at h ⊢
      exact r.edges_dropUntil_subset_edges hv h
    exact (hpaths x y hxy r hr _ hpe).trans (hpaths x y hxy r hr _ hqe).symm
  · -- the second path starts as the first one does
    cases p with
    | nil => exact absurd rfl hx
    | @cons _ w _ hvw p' =>
        have hp' := (SimpleGraph.Walk.cons_isPath_iff _ _).1 hp
        have hout : v ∉ (p'.append r).bypass.support := by
          intro hmem
          have hmem := SimpleGraph.Walk.support_bypass_subset_support _ hmem
          rcases (SimpleGraph.Walk.mem_support_append_iff _ _).1 hmem with hmem | hmem
          · exact hp'.2 hmem
          · exact hv hmem
        have hpath : (SimpleGraph.Walk.cons hvw (p'.append r).bypass).IsPath :=
          (SimpleGraph.Walk.cons_isPath_iff _ _).2 ⟨SimpleGraph.Walk.bypass_isPath _, hout⟩
        have heq := (hT.subsingleton_path v y).elim ⟨q, hq⟩ ⟨_, hpath⟩
        rw [Subtype.mk.inj heq, SimpleGraph.Walk.snd_cons, SimpleGraph.Walk.snd_cons]

variable (hspan : ∀ a b, G.Adj a b → T.Reachable a b)
include hspan

/-- The tree paths from a node to two nodes that are connected around it start with the same
colour. -/
theorem start_colour_walk {v x y : V} (w : G.Walk x y) (hw : v ∉ w.support) {p : T.Walk v x}
    (hp : p.IsPath) {q : T.Walk v y} (hq : q.IsPath) : col s(v, p.snd) = col s(v, q.snd) := by
  induction w with
  | nil => rw [Subtype.mk.inj ((hT.subsingleton_path v _).elim ⟨p, hp⟩ ⟨q, hq⟩)]
  | @cons x z y hxz w ih =>
      rw [SimpleGraph.Walk.support_cons, List.mem_cons, not_or] at hw
      have hz : z ≠ v := fun h => hw.2 (h ▸ w.start_mem_support)
      obtain ⟨r, hr⟩ := (hspan x z hxz).exists_isPath
      obtain ⟨p', hp'⟩ := (p.reachable.trans (hspan x z hxz)).exists_isPath
      exact (start_colour_adj hT hpaths (Ne.symm hw.1) hz hxz hr hp hp').trans (ih hw.2 hp' hq)

/-- Two links of a node have the same colour when their other ends are connected around it. -/
theorem colour_eq_of_walk {v x y : V} (hx : G.Adj v x) (hy : G.Adj v y) (w : G.Walk x y)
    (hw : v ∉ w.support) : col s(v, x) = col s(v, y) := by
  obtain ⟨p, hp⟩ := (hspan v x hx).exists_isPath
  obtain ⟨q, hq⟩ := (hspan v y hy).exists_isPath
  have hpx := hpaths v x hx p hp _
    (SimpleGraph.Walk.mk_start_snd_mem_edges (SimpleGraph.Walk.not_nil_of_ne hx.ne))
  have hqy := hpaths v y hy q hq _
    (SimpleGraph.Walk.mk_start_snd_mem_edges (SimpleGraph.Walk.not_nil_of_ne hy.ne))
  exact (hpx.symm.trans (start_colour_walk hT hpaths hspan w hw hp hq)).trans hqy

/-- The colour goes along a path whose ends are connected around it. -/
theorem colour_along {y u : V} (q : G.Walk y u) (hq : q.IsPath) {z : V} (hz : G.Adj z y)
    (r : G.Walk u z) (hr : ∀ x ∈ q.support, x ∈ r.support → x = u) :
    ∀ e ∈ q.edges, col e = col s(z, y) := by
  induction q generalizing z with
  | nil => simp
  | @cons y x u hyx q ih =>
      obtain ⟨hq', hyq⟩ := (SimpleGraph.Walk.cons_isPath_iff _ _).1 hq
      have hyu : y ≠ u := fun h => hyq (h ▸ q.end_mem_support)
      have hyr : y ∉ r.support := fun h => hyu (hr y (SimpleGraph.Walk.start_mem_support _) h)
      -- the rest of the cycle leads from `x` to `z` around `y`
      have hout : y ∉ (q.append r).support := by
        intro h
        rcases (SimpleGraph.Walk.mem_support_append_iff _ _).1 h with h | h
        · exact hyq h
        · exact hyr h
      have hfirst := colour_eq_of_walk hT hpaths hspan hyx hz.symm (q.append r) hout
      rw [Sym2.eq_swap (a := y) (b := z)] at hfirst
      intro e he
      rw [SimpleGraph.Walk.edges_cons] at he
      rcases List.mem_cons.1 he with rfl | he
      · exact hfirst
      · refine (ih hq' hyx (r.concat hz) (fun t ht htr => ?_) e he).trans hfirst
        rw [SimpleGraph.Walk.support_concat, List.mem_append, List.mem_singleton] at htr
        rcases htr with htr | rfl
        · exact hr t (List.mem_cons_of_mem _ ht) htr
        · exact absurd ht hyq

end Around

/-- **The paths of one spanning forest decide whether all cycles have one colour.** -/
theorem uniformCycles_iff (hT : T.IsAcyclic) (hle : T ≤ G)
    (hspan : ∀ a b, G.Adj a b → T.Reachable a b) :
    UniformCycles G col ↔ UniformPaths G T col := by
  refine ⟨fun h => h.uniformPaths hT hle, fun hpaths v c hc => ?_⟩
  cases c with
  | nil => exact absurd rfl hc.ne_nil
  | @cons _ u _ hvu p =>
      have hp := ((SimpleGraph.Walk.cons_isCycle_iff _ _).1 hc).1
      have hall : ∀ e ∈ (SimpleGraph.Walk.cons hvu p).edges, col e = col s(v, u) := by
        intro e he
        rw [SimpleGraph.Walk.edges_cons] at he
        rcases List.mem_cons.1 he with rfl | he
        · rfl
        · exact colour_along hT hpaths hspan p hp hvu SimpleGraph.Walk.nil (by simp) e he
      exact fun e he f hf => (hall e he).trans (hall f hf).symm


end CycleColours

/-
**Paths in forests and their bottlenecks.**

In a forest two nodes are joined by at most one path, and every walk between them runs over all of
its edges.  So no walk is shorter than the path, no walk is wider at its narrowest edge, and a walk
of the same length runs over the same edges, each of them once.

Main definitions:

* `TreePaths.bottleneck` — the smallest of the widths of its edges and a bound.

Main results:

* `TreePaths.edges_sublist` — **a walk runs over the path between its ends**;
* `TreePaths.bottleneck_le`, `TreePaths.bottleneck_eq` — what follows for the bottlenecks;
* `TreePaths.notMem_support_of_leaf` — a path does not run through a leaf.
-/

import Mathlib.Algebra.Order.Ring.Rat
import Mathlib.Combinatorics.SimpleGraph.Acyclic
import Mathlib.Combinatorics.SimpleGraph.Metric

set_option relaxedAutoImplicit false
set_option autoImplicit false

namespace TreePaths

variable {V α : Type*} {G : SimpleGraph V} {a b c : V}

/-! ### Bottlenecks of walks -/

section Bottleneck

variable [LinearOrder α] (f : Sym2 V → α) (top : α)

/-- The smallest value of `f` on the edges of a walk, and at most `top`. -/
def bottleneck (p : G.Walk a b) : α := (p.edges.map f).foldl min top

@[simp] theorem bottleneck_nil : bottleneck f top (SimpleGraph.Walk.nil : G.Walk a a) = top := rfl

theorem bottleneck_cons (h : G.Adj a b) (p : G.Walk b c) :
    bottleneck f top (SimpleGraph.Walk.cons h p) = bottleneck f (min top (f s(a, b))) p := by
  simp [bottleneck]

variable {f top}

theorem le_foldl_min {l : List α} {x top : α} :
    x ≤ l.foldl min top ↔ x ≤ top ∧ ∀ y ∈ l, x ≤ y := by
  induction l generalizing top with
  | nil => simp
  | cons y l ih => rw [List.foldl_cons, ih, le_min_iff, List.forall_mem_cons, and_assoc]

theorem le_bottleneck {x : α} {p : G.Walk a b} :
    x ≤ bottleneck f top p ↔ x ≤ top ∧ ∀ e ∈ p.edges, x ≤ f e := by
  rw [bottleneck, le_foldl_min, List.forall_mem_map]

theorem bottleneck_le_of_mem {p : G.Walk a b} {e : Sym2 V} (he : e ∈ p.edges) :
    bottleneck f top p ≤ f e :=
  (le_bottleneck.1 le_rfl).2 e he

theorem bottleneck_le_top (p : G.Walk a b) : bottleneck f top p ≤ top :=
  (le_bottleneck.1 le_rfl).1

/-- Walks over the same edges have the same bottleneck. -/
theorem bottleneck_congr {d : V} {p : G.Walk a b} {q : G.Walk c d} (h : p.edges.Perm q.edges) :
    bottleneck f top p = bottleneck f top q := by
  refine eq_of_forall_le_iff fun x => ?_
  rw [le_bottleneck, le_bottleneck]
  simp only [h.mem_iff]

theorem bottleneck_reverse (p : G.Walk a b) : bottleneck f top p.reverse = bottleneck f top p := by
  refine bottleneck_congr ?_
  rw [SimpleGraph.Walk.edges_reverse]
  exact List.reverse_perm _

/-- The bottleneck of an edge of the walk, unless nothing is below the bound. -/
theorem bottleneck_mem (p : G.Walk a b) :
    bottleneck f top p = top ∨ ∃ e ∈ p.edges, bottleneck f top p = f e := by
  have key : ∀ (l : List α) (t : α), l.foldl min t = t ∨ l.foldl min t ∈ l := by
    intro l
    induction l with
    | nil => exact fun t => Or.inl rfl
    | cons y l ih =>
        intro t
        rw [List.foldl_cons]
        rcases ih (min t y) with h | h
        · rcases min_choice t y with ht | hy
          · exact Or.inl (h.trans ht)
          · rw [h, hy]
            exact Or.inr List.mem_cons_self
        · exact Or.inr (List.mem_cons_of_mem _ h)
  rcases key (p.edges.map f) top with h | h
  · exact Or.inl h
  · obtain ⟨e, he, hfe⟩ := List.mem_map.1 h
    exact Or.inr ⟨e, he, hfe.symm⟩

end Bottleneck

/-! ### Walks and the path between their ends -/

/-- A path runs through a node with one neighbour only if it starts or ends there. -/
theorem notMem_support_of_leaf {v : V} (hv : ∀ u w, G.Adj u v → G.Adj v w → u = w) {p : G.Walk a b}
    (hp : p.IsPath) (ha : v ≠ a) (hb : v ≠ b) : v ∉ p.support := by
  induction p with
  | nil => simpa using ha
  | @cons a c b hadj p ih =>
      rw [SimpleGraph.Walk.cons_isPath_iff] at hp
      rw [SimpleGraph.Walk.support_cons, List.mem_cons, not_or]
      refine ⟨ha, ?_⟩
      by_cases hc : v = c
      · -- the path would come from the only neighbour and go back to it
        subst hc
        cases p with
        | nil => exact absurd rfl hb
        | cons hadj' p =>
            obtain rfl := hv _ _ hadj hadj'
            exact absurd (List.mem_cons_of_mem _ p.start_mem_support) hp.2
      · exact ih hp.1 hc hb

section Forest

variable (hG : G.IsAcyclic)
include hG

/-- **A walk in a forest runs over the path between its ends.** -/
theorem edges_sublist {p : G.Walk a b} (hp : p.IsPath) (q : G.Walk a b) :
    p.edges.Sublist q.edges := by
  classical
  have heq := (hG.subsingleton_path a b).elim ⟨p, hp⟩ ⟨q.bypass, q.bypass_isPath⟩
  rw [Subtype.mk.inj heq]
  exact q.edges_bypass_sublist_edges

/-- No walk is shorter than the path. -/
theorem length_le {p : G.Walk a b} (hp : p.IsPath) (q : G.Walk a b) : p.length ≤ q.length := by
  rw [← p.length_edges, ← q.length_edges]
  exact (edges_sublist hG hp q).length_le

/-- The path is as long as its ends are apart. -/
theorem length_eq_dist {p : G.Walk a b} (hp : p.IsPath) : p.length = G.dist a b := by
  obtain ⟨q, hq⟩ := p.reachable.exists_walk_length_eq_dist
  exact le_antisymm (hq ▸ length_le hG hp q) (SimpleGraph.dist_le p)

/-- No walk has a wider bottleneck than the path. -/
theorem bottleneck_le [LinearOrder α] {f : Sym2 V → α} {top : α} {p : G.Walk a b} (hp : p.IsPath)
    (q : G.Walk a b) : bottleneck f top q ≤ bottleneck f top p := by
  rw [le_bottleneck]
  refine ⟨bottleneck_le_top q, fun e he => ?_⟩
  exact bottleneck_le_of_mem ((edges_sublist hG hp q).subset he)

/-- **A walk as short as the path has the same bottleneck.** -/
theorem bottleneck_eq [LinearOrder α] {f : Sym2 V → α} {top : α} {p : G.Walk a b} (hp : p.IsPath)
    {q : G.Walk a b} (hlen : q.length ≤ p.length) : bottleneck f top q = bottleneck f top p := by
  have hsub := edges_sublist hG hp q
  rw [← q.length_edges, ← p.length_edges] at hlen
  rw [bottleneck, bottleneck, hsub.eq_of_length_le hlen]

end Forest

end TreePaths

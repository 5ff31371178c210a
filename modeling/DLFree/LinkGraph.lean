/-
**Graphs given by lists of links, built one link at a time.**

A list of unordered pairs is a simple graph.  Algorithms that pick links one after the other keep
the graph of the picked links a forest as long as each new link joins two nodes that were not
connected before; this module relates the graph before and after such a step.

Main definitions:

* `LinkGraph.graph` — the graph of a list of links;
* `LinkGraph.Span` — every link of a list joins nodes that a graph already connects.

Main results:

* `LinkGraph.graph_append_singleton` — one more link adds one edge;
* `LinkGraph.reachable_sup_edge` — what one more edge connects;
* `LinkGraph.isAcyclic_append` — **a link between two components keeps a forest**;
* `LinkGraph.Span.reachable` — a graph that spans all links connects what the links connect.
-/

import Mathlib.Combinatorics.SimpleGraph.Acyclic

set_option relaxedAutoImplicit false
set_option autoImplicit false

namespace LinkGraph

variable {V : Type*}

/-- The graph of a list of links. -/
def graph (es : List (V × V)) : SimpleGraph V := SimpleGraph.fromRel fun a b => (a, b) ∈ es

theorem adj_iff {es : List (V × V)} {a b : V} :
    (graph es).Adj a b ↔ a ≠ b ∧ ((a, b) ∈ es ∨ (b, a) ∈ es) :=
  SimpleGraph.fromRel_adj _ _ _

@[simp] theorem graph_nil : graph ([] : List (V × V)) = ⊥ := by
  ext a b
  simp [adj_iff]

theorem isAcyclic_nil : (graph ([] : List (V × V))).IsAcyclic := by
  rw [graph_nil]
  exact SimpleGraph.isAcyclic_bot

theorem graph_mono {es fs : List (V × V)} (h : es ⊆ fs) : graph es ≤ graph fs := by
  intro a b hab
  rw [adj_iff] at hab ⊢
  exact ⟨hab.1, hab.2.imp (fun h' => h h') fun h' => h h'⟩

theorem graph_append (es fs : List (V × V)) : graph (es ++ fs) = graph es ⊔ graph fs := by
  ext a b
  simp only [SimpleGraph.sup_adj, adj_iff, List.mem_append]
  tauto

theorem graph_singleton (a b : V) : graph [(a, b)] = SimpleGraph.edge a b := by
  ext x y
  simp only [adj_iff, SimpleGraph.edge_adj, List.mem_singleton, Prod.mk.injEq]
  tauto

/-- One more link adds one edge. -/
theorem graph_append_singleton (es : List (V × V)) (a b : V) :
    graph (es ++ [(a, b)]) = graph es ⊔ SimpleGraph.edge a b := by
  rw [graph_append, graph_singleton]

theorem graph_perm {es fs : List (V × V)} (h : es.Perm fs) : graph es = graph fs :=
  le_antisymm (graph_mono h.subset) (graph_mono h.symm.subset)

/-! ### Reachability -/

section Reach

variable {G : SimpleGraph V} {a b x y : V}

/-- What one more edge connects. -/
theorem reachable_sup_edge :
    (G ⊔ SimpleGraph.edge a b).Reachable x y ↔
      G.Reachable x y ∨ (G.Reachable x a ∧ G.Reachable b y) ∨
        (G.Reachable x b ∧ G.Reachable a y) := by
  have hle : G ≤ G ⊔ SimpleGraph.edge a b := le_sup_left
  have hab : (G ⊔ SimpleGraph.edge a b).Reachable a b := by
    rcases eq_or_ne a b with rfl | hne
    · exact SimpleGraph.Reachable.refl _
    · refine SimpleGraph.Adj.reachable (Or.inr ?_)
      rw [SimpleGraph.edge_adj]
      exact ⟨Or.inl ⟨rfl, rfl⟩, hne⟩
  constructor
  · intro h
    rw [SimpleGraph.reachable_iff_reflTransGen] at h
    induction h with
    | refl => exact Or.inl (SimpleGraph.Reachable.refl _)
    | @tail y z _ hyz ih =>
        rcases hyz with hyz | hyz
        · have hr := hyz.reachable
          rcases ih with h | ⟨h₁, h₂⟩ | ⟨h₁, h₂⟩
          · exact Or.inl (h.trans hr)
          · exact Or.inr (Or.inl ⟨h₁, h₂.trans hr⟩)
          · exact Or.inr (Or.inr ⟨h₁, h₂.trans hr⟩)
        · rw [SimpleGraph.edge_adj] at hyz
          rcases hyz.1 with ⟨rfl, rfl⟩ | ⟨rfl, rfl⟩
          · rcases ih with h | ⟨h₁, _⟩ | ⟨h₁, _⟩
            · exact Or.inr (Or.inl ⟨h, SimpleGraph.Reachable.refl _⟩)
            · exact Or.inr (Or.inl ⟨h₁, SimpleGraph.Reachable.refl _⟩)
            · exact Or.inl h₁
          · rcases ih with h | ⟨h₁, _⟩ | ⟨h₁, _⟩
            · exact Or.inr (Or.inr ⟨h, SimpleGraph.Reachable.refl _⟩)
            · exact Or.inl h₁
            · exact Or.inr (Or.inr ⟨h₁, SimpleGraph.Reachable.refl _⟩)
  · rintro (h | ⟨h₁, h₂⟩ | ⟨h₁, h₂⟩)
    · exact h.mono hle
    · exact ((h₁.mono hle).trans hab).trans (h₂.mono hle)
    · exact ((h₁.mono hle).trans hab.symm).trans (h₂.mono hle)

/-- A set of nodes that no edge leaves contains whatever it reaches. -/
theorem mem_of_reachable {S : Set V} (hS : ∀ u v, u ∈ S → G.Adj u v → v ∈ S)
    (hx : x ∈ S) (h : G.Reachable x y) : y ∈ S := by
  rw [SimpleGraph.reachable_iff_reflTransGen] at h
  induction h with
  | refl => exact hx
  | tail _ hyz ih => exact hS _ _ ih hyz

/-- **A link between two components keeps a forest.** -/
theorem isAcyclic_append {es : List (V × V)} (h : (graph es).IsAcyclic)
    (hab : ¬ (graph es).Reachable a b) : (graph (es ++ [(a, b)])).IsAcyclic := by
  rw [graph_append_singleton]
  exact h.sup_edge_of_not_reachable hab

end Reach

/-! ### Lists without a cycle -/

section NoCycle

variable {es : List (V × V)} {a b : V}

/-- No link of the list closes a cycle: the other links do not join its ends.  Two links with the
same ends form a cycle, and so does a link from a node to itself. -/
def NoCycle (es : List (V × V)) : Prop :=
  ∀ pre e post, es = pre ++ e :: post → ¬ (graph (pre ++ post)).Reachable e.1 e.2

theorem noCycle_nil : NoCycle ([] : List (V × V)) := by
  intro pre e post h
  simp at h

/-- **A link between two components closes no cycle.** -/
theorem NoCycle.append (h : NoCycle es) (hab : ¬ (graph es).Reachable a b) :
    NoCycle (es ++ [(a, b)]) := by
  intro pre e post hes
  rcases List.eq_nil_or_concat post with rfl | ⟨post, f, rfl⟩
  · -- the new link itself
    obtain ⟨rfl, he⟩ := List.append_inj' hes rfl
    obtain rfl : (a, b) = e := List.singleton_inj.1 he
    rwa [List.append_nil]
  · rw [List.concat_eq_append, ← List.cons_append, ← List.append_assoc] at hes
    obtain ⟨rfl, hf⟩ := List.append_inj' hes rfl
    obtain rfl : (a, b) = f := List.singleton_inj.1 hf
    have hold := h pre e post rfl
    rw [List.concat_eq_append, ← List.append_assoc, graph_append_singleton]
    -- a path over the new link would join its ends over the old link `e`
    have hle : graph (pre ++ post) ≤ graph (pre ++ e :: post) :=
      graph_mono fun x hx => by
        rcases List.mem_append.1 hx with hx | hx
        · exact List.mem_append_left _ hx
        · exact List.mem_append_right _ (List.mem_cons_of_mem _ hx)
    have he : (graph (pre ++ e :: post)).Reachable e.1 e.2 := by
      rcases eq_or_ne e.1 e.2 with heq | hne
      · rw [heq]
      · exact SimpleGraph.Adj.reachable (adj_iff.2 ⟨hne, Or.inl (by simp)⟩)
    intro hr
    rcases reachable_sup_edge.1 hr with hr | ⟨h₁, h₂⟩ | ⟨h₁, h₂⟩
    · exact hold hr
    · exact hab (((h₁.mono hle).symm.trans he).trans (h₂.mono hle).symm)
    · exact hab (((h₂.mono hle).trans he.symm).trans (h₁.mono hle))

/-- No two members of a list without a cycle have the same ends. -/
theorem NoCycle.eq_of_ends {α : Type*} {l : List α} {ends : α → V × V} (h : NoCycle (l.map ends))
    {x y : α} (hx : x ∈ l) (hy : y ∈ l)
    (hends : ends x = ends y ∨ ends x = (ends y).swap) : x = y := by
  by_contra hne
  obtain ⟨pre, post, rfl⟩ := List.append_of_mem hx
  have hy' : y ∈ pre ++ post := by
    simp only [List.mem_append, List.mem_cons] at hy ⊢
    tauto
  refine h (pre.map ends) (ends x) (post.map ends) (by simp) ?_
  rw [← List.map_append]
  have hmem : ends y ∈ (pre ++ post).map ends := List.mem_map_of_mem hy'
  rcases eq_or_ne (ends x).1 (ends x).2 with heq | hne'
  · rw [heq]
  · refine SimpleGraph.Adj.reachable (adj_iff.2 ⟨hne', ?_⟩)
    rcases hends with he | he
    · exact Or.inl (by rw [Prod.mk.eta, he]; exact hmem)
    · exact Or.inr (by rw [he]; exact hmem)

end NoCycle

/-! ### Spanning graphs -/

/-- Every link of the list joins two nodes that `G` connects. -/
def Span (G : SimpleGraph V) (es : List (V × V)) : Prop := ∀ e ∈ es, G.Reachable e.1 e.2

/-- A graph that spans all links connects what the links connect. -/
theorem Span.reachable {G : SimpleGraph V} {es : List (V × V)} (h : Span G es) {x y : V}
    (hxy : (graph es).Reachable x y) : G.Reachable x y := by
  rw [SimpleGraph.reachable_iff_reflTransGen] at hxy
  induction hxy with
  | refl => exact SimpleGraph.Reachable.refl _
  | tail _ hyz ih =>
      rcases (adj_iff.1 hyz).2 with he | he
      · exact ih.trans (h _ he)
      · exact ih.trans (h _ he).symm

end LinkGraph

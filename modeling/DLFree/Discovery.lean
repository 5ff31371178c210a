/-
**The order in which a graph search discovers its nodes.**

Breadth-first and depth-first search differ in the order of discovery, but both discover every node
from one that was discovered before.  The discovered nodes and the links they were discovered over
form a tree, and a search that has nothing left to do has discovered everything it can reach.

Main definitions:

* `Discovery.Found` — the nodes and the tree links discovered so far, in order.

Main results:

* `Discovery.Found.acyclic`, `Discovery.Found.reachable` — **the tree links form a tree that
  reaches every discovered node**;
* `Discovery.Found.parent`, `Discovery.Found.idxOf_lt` — every node but the root has a parent that
  was discovered before;
* `Discovery.Found.mem_of_closed` — a closed search has discovered all that is reachable.
-/

import DLFree.LinkGraph

set_option relaxedAutoImplicit false
set_option autoImplicit false

namespace Discovery

open LinkGraph

variable {V : Type*} {G : SimpleGraph V} {root : V}

/-- The nodes discovered so far and the links they were discovered over. -/
inductive Found (G : SimpleGraph V) (root : V) : List V → List (V × V) → Prop
  | root : Found G root [root] []
  | step {vs : List V} {es : List (V × V)} {u v : V} : Found G root vs es → u ∈ vs → v ∉ vs →
      G.Adj u v → Found G root (vs ++ [v]) (es ++ [(u, v)])

variable {vs : List V} {es : List (V × V)}

theorem Found.root_mem (h : Found G root vs es) : root ∈ vs := by
  induction h with
  | root => exact List.mem_singleton_self _
  | step _ _ _ _ ih => exact List.mem_append_left _ ih

theorem Found.nodup (h : Found G root vs es) : vs.Nodup := by
  induction h with
  | root => exact List.nodup_singleton _
  | @step vs es u v _ _ hv _ ih =>
      rw [List.nodup_append]
      refine ⟨ih, List.nodup_singleton _, ?_⟩
      intro a ha b hb hab
      rw [List.mem_singleton] at hb
      exact hv (hb ▸ hab ▸ ha)

/-- A tree link joins two discovered nodes. -/
theorem Found.ends (h : Found G root vs es) :
    ∀ e ∈ es, e.1 ∈ vs ∧ e.2 ∈ vs ∧ G.Adj e.1 e.2 := by
  induction h with
  | root => simp
  | step _ hu _ hadj ih =>
      intro e he
      rcases List.mem_append.1 he with he | he
      · obtain ⟨h₁, h₂, h₃⟩ := ih e he
        exact ⟨List.mem_append_left _ h₁, List.mem_append_left _ h₂, h₃⟩
      · rw [List.mem_singleton] at he
        subst he
        exact ⟨List.mem_append_left _ hu, by simp, hadj⟩

/-- **The tree links have no cycle.** -/
theorem Found.acyclic (h : Found G root vs es) : (graph es).IsAcyclic := by
  induction h with
  | root => exact isAcyclic_nil
  | @step vs es u v hf hu hv _ ih =>
      refine isAcyclic_append ih fun hr => hv ?_
      refine mem_of_reachable (S := {x | x ∈ vs}) (fun x y _ hxy => ?_) hu hr
      rcases (adj_iff.1 hxy).2 with he | he
      · exact (hf.ends _ he).2.1
      · exact (hf.ends _ he).1

/-- **The tree links reach every discovered node.** -/
theorem Found.reachable (h : Found G root vs es) : ∀ v ∈ vs, (graph es).Reachable root v := by
  induction h with
  | root => simp
  | @step vs es u v hf hu hv hadj ih =>
      have hle : graph es ≤ graph (es ++ [(u, v)]) := graph_mono (List.subset_append_left _ _)
      intro x hx
      rcases List.mem_append.1 hx with hx | hx
      · exact (ih x hx).mono hle
      · rw [List.mem_singleton] at hx
        subst hx
        refine ((ih u hu).mono hle).trans (SimpleGraph.Adj.reachable ?_)
        exact adj_iff.2 ⟨hadj.ne, Or.inl (by simp)⟩

/-- A set of nodes that no edge leaves contains every discovered node. -/
theorem Found.subset (h : Found G root vs es) {S : Set V} (hroot : root ∈ S)
    (hS : ∀ u v, u ∈ S → G.Adj u v → v ∈ S) : ∀ v ∈ vs, v ∈ S := by
  induction h with
  | root => simpa using hroot
  | step _ hu _ hadj ih =>
      intro x hx
      rcases List.mem_append.1 hx with hx | hx
      · exact ih x hx
      · rw [List.mem_singleton] at hx
        exact hx ▸ hS _ _ (ih _ hu) hadj

/-- Every node but the root was discovered over a link. -/
theorem Found.parent (h : Found G root vs es) : ∀ v ∈ vs, v = root ∨ ∃ u, (u, v) ∈ es := by
  induction h with
  | root => simp
  | @step vs es u v _ _ _ _ ih =>
      intro x hx
      rcases List.mem_append.1 hx with hx | hx
      · exact (ih x hx).imp id fun ⟨y, hy⟩ => ⟨y, List.mem_append_left _ hy⟩
      · rw [List.mem_singleton] at hx
        exact Or.inr ⟨u, by simp [hx]⟩

/-- A tree link leads from an earlier node to a later one. -/
theorem Found.idxOf_lt [DecidableEq V] (h : Found G root vs es) :
    ∀ e ∈ es, vs.idxOf e.1 < vs.idxOf e.2 := by
  induction h with
  | root => simp
  | @step vs es u v hf hu hv _ ih =>
      intro e he
      rcases List.mem_append.1 he with he | he
      · obtain ⟨h₁, h₂, _⟩ := hf.ends e he
        rw [List.idxOf_append_of_mem h₁, List.idxOf_append_of_mem h₂]
        exact ih e he
      · rw [List.mem_singleton] at he
        subst he
        simp only
        rw [List.idxOf_append_of_mem hu, List.idxOf_append_of_notMem hv]
        exact (List.idxOf_lt_length_iff.2 hu).trans_le (Nat.le_add_right _ _)

/-- A search that no edge leaves has discovered all that is reachable. -/
theorem Found.mem_of_closed (h : Found G root vs es)
    (hclosed : ∀ u ∈ vs, ∀ v, G.Adj u v → v ∈ vs) {x : V} (hx : G.Reachable root x) : x ∈ vs :=
  mem_of_reachable (S := {v | v ∈ vs}) (fun u v hu => hclosed u hu v) h.root_mem hx

end Discovery

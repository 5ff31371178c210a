/-
**Channel dependency graphs and when they have no cycle.**

A set of routes over a type of nodes induces a graph on directed links: a link depends on the next
one when some route takes them one after the other.  An acyclic dependency graph is the classical
condition for deadlock freedom.  This module states the condition and the three arguments that
establish it: levels that never decrease along a route, a rank that strictly changes from link to
link, and routes that stay inside a forest without turning back.

Main definitions:

* `ChannelDependency.Acyclic` — a relation has no directed cycle;
* `ChannelDependency.Dep` — the dependency graph of a set of routes;
* `ChannelDependency.ForestDep` — consecutive links of a graph that do not turn back.

Main results:

* `ChannelDependency.acyclic_of_lt` — a relation along which some rank grows is acyclic;
* `ChannelDependency.acyclic_of_level` — it is enough to exclude cycles inside one level;
* `ChannelDependency.acyclic_forestDep` — **inside a forest there is no cycle without a U-turn**;
* `ChannelDependency.exists_sink` — over finitely many links an acyclic relation has a sink in
  every nonempty set.
-/

import Mathlib.Combinatorics.SimpleGraph.Acyclic
import Mathlib.Data.List.Infix
import Mathlib.Data.Set.Finite.Basic
import Mathlib.Order.WellFounded

set_option relaxedAutoImplicit false
set_option autoImplicit false

namespace ChannelDependency

variable {α β V : Type*}

/-! ### Acyclic relations -/

/-- A relation has no directed cycle. -/
def Acyclic (r : α → α → Prop) : Prop := ∀ a, ¬ Relation.TransGen r a a

theorem Acyclic.mono {r s : α → α → Prop} (hs : Acyclic s) (h : ∀ a b, r a b → s a b) :
    Acyclic r := fun a ha => hs a (Relation.TransGen.mono h a a ha)

/-- A cycle is mapped to a cycle. -/
theorem Acyclic.comap {r : α → α → Prop} {s : β → β → Prop} (hs : Acyclic s) (f : α → β)
    (h : ∀ a b, r a b → s (f a) (f b)) : Acyclic r :=
  fun a ha => hs (f a) (Relation.TransGen.lift f h a a ha)

/-- A relation without steps has no cycle. -/
theorem acyclic_of_false {r : α → α → Prop} (h : ∀ a b, ¬ r a b) : Acyclic r := by
  intro a ha
  obtain ⟨b, hb, _⟩ := Relation.TransGen.head'_iff.1 ha
  exact h a b hb

/-- A relation along which a rank strictly grows has no cycle. -/
theorem acyclic_of_lt [Preorder β] {r : α → α → Prop} (f : α → β)
    (hf : ∀ a b, r a b → f a < f b) : Acyclic r := by
  have key : ∀ a b, Relation.TransGen r a b → f a < f b := by
    intro a b h
    induction h with
    | single h => exact hf _ _ h
    | tail _ h ih => exact ih.trans (hf _ _ h)
  exact fun a h => lt_irrefl _ (key a a h)

/-- **Levels**: if a level never decreases along the relation, a cycle stays inside one level. -/
theorem acyclic_of_level [PartialOrder β] {r : α → α → Prop} (f : α → β)
    (hmono : ∀ a b, r a b → f a ≤ f b)
    (hlevel : ∀ k, Acyclic fun a b => r a b ∧ f a = k ∧ f b = k) : Acyclic r := by
  have le_of : ∀ a b, Relation.TransGen r a b → f a ≤ f b := by
    intro a b h
    induction h with
    | single h => exact hmono _ _ h
    | tail _ h ih => exact ih.trans (hmono _ _ h)
  -- a path that returns to its own level never leaves it
  have key : ∀ a b, Relation.TransGen r a b → f b ≤ f a →
      Relation.TransGen (fun x y => r x y ∧ f x = f a ∧ f y = f a) a b := by
    intro a b h
    induction h with
    | single h =>
        intro hle
        exact Relation.TransGen.single ⟨h, rfl, le_antisymm hle (hmono _ _ h)⟩
    | @tail x y hx h ih =>
        intro hle
        have hxy : f x ≤ f y := hmono _ _ h
        have hax : f a ≤ f x := le_of _ _ hx
        have hfx : f x = f a := le_antisymm (hxy.trans hle) hax
        have hfy : f y = f a := le_antisymm hle (hax.trans hxy)
        exact (ih hfx.le).tail ⟨h, hfx, hfy⟩
  exact fun a h => hlevel (f a) a (key a a h le_rfl)

/-! ### Dependency graphs -/

/-- The dependency graph of a set of routes: a link depends on the next one when some route takes
them one after the other. -/
def Dep (routes : Set (List V)) (a b : V × V) : Prop :=
  a.2 = b.1 ∧ ∃ p ∈ routes, [a.1, a.2, b.2] <:+: p

/-- Consecutive links of a graph that do not turn back. -/
def ForestDep (F : SimpleGraph V) (a b : V × V) : Prop :=
  a.2 = b.1 ∧ F.Adj a.1 a.2 ∧ F.Adj b.1 b.2 ∧ a.1 ≠ b.2

/-- Links that follow one another without turning back form a walk whose consecutive edges
differ. -/
theorem ForestDep.walk {F : SimpleGraph V} {a b : V × V}
    (h : Relation.TransGen (ForestDep F) a b) :
    ∃ p : F.Walk a.1 b.1, 0 < p.length ∧ (p.edges ++ [s(b.1, b.2)]).IsChain (· ≠ ·) ∧
      F.Adj b.1 b.2 := by
  induction h with
  | @single b h =>
      obtain ⟨hab, ha, hb, hne⟩ := h
      obtain ⟨a₁, a₂⟩ := a
      obtain ⟨b₁, b₂⟩ := b
      simp only at hab ha hb hne
      subst hab
      refine ⟨SimpleGraph.Walk.cons ha SimpleGraph.Walk.nil, by simp, ?_, hb⟩
      have : s(a₁, a₂) ≠ s(a₂, b₂) := by
        intro he
        rcases Sym2.eq_iff.1 he with ⟨h₁, _⟩ | ⟨h₁, _⟩
        · exact ha.ne h₁
        · exact hne h₁
      simpa using this
  | @tail b c _ h ih =>
      obtain ⟨p, hp, hchain, hadj⟩ := ih
      obtain ⟨hbc, hb, hc, hne⟩ := h
      obtain ⟨b₁, b₂⟩ := b
      obtain ⟨c₁, c₂⟩ := c
      simp only at hbc hb hc hne hchain hadj p
      subst hbc
      refine ⟨p.concat hb, by simp, ?_, hc⟩
      have hne' : s(b₁, b₂) ≠ s(b₂, c₂) := by
        intro he
        rcases Sym2.eq_iff.1 he with ⟨h₁, _⟩ | ⟨h₁, _⟩
        · exact hb.ne h₁
        · exact hne h₁
      rw [SimpleGraph.Walk.edges_concat, List.concat_eq_append]
      refine List.isChain_append.2 ⟨hchain, by simp, ?_⟩
      intro x hx y hy
      simp only [List.getLast?_append, List.getLast?_singleton, Option.some_or,
        Option.mem_def, Option.some.injEq, List.head?_cons] at hx hy
      rw [← hx, ← hy]
      exact hne'

/-- **Inside a forest there is no cycle without a U-turn.** -/
theorem acyclic_forestDep {F : SimpleGraph V} (hF : F.IsAcyclic) : Acyclic (ForestDep F) := by
  intro a h
  obtain ⟨p, hp, hchain, _⟩ := ForestDep.walk h
  have hpath : p.IsPath := (hF.isPath_iff_isChain p).2 (List.isChain_append.1 hchain).1
  have hnil : p.Nil := SimpleGraph.Walk.isPath_iff_nil.1 hpath
  rw [SimpleGraph.Walk.length_eq_zero_iff.2 hnil] at hp
  exact absurd hp (lt_irrefl 0)

/-- Over finitely many links, an acyclic relation has a sink in every nonempty set. -/
theorem exists_sink {r : α → α → Prop} (hr : Acyclic r) {S : Set α} (hfin : S.Finite)
    (hne : S.Nonempty) : ∃ a ∈ S, ∀ b ∈ S, ¬ r a b := by
  have hirr : Std.Irrefl (Relation.TransGen (fun b a => r a b)) :=
    ⟨fun a h => hr a (Relation.transGen_swap.1 h)⟩
  have hwf : S.WellFoundedOn (Relation.TransGen (fun b a => r a b)) := by
    have : IsStrictOrder α (Relation.TransGen (fun b a => r a b)) := { }
    exact hfin.wellFoundedOn
  obtain ⟨a, ha⟩ := hne
  obtain ⟨m, hm⟩ : ∃ m : S, ∀ b : S, ¬ Relation.TransGen (fun b a => r a b) b.1 m.1 := by
    obtain ⟨m, -, hmin⟩ := hwf.has_min Set.univ ⟨⟨a, ha⟩, Set.mem_univ _⟩
    exact ⟨m, fun b => hmin b (Set.mem_univ _)⟩
  exact ⟨m.1, m.2, fun b hb hmb => hm ⟨b, hb⟩ (Relation.TransGen.single hmb)⟩

end ChannelDependency

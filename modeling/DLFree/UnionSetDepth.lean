/-
**The depth of a union set.**

Merging hangs the shallower tree below the deeper one, and grows the recorded height only when the
two are equally deep.  So the recorded height of a top is the length of the longest walk to it, a
tree of height `h` has at least `2 ^ h` items, and no walk to a top takes more than `log₂ n` steps.

Main definitions:

* `UnionSet.Depth` — so many parent links lead from an item to its top;
* `UnionSet.Ranked` — recorded heights are true heights, and trees have enough items for them;
* `UnionSetOp`, `UnionSetCalls` — calls that add new items and merge items of different sets.

Main results:

* `UnionSet.Ranked.add`, `UnionSet.Ranked.mergeSet` — each operation keeps the heights exact;
* `unionSet_run` — **after any such calls the union set is the closure of the merges, and finding
  the top of an item takes at most `log₂ n` steps**.
-/

import DLFree.UnionSet
import Mathlib.Data.Nat.Log
import Mathlib.Data.Set.Card

set_option relaxedAutoImplicit false
set_option autoImplicit false

/-! ### The closure of a list of links -/

namespace LinkGraph

variable {V : Type*}

/-- A list of links connects what the least equivalence that contains it relates. -/
theorem reachable_graph_iff {es : List (V × V)} {a b : V} :
    (graph es).Reachable a b ↔ Relation.EqvGen (fun x y => (x, y) ∈ es) a b := by
  constructor
  · intro h
    rw [SimpleGraph.reachable_iff_reflTransGen] at h
    induction h with
    | refl => exact Relation.EqvGen.refl _
    | tail _ hyz ih =>
        refine ih.trans _ _ _ ?_
        rcases (adj_iff.1 hyz).2 with h | h
        · exact Relation.EqvGen.rel _ _ h
        · exact (Relation.EqvGen.rel _ _ h).symm
  · intro h
    induction h with
    | rel x y hxy =>
        rcases eq_or_ne x y with rfl | hne
        · exact SimpleGraph.Reachable.refl _
        · exact (adj_iff.2 ⟨hne, Or.inl hxy⟩).reachable
    | refl => exact SimpleGraph.Reachable.refl _
    | symm _ _ _ ih => exact ih.symm
    | trans _ _ _ _ _ ih₁ ih₂ => exact ih₁.trans ih₂

end LinkGraph

namespace DLFree

variable {α : Type} [DecidableEq α]

namespace UnionSet

variable {uset : UnionSet α} {S : Finset α} {G : SimpleGraph α} {a b r s : α} {k l : ℕ}

/-! ### Walks to the top -/

/-- `k` parent links lead from `a` to the top `r` of its tree. -/
inductive Depth (uset : UnionSet α) : α → α → ℕ → Prop
  | root {a : α} {c : UnionSetCell α} :
      uset.cellMap a = some c → c.parent = none → Depth uset a a 0
  | up {a p r : α} {k : ℕ} {c : UnionSetCell α} :
      uset.cellMap a = some c → c.parent = some p → Depth uset p r k → Depth uset a r (k + 1)

/-- `p` is the parent of `a`. -/
def IsParent (uset : UnionSet α) (a p : α) : Prop :=
  ∃ c, uset.cellMap a = some c ∧ c.parent = some p

/-- `r` is the top of a tree. -/
def IsTop (uset : UnionSet α) (r : α) : Prop := ∃ c, uset.cellMap r = some c ∧ c.parent = none

section

omit [DecidableEq α]

theorem Depth.top (h : Depth uset a r k) : Top uset a r := by
  induction h with
  | root hc hp => exact Top.root hc hp
  | up hc hp _ ih => exact Top.up hc hp ih

theorem Top.exists_depth (h : Top uset a r) : ∃ k, Depth uset a r k := by
  induction h with
  | root hc hp => exact ⟨0, Depth.root hc hp⟩
  | up hc hp _ ih =>
      obtain ⟨k, hk⟩ := ih
      exact ⟨k + 1, Depth.up hc hp hk⟩

theorem Depth.unique (h : Depth uset a r k) (h' : Depth uset a s l) : r = s ∧ k = l := by
  induction h generalizing l with
  | root hc hp =>
      cases h' with
      | root => exact ⟨rfl, rfl⟩
      | up hc' hp' =>
          rw [hc, Option.some.injEq] at hc'
          rw [← hc', hp] at hp'
          cases hp'
  | up hc hp _ ih =>
      cases h' with
      | root hc' hp' =>
          rw [hc, Option.some.injEq] at hc'
          rw [← hc', hp] at hp'
          cases hp'
      | up hc' hp' h' =>
          rw [hc, Option.some.injEq] at hc'
          rw [← hc', hp, Option.some.injEq] at hp'
          obtain ⟨hr, hk⟩ := ih (hp' ▸ h')
          exact ⟨hr, by omega⟩

/-- The walk of `union_set_find_set_parent` follows as many links as the item is deep. -/
theorem Depth.unionSetTop (h : Depth uset a r k) :
    DLFree.unionSetTop uset (k + 1) a = Except.ok r := by
  induction h with
  | root hc hp => simp [DLFree.unionSetTop, hc, hp]
  | up hc hp _ ih => rw [DLFree.unionSetTop, hc]; simp only [hp, ih]

theorem Rep.exists_depth (h : Rep uset S G) (ha : a ∈ S) : ∃ r k, Depth uset a r k := by
  obtain ⟨r, _, hr⟩ := h.findSetParent ha
  obtain ⟨k, hk⟩ := hr.exists_depth
  exact ⟨r, k, hk⟩

theorem Rep.mem_of_top (h : Rep uset S G) (ha : Top uset a r) : a ∈ S := by
  cases ha with
  | root hc => exact (h.mem _).2 ⟨_, hc⟩
  | up hc => exact (h.mem _).2 ⟨_, hc⟩

/-- **No walk along parents comes back.** -/
theorem Rep.acyclic (h : Rep uset S G) (a : α) : ¬ Relation.TransGen uset.IsParent a a := by
  have hlt : ∀ b, Relation.TransGen uset.IsParent a b → uset.height a < uset.height b := by
    intro b hb
    induction hb with
    | single hp =>
        obtain ⟨c, hc, hp⟩ := hp
        exact (h.parent _ c _ hc hp).2
    | tail _ hp ih =>
        obtain ⟨c, hc, hp⟩ := hp
        exact ih.trans (h.parent _ c _ hc hp).2
  exact fun hcyc => lt_irrefl _ (hlt a hcyc)

end

/-! ### Exact heights -/

/-- Recorded heights are true heights, and every tree has enough items for its height. -/
structure Ranked (uset : UnionSet α) : Prop where
  le : ∀ a r k, Depth uset a r k → k ≤ uset.height r
  attained : ∀ r, uset.IsTop r → ∃ a, Depth uset a r (uset.height r)
  size : ∀ r, uset.IsTop r →
    ∃ T : Finset α, (∀ a, a ∈ T ↔ Top uset a r) ∧ 2 ^ uset.height r ≤ T.card

omit [DecidableEq α] in
theorem ranked_create : Ranked (unionSetCreate : UnionSet α) where
  le := by
    intro a r k h
    cases h with
    | root hc => cases hc
    | up hc => cases hc
  attained := by
    rintro r ⟨c, hc, _⟩
    cases hc
  size := by
    rintro r ⟨c, hc, _⟩
    cases hc

/-- A new item is a tree of height zero, and the walks of the others are as before. -/
theorem depth_add_iff (h : Rep uset S G) (ha : a ∉ S) :
    Depth (unionSetAdd uset a) b r k ↔ (b = a ∧ r = a ∧ k = 0) ∨ Depth uset b r k := by
  have hcell : ∀ x, x ≠ a → (unionSetAdd uset a).cellMap x = uset.cellMap x := fun x hx => by
    simp [unionSetAdd, hx]
  have hnew : (unionSetAdd uset a).cellMap a = some ⟨none, uset.nset, 0⟩ := by simp [unionSetAdd]
  have hold : ∀ x c, uset.cellMap x = some c → x ≠ a := by
    rintro x c hc rfl
    exact ha ((h.mem x).2 ⟨c, hc⟩)
  constructor
  · intro hd
    induction hd with
    | @root x c hc hp =>
        by_cases hxa : x = a
        · exact Or.inl ⟨hxa, hxa, rfl⟩
        · exact Or.inr (Depth.root (by rw [← hc, hcell x hxa]) hp)
    | @up x p r k c hc hp _ ih =>
        have hxa : x ≠ a := by
          rintro rfl
          rw [hnew, Option.some.injEq] at hc
          rw [← hc] at hp
          cases hp
        rw [hcell x hxa] at hc
        rcases ih with ⟨rfl, _⟩ | ih
        · exact absurd (h.parent x c _ hc hp).1 ha
        · exact Or.inr (Depth.up hc hp ih)
  · rintro (⟨rfl, rfl, rfl⟩ | hd)
    · exact Depth.root hnew rfl
    · induction hd with
      | @root x c hc hp => exact Depth.root (by rw [hcell x (hold x c hc), hc]) hp
      | @up x p r k c hc hp _ ih => exact Depth.up (by rw [hcell x (hold x c hc), hc]) hp ih

omit [DecidableEq α] in
theorem top_iff_depth : Top uset a r ↔ ∃ k, Depth uset a r k :=
  ⟨Top.exists_depth, fun ⟨_, hk⟩ => hk.top⟩

/-- **`union_set_add` keeps the heights exact.** -/
theorem Ranked.add (hr : Ranked uset) (h : Rep uset S G) (ha : a ∉ S) :
    Ranked (unionSetAdd uset a) := by
  have hheight : ∀ x, x ≠ a → (unionSetAdd uset a).height x = uset.height x := fun x hx => by
    simp [height, unionSetAdd, hx]
  have hzero : (unionSetAdd uset a).height a = 0 := by simp [height, unionSetAdd]
  have hnot : ∀ {x r}, Top uset x r → r ≠ a := by
    rintro x r hx rfl
    obtain ⟨c, hc, _⟩ := hx.top_root
    exact ha ((h.mem _).2 ⟨c, hc⟩)
  have htop : ∀ {r}, (unionSetAdd uset a).IsTop r → r ≠ a → uset.IsTop r := by
    rintro r ⟨c, hc, hp⟩ hra
    exact ⟨c, by simpa [unionSetAdd, hra] using hc, hp⟩
  refine ⟨?_, ?_, ?_⟩
  · intro x r k hx
    rcases (depth_add_iff h ha).1 hx with ⟨_, _, rfl⟩ | hx
    · exact Nat.zero_le _
    · rw [hheight r (hnot hx.top)]
      exact hr.le x r k hx
  · intro r hroot
    by_cases hra : r = a
    · rw [hra, hzero]
      exact ⟨a, (depth_add_iff h ha).2 (Or.inl ⟨rfl, rfl, rfl⟩)⟩
    · rw [hheight r hra]
      obtain ⟨x, hx⟩ := hr.attained r (htop hroot hra)
      exact ⟨x, (depth_add_iff h ha).2 (Or.inr hx)⟩
  · intro r hroot
    simp only [top_iff_depth, depth_add_iff h ha]
    by_cases hra : r = a
    · subst hra
      refine ⟨{r}, fun x => ?_, by simp [hzero]⟩
      rw [Finset.mem_singleton]
      constructor
      · exact fun hx => ⟨0, Or.inl ⟨hx, rfl, rfl⟩⟩
      · rintro ⟨k, ⟨hx, _⟩ | hx⟩
        · exact hx
        · exact absurd rfl (hnot hx.top)
    · obtain ⟨T, hT, hcard⟩ := hr.size r (htop hroot hra)
      refine ⟨T, fun x => ?_, by rwa [hheight r hra]⟩
      rw [hT, top_iff_depth]
      refine exists_congr fun k => ?_
      simp [hra]

section Attach

/-- Two tops and their cells. -/
structure TwoTops (uset : UnionSet α) (child top : α) (c t : UnionSetCell α) : Prop where
  child_cell : uset.cellMap child = some c
  child_parent : c.parent = none
  top_cell : uset.cellMap top = some t
  top_parent : t.parent = none
  ne : child ≠ top

variable {child top : α} {c t : UnionSetCell α}

omit [DecidableEq α] in
theorem TwoTops.symm (htwo : TwoTops uset child top c t) : TwoTops uset top child t c :=
  ⟨htwo.top_cell, htwo.top_parent, htwo.child_cell, htwo.child_parent, htwo.ne.symm⟩

/-- Hanging one top below another makes the walks of its tree one link longer. -/
theorem Depth.attach (h : Depth uset a r k) (htwo : TwoTops uset child top c t) :
    Depth (unionSetAttach uset child top c t) a (if r = child then top else r)
      (if r = child then k + 1 else k) := by
  have htop : Depth (unionSetAttach uset child top c t) top top 0 :=
    Depth.root (c := { t with height := max t.height (c.height + 1) })
      (by simp [unionSetAttach]) htwo.top_parent
  induction h with
  | @root a ca hca hpa =>
      by_cases hac : a = child
      · -- the former top gets the new link
        subst hac
        rw [if_pos rfl, if_pos rfl]
        refine Depth.up (p := top) (c := { c with parent := some top }) ?_ rfl htop
        simp [unionSetAttach, htwo.ne]
      · rw [if_neg hac, if_neg hac]
        by_cases hat : a = top
        · rw [hat]
          exact htop
        · refine Depth.root (c := ca) ?_ hpa
          simp [unionSetAttach, hat, hac, hca]
  | @up a p r k ca hca hpa _ ih =>
      have hac : a ≠ child := by
        rintro rfl
        rw [htwo.child_cell, Option.some.injEq] at hca
        rw [← hca, htwo.child_parent] at hpa
        cases hpa
      have hat : a ≠ top := by
        rintro rfl
        rw [htwo.top_cell, Option.some.injEq] at hca
        rw [← hca, htwo.top_parent] at hpa
        cases hpa
      have hcell : (unionSetAttach uset child top c t).cellMap a = some ca := by
        simp [unionSetAttach, hat, hac, hca]
      have hup := Depth.up hcell hpa ih
      split_ifs at hup ⊢ <;> exact hup

/-- The walks after hanging one top below another are those from before, seen from the new top. -/
theorem Rep.depth_attach (h : Rep uset S G) (htwo : TwoTops uset child top c t)
    (hd : Depth (unionSetAttach uset child top c t) a r k) :
    ∃ r₀ k₀, Depth uset a r₀ k₀ ∧ r = (if r₀ = child then top else r₀) ∧
      k = if r₀ = child then k₀ + 1 else k₀ := by
  have haS : a ∈ S := by
    have hcell : ∃ ca, (unionSetAttach uset child top c t).cellMap a = some ca := by
      cases hd with
      | root hca => exact ⟨_, hca⟩
      | up hca => exact ⟨_, hca⟩
    obtain ⟨ca, hca⟩ := hcell
    rw [h.mem]
    by_cases hat : a = top
    · exact ⟨t, hat ▸ htwo.top_cell⟩
    · by_cases hac : a = child
      · exact ⟨c, hac ▸ htwo.child_cell⟩
      · exact ⟨ca, by simpa [unionSetAttach, hat, hac] using hca⟩
  -- an item has one walk only, so the walk after is the one that came from before
  obtain ⟨r₀, k₀, hd₀⟩ := h.exists_depth haS
  obtain ⟨hr, hk⟩ := (hd₀.attach htwo).unique hd
  exact ⟨r₀, k₀, hd₀, hr.symm, hk.symm⟩

/-- The tree of the new top is made of the two trees. -/
theorem Rep.top_attach (h : Rep uset S G) (htwo : TwoTops uset child top c t) :
    Top (unionSetAttach uset child top c t) a top ↔ Top uset a top ∨ Top uset a child := by
  constructor
  · intro ha
    obtain ⟨k, hk⟩ := ha.exists_depth
    obtain ⟨r₀, k₀, hk₀, hr₀, _⟩ := h.depth_attach htwo hk
    by_cases hrc : r₀ = child
    · exact Or.inr (hrc ▸ hk₀.top)
    · rw [if_neg hrc] at hr₀
      exact Or.inl (hr₀ ▸ hk₀.top)
  · rintro (ha | ha)
    · obtain ⟨k, hk⟩ := ha.exists_depth
      have hd := (hk.attach htwo).top
      rwa [if_neg htwo.ne.symm] at hd
    · obtain ⟨k, hk⟩ := ha.exists_depth
      have hd := (hk.attach htwo).top
      rwa [if_pos rfl] at hd

/-- The other trees are as they were. -/
theorem Rep.top_attach_of_ne (h : Rep uset S G) (htwo : TwoTops uset child top c t)
    (hrt : r ≠ top) (hrc : r ≠ child) :
    Top (unionSetAttach uset child top c t) a r ↔ Top uset a r := by
  constructor
  · intro ha
    obtain ⟨k, hk⟩ := ha.exists_depth
    obtain ⟨r₀, k₀, hk₀, hr₀, _⟩ := h.depth_attach htwo hk
    by_cases hr₀c : r₀ = child
    · rw [if_pos hr₀c] at hr₀
      exact absurd hr₀ hrt
    · rw [if_neg hr₀c] at hr₀
      exact hr₀ ▸ hk₀.top
  · intro ha
    obtain ⟨k, hk⟩ := ha.exists_depth
    have hd := (hk.attach htwo).top
    rwa [if_neg hrc] at hd

/-- Afterwards the one is no top, and no other item has become one. -/
theorem TwoTops.isTop_attach (htwo : TwoTops uset child top c t)
    (hr : (unionSetAttach uset child top c t).IsTop r) : r ≠ child ∧ (r ≠ top → uset.IsTop r) := by
  obtain ⟨cr, hcr, hpr⟩ := hr
  have hrc : r ≠ child := by
    rintro rfl
    simp only [unionSetAttach, Function.update_of_ne htwo.ne, Function.update_self,
      Option.some.injEq] at hcr
    rw [← hcr] at hpr
    cases hpr
  exact ⟨hrc, fun hrt => ⟨cr, by simpa [unionSetAttach, hrt, hrc] using hcr, hpr⟩⟩

theorem height_attach_top :
    (unionSetAttach uset child top c t).height top = max t.height (c.height + 1) := by
  simp [height, unionSetAttach]

theorem height_attach_of_ne (hrt : r ≠ top) (hrc : r ≠ child) :
    (unionSetAttach uset child top c t).height r = uset.height r := by
  simp [height, unionSetAttach, hrt, hrc]

omit [DecidableEq α] in
theorem TwoTops.height_top (htwo : TwoTops uset child top c t) : uset.height top = t.height := by
  simp [height, htwo.top_cell]

omit [DecidableEq α] in
/-- The trees of two tops have no item in common. -/
theorem disjoint_of_top {T T' : Finset α} (hT : ∀ x, x ∈ T ↔ Top uset x r)
    (hT' : ∀ x, x ∈ T' ↔ Top uset x s) (hne : r ≠ s) : Disjoint T T' := by
  rw [Finset.disjoint_left]
  exact fun x hx hx' => hne (((hT x).1 hx).unique ((hT' x).1 hx'))

/-- No walk is longer than the height of its top. -/
theorem Ranked.le_attach (hr : Ranked uset) (h : Rep uset S G)
    (htwo : TwoTops uset child top c t)
    (hd : Depth (unionSetAttach uset child top c t) a r k) :
    k ≤ (unionSetAttach uset child top c t).height r := by
  obtain ⟨r₀, k₀, hd₀, rfl, rfl⟩ := h.depth_attach htwo hd
  have hk := hr.le a r₀ k₀ hd₀
  by_cases hrc : r₀ = child
  · subst hrc
    rw [htwo.symm.height_top] at hk
    rw [if_pos rfl, if_pos rfl, height_attach_top]
    omega
  · rw [if_neg hrc, if_neg hrc]
    by_cases hrt : r₀ = top
    · subst hrt
      rw [htwo.height_top] at hk
      rw [height_attach_top]
      omega
    · rwa [height_attach_of_ne hrt hrc]

/-- Some walk is as long as the height of its top: at the new top it is one of the deeper tree, or
one of the other tree with the new link. -/
theorem Ranked.attained_attach (hr : Ranked uset) (htwo : TwoTops uset child top c t)
    (hroot : (unionSetAttach uset child top c t).IsTop r) :
    ∃ x, Depth (unionSetAttach uset child top c t) x r
      ((unionSetAttach uset child top c t).height r) := by
  obtain ⟨hrc, hrt⟩ := htwo.isTop_attach hroot
  by_cases hrtop : r = top
  · subst hrtop
    rw [height_attach_top]
    by_cases hcase : c.height + 1 ≤ t.height
    · obtain ⟨x, hx⟩ := hr.attained r ⟨t, htwo.top_cell, htwo.top_parent⟩
      have hd := hx.attach htwo
      rw [if_neg hrc, if_neg hrc, htwo.height_top] at hd
      rw [max_eq_left hcase]
      exact ⟨x, hd⟩
    · obtain ⟨x, hx⟩ := hr.attained child ⟨c, htwo.child_cell, htwo.child_parent⟩
      have hd := hx.attach htwo
      rw [if_pos rfl, if_pos rfl, htwo.symm.height_top] at hd
      rw [max_eq_right (by omega)]
      exact ⟨x, hd⟩
  · obtain ⟨x, hx⟩ := hr.attained r (hrt hrtop)
    have hd := hx.attach htwo
    rw [if_neg hrc, if_neg hrc] at hd
    rw [height_attach_of_ne hrtop hrc]
    exact ⟨x, hd⟩

/-- A tree is as large as its height demands; where the two trees are equally deep the height grows,
and each has half of the items. -/
theorem Ranked.size_attach (hr : Ranked uset) (h : Rep uset S G)
    (htwo : TwoTops uset child top c t) (hle : c.height ≤ t.height)
    (hroot : (unionSetAttach uset child top c t).IsTop r) :
    ∃ T : Finset α, (∀ x, x ∈ T ↔ Top (unionSetAttach uset child top c t) x r) ∧
      2 ^ (unionSetAttach uset child top c t).height r ≤ T.card := by
  obtain ⟨hrc, hrt⟩ := htwo.isTop_attach hroot
  by_cases hrtop : r = top
  · subst hrtop
    obtain ⟨T, hT, hTcard⟩ := hr.size r ⟨t, htwo.top_cell, htwo.top_parent⟩
    obtain ⟨T', hT', hTcard'⟩ := hr.size child ⟨c, htwo.child_cell, htwo.child_parent⟩
    rw [htwo.height_top] at hTcard
    rw [htwo.symm.height_top] at hTcard'
    refine ⟨T ∪ T', fun x => ?_, ?_⟩
    · rw [Finset.mem_union, hT, hT', h.top_attach htwo]
    · -- the height grows only where both trees have the same
      rw [Finset.card_union_of_disjoint (disjoint_of_top hT hT' htwo.ne.symm), height_attach_top]
      by_cases hcase : c.height + 1 ≤ t.height
      · rw [max_eq_left hcase]
        omega
      · have heq : t.height = c.height := by omega
        rw [max_eq_right (by omega), pow_succ]
        rw [heq] at hTcard
        omega
  · obtain ⟨T, hT, hTcard⟩ := hr.size r (hrt hrtop)
    refine ⟨T, fun x => ?_, by rwa [height_attach_of_ne hrtop hrc]⟩
    rw [hT, h.top_attach_of_ne htwo hrtop hrc]

/-- **Hanging the shallower of two trees below the deeper keeps the heights exact.** -/
theorem Ranked.attach (hr : Ranked uset) (h : Rep uset S G) (htwo : TwoTops uset child top c t)
    (hle : c.height ≤ t.height) : Ranked (unionSetAttach uset child top c t) :=
  ⟨fun _ _ _ hd => hr.le_attach h htwo hd, fun _ hroot => hr.attained_attach htwo hroot,
    fun _ hroot => hr.size_attach h htwo hle hroot⟩

end Attach

/-- **`union_set_merge_set` keeps the heights exact.** -/
theorem Ranked.mergeSet (hr : Ranked uset) (h : Rep uset S G) {uset' : UnionSet α}
    (hm : unionSetMergeSet uset a b = Except.ok uset') (ha : a ∈ S) (hb : b ∈ S)
    (hab : ¬ G.Reachable a b) : Ranked uset' := by
  obtain ⟨r, hrr, htr⟩ := h.findSetParent ha
  obtain ⟨s, hs, hts⟩ := h.findSetParent hb
  have hne : r ≠ s := fun he => hab ((h.conn a b r s htr hts).1 he)
  obtain ⟨c0, hc0, hp0⟩ := htr.top_root
  obtain ⟨c1, hc1, hp1⟩ := hts.top_root
  by_cases hlt : c0.height < c1.height
  · have heq : unionSetMergeSet uset a b = Except.ok (unionSetAttach uset r s c0 c1) := by
      simp [unionSetMergeSet, hrr, hs, hne, hc0, hc1, hlt, bind, Except.bind]
    rw [heq, Except.ok.injEq] at hm
    exact hm ▸ hr.attach h ⟨hc0, hp0, hc1, hp1, hne⟩ hlt.le
  · have heq : unionSetMergeSet uset a b = Except.ok (unionSetAttach uset s r c1 c0) := by
      simp [unionSetMergeSet, hrr, hs, hne, hc0, hc1, hlt, bind, Except.bind]
    rw [heq, Except.ok.injEq] at hm
    exact hm ▸ hr.attach h ⟨hc1, hp1, hc0, hp0, hne.symm⟩ (not_lt.1 hlt)

omit [DecidableEq α] in
/-- A tree has no more items than the union set. -/
theorem Rep.height_le_log (h : Rep uset S G) (hr : Ranked uset) (ht : uset.IsTop r) :
    uset.height r ≤ Nat.log 2 S.card := by
  obtain ⟨T, hT, hcard⟩ := hr.size r ht
  have hsub : T ⊆ S := fun x hx => h.mem_of_top ((hT x).1 hx)
  refine Nat.le_log_of_pow_le (by omega) (hcard.trans (Finset.card_le_card hsub))

end UnionSet

/-! ### Runs of calls -/

/-- A call that changes a union set. -/
inductive UnionSetOp (α : Type) where
  | add (data : α)
  | merge (d0 d1 : α)

/-- The items that the calls add. -/
def unionSetAdded (ops : List (UnionSetOp α)) : List α :=
  ops.filterMap fun
    | .add data => some data
    | .merge _ _ => none

/-- The pairs that the calls merge. -/
def unionSetMerged (ops : List (UnionSetOp α)) : List (α × α) :=
  ops.filterMap fun
    | .add _ => none
    | .merge d0 d1 => some (d0, d1)

/-- The pairs of items that the closure of the merges relates. -/
def UnionSetSame (ops : List (UnionSetOp α)) : α → α → Prop :=
  Relation.EqvGen fun a b => (a, b) ∈ unionSetMerged ops

/-- Calls that add distinct items and merge items of different sets. -/
inductive UnionSetCalls : List (UnionSetOp α) → Prop
  | nil : UnionSetCalls []
  | add {ops : List (UnionSetOp α)} {data : α} : UnionSetCalls ops → data ∉ unionSetAdded ops →
      UnionSetCalls (ops ++ [.add data])
  | merge {ops : List (UnionSetOp α)} {d0 d1 : α} : UnionSetCalls ops → d0 ∈ unionSetAdded ops →
      d1 ∈ unionSetAdded ops → ¬ UnionSetSame ops d0 d1 →
      UnionSetCalls (ops ++ [.merge d0 d1])

/-- The effect of one call. -/
def unionSetStep (uset : UnionSet α) : UnionSetOp α → Except Abort (UnionSet α)
  | .add data => Except.ok (unionSetAdd uset data)
  | .merge d0 d1 => unionSetMergeSet uset d0 d1

section

omit [DecidableEq α]

@[simp] theorem unionSetAdded_append (ops ops' : List (UnionSetOp α)) :
    unionSetAdded (ops ++ ops') = unionSetAdded ops ++ unionSetAdded ops' :=
  List.filterMap_append

@[simp] theorem unionSetMerged_append (ops ops' : List (UnionSetOp α)) :
    unionSetMerged (ops ++ ops') = unionSetMerged ops ++ unionSetMerged ops' :=
  List.filterMap_append

theorem unionSetSame_iff {ops : List (UnionSetOp α)} {a b : α} :
    UnionSetSame ops a b ↔ (LinkGraph.graph (unionSetMerged ops)).Reachable a b :=
  LinkGraph.reachable_graph_iff.symm

theorem UnionSetCalls.nodup {ops : List (UnionSetOp α)} (h : UnionSetCalls ops) :
    (unionSetAdded ops).Nodup := by
  induction h with
  | nil => exact List.nodup_nil
  | add _ hnew ih =>
      rw [unionSetAdded_append]
      exact ih.append (List.nodup_singleton _) (by simpa [unionSetAdded] using hnew)
  | merge _ _ _ _ ih => simpa [unionSetAdded] using ih

/-- Only items that were added are merged. -/
theorem UnionSetCalls.mem_added {ops : List (UnionSetOp α)} (h : UnionSetCalls ops) {a b : α}
    (hab : (a, b) ∈ unionSetMerged ops) : a ∈ unionSetAdded ops ∧ b ∈ unionSetAdded ops := by
  induction h with
  | nil => cases hab
  | add _ _ ih =>
      rw [unionSetMerged_append, List.mem_append] at hab
      rcases hab with hab | hab
      · exact ⟨by simp [ih hab], by simp [ih hab]⟩
      · cases hab
  | merge _ h0 h1 _ ih =>
      rw [unionSetMerged_append, List.mem_append] at hab
      rcases hab with hab | hab
      · exact ⟨by simp [ih hab], by simp [ih hab]⟩
      · simp only [unionSetMerged, List.filterMap_cons, List.filterMap_nil, List.mem_singleton,
          Prod.mk.injEq] at hab
        obtain ⟨rfl, rfl⟩ := hab
        exact ⟨by simp [h0], by simp [h1]⟩

end

/-- The calls keep the union set a forest of exact heights over the items added, which connects
what the merges connect. -/
theorem UnionSetCalls.rep {ops : List (UnionSetOp α)} (h : UnionSetCalls ops) :
    ∃ uset, ops.foldlM unionSetStep unionSetCreate = Except.ok uset ∧ uset.Ranked ∧
      uset.Rep (unionSetAdded ops).toFinset (LinkGraph.graph (unionSetMerged ops)) := by
  induction h with
  | nil => exact ⟨unionSetCreate, rfl, UnionSet.ranked_create, by
      simpa [unionSetAdded, unionSetMerged] using UnionSet.rep_create⟩
  | @add ops data hops hnew ih =>
      obtain ⟨uset, hrun, hranked, hrep⟩ := ih
      have hdata : data ∉ (unionSetAdded ops).toFinset := by simpa using hnew
      have halone : ∀ b, ¬ (LinkGraph.graph (unionSetMerged ops)).Adj data b := by
        intro b hb
        rcases (LinkGraph.adj_iff.1 hb).2 with hb | hb
        · exact hnew (hops.mem_added hb).1
        · exact hnew (hops.mem_added hb).2
      refine ⟨unionSetAdd uset data, ?_, hranked.add hrep hdata, ?_⟩
      · simp [List.foldlM_append, hrun, unionSetStep, bind, Except.bind, pure, Except.pure]
      · have hset : (unionSetAdded (ops ++ [.add data])).toFinset =
            insert data (unionSetAdded ops).toFinset := by
          ext x
          simp [unionSetAdded]
        have hmerged : unionSetMerged (ops ++ [.add data]) = unionSetMerged ops := by
          simp [unionSetMerged]
        rw [hset, hmerged]
        exact hrep.add_isolated hdata halone
  | @merge ops d0 d1 hops h0 h1 hdiff ih =>
      obtain ⟨uset, hrun, hranked, hrep⟩ := ih
      have h0' : d0 ∈ (unionSetAdded ops).toFinset := by simpa using h0
      have h1' : d1 ∈ (unionSetAdded ops).toFinset := by simpa using h1
      rw [unionSetSame_iff] at hdiff
      obtain ⟨uset', hmerge, hrep'⟩ := hrep.mergeSet h0' h1' hdiff
      refine ⟨uset', ?_, hranked.mergeSet hrep hmerge h0' h1' hdiff, ?_⟩
      · simp [List.foldlM_append, hrun, unionSetStep, hmerge, bind, Except.bind, pure, Except.pure]
      · have hset : unionSetAdded (ops ++ [.merge d0 d1]) = unionSetAdded ops := by
          simp [unionSetAdded]
        have hmerged :
            unionSetMerged (ops ++ [.merge d0 d1]) = unionSetMerged ops ++ [(d0, d1)] := by
          simp [unionSetMerged]
        rw [hset, hmerged, LinkGraph.graph_append_singleton]
        exact hrep'

/-- **Any calls that add distinct items and merge items of different sets succeed.**  Then no walk
along parents comes back; two items are in the same set exactly when the closure of the merges
relates them; each top records the length of the longest walk to it, and at least two to that power
of items walk to it; and finding the top of an item takes at most `log₂ n` steps. -/
theorem unionSet_run (ops : List (UnionSetOp α)) (h : UnionSetCalls ops) :
    ∃ uset, ops.foldlM unionSetStep unionSetCreate = Except.ok uset ∧
      (∀ a, ¬ Relation.TransGen uset.IsParent a a) ∧
      (∀ a ∈ unionSetAdded ops, ∀ b ∈ unionSetAdded ops,
        ∃ same, unionSetIsSameSet uset a b = Except.ok same ∧
          (same = true ↔ UnionSetSame ops a b)) ∧
      (∀ r, uset.IsTop r → IsGreatest {k | ∃ a, uset.Depth a r k} (uset.height r) ∧
        2 ^ uset.height r ≤ Set.ncard {a | uset.Top a r}) ∧
      ∀ a ∈ unionSetAdded ops, ∃ r k, unionSetFindSetParent uset a = Except.ok r ∧
        uset.Depth a r k ∧ unionSetTop uset (k + 1) a = Except.ok r ∧
        k ≤ Nat.log 2 (unionSetAdded ops).length := by
  obtain ⟨uset, hrun, hranked, hrep⟩ := h.rep
  refine ⟨uset, hrun, hrep.acyclic, ?_, ?_, ?_⟩
  · intro a ha b hb
    obtain ⟨same, hsame, hiff⟩ := hrep.isSameSet (List.mem_toFinset.2 ha) (List.mem_toFinset.2 hb)
    exact ⟨same, hsame, by rw [hiff, unionSetSame_iff]⟩
  · intro r hr
    refine ⟨⟨hranked.attained r hr, ?_⟩, ?_⟩
    · rintro k ⟨a, ha⟩
      exact hranked.le a r k ha
    · obtain ⟨T, hT, hcard⟩ := hranked.size r hr
      have hcoe : {a | uset.Top a r} = ↑T := by
        ext a
        exact (hT a).symm
      rwa [hcoe, Set.ncard_coe_finset]
  · intro a ha
    obtain ⟨r, hfind, htop⟩ := hrep.findSetParent (List.mem_toFinset.2 ha)
    obtain ⟨k, hk⟩ := htop.exists_depth
    refine ⟨r, k, hfind, hk, hk.unionSetTop, (hranked.le a r k hk).trans ?_⟩
    have hlog := hrep.height_le_log hranked htop.top_root
    rwa [List.toFinset_card_of_nodup h.nodup] at hlog

/-- Three items, two of them merged: the one below takes one step to its top. -/
theorem unionSet_run_three :
    ∃ uset : UnionSet ℕ, [.add 0, .add 1, .add 2, .merge 0 2].foldlM unionSetStep
        unionSetCreate = Except.ok uset ∧
      (∃ r k, unionSetFindSetParent uset 2 = Except.ok r ∧ uset.Depth 2 r k ∧ k ≤ 1) ∧
      unionSetIsSameSet uset 0 2 = Except.ok true := by
  have hcalls : UnionSetCalls [UnionSetOp.add 0, .add 1, .add 2, .merge 0 2] := by
    refine @UnionSetCalls.merge ℕ [.add 0, .add 1, .add 2] 0 2 ?_ (by decide) (by decide) ?_
    · refine @UnionSetCalls.add ℕ [.add 0, .add 1] 2 ?_ (by decide)
      refine @UnionSetCalls.add ℕ [.add 0] 1 ?_ (by decide)
      exact @UnionSetCalls.add ℕ [] 0 UnionSetCalls.nil (by decide)
    · rw [unionSetSame_iff]
      simp [unionSetMerged]
  obtain ⟨uset, hrun, _, hsame, _, hfind⟩ := unionSet_run _ hcalls
  obtain ⟨r, k, hr, hk, _, hle⟩ := hfind 2 (by decide)
  obtain ⟨same, h02, hiff⟩ := hsame 0 (by decide) 2 (by decide)
  refine ⟨uset, hrun, ⟨r, k, hr, hk, hle.trans (by decide)⟩, ?_⟩
  rw [h02, hiff.2 (Relation.EqvGen.rel _ _ (by decide))]

end DLFree

/-
**Union sets: `std/uset.c`.**

Each data item has a cell; the cells form trees through their parent pointers, and two items are in
the same set when their trees have the same top.  The shallower tree is hung below the deeper one,
so heights grow towards the top and every walk to the top ends.

A cell is named by its data item, which is how the hash map of the source finds it.

Main definitions:

* `UnionSet` — `struct union_set`;
* `unionSetAdd`, `unionSetFindSetParent`, `unionSetIsSameSet`, `unionSetMergeSet` — the operations;
* `UnionSet.Rep` — a union set represents the components of a graph on its items.

Main results:

* `UnionSet.Rep.add_isolated`, `UnionSet.Rep.isSameSet`, `UnionSet.Rep.mergeSet` — **each operation
  does to the components what it says**, and none of its walks runs forever.
-/

import DLFree.Libc
import DLFree.LinkGraph
import Mathlib.Data.Finset.Card

set_option relaxedAutoImplicit false
set_option autoImplicit false

namespace DLFree

variable {α : Type} [DecidableEq α]

/-- `struct union_set_cell`. -/
structure UnionSetCell (α : Type) where
  parent : Option α
  set : ℕ
  height : ℕ

/-- `struct union_set`. -/
structure UnionSet (α : Type) where
  cellMap : α → Option (UnionSetCell α)
  nset : ℕ

/-- `union_set_create`. -/
def unionSetCreate : UnionSet α where
  cellMap := fun _ => none
  nset := 0

/-- `union_set_add`. -/
def unionSetAdd (uset : UnionSet α) (data : α) : UnionSet α where
  cellMap := Function.update uset.cellMap data (some ⟨none, uset.nset, 0⟩)
  nset := uset.nset + 1

/-- The walk of `union_set_find_set_parent` from a cell to the top of its tree. -/
def unionSetTop (uset : UnionSet α) : ℕ → α → Except Abort α
  | 0, _ => Except.error Abort.diverges
  | fuel + 1, data =>
      match uset.cellMap data with
      | none => Except.error Abort.badAccess
      | some cell =>
          match cell.parent with
          | none => Except.ok data
          | some parent => unionSetTop uset fuel parent

/-- `union_set_find_set_parent`. -/
def unionSetFindSetParent (uset : UnionSet α) (data : α) : Except Abort α := do
  cAssert (uset.cellMap data).isSome
  unionSetTop uset uset.nset data

/-- `union_set_get_set`. -/
def unionSetGetSet (uset : UnionSet α) (data : α) : Except Abort ℕ := do
  let top ← unionSetFindSetParent uset data
  match uset.cellMap top with
  | some cell => Except.ok cell.set
  | none => Except.error Abort.badAccess

/-- `union_set_is_same_set`. -/
def unionSetIsSameSet (uset : UnionSet α) (d0 d1 : α) : Except Abort Bool := do
  let top0 ← unionSetFindSetParent uset d0
  let top1 ← unionSetFindSetParent uset d1
  Except.ok (decide (top0 = top1))

/-- `top` becomes the parent of `child`. -/
def unionSetAttach (uset : UnionSet α) (child top : α) (c t : UnionSetCell α) : UnionSet α :=
  { uset with
    cellMap := Function.update (Function.update uset.cellMap child
      (some { c with parent := some top })) top
      (some { t with height := max t.height (c.height + 1) }) }

/-- `union_set_merge_set`. -/
def unionSetMergeSet (uset : UnionSet α) (d0 d1 : α) : Except Abort (UnionSet α) := do
  let top0 ← unionSetFindSetParent uset d0
  let top1 ← unionSetFindSetParent uset d1
  cAssert (decide (top0 ≠ top1))
  match uset.cellMap top0, uset.cellMap top1 with
  | some c0, some c1 =>
      if c0.height < c1.height then Except.ok (unionSetAttach uset top0 top1 c0 c1)
      else Except.ok (unionSetAttach uset top1 top0 c1 c0)
  | _, _ => Except.error Abort.badAccess

/-! ### Tops of trees -/

namespace UnionSet

/-- `r` is the top of the tree of `a`. -/
inductive Top (uset : UnionSet α) : α → α → Prop
  | root {a : α} {c : UnionSetCell α} :
      uset.cellMap a = some c → c.parent = none → Top uset a a
  | up {a p r : α} {c : UnionSetCell α} :
      uset.cellMap a = some c → c.parent = some p → Top uset p r → Top uset a r

variable {uset : UnionSet α} {a b r s : α}

omit [DecidableEq α] in
theorem Top.top_root (h : Top uset a r) : ∃ c, uset.cellMap r = some c ∧ c.parent = none := by
  induction h with
  | root hc hp => exact ⟨_, hc, hp⟩
  | up _ _ _ ih => exact ih

omit [DecidableEq α] in
theorem Top.unique (h : Top uset a r) (h' : Top uset a s) : r = s := by
  induction h with
  | root hc hp =>
      cases h' with
      | root => rfl
      | up hc' hp' =>
          rw [hc, Option.some.injEq] at hc'
          rw [← hc', hp] at hp'
          cases hp'
  | up hc hp _ ih =>
      cases h' with
      | root hc' hp' =>
          rw [hc, Option.some.injEq] at hc'
          rw [← hc', hp] at hp'
          cases hp'
      | up hc' hp' h' =>
          rw [hc, Option.some.injEq] at hc'
          rw [← hc', hp, Option.some.injEq] at hp'
          exact ih (hp' ▸ h')

/-- Hanging one top below another moves exactly the items of its tree. -/
theorem Top.attach {child top : α} {c t : UnionSetCell α} (h : Top uset a r)
    (hc : uset.cellMap child = some c) (hcp : c.parent = none)
    (ht : uset.cellMap top = some t) (htp : t.parent = none) (hne : child ≠ top) :
    Top (unionSetAttach uset child top c t) a (if r = child then top else r) := by
  have htop : Top (unionSetAttach uset child top c t) top top :=
    Top.root (c := { t with height := max t.height (c.height + 1) })
      (by simp [unionSetAttach]) htp
  induction h with
  | @root a ca hca hpa =>
      by_cases hac : a = child
      · subst hac
        rw [if_pos rfl]
        refine Top.up (p := top) (c := { c with parent := some top }) ?_ rfl htop
        simp [unionSetAttach, hne]
      · rw [if_neg hac]
        by_cases hat : a = top
        · rw [hat]
          exact htop
        · refine Top.root (c := ca) ?_ hpa
          simp [unionSetAttach, hat, hac, hca]
  | @up a p r ca hca hpa _ ih =>
      have hac : a ≠ child := by
        rintro rfl
        rw [hc, Option.some.injEq] at hca
        rw [← hca, hcp] at hpa
        cases hpa
      have hat : a ≠ top := by
        rintro rfl
        rw [ht, Option.some.injEq] at hca
        rw [← hca, htp] at hpa
        cases hpa
      refine Top.up (c := ca) ?_ hpa ih
      simp [unionSetAttach, hat, hac, hca]

/-! ### What a union set represents -/

/-- The height recorded for an item. -/
def height (uset : UnionSet α) (a : α) : ℕ := (uset.cellMap a).elim 0 UnionSetCell.height

/-- `uset` holds the items `S`, and two of them are in the same set exactly when `G` connects
them. -/
structure Rep (uset : UnionSet α) (S : Finset α) (G : SimpleGraph α) : Prop where
  nset : uset.nset = S.card
  mem : ∀ a, a ∈ S ↔ ∃ c, uset.cellMap a = some c
  parent : ∀ a c p, uset.cellMap a = some c → c.parent = some p →
    p ∈ S ∧ uset.height a < uset.height p
  conn : ∀ a b r s, Top uset a r → Top uset b s → (r = s ↔ G.Reachable a b)

variable {S : Finset α} {G : SimpleGraph α}

omit [DecidableEq α] in
/-- Enough fuel is as many steps as there are higher cells. -/
theorem Rep.top_of_fuel (h : Rep uset S G) {fuel : ℕ} {a : α} (ha : a ∈ S)
    (hfuel : (S.filter fun x => uset.height a < uset.height x).card < fuel) :
    ∃ r, unionSetTop uset fuel a = Except.ok r ∧ Top uset a r := by
  induction fuel generalizing a with
  | zero => exact absurd hfuel (Nat.not_lt_zero _)
  | succ fuel ih =>
      obtain ⟨c, hc⟩ := (h.mem a).1 ha
      cases hp : c.parent with
      | none => exact ⟨a, by simp [unionSetTop, hc, hp], Top.root hc hp⟩
      | some p =>
          obtain ⟨hpS, hlt⟩ := h.parent a c p hc hp
          have hcard : (S.filter fun x => uset.height p < uset.height x).card <
              (S.filter fun x => uset.height a < uset.height x).card := by
            refine Finset.card_lt_card (Finset.ssubset_iff_of_subset ?_ |>.2 ⟨p, ?_, ?_⟩)
            · intro x hx
              rw [Finset.mem_filter] at hx ⊢
              exact ⟨hx.1, hlt.trans hx.2⟩
            · exact Finset.mem_filter.2 ⟨hpS, hlt⟩
            · simp
          obtain ⟨r, hr, htop⟩ := ih hpS (by omega)
          exact ⟨r, by simp [unionSetTop, hc, hp, hr], Top.up hc hp htop⟩

omit [DecidableEq α] in
/-- `union_set_find_set_parent` returns the top of the tree. -/
theorem Rep.findSetParent (h : Rep uset S G) (ha : a ∈ S) :
    ∃ r, unionSetFindSetParent uset a = Except.ok r ∧ Top uset a r := by
  have hcard : (S.filter fun x => uset.height a < uset.height x).card < uset.nset := by
    rw [h.nset]
    refine Finset.card_lt_card (Finset.ssubset_iff_of_subset (Finset.filter_subset _ _) |>.2 ?_)
    exact ⟨a, ha, by simp⟩
  obtain ⟨r, hr, htop⟩ := h.top_of_fuel ha hcard
  obtain ⟨c, hc⟩ := (h.mem a).1 ha
  exact ⟨r, by simp [unionSetFindSetParent, hc, hr, bind, Except.bind], htop⟩

omit [DecidableEq α] in
theorem rep_create : Rep (unionSetCreate : UnionSet α) ∅ ⊥ where
  nset := rfl
  mem := by simp [unionSetCreate]
  parent := by simp [unionSetCreate]
  conn := by
    intro a b r s h _
    cases h with
    | root hc => cases hc
    | up hc => cases hc

/-- **A new item is in a set of its own.** -/
theorem Rep.add_isolated (h : Rep uset S G) (ha : a ∉ S) (hG : ∀ b, ¬ G.Adj a b) :
    Rep (unionSetAdd uset a) (insert a S) G := by
  have hcell : ∀ x, x ≠ a → (unionSetAdd uset a).cellMap x = uset.cellMap x := fun x hx => by
    simp [unionSetAdd, hx]
  have hnew : (unionSetAdd uset a).cellMap a = some ⟨none, uset.nset, 0⟩ := by simp [unionSetAdd]
  have hheight : ∀ x, x ≠ a → (unionSetAdd uset a).height x = uset.height x := fun x hx => by
    rw [height, hcell x hx, height]
  have hmem : ∀ x c, uset.cellMap x = some c → x ≠ a := by
    rintro x c hc rfl
    exact ha ((h.mem x).2 ⟨c, hc⟩)
  have hparent : ∀ x c p, (unionSetAdd uset a).cellMap x = some c → c.parent = some p →
      x ≠ a ∧ uset.cellMap x = some c := by
    intro x c p hc hp
    have hx : x ≠ a := by
      rintro rfl
      rw [hnew, Option.some.injEq] at hc
      rw [← hc] at hp
      cases hp
    exact ⟨hx, by rw [← hc, hcell x hx]⟩
  -- the tree of an old item is as before, and that of the new one is itself
  have htop : ∀ x r, Top (unionSetAdd uset a) x r → (x = a ∧ r = a) ∨ Top uset x r := by
    intro x r hx
    induction hx with
    | @root x c hc hp =>
        by_cases hxa : x = a
        · exact Or.inl ⟨hxa, hxa⟩
        · exact Or.inr (Top.root (by rw [← hc, hcell x hxa]) hp)
    | @up x p r c hc hp _ ih =>
        obtain ⟨_, hc'⟩ := hparent x c p hc hp
        have hpS := (h.parent x c p hc' hp).1
        rcases ih with ⟨rfl, _⟩ | ih
        · exact absurd hpS ha
        · exact Or.inr (Top.up hc' hp ih)
  refine ⟨?_, ?_, ?_, ?_⟩
  · rw [Finset.card_insert_of_notMem ha, ← h.nset]
    rfl
  · intro x
    by_cases hx : x = a
    · simp [hx, hnew]
    · rw [Finset.mem_insert, hcell x hx, ← h.mem]
      simp [hx]
  · intro x c p hc hp
    obtain ⟨hx, hc'⟩ := hparent x c p hc hp
    obtain ⟨hpS, hlt⟩ := h.parent x c p hc' hp
    have hpa : p ≠ a := fun hpa => ha (hpa ▸ hpS)
    rw [hheight x hx, hheight p hpa]
    exact ⟨Finset.mem_insert_of_mem hpS, hlt⟩
  · intro x y r s hx hy
    have halone : ∀ y, G.Reachable a y → y = a := fun y hy =>
      LinkGraph.mem_of_reachable (S := {a}) (fun u v hu huv => absurd (hu ▸ huv) (hG v)) rfl hy
    have hmemTop : ∀ x r, Top uset x r → x ∈ S ∧ r ∈ S := by
      intro x r hxr
      obtain ⟨c, hc, _⟩ := hxr.top_root
      refine ⟨?_, (h.mem r).2 ⟨c, hc⟩⟩
      cases hxr with
      | root hc => exact (h.mem x).2 ⟨_, hc⟩
      | up hc => exact (h.mem x).2 ⟨_, hc⟩
    rcases htop x r hx with ⟨rfl, rfl⟩ | hx'
    · rcases htop y s hy with ⟨rfl, rfl⟩ | hy'
      · exact iff_of_true rfl (SimpleGraph.Reachable.refl _)
      · obtain ⟨hyS, hsS⟩ := hmemTop y s hy'
        exact iff_of_false (fun he => ha (he ▸ hsS)) (fun he => ha (halone y he ▸ hyS))
    · rcases htop y s hy with ⟨rfl, rfl⟩ | hy'
      · obtain ⟨hxS, hrS⟩ := hmemTop x r hx'
        exact iff_of_false (fun he => ha (he ▸ hrS)) (fun he => ha (halone x he.symm ▸ hxS))
      · exact h.conn x y r s hx' hy'

/-- Before any merge, a new item is in a set of its own. -/
theorem Rep.add (h : Rep uset S ⊥) (ha : a ∉ S) : Rep (unionSetAdd uset a) (insert a S) ⊥ :=
  h.add_isolated ha fun _ => id

/-- **`union_set_is_same_set` decides connectivity.** -/
theorem Rep.isSameSet (h : Rep uset S G) (ha : a ∈ S) (hb : b ∈ S) :
    ∃ same, unionSetIsSameSet uset a b = Except.ok same ∧ (same = true ↔ G.Reachable a b) := by
  obtain ⟨r, hr, htr⟩ := h.findSetParent ha
  obtain ⟨s, hs, hts⟩ := h.findSetParent hb
  refine ⟨decide (r = s), by simp [unionSetIsSameSet, hr, hs, bind, Except.bind], ?_⟩
  rw [decide_eq_true_iff, h.conn a b r s htr hts]

/-- Hanging the top of one item below the top of another connects the two items. -/
theorem Rep.attach (h : Rep uset S G) {child top : α} {c t : UnionSetCell α}
    (hac : Top uset a child) (hbt : Top uset b top) (hc : uset.cellMap child = some c)
    (ht : uset.cellMap top = some t) (hne : child ≠ top) :
    Rep (unionSetAttach uset child top c t) S (G ⊔ SimpleGraph.edge a b) := by
  have hcp : c.parent = none := by
    obtain ⟨c', hc', hp⟩ := hac.top_root
    rw [hc, Option.some.injEq] at hc'
    rw [hc', hp]
  have htp : t.parent = none := by
    obtain ⟨t', ht', hp⟩ := hbt.top_root
    rw [ht, Option.some.injEq] at ht'
    rw [ht', hp]
  have hcell : ∀ x, x ≠ child → x ≠ top →
      (unionSetAttach uset child top c t).cellMap x = uset.cellMap x := by
    intro x hx hx'
    simp [unionSetAttach, hx, hx']
  have hcellc : (unionSetAttach uset child top c t).cellMap child =
      some { c with parent := some top } := by
    simp [unionSetAttach, hne]
  have hcellt : (unionSetAttach uset child top c t).cellMap top =
      some { t with height := max t.height (c.height + 1) } := by
    simp [unionSetAttach]
  have hheight : ∀ x, uset.height x ≤ (unionSetAttach uset child top c t).height x := by
    intro x
    by_cases hxt : x = top
    · subst hxt
      rw [height, height, hcellt, ht]
      exact le_max_left _ _
    · by_cases hxc : x = child
      · subst hxc
        rw [height, height, hcellc, hc]
        exact le_rfl
      · rw [height, height, hcell x hxc hxt]
  have hmem : ∀ x, x ∈ S ↔ ∃ cx, (unionSetAttach uset child top c t).cellMap x = some cx := by
    intro x
    by_cases hxt : x = top
    · subst hxt
      exact iff_of_true ((h.mem x).2 ⟨t, ht⟩) ⟨_, hcellt⟩
    · by_cases hxc : x = child
      · subst hxc
        exact iff_of_true ((h.mem x).2 ⟨c, hc⟩) ⟨_, hcellc⟩
      · rw [h.mem, hcell x hxc hxt]
  refine ⟨h.nset, hmem, ?_, ?_⟩
  · intro x cx p hx hp
    by_cases hxt : x = top
    · subst hxt
      rw [hcellt, Option.some.injEq] at hx
      rw [← hx] at hp
      simp [htp] at hp
    by_cases hxc : x = child
    · subst hxc
      rw [hcellc, Option.some.injEq] at hx
      rw [← hx] at hp
      simp only [Option.some.injEq] at hp
      subst hp
      refine ⟨(h.mem _).2 ⟨t, ht⟩, ?_⟩
      rw [height, height, hcellc, hcellt]
      exact lt_of_lt_of_le (Nat.lt_succ_self _) (le_max_right _ _)
    · rw [hcell x hxc hxt] at hx
      obtain ⟨hpS, hlt⟩ := h.parent x cx p hx hp
      refine ⟨hpS, lt_of_lt_of_le ?_ (hheight p)⟩
      rwa [height, hcell x hxc hxt]
  · intro x y r' s' hx' hy'
    have hexists : ∀ x r', Top (unionSetAttach uset child top c t) x r' → ∃ r, Top uset x r := by
      intro x r' hx'
      have hxS : x ∈ S := by
        cases hx' with
        | root hc => exact (hmem x).2 ⟨_, hc⟩
        | up hc => exact (hmem x).2 ⟨_, hc⟩
      obtain ⟨r, _, hr⟩ := h.findSetParent hxS
      exact ⟨r, hr⟩
    obtain ⟨r, hx⟩ := hexists x r' hx'
    obtain ⟨s, hy⟩ := hexists y s' hy'
    have hr' := (hx.attach hc hcp ht htp hne).unique hx'
    have hs' := (hy.attach hc hcp ht htp hne).unique hy'
    rw [← hr', ← hs', LinkGraph.reachable_sup_edge, ← h.conn x y r s hx hy,
      ← h.conn x a r child hx hac, ← h.conn b y top s hbt hy, ← h.conn x b r top hx hbt,
      ← h.conn a y child s hac hy]
    by_cases hrc : r = child <;> by_cases hsc : s = child <;> simp only [hrc, hsc, if_true, if_false]
    · simp
    · constructor
      · exact fun he => Or.inr (Or.inl ⟨trivial, he⟩)
      · rintro (he | ⟨_, he⟩ | ⟨_, he⟩)
        · exact absurd he.symm hsc
        · exact he
        · exact absurd he.symm hsc
    · constructor
      · exact fun he => Or.inr (Or.inr ⟨he, trivial⟩)
      · rintro (he | ⟨he, _⟩ | ⟨he, _⟩)
        · exact he.elim
        · exact he.elim
        · exact he
    · constructor
      · exact Or.inl
      · rintro (he | ⟨he, _⟩ | ⟨_, he⟩)
        · exact he
        · exact he.elim
        · exact absurd he.symm hsc

/-- **`union_set_merge_set` connects its two items.** -/
theorem Rep.mergeSet (h : Rep uset S G) (ha : a ∈ S) (hb : b ∈ S) (hab : ¬ G.Reachable a b) :
    ∃ uset', unionSetMergeSet uset a b = Except.ok uset' ∧
      Rep uset' S (G ⊔ SimpleGraph.edge a b) := by
  obtain ⟨r, hr, htr⟩ := h.findSetParent ha
  obtain ⟨s, hs, hts⟩ := h.findSetParent hb
  have hne : r ≠ s := fun he => hab ((h.conn a b r s htr hts).1 he)
  obtain ⟨c0, hc0, _⟩ := htr.top_root
  obtain ⟨c1, hc1, _⟩ := hts.top_root
  by_cases hlt : c0.height < c1.height
  · refine ⟨unionSetAttach uset r s c0 c1, ?_, h.attach htr hts hc0 hc1 hne⟩
    simp [unionSetMergeSet, hr, hs, hne, hc0, hc1, hlt, bind, Except.bind]
  · refine ⟨unionSetAttach uset s r c1 c0, ?_, ?_⟩
    · simp [unionSetMergeSet, hr, hs, hne, hc0, hc1, hlt, bind, Except.bind]
    · rw [SimpleGraph.edge_comm]
      exact h.attach hts htr hc1 hc0 hne.symm

end UnionSet

end DLFree

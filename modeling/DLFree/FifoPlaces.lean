/-
**Items that move along routes of queues.**

Every item has a route, which is a list of places.  An item enters at the first
place of its route; from then on the first item of a place may move to the next place of its route,
where it becomes the last one, if its route visits no place twice.  Each place is a queue that any
number of routes share.

Main definitions:

* `Placed` — the items that have entered, and the items in each place;
* `PlaceStep` — an item enters or moves on;
* `PlaceInv` — every item that has entered is in one place of its route, once, and the items of one
  route are in the order in which they have entered;
* `work` — how many places the items have before them.

Main results:

* `PlaceStep.inv` — every step keeps the invariant;
* `PlaceInv.arrived` — **the items of one route arrive in the order in which they have entered**;
* `PlaceInv.next_arrival` — the item that arrives next is the one that has entered next;
* `work_lt_of_moves` — **while no item enters, every step lowers the work**.
-/

import Mathlib.Algebra.Order.BigOperators.Group.List
import Mathlib.Algebra.Order.Ring.Nat
import Mathlib.Data.List.Nodup
import Mathlib.Data.List.Infix
import Mathlib.Logic.Relation

set_option relaxedAutoImplicit false
set_option autoImplicit false

namespace FifoPlaces

/-- The items that have entered, in this order, and the items in each place, the first one first. -/
structure Placed (π ι : Type*) where
  entered : List ι
  held : π → List ι

variable {π ι : Type*} [DecidableEq π]

/-- The item `i` moves from the place `p`, where `rest` stays, to the place `q`. -/
def moved (held : π → List ι) (p q : π) (i : ι) (rest : List ι) : π → List ι := fun x =>
  if x = p then rest else if x = q then held q ++ [i] else held x

/-- The item `i` comes to the place `p`. -/
def added (held : π → List ι) (p : π) (i : ι) : π → List ι := fun x =>
  if x = p then held p ++ [i] else held x

/-- Nothing has entered. -/
def placedStart : Placed π ι := ⟨[], fun _ => []⟩

/-- A step of an item. -/
inductive PlaceStep (route : ι → List π) (s : Placed π ι) : Placed π ι → Prop
  /-- a new item enters -/
  | enter {i : ι} {p : π} (hnew : i ∉ s.entered) (hfirst : (route i).head? = some p) :
      PlaceStep route s ⟨s.entered ++ [i], added s.held p i⟩
  /-- the first item of a place moves on -/
  | move {i : ι} {p q : π} {rest : List ι} (hroute : (route i).Nodup)
      (hheld : s.held p = i :: rest) (hnext : [p, q] <:+: route i) :
      PlaceStep route s ⟨s.entered, moved s.held p q i rest⟩

/-- What holds in every state: an item that has entered is in one place of its route, once, and the
items of one route are in the order in which they have entered, the first ones farthest. -/
structure PlaceInv (route : ι → List π) (s : Placed π ι) : Prop where
  entered : ∀ i, i ∈ s.entered ↔ ∃ p, i ∈ s.held p
  unique : ∀ i p q, i ∈ s.held p → i ∈ s.held q → p = q
  once : ∀ p, (s.held p).Nodup
  onRoute : ∀ i p, i ∈ s.held p → p ∈ route i
  order : ∀ (r : List π) (K : ι → Bool), r.Nodup → (∀ i, K i = true → route i = r) →
    s.entered.filter K = r.reverse.flatMap fun p => (s.held p).filter K

section Inv

variable {route : ι → List π} {s s' : Placed π ι} {held : π → List ι} {i j : ι} {p q x : π}
  {rest : List ι} {K : ι → Bool}

/-! ### Places after a step -/

@[simp] theorem moved_from : moved held p q i rest p = rest := if_pos rfl

theorem moved_to (h : p ≠ q) : moved held p q i rest q = held q ++ [i] := by
  simp [moved, h.symm]

theorem moved_other (hp : x ≠ p) (hq : x ≠ q) : moved held p q i rest x = held x := by
  simp [moved, hp, hq]

/-- An item that moves to an empty place is alone there. -/
theorem moved_nil (h : p ≠ q) (hq : held q = []) : moved held p q i rest q = [i] := by
  rw [moved_to h, hq]
  rfl

@[simp] theorem added_self : added held p i p = held p ++ [i] := if_pos rfl

theorem added_other (h : x ≠ p) : added held p i x = held x := if_neg h

theorem mem_added : j ∈ added held p i x ↔ j ∈ held x ∨ (x = p ∧ j = i) := by
  by_cases hx : x = p
  · subst hx
    simp
  · simp [added_other hx, hx]

/-- Moving an item takes it away from one place and puts it into another. -/
theorem mem_moved (hne : p ≠ q) (hheld : held p = i :: rest) (hnot : i ∉ rest) :
    j ∈ moved held p q i rest x ↔ (j ∈ held x ∧ ¬ (x = p ∧ j = i)) ∨ (x = q ∧ j = i) := by
  by_cases hp : x = p
  · subst hp
    rw [moved_from, hheld, List.mem_cons]
    constructor
    · exact fun hj => Or.inl ⟨Or.inr hj, fun he => hnot (he.2 ▸ hj)⟩
    · rintro (⟨rfl | hj, hj'⟩ | ⟨he, _⟩)
      · exact absurd ⟨rfl, rfl⟩ hj'
      · exact hj
      · exact absurd he hne
  · by_cases hq : x = q
    · subst hq
      rw [moved_to hne]
      simp [hp]
    · rw [moved_other hp hq]
      simp [hp, hq]

omit [DecidableEq π] in
theorem ne_of_next (hroute : (route i).Nodup) (h : [p, q] <:+: route i) : p ≠ q := by
  have hnodup := hroute.sublist h.sublist
  simp only [List.nodup_cons, List.mem_singleton] at hnodup
  exact hnodup.1

/-! ### The order -/

omit [DecidableEq π] in
/-- Where the items of a class do not change, their order does not. -/
theorem flatMap_filter_congr {held' : π → List ι} {r : List π}
    (h : ∀ p ∈ r, (held' p).filter K = (held p).filter K) :
    (r.flatMap fun p => (held' p).filter K) = r.flatMap fun p => (held p).filter K :=
  List.flatMap_congr h

/-- An item of another class may come to a place. -/
theorem filter_added (hK : K i = false) : (added held p i x).filter K = (held x).filter K := by
  by_cases hx : x = p
  · subst hx
    simp [hK]
  · rw [added_other hx]

/-- An item of another class may move. -/
theorem filter_moved (hne : p ≠ q) (hheld : held p = i :: rest) (hK : K i = false) :
    (moved held p q i rest x).filter K = (held x).filter K := by
  by_cases hp : x = p
  · subst hp
    rw [moved_from, hheld]
    simp [hK]
  · by_cases hq : x = q
    · subst hq
      rw [moved_to hne]
      simp [hK]
    · rw [moved_other hp hq]

/-- An item that enters comes behind those of its route. -/
theorem order_added {r : List π} (hr : r.Nodup) (hfirst : r.head? = some p) (hK : K i = true) :
    (r.reverse.flatMap fun x => (added held p i x).filter K) =
      (r.reverse.flatMap fun x => (held x).filter K) ++ [i] := by
  obtain ⟨r, rfl⟩ := List.head?_eq_some_iff.1 hfirst
  have hp := (List.nodup_cons.1 hr).1
  have hrest : (r.reverse.flatMap fun x => (added held p i x).filter K) =
      r.reverse.flatMap fun x => (held x).filter K := by
    refine flatMap_filter_congr fun x hx => ?_
    have hx := List.mem_reverse.1 hx
    rw [added_other fun he => hp (by rw [← he]; exact hx)]
  rw [List.reverse_cons, List.flatMap_append, List.flatMap_append, hrest]
  simp [hK]

/-- An item that moves along its route stays where it is in the order. -/
theorem order_moved {r : List π} (hr : r.Nodup) (hnext : [p, q] <:+: r)
    (hheld : held p = i :: rest) (hK : K i = true) :
    (r.reverse.flatMap fun x => (moved held p q i rest x).filter K) =
      r.reverse.flatMap fun x => (held x).filter K := by
  obtain ⟨a, b, rfl⟩ := hnext
  have hne : p ≠ q := by
    have hpq := hr.sublist
      ((List.sublist_append_right a [p, q]).trans (List.sublist_append_left _ b))
    simp only [List.nodup_cons, List.mem_singleton] at hpq
    exact hpq.1
  have hother : ∀ x ∈ a ++ b, x ≠ p ∧ x ≠ q := by
    intro x hx
    have hperm : (a ++ [p, q] ++ b).Perm ([p, q] ++ (a ++ b)) := by
      rw [List.append_assoc]
      exact List.perm_append_comm_assoc a [p, q] b
    have hnodup := (List.nodup_append.1 (hperm.nodup_iff.1 hr)).2.2
    exact ⟨fun he => hnodup p (by simp) x hx he.symm, fun he => hnodup q (by simp) x hx he.symm⟩
  have ha : ((a.reverse).flatMap fun x => (moved held p q i rest x).filter K) =
      a.reverse.flatMap fun x => (held x).filter K := by
    refine flatMap_filter_congr fun x hx => ?_
    obtain ⟨hp, hq⟩ := hother x (List.mem_append_left _ (List.mem_reverse.1 hx))
    rw [moved_other hp hq]
  have hb : ((b.reverse).flatMap fun x => (moved held p q i rest x).filter K) =
      b.reverse.flatMap fun x => (held x).filter K := by
    refine flatMap_filter_congr fun x hx => ?_
    obtain ⟨hp, hq⟩ := hother x (List.mem_append_right _ (List.mem_reverse.1 hx))
    rw [moved_other hp hq]
  have hrev : (a ++ [p, q] ++ b).reverse = b.reverse ++ ([q, p] ++ a.reverse) := by simp
  rw [hrev, List.flatMap_append, List.flatMap_append, List.flatMap_append, List.flatMap_append,
    ha, hb]
  simp [moved_to hne, hheld, hK]

/-! ### The invariant -/

omit [DecidableEq π] in
theorem placeInv_start : PlaceInv route (placedStart : Placed π ι) where
  entered _ := by simp [placedStart]
  unique _ _ _ h := by cases h
  once _ := List.nodup_nil
  onRoute _ _ h := by cases h
  order _ _ _ _ := by simp [placedStart]

/-- A new item comes to the first place of its route. -/
theorem PlaceInv.enter (hinv : PlaceInv route s) (hnew : i ∉ s.entered)
    (hfirst : (route i).head? = some p) :
    PlaceInv route ⟨s.entered ++ [i], added s.held p i⟩ := by
  have hnot : ∀ x, i ∉ s.held x := fun x hx => hnew ((hinv.entered i).2 ⟨x, hx⟩)
  refine ⟨fun j => ?_, fun j x y hx hy => ?_, fun x => ?_, fun j x hx => ?_, fun r K hr hK => ?_⟩
  · simp only [List.mem_append, List.mem_singleton, mem_added, exists_or, hinv.entered j]
    exact or_congr Iff.rfl ⟨fun h => ⟨p, rfl, h⟩, fun ⟨_, _, h⟩ => h⟩
  · rcases mem_added.1 hx with hx | ⟨hxp, hj⟩ <;> rcases mem_added.1 hy with hy | ⟨hyp, hj'⟩
    · exact hinv.unique j x y hx hy
    · exact absurd (hj' ▸ hx) (hnot x)
    · exact absurd (hj ▸ hy) (hnot y)
    · exact hxp.trans hyp.symm
  · dsimp only
    by_cases hx : x = p
    · subst hx
      rw [added_self]
      exact (hinv.once x).append (List.nodup_singleton i) (by simpa using hnot x)
    · rw [added_other hx]
      exact hinv.once x
  · rcases mem_added.1 hx with hx | ⟨rfl, rfl⟩
    · exact hinv.onRoute j x hx
    · exact List.mem_of_mem_head? hfirst
  · rw [List.filter_append, hinv.order r K hr hK]
    cases hi : K i with
    | true =>
        rw [order_added hr (hK i hi ▸ hfirst) hi]
        simp [hi]
    | false =>
        rw [flatMap_filter_congr fun x _ => filter_added hi]
        simp [hi]

/-- The first item of a place moves to the next place of its route. -/
theorem PlaceInv.move (hinv : PlaceInv route s) (hroute : (route i).Nodup)
    (hheld : s.held p = i :: rest) (hnext : [p, q] <:+: route i) :
    PlaceInv route ⟨s.entered, moved s.held p q i rest⟩ := by
  have hne := ne_of_next hroute hnext
  have hnodup := hinv.once p
  rw [hheld, List.nodup_cons] at hnodup
  have hi : i ∈ s.held p := by
    rw [hheld]
    exact List.mem_cons_self
  have hmem := fun {j x} => @mem_moved _ _ _ s.held i j p q x rest hne hheld hnodup.1
  refine ⟨fun j => ?_, fun j x y hx hy => ?_, fun x => ?_, fun j x hx => ?_, fun r K hr hK => ?_⟩
  · rw [hinv.entered j]
    constructor
    · rintro ⟨x, hx⟩
      by_cases hj : j = i
      · exact ⟨q, hmem.2 (Or.inr ⟨rfl, hj⟩)⟩
      · exact ⟨x, hmem.2 (Or.inl ⟨hx, fun he => hj he.2⟩)⟩
    · rintro ⟨x, hx⟩
      rcases hmem.1 hx with ⟨hx, _⟩ | ⟨_, rfl⟩
      · exact ⟨x, hx⟩
      · exact ⟨p, hi⟩
  · rcases hmem.1 hx with ⟨hjx, hne'⟩ | ⟨hxq, hj⟩ <;> rcases hmem.1 hy with ⟨hjy, hne'⟩ | ⟨hyq, hj⟩
    · exact hinv.unique j x y hjx hjy
    · exact absurd ⟨hinv.unique i x p (hj ▸ hjx) hi, hj⟩ hne'
    · exact absurd ⟨hinv.unique i y p (hj ▸ hjy) hi, hj⟩ hne'
    · exact hxq.trans hyq.symm
  · dsimp only
    by_cases hp : x = p
    · subst hp
      rw [moved_from]
      exact hnodup.2
    · by_cases hq : x = q
      · subst hq
        rw [moved_to hne]
        refine (hinv.once x).append (List.nodup_singleton i) ?_
        simpa using fun hx => hne (hinv.unique i p x hi hx)
      · rw [moved_other hp hq]
        exact hinv.once x
  · rcases hmem.1 hx with ⟨hx, _⟩ | ⟨rfl, rfl⟩
    · exact hinv.onRoute j x hx
    · exact hnext.subset (by simp)
  · rw [hinv.order r K hr hK]
    cases hKi : K i with
    | true => exact (order_moved hr (hK i hKi ▸ hnext) hheld hKi).symm
    | false => exact (flatMap_filter_congr fun x _ => filter_moved hne hheld hKi).symm

/-- **Every step keeps the invariant.** -/
theorem PlaceStep.inv (h : PlaceStep route s s') (hinv : PlaceInv route s) : PlaceInv route s' := by
  cases h with
  | enter hnew hfirst => exact hinv.enter hnew hfirst
  | move hroute hheld hnext => exact hinv.move hroute hheld hnext

omit [DecidableEq π] in
/-- **The items of one route arrive in the order in which they have entered**: those that are in the
last place have entered before the others. -/
theorem PlaceInv.arrived (hinv : PlaceInv route s) {r : List π} (hr : r.Nodup)
    (hK : ∀ i, K i = true → route i = r) (hlast : r.getLast? = some p) :
    (s.held p).filter K <+: s.entered.filter K := by
  obtain ⟨r, rfl⟩ := List.getLast?_eq_some_iff.1 hlast
  rw [hinv.order _ K hr hK, List.reverse_append, List.flatMap_append]
  simp

omit [DecidableEq π] in
/-- **The item that arrives next is the one that has entered next**: the first one of the last place
but one comes behind those that have arrived. -/
theorem PlaceInv.next_arrival (hinv : PlaceInv route s) {r : List π} (hr : r.Nodup)
    (hK : ∀ i, K i = true → route i = r) (hends : [p, q] <:+ r) (hheld : s.held p = i :: rest)
    (hi : K i = true) : ∃ more, s.entered.filter K = (s.held q).filter K ++ i :: more := by
  obtain ⟨r, rfl⟩ := hends
  rw [hinv.order _ K hr hK, List.reverse_append, List.flatMap_append]
  refine ⟨rest.filter K ++ r.reverse.flatMap fun p => (s.held p).filter K, ?_⟩
  simp [hheld, hi]

end Inv

/-! ### The places ahead -/

section Work

variable [DecidableEq ι] {route : ι → List π} {s s' : Placed π ι} {held held' : π → List ι}
  {i j : ι} {p q : π} {a b : List π} {rest : List ι}

/-- How many places the item `i` has before it, with the one that it is in. -/
def ahead (route : ι → List π) (held : π → List ι) (i : ι) : ℕ :=
  ((route i).dropWhile fun p => i ∉ held p).length

/-- How many places the items have before them. -/
def work (route : ι → List π) (s : Placed π ι) : ℕ := (s.entered.map (ahead route s.held)).sum

omit [DecidableEq π] in
theorem ahead_congr (h : ∀ p, j ∈ held' p ↔ j ∈ held p) :
    ahead route held' j = ahead route held j := by
  unfold ahead
  simp only [h]

omit [DecidableEq π] in
/-- The places before an item are those of its route from its place on. -/
theorem ahead_eq (hroute : route i = a ++ p :: b) (hnot : p ∉ a) (hp : ∀ x, i ∈ held x ↔ x = p) :
    ahead route held i = b.length + 1 := by
  have ha : ∀ x ∈ a, decide (i ∉ held x) = true := fun x hx =>
    decide_eq_true fun hi => hnot ((hp x).1 hi ▸ hx)
  have hi : i ∈ held p := (hp p).2 rfl
  unfold ahead
  rw [hroute, List.dropWhile_append_of_pos ha, List.dropWhile_cons_of_neg (by simpa using hi),
    List.length_cons]

/-- An item that moves on has fewer places before it. -/
theorem PlaceInv.ahead_moved (hinv : PlaceInv route s) (hroute : (route i).Nodup)
    (hheld : s.held p = i :: rest) (hnext : [p, q] <:+: route i) :
    ahead route (moved s.held p q i rest) i < ahead route s.held i := by
  have hne := ne_of_next hroute hnext
  have hnot : i ∉ rest := by
    have hnodup := hinv.once p
    rw [hheld] at hnodup
    exact (List.nodup_cons.1 hnodup).1
  have hi : i ∈ s.held p := by
    rw [hheld]
    exact List.mem_cons_self
  obtain ⟨a, b, heq⟩ := hnext
  have hsplit : route i = a ++ p :: q :: b := by
    rw [← heq]
    simp
  have hsplit' : route i = (a ++ [p]) ++ q :: b := by
    rw [← heq]
    simp
  rw [hsplit] at hroute
  have hdisjoint := List.disjoint_of_nodup_append hroute
  have hpa : p ∉ a := fun hp => hdisjoint hp List.mem_cons_self
  have hqa : q ∉ a ++ [p] := by
    intro hq
    rcases List.mem_append.1 hq with hq | hq
    · exact hdisjoint hq (List.mem_cons_of_mem _ List.mem_cons_self)
    · exact hne (List.mem_singleton.1 hq).symm
  have hbefore : ahead route s.held i = (q :: b).length + 1 :=
    ahead_eq hsplit hpa fun x => ⟨fun hx => hinv.unique i x p hx hi, fun hx => hx ▸ hi⟩
  have hafter : ahead route (moved s.held p q i rest) i = b.length + 1 := by
    refine ahead_eq hsplit' hqa fun x => ?_
    rw [mem_moved hne hheld hnot]
    constructor
    · rintro (⟨hx, hne'⟩ | ⟨hx, _⟩)
      · exact absurd ⟨hinv.unique i x p hx hi, rfl⟩ hne'
      · exact hx
    · exact fun hx => Or.inr ⟨hx, rfl⟩
  rw [hbefore, hafter, List.length_cons]
  omega

/-- **A step lowers the work** where no item enters. -/
theorem PlaceStep.work_lt (h : PlaceStep route s s') (hinv : PlaceInv route s)
    (hentered : s'.entered = s.entered) : work route s' < work route s := by
  cases h with
  | enter _ _ =>
      have hlen := congrArg List.length hentered
      simp at hlen
  | @move i p q rest hroute hheld hnext =>
      have hnot : i ∉ rest := by
        have hnodup := hinv.once p
        rw [hheld] at hnodup
        exact (List.nodup_cons.1 hnodup).1
      have hi : i ∈ s.entered := (hinv.entered i).2 ⟨p, by rw [hheld]; exact List.mem_cons_self⟩
      have hlt := hinv.ahead_moved hroute hheld hnext
      refine List.sum_lt_sum _ _ (fun j _ => ?_) ⟨i, hi, hlt⟩
      by_cases hj : j = i
      · rw [hj]
        exact hlt.le
      · refine (ahead_congr fun x => ?_).le
        rw [mem_moved (ne_of_next hroute hnext) hheld hnot]
        simp [hj]

omit [DecidableEq ι] in
theorem PlaceStep.entered_prefix (h : PlaceStep route s s') : s.entered <+: s'.entered := by
  cases h with
  | enter _ _ => exact List.prefix_append _ _
  | move _ _ _ => exact List.prefix_rfl

omit [DecidableEq ι] in
theorem entered_prefix_of_moves (h : Relation.ReflTransGen (PlaceStep route) s s') :
    s.entered <+: s'.entered := by
  induction h with
  | refl => exact List.prefix_rfl
  | tail _ hstep ih => exact ih.trans hstep.entered_prefix

omit [DecidableEq ι] in
theorem inv_of_moves (h : Relation.ReflTransGen (PlaceStep route) s s')
    (hinv : PlaceInv route s) : PlaceInv route s' := by
  induction h with
  | refl => exact hinv
  | tail _ hstep ih => exact hstep.inv ih

/-- **While no item enters, every step lowers the work.** -/
theorem work_lt_of_moves (h : Relation.TransGen (PlaceStep route) s s') (hinv : PlaceInv route s)
    (hentered : s'.entered = s.entered) : work route s' < work route s := by
  induction h with
  | single hstep => exact hstep.work_lt hinv hentered
  | @tail t s' hmoves hstep ih =>
      have hpre := entered_prefix_of_moves hmoves.to_reflTransGen
      have hpost := hstep.entered_prefix
      have ht : t.entered = s.entered :=
        (hpre.eq_of_length_le (hentered ▸ hpost.length_le)).symm
      have hlt := hstep.work_lt (inv_of_moves hmoves.to_reflTransGen hinv) (hentered.trans ht.symm)
      exact hlt.trans (ih ht)

end Work

end FifoPlaces

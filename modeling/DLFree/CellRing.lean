/-
**Rings of doubly linked cells.**

A ring has a distinguished cell, its head; following the forward pointers from the head visits the
other cells in order and returns to the head, and following the backward pointers visits them in the
opposite order.  Putting a cell between two neighbours, or taking one out from between them, changes
one forward and one backward pointer of the neighbours.

One lemma about a path with a cell more or less serves both directions, because the reverse of a
ring is a ring of the backward pointers.

Main definitions:

* `CellRing.Path` — following a pointer function visits given cells and then comes to a cell;
* `CellRing.Ring` — a ring with given cells after its head.

Main results:

* `CellRing.Path.insert`, `CellRing.Path.remove` — a path with a cell more or less;
* `CellRing.Ring.insert`, `CellRing.Ring.remove` — **a ring with a cell more or less**.
-/

import Mathlib.Data.List.Basic
import Mathlib.Data.List.Nodup

set_option relaxedAutoImplicit false
set_option autoImplicit false

namespace CellRing

variable {κ : Type*}

/-! ### Paths -/

/-- From the cell `a`, following `next` visits the cells `as` and then comes to `b`. -/
def Path (next : κ → Option κ) : κ → List κ → κ → Prop
  | a, [], b => next a = some b
  | a, c :: cs, b => next a = some c ∧ Path next c cs b

variable {next next' prev prev' : κ → Option κ} {a b c p q : κ} {as bs l₁ l₂ : List κ}

@[simp] theorem path_nil : Path next a [] b ↔ next a = some b := Iff.rfl

@[simp] theorem path_cons : Path next a (c :: as) b ↔ next a = some c ∧ Path next c as b :=
  Iff.rfl

theorem path_append : Path next a (as ++ c :: bs) b ↔ Path next a as c ∧ Path next c bs b := by
  induction as generalizing a with
  | nil => rfl
  | cons d as ih => rw [List.cons_append, path_cons, ih, path_cons, and_assoc]

/-- Where a path goes first. -/
theorem Path.next_eq (h : Path next a as b) : next a = (as ++ [b]).head? := by
  cases as with
  | nil => exact h
  | cons c as => exact h.1

/-- Where the last cell of a path points. -/
theorem Path.next_last (h : Path next a as b) (hp : (a :: as).getLast? = some p) :
    next p = some b := by
  induction as generalizing a with
  | nil =>
      obtain rfl : a = p := by simpa using hp
      exact h
  | cons c as ih =>
      rw [List.getLast?_cons_cons] at hp
      exact ih h.2 hp

/-- The pointers of other cells do not matter. -/
theorem Path.congr (h : Path next a as b) (heq : ∀ x ∈ a :: as, next' x = next x) :
    Path next' a as b := by
  induction as generalizing a with
  | nil => exact (heq a List.mem_cons_self).trans h
  | cons c as ih =>
      exact ⟨(heq a List.mem_cons_self).trans h.1,
        ih h.2 fun x hx => heq x (List.mem_cons_of_mem _ hx)⟩

/-- A path whose last cell points elsewhere ends elsewhere. -/
theorem Path.redirect (h : Path next a as b) (hnodup : (a :: as).Nodup)
    (hp : (a :: as).getLast? = some p) (heq : ∀ x ∈ a :: as, x ≠ p → next' x = next x)
    (hc : next' p = some c) : Path next' a as c := by
  induction as generalizing a with
  | nil =>
      obtain rfl : a = p := by simpa using hp
      exact hc
  | cons d as ih =>
      rw [List.getLast?_cons_cons] at hp
      have hap : a ≠ p := by
        rintro rfl
        exact (List.nodup_cons.1 hnodup).1 (List.mem_of_getLast? hp)
      exact ⟨(heq a List.mem_cons_self hap).trans h.1, ih h.2 (List.nodup_cons.1 hnodup).2 hp
        fun x hx => heq x (List.mem_cons_of_mem _ hx)⟩

/-- The cells of a path up to one of them, and what follows. -/
theorem Path.split (h : Path next a (l₁ ++ l₂) b) (hq : (l₂ ++ [b]).head? = some q) :
    Path next a l₁ q := by
  cases l₂ with
  | nil =>
      obtain rfl : b = q := by simpa using hq
      rwa [List.append_nil] at h
  | cons d l₂ =>
      obtain rfl : d = q := by simpa using hq
      exact (path_append.1 h).1

/-- The rest of a path, from a cell that points to its first cell. -/
theorem Path.rest (h : Path next a (l₁ ++ l₂) b) (hq : (l₂ ++ [b]).head? = some q)
    (hc : next' c = some q) (heq : ∀ x ∈ l₂, next' x = next x) : Path next' c l₂ b := by
  cases l₂ with
  | nil =>
      obtain rfl : b = q := by simpa using hq
      exact hc
  | cons d l₂ =>
      obtain rfl : d = q := by simpa using hq
      exact ⟨hc, (path_append.1 h).2.congr heq⟩

/-- The last cell before `l₂` is none of its cells. -/
theorem not_mem_of_last (hnodup : (a :: (l₁ ++ l₂)).Nodup) (hp : (a :: l₁).getLast? = some p)
    {x : κ} (hx : x ∈ l₂) : x ≠ p := by
  rintro rfl
  rw [← List.cons_append, List.nodup_append] at hnodup
  exact hnodup.2.2 _ (List.mem_of_getLast? hp) _ hx rfl

/-- **A path with one more cell**, between `p` and `q`. -/
theorem Path.insert (h : Path next a (l₁ ++ l₂) b) (hnodup : (a :: (l₁ ++ l₂)).Nodup)
    (hp : (a :: l₁).getLast? = some p) (hq : (l₂ ++ [b]).head? = some q)
    (hpc : next' p = some c) (hcq : next' c = some q)
    (heq : ∀ x ∈ a :: (l₁ ++ l₂), x ≠ p → next' x = next x) :
    Path next' a (l₁ ++ c :: l₂) b := by
  have hsub : (a :: l₁).Sublist (a :: (l₁ ++ l₂)) := (List.sublist_append_left l₁ l₂).cons_cons a
  rw [path_append]
  refine ⟨(h.split hq).redirect (hnodup.sublist hsub) hp
    (fun x hx => heq x (hsub.subset hx)) hpc, h.rest hq hcq fun x hx => ?_⟩
  exact heq x (by simp [hx]) (not_mem_of_last hnodup hp hx)

/-- **A path with one cell less**: the cell before it points to the one behind it. -/
theorem Path.remove (h : Path next a (l₁ ++ c :: l₂) b) (hnodup : (a :: (l₁ ++ c :: l₂)).Nodup)
    (hp : (a :: l₁).getLast? = some p) (hpc : next' p = next c)
    (heq : ∀ x ∈ a :: (l₁ ++ l₂), x ≠ p → next' x = next x) : Path next' a (l₁ ++ l₂) b := by
  obtain ⟨hbefore, hafter⟩ := path_append.1 h
  have hsub : (a :: (l₁ ++ l₂)).Sublist (a :: (l₁ ++ c :: l₂)) :=
    ((List.Sublist.refl l₁).append (List.sublist_cons_self c l₂)).cons_cons a
  have hnodup' := hnodup.sublist hsub
  have hsub' : (a :: l₁).Sublist (a :: (l₁ ++ l₂)) := (List.sublist_append_left l₁ l₂).cons_cons a
  have hleft : ∀ d, next' p = some d → Path next' a l₁ d := fun d hd =>
    hbefore.redirect (hnodup'.sublist hsub') hp (fun x hx => heq x (hsub'.subset hx)) hd
  rw [hafter.next_eq] at hpc
  cases l₂ with
  | nil =>
      rw [List.append_nil]
      exact hleft b hpc
  | cons d l₂ =>
      rw [path_append]
      refine ⟨hleft d hpc, hafter.2.congr fun x hx => ?_⟩
      exact heq x (List.mem_cons_of_mem _ (List.mem_append_right _ hx))
        (not_mem_of_last hnodup' hp hx)

/-! ### Rings -/

/-- The pointers `next` and `prev` link the cells `as` in a ring behind the head `a`. -/
structure Ring (next prev : κ → Option κ) (a : κ) (as : List κ) : Prop where
  nodup : (a :: as).Nodup
  next : Path next a as a
  prev : Path prev a as.reverse a

namespace Ring

/-- The ring of the head alone. -/
theorem single (hn : next a = some a) (hp : prev a = some a) : Ring next prev a [] :=
  ⟨List.nodup_singleton a, hn, hp⟩

/-- A ring seen backwards. -/
theorem flip (h : Ring next prev a as) : Ring prev next a as.reverse where
  nodup := by
    have hnodup := h.nodup
    rw [List.nodup_cons] at hnodup ⊢
    exact ⟨fun hmem => hnodup.1 (List.mem_reverse.1 hmem), List.nodup_reverse.2 hnodup.2⟩
  next := h.prev
  prev := by
    rw [List.reverse_reverse]
    exact h.next

theorem next_head (h : Ring next prev a as) : next a = (as ++ [a]).head? := h.next.next_eq

theorem prev_head (h : Ring next prev a as) : prev a = (a :: as).getLast? := by
  rw [h.prev.next_eq, ← List.head?_reverse, List.reverse_cons]

/-- The cells of a ring lead to cells of the ring. -/
theorem next_mem (h : Ring next prev a as) (hb : b ∈ a :: as) (hc : next b = some c) :
    c ∈ a :: as := by
  rcases List.mem_cons.1 hb with rfl | hb
  · have hc' := List.mem_of_mem_head? (h.next.next_eq.symm.trans hc)
    simpa [or_comm] using hc'
  · obtain ⟨l₁, l₂, rfl⟩ := List.append_of_mem hb
    have hc' := List.mem_of_mem_head? ((path_append.1 h.next).2.next_eq.symm.trans hc)
    simp only [List.mem_append, List.mem_cons, List.not_mem_nil, or_false] at hc' ⊢
    tauto

/-- The neighbours of a cell of a ring. -/
theorem next_cell (h : Ring next prev a (l₁ ++ c :: l₂)) : next c = (l₂ ++ [a]).head? :=
  (path_append.1 h.next).2.next_eq

theorem prev_cell (h : Ring next prev a (l₁ ++ c :: l₂)) : prev c = (a :: l₁).getLast? := by
  have hrev := h.flip
  rw [List.reverse_append, List.reverse_cons, List.append_assoc, List.singleton_append] at hrev
  rw [hrev.next_cell, ← List.head?_reverse, List.reverse_cons]

/-- **A ring with one more cell**, between `p` and `q`. -/
theorem insert (h : Ring next prev a (l₁ ++ l₂)) (hc : c ∉ a :: (l₁ ++ l₂))
    (hp : (a :: l₁).getLast? = some p) (hq : (l₂ ++ [a]).head? = some q)
    (hpc : next' p = some c) (hcq : next' c = some q)
    (hnext : ∀ x ∈ a :: (l₁ ++ l₂), x ≠ p → next' x = next x)
    (hqc : prev' q = some c) (hcp : prev' c = some p)
    (hprev : ∀ x ∈ a :: (l₁ ++ l₂), x ≠ q → prev' x = prev x) :
    Ring next' prev' a (l₁ ++ c :: l₂) where
  nodup := by
    have hmid : (a :: (l₁ ++ c :: l₂)).Perm (c :: a :: (l₁ ++ l₂)) :=
      (List.perm_middle.cons a).trans (List.Perm.swap c a _)
    exact hmid.nodup_iff.2 (List.nodup_cons.2 ⟨hc, h.nodup⟩)
  next := h.next.insert h.nodup hp hq hpc hcq hnext
  prev := by
    have hback := h.flip
    rw [List.reverse_append] at hback
    have hq' : (a :: l₂.reverse).getLast? = some q := by
      rw [← hq, ← List.head?_reverse, List.reverse_cons, List.reverse_reverse]
    have hp' : (l₁.reverse ++ [a]).head? = some p := by
      rw [← hp, ← List.head?_reverse, List.reverse_cons]
    have hpath := hback.next.insert hback.nodup hq' hp' hqc hcp fun x hx => hprev x (by
      simp at hx ⊢
      tauto)
    rw [List.reverse_append, List.reverse_cons, List.append_assoc]
    exact hpath

/-- **A ring with one cell less**: its neighbours `p` and `q` point to each other. -/
theorem remove (h : Ring next prev a (l₁ ++ c :: l₂)) (hp : prev c = some p)
    (hq : next c = some q) (hpq : next' p = some q)
    (hnext : ∀ x ∈ a :: (l₁ ++ l₂), x ≠ p → next' x = next x) (hqp : prev' q = some p)
    (hprev : ∀ x ∈ a :: (l₁ ++ l₂), x ≠ q → prev' x = prev x) :
    Ring next' prev' a (l₁ ++ l₂) where
  nodup := h.nodup.sublist
    (((List.Sublist.refl l₁).append (List.sublist_cons_self c l₂)).cons_cons a)
  next := h.next.remove h.nodup (h.prev_cell.symm.trans hp) (hpq.trans hq.symm) hnext
  prev := by
    have hback := h.flip
    rw [List.reverse_append, List.reverse_cons, List.append_assoc, List.singleton_append] at hback
    have hpath := hback.next.remove hback.nodup (hback.prev_cell.symm.trans hq)
      (hqp.trans hp.symm) fun x hx => hprev x (by
        simp at hx ⊢
        tauto)
    rwa [List.reverse_append]

end Ring

end CellRing

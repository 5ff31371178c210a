/-
**Cells linked by pointers.**

Cells are named by the elements of a type, and each may point to one further cell.  A pointer leads
through a list of cells when following it visits them in order and then ends.  The lemmas say what
is left of such a list when other cells change, and when one cell is taken out by a single
assignment to the cell before it.

Main definitions:

* `LinkedCells.Leads` — a pointer leads through a list of cells.

Main results:

* `LinkedCells.Leads.congr` — pointers of other cells do not matter;
* `LinkedCells.Leads.unlink` — **one assignment takes a cell out**.
-/

import Mathlib.Data.List.Basic

set_option relaxedAutoImplicit false
set_option autoImplicit false

namespace LinkedCells

variable {κ : Type*}

/-- The pointer `p` leads through the cells `as` and ends after them. -/
def Leads (next : κ → Option κ) : Option κ → List κ → Prop
  | p, [] => p = none
  | p, a :: as => p = some a ∧ Leads next (next a) as

variable {next next' : κ → Option κ} {p : Option κ} {a b : κ} {as bs : List κ}

@[simp] theorem linked_nil : Leads next p [] ↔ p = none := Iff.rfl

@[simp] theorem linked_cons : Leads next p (a :: as) ↔ p = some a ∧ Leads next (next a) as :=
  Iff.rfl

/-- The pointers of other cells do not matter. -/
theorem Leads.congr (h : Leads next p as) (heq : ∀ a ∈ as, next' a = next a) :
    Leads next' p as := by
  induction as generalizing p with
  | nil => exact h
  | cons a as ih =>
      refine ⟨h.1, ?_⟩
      rw [heq a List.mem_cons_self]
      exact ih h.2 fun b hb => heq b (List.mem_cons_of_mem _ hb)

/-- **One assignment takes a cell out**: the cell before it points to the one behind it. -/
theorem Leads.unlink (h : Leads next p (as ++ b :: a :: bs))
    (hb : next' b = next a) (hother : ∀ c ∈ as ++ bs, next' c = next c) :
    Leads next' p (as ++ b :: bs) := by
  induction as generalizing p with
  | nil =>
      refine ⟨h.1, ?_⟩
      rw [hb]
      exact h.2.2.congr hother
  | cons c as ih =>
      refine ⟨h.1, ?_⟩
      rw [hother c List.mem_cons_self]
      exact ih h.2 fun d hd => hother d (List.mem_cons_of_mem _ hd)

/-- Where no cell is listed twice, the assignments may be told apart by their cells. -/
theorem Leads.unlink_of_nodup (h : Leads next p (as ++ b :: a :: bs))
    (hnodup : (as ++ b :: a :: bs).Nodup) (hb : next' b = next a)
    (hother : ∀ c, c ≠ b → c ≠ a → next' c = next c) : Leads next' p (as ++ b :: bs) := by
  refine h.unlink hb fun c hc => ?_
  simp only [List.nodup_append, List.nodup_cons, List.mem_cons, not_or] at hnodup
  obtain ⟨_, ⟨⟨_, hb₂⟩, ha₂, _⟩, hdisj⟩ := hnodup
  rcases List.mem_append.1 hc with hc | hc
  · exact hother c (hdisj c hc b (Or.inl rfl)) (hdisj c hc a (Or.inr (Or.inl rfl)))
  · exact hother c (fun heq => hb₂ (heq ▸ hc)) fun heq => ha₂ (heq ▸ hc)

end LinkedCells

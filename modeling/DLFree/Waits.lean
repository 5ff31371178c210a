/-
**Wait queues: who waits where.**

Every resource has a queue of the processes that wait for it, and a process is blocked exactly while
it stands in a queue.  The two operations are joining the queue of a resource and releasing the
first process of a queue; both keep every blocked process in exactly one queue, once.  A process may
leave with its queue only when this concerns nobody else.

Main definitions:

* `Waits` — the processes in the queues are the blocked ones, each in one queue.

Main results:

* `Waits.enqueue`, `Waits.dequeue` — **joining and releasing keep this**;
* `Waits.remove` — and so does leaving, when it concerns nobody else;
* `Waits.congr` — the queues and the blocked processes determine it.
-/

import Mathlib.Data.List.Nodup
import Mathlib.Logic.Function.Basic

set_option relaxedAutoImplicit false
set_option autoImplicit false

variable {κ : Type*}

/-- A process is blocked exactly when it is in a queue, and then it is in one queue, once. -/
structure Waits (queue : κ → List κ) (blocked : κ → Prop) : Prop where
  blocked_of_mem : ∀ d, ∀ w ∈ queue d, blocked w
  exists_queue : ∀ w, blocked w → ∃ d, w ∈ queue d
  unique : ∀ w d d', w ∈ queue d → w ∈ queue d' → d = d'
  nodup : ∀ d, (queue d).Nodup

namespace Waits

variable {queue queue' : κ → List κ} {blocked blocked' : κ → Prop}

theorem empty : Waits (fun _ : κ => []) fun _ => False where
  blocked_of_mem _ _ h := by cases h
  exists_queue _ h := h.elim
  unique _ _ _ h := by cases h
  nodup _ := List.nodup_nil

theorem congr (h : Waits queue blocked) (hq : ∀ d, queue' d = queue d)
    (hb : ∀ w, blocked' w ↔ blocked w) : Waits queue' blocked' := by
  obtain rfl : queue' = queue := funext hq
  obtain rfl : blocked' = blocked := funext fun w => propext (hb w)
  exact h

/-- **A process joins a queue** and is blocked from then on. -/
theorem enqueue (h : Waits queue blocked) {d w : κ} (hw : ¬ blocked w)
    (hd : queue' d = queue d ++ [w]) (hother : ∀ x, x ≠ d → queue' x = queue x)
    (hb : ∀ x, blocked' x ↔ blocked x ∨ x = w) : Waits queue' blocked' := by
  have hnot : ∀ x, w ∉ queue x := fun x hx => hw (h.blocked_of_mem x w hx)
  have hmem : ∀ x y, y ∈ queue' x ↔ y ∈ queue x ∨ (x = d ∧ y = w) := by
    intro x y
    by_cases hx : x = d
    · subst hx
      rw [hd]
      simp
    · rw [hother x hx]
      simp [hx]
  refine ⟨fun x y hy => ?_, fun y hy => ?_, fun y x x' hx hx' => ?_, fun x => ?_⟩
  · rcases (hmem x y).1 hy with hy | ⟨_, rfl⟩
    · exact (hb y).2 (Or.inl (h.blocked_of_mem x y hy))
    · exact (hb y).2 (Or.inr rfl)
  · rcases (hb y).1 hy with hy | rfl
    · obtain ⟨x, hx⟩ := h.exists_queue y hy
      exact ⟨x, (hmem x y).2 (Or.inl hx)⟩
    · exact ⟨d, (hmem d y).2 (Or.inr ⟨rfl, rfl⟩)⟩
  · rcases (hmem x y).1 hx with hx | ⟨rfl, rfl⟩ <;> rcases (hmem x' y).1 hx' with hx' | ⟨rfl, hy⟩
    · exact h.unique y x x' hx hx'
    · exact absurd (hy ▸ hx) (hnot x)
    · exact absurd hx' (hnot x')
    · rfl
  · by_cases hx : x = d
    · subst hx
      rw [hd]
      refine List.nodup_append.2 ⟨h.nodup x, List.nodup_singleton w, fun a ha b hb' => ?_⟩
      rw [List.mem_singleton] at hb'
      subst hb'
      exact fun hab => hnot x (hab ▸ ha)
    · rw [hother x hx]
      exact h.nodup x

/-- **The first process of a queue is released** and is not blocked any more. -/
theorem dequeue (h : Waits queue blocked) {d w : κ} {ws : List κ} (hd : queue d = w :: ws)
    (hd' : queue' d = ws) (hother : ∀ x, x ≠ d → queue' x = queue x)
    (hb : ∀ x, blocked' x ↔ blocked x ∧ x ≠ w) : Waits queue' blocked' := by
  have hnodup := h.nodup d
  rw [hd, List.nodup_cons] at hnodup
  have hwd : w ∈ queue d := by rw [hd]; exact List.mem_cons_self
  have hmem : ∀ x y, y ∈ queue' x ↔ y ∈ queue x ∧ y ≠ w := by
    intro x y
    by_cases hx : x = d
    · subst hx
      rw [hd', hd, List.mem_cons]
      constructor
      · exact fun hy => ⟨Or.inr hy, fun he => hnodup.1 (he ▸ hy)⟩
      · rintro ⟨rfl | hy, hne⟩
        · exact absurd rfl hne
        · exact hy
    · rw [hother x hx]
      exact ⟨fun hy => ⟨hy, fun he => hx (h.unique w x d (he ▸ hy) hwd)⟩, fun hy => hy.1⟩
  refine ⟨fun x y hy => ?_, fun y hy => ?_, fun y x x' hx hx' => ?_, fun x => ?_⟩
  · obtain ⟨hy, hne⟩ := (hmem x y).1 hy
    exact (hb y).2 ⟨h.blocked_of_mem x y hy, hne⟩
  · obtain ⟨hy, hne⟩ := (hb y).1 hy
    obtain ⟨x, hx⟩ := h.exists_queue y hy
    exact ⟨x, (hmem x y).2 ⟨hx, hne⟩⟩
  · exact h.unique y x x' ((hmem x y).1 hx).1 ((hmem x' y).1 hx').1
  · by_cases hx : x = d
    · subst hx
      rw [hd']
      exact hnodup.2
    · rw [hother x hx]
      exact h.nodup x

/-- **A process leaves**, with its queue, when it waits for nobody else and nobody else waits for
it. -/
theorem remove (h : Waits queue blocked) {c : κ} (hwait : ∀ w ∈ queue c, w = c)
    (hjoin : ∀ d, c ∈ queue d → d = c) (hc : queue' c = [])
    (hother : ∀ x, x ≠ c → queue' x = queue x) (hb : ∀ x, blocked' x ↔ blocked x ∧ x ≠ c) :
    Waits queue' blocked' := by
  have hmem : ∀ x y, y ∈ queue' x → x ≠ c ∧ y ∈ queue x := by
    intro x y hy
    by_cases hx : x = c
    · subst hx
      rw [hc] at hy
      cases hy
    · exact ⟨hx, hother x hx ▸ hy⟩
  refine ⟨fun x y hy => ?_, fun y hy => ?_, fun y x x' hx hx' => ?_, fun x => ?_⟩
  · obtain ⟨hx, hy⟩ := hmem x y hy
    exact (hb y).2 ⟨h.blocked_of_mem x y hy, fun he => hx (hjoin x (he ▸ hy))⟩
  · obtain ⟨hy, hne⟩ := (hb y).1 hy
    obtain ⟨x, hx⟩ := h.exists_queue y hy
    have hxc : x ≠ c := fun he => hne (hwait y (he ▸ hx))
    refine ⟨x, ?_⟩
    rw [hother x hxc]
    exact hx
  · exact h.unique y x x' (hmem x y hx).2 (hmem x' y hx').2
  · by_cases hx : x = c
    · subst hx
      rw [hc]
      exact List.nodup_nil
    · rw [hother x hx]
      exact h.nodup x

end Waits

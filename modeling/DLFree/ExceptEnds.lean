/-
**Runs that return or fail in an allowed way.**

`Ends E P x` says of a run `x` that it returns a value with `P`, or fails with an error that `E`
allows.  When `E` allows nothing, the run returns; when `E` allows some errors, these are the only
ones that it can fail with.

Main definitions:

* `Ends` — the judgement about a run.

Main results:

* `Ends.bind`, `Ends.mono` — the rules for sequences of runs and for consequences;
* `Ends.foldlM`, `Ends.foldlM_steps` — **the rules for loops**, with an invariant.
-/

import Mathlib.Data.List.Basic

set_option relaxedAutoImplicit false
set_option autoImplicit false

namespace ExceptEnds

variable {ε α β : Type} {E : ε → Prop} {P Q : α → Prop}

/-- The run returns a value with `P`, or it fails with an error that `E` allows. -/
def Ends (E : ε → Prop) (P : α → Prop) : Except ε α → Prop
  | Except.ok a => P a
  | Except.error e => E e

@[simp] theorem ends_ok {a : α} : Ends E P (Except.ok a) ↔ P a := Iff.rfl

@[simp] theorem ends_error {e : ε} : Ends E P (Except.error e) ↔ E e := Iff.rfl

/-- What a run that has returned satisfies. -/
theorem Ends.of_ok {x : Except ε α} (h : Ends E P x) {a : α} (hx : x = Except.ok a) : P a := by
  subst hx
  exact h

/-- A run that is allowed no error returns. -/
theorem Ends.exists_ok {x : Except ε α} (h : Ends (fun _ => False) P x) :
    ∃ a, x = Except.ok a ∧ P a := by
  cases x with
  | ok a => exact ⟨a, rfl, h⟩
  | error e => exact absurd h id

theorem Ends.mono {x : Except ε α} (h : Ends E P x) {E' : ε → Prop} (hE : ∀ e, E e → E' e)
    (hP : ∀ a, P a → Q a) : Ends E' Q x := by
  cases x with
  | ok a => exact hP a h
  | error e => exact hE e h

theorem Ends.imp {x : Except ε α} (h : Ends E P x) (hP : ∀ a, P a → Q a) : Ends E Q x :=
  h.mono (fun _ he => he) hP

theorem Ends.bind {x : Except ε α} {f : α → Except ε β} {R : β → Prop} (h : Ends E P x)
    (hf : ∀ a, P a → Ends E R (f a)) : Ends E R (x >>= f) := by
  cases x with
  | ok a => exact hf a h
  | error e => exact h

/-- **A loop keeps its invariant.** -/
theorem Ends.foldlM {I : β → Prop} {f : β → α → Except ε β} {l : List α}
    (hf : ∀ a ∈ l, ∀ b, I b → Ends E I (f b a)) {b : β} (hb : I b) : Ends E I (l.foldlM f b) := by
  induction l generalizing b with
  | nil => exact hb
  | cons a l ih =>
      rw [List.foldlM_cons]
      exact (hf a List.mem_cons_self b hb).bind fun b' hb' =>
        ih (fun a' ha' => hf a' (List.mem_cons_of_mem _ ha')) hb'

/-- A run for every element of a list. -/
theorem Ends.mapM {f : α → Except ε β} {Q : β → Prop} {l : List α}
    (hf : ∀ a ∈ l, Ends E Q (f a)) : Ends E (fun bs => ∀ b ∈ bs, Q b) (l.mapM f) := by
  induction l with
  | nil => exact fun _ hb => absurd hb List.not_mem_nil
  | cons a l ih =>
      rw [List.mapM_cons]
      refine (hf a List.mem_cons_self).bind fun b hb => ?_
      refine (ih fun a' ha' => hf a' (List.mem_cons_of_mem _ ha')).bind fun bs hbs => ?_
      exact List.forall_mem_cons.2 ⟨hb, hbs⟩

/-- **A loop keeps an invariant about the elements it has gone through.** -/
theorem Ends.foldlM_steps {I : List α → β → Prop} {f : β → α → Except ε β} {l : List α}
    (hf : ∀ pre a b, pre ++ [a] <+: l → I pre b → Ends E (I (pre ++ [a])) (f b a)) {b : β}
    (hb : I [] b) : Ends E (I l) (l.foldlM f b) := by
  have key : ∀ (pre post : List α) (b : β), pre ++ post = l → I pre b →
      Ends E (I l) (post.foldlM f b) := by
    intro pre post
    induction post generalizing pre with
    | nil =>
        intro b hl hb
        rw [List.append_nil] at hl
        exact hl ▸ hb
    | cons a post ih =>
        intro b hl hb
        have hsplit : pre ++ [a] ++ post = l := by
          rw [List.append_assoc, List.singleton_append, hl]
        rw [List.foldlM_cons]
        exact (hf pre a b ⟨post, hsplit⟩ hb).bind fun b' hb' => ih (pre ++ [a]) b' hsplit hb'
  exact key [] l b rfl hb

end ExceptEnds

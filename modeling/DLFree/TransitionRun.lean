/-
**Runs of a transition relation, and what holds along them.**

A system is a set of initial states and a step relation; its reachable states are those of the
finite runs.  An invariant is proved once for the initial states and once for one step.  What must
happen in the end, whichever steps are taken, is proved with a variant: some step is possible, and
every step lowers it.

Main definitions:

* `TransitionRun.Reach` — the states reached by the runs of a system;
* `TransitionRun.Guarded` — the steps of a system that meet a condition;
* `TransitionRun.Inevitable` — every run gets to a goal, and is never stuck before.

Main results:

* `TransitionRun.Reach.inv` — the induction rule for invariants;
* `TransitionRun.Reach.mono` — a run of a smaller system is a run of the larger one;
* `TransitionRun.Inevitable.of_variant` — the rule for what must happen.
-/

import Mathlib.Logic.Relation
import Mathlib.Order.WellFounded

set_option relaxedAutoImplicit false
set_option autoImplicit false

namespace TransitionRun

variable {σ : Type*}

/-- The states reached by the runs that start in `init` and take steps of `step`. -/
inductive Reach (init : σ → Prop) (step : σ → σ → Prop) : σ → Prop
  | init {s : σ} : init s → Reach init step s
  | step {s t : σ} : Reach init step s → step s t → Reach init step t

/-- The steps of `step` whose source and target meet the condition `cond`. -/
def Guarded (step : σ → σ → Prop) (cond : σ → σ → Prop) (s t : σ) : Prop := step s t ∧ cond s t

namespace Reach

variable {init init' : σ → Prop} {step step' : σ → σ → Prop}

/-- **Invariant rule**: what holds initially and is kept by every step holds in every state. -/
theorem inv {I : σ → Prop} (h0 : ∀ s, init s → I s) (hstep : ∀ s t, I s → step s t → I t)
    {s : σ} (h : Reach init step s) : I s := by
  induction h with
  | init hs => exact h0 _ hs
  | step _ hst ih => exact hstep _ _ ih hst

/-- A run of a system is a run of every system with more initial states and more steps. -/
theorem mono (hi : ∀ s, init s → init' s) (hs : ∀ s t, step s t → step' s t)
    {s : σ} (h : Reach init step s) : Reach init' step' s := by
  induction h with
  | init h => exact Reach.init (hi _ h)
  | step _ hst ih => exact ih.step (hs _ _ hst)

/-- A run that goes on. -/
theorem run {s t : σ} (h : Reach init step s) (hrun : Relation.ReflTransGen step s t) :
    Reach init step t := by
  induction hrun with
  | refl => exact h
  | tail _ hst ih => exact ih.step hst

end Reach

/-! ### What must happen -/

/-- Every run from this state gets to a goal: before it some step is possible, and whichever step is
taken, the goal is inevitable still. -/
inductive Inevitable (step : σ → σ → Prop) (goal : σ → Prop) : σ → Prop
  | now {s : σ} : goal s → Inevitable step goal s
  | later {s : σ} : (∃ t, step s t) → (∀ t, step s t → Inevitable step goal t) →
      Inevitable step goal s

namespace Inevitable

variable {step : σ → σ → Prop} {goal : σ → Prop}

/-- **Variant rule**: where some step is possible before the goal, and every step lowers a variant,
the goal is inevitable.  The variant may look at more than the state. -/
theorem of_variant {γ M : Type*} [LT M] [WellFoundedLT M] {I : σ → γ → Prop} (variant : σ → γ → M)
    (hmove : ∀ s g, I s g → goal s ∨ ∃ t, step s t)
    (hlower : ∀ s g t, I s g → step s t → ∃ g', I t g' ∧ variant t g' < variant s g)
    {s : σ} {g : γ} (h : I s g) : Inevitable step goal s := by
  generalize hm : variant s g = m
  induction m using WellFoundedLT.induction generalizing s g with
  | ind m ih =>
      rcases hmove s g h with hgoal | hsome
      · exact now hgoal
      · refine later hsome fun t hst => ?_
        obtain ⟨g', hg', hlt⟩ := hlower s g t h hst
        exact ih _ (hm ▸ hlt) hg' rfl

/-- What is inevitable is reached in some run. -/
theorem reaches {s : σ} (h : Inevitable step goal s) :
    ∃ t, Relation.ReflTransGen step s t ∧ goal t := by
  induction h with
  | @now s hgoal => exact ⟨s, Relation.ReflTransGen.refl, hgoal⟩
  | later hsome _ ih =>
      obtain ⟨t, hst⟩ := hsome
      obtain ⟨t', hrun, hgoal⟩ := ih t hst
      exact ⟨t', Relation.ReflTransGen.head hst hrun, hgoal⟩

end Inevitable

end TransitionRun

/-
**A round goes on until all members have left it.**

A member leaves a round when it has read the lines of all members.  Once all members have entered the
round, nobody waits for anything else: lines are written, get their places in the common order, and
are read.

Main definitions:

* `Collective.Stays`, `Collective.Enters`, `Collective.Leaves` — what a step does to the rounds;
* `Collective.linesLeft` — the lines to write, to order and to read.

Main results:

* `Collective.Step.lowers` — a step that stays in all rounds leaves fewer lines;
* `Collective.Ok.goes_on` — **a round that all members have entered goes on**.
-/

import DLFree.Collective
import Mathlib.Data.Prod.Lex

set_option relaxedAutoImplicit false
set_option autoImplicit false

namespace Collective

variable {ι α : Type} [DecidableEq ι]

/-! ### What a step does to the rounds -/

/-- All members stay in their rounds, or outside of them. -/
def Stays (s t : State ι α) : Prop :=
  ∀ j, (t.member j).round = (s.member j).round ∧ (t.member j).inside = (s.member j).inside

/-- The member `i` enters its next round. -/
structure Enters (i : ι) (s t : State ι α) : Prop where
  out : (s.member i).inside = false
  inside : (t.member i).inside = true
  round : (t.member i).round = (s.member i).round
  others : ∀ j, j ≠ i → t.member j = s.member j

/-- The member `i` leaves its round. -/
structure Leaves (i : ι) (s t : State ι α) : Prop where
  inside : (s.member i).inside = true
  out : (t.member i).inside = false
  round : (t.member i).round = (s.member i).round + 1
  others : ∀ j, j ≠ i → t.member j = s.member j

/-- The lines that members have to write, those that have no place in the common order yet, and those
that members have to read. -/
def linesLeft [Fintype ι] (s : State ι α) : ℕ ×ₗ (ℕ ×ₗ ℕ) :=
  toLex (∑ j, (s.member j).toWrite.length, toLex (∑ j, (s.pipe j).length,
    ∑ j, (s.wire.length - ((s.member j).log.flatten ++ (s.member j).got).length)))

section Steps

variable {prog : List (Round ι α)} {s t : State ι α} {i j : ι} {m : Member ι α} {k : ℕ}

@[simp] theorem setMember_self : (s.setMember i m).member i = m := Function.update_self _ _ _

theorem setMember_of_ne (h : j ≠ i) : (s.setMember i m).member j = s.member j :=
  Function.update_of_ne h _ _

/-- A member that changes within its round. -/
theorem stays_setMember (hround : m.round = (s.member i).round)
    (hinside : m.inside = (s.member i).inside) : Stays s (s.setMember i m) := by
  intro j
  by_cases hj : j = i
  · rw [hj, setMember_self]
    exact ⟨hround, hinside⟩
  · rw [setMember_of_ne hj]
    exact ⟨rfl, rfl⟩

/-- The lines of one member change. -/
theorem sum_lt [Fintype ι] {f g : ι → ℕ} (hi : f i < g i) (hothers : ∀ j, j ≠ i → f j = g j) :
    ∑ j, f j < ∑ j, g j := by
  refine Finset.sum_lt_sum (fun j _ => ?_) ⟨i, Finset.mem_univ i, hi⟩
  by_cases hj : j = i
  · rw [hj]
    exact hi.le
  · exact (hothers j hj).le

/-- **A step that stays in all rounds leaves fewer lines.** -/
theorem Step.lowers [Fintype ι] (h : Step prog s t) (hstays : Stays s t) :
    linesLeft t < linesLeft s := by
  cases h with
  | @enter i r w hout hr hw =>
      have hi := (hstays i).2
      rw [setMember_self, hout] at hi
      cases hi
  | @leave i r hin hw hr hstop =>
      have hi := (hstays i).2
      rw [setMember_self, hin] at hi
      cases hi
  | @write i a w hw =>
      refine Prod.Lex.toLex_lt_toLex.2 (Or.inl (sum_lt (i := i) ?_ fun j hj => ?_))
      · change ((s.setMember i _).member i).toWrite.length < _
        rw [setMember_self, hw]
        exact Nat.lt_succ_self _
      · change ((s.setMember i _).member j).toWrite.length = _
        rw [setMember_of_ne hj]
  | @post i p l hl =>
      refine Prod.Lex.toLex_lt_toLex.2 (Or.inr ⟨rfl, Prod.Lex.toLex_lt_toLex.2 (Or.inl ?_)⟩)
      refine sum_lt (i := i) ?_ fun j hj => ?_
      · change (Function.update s.pipe i l i).length < _
        rw [Function.update_self, hl]
        exact Nat.lt_succ_self _
      · exact congrArg List.length (Function.update_of_ne hj _ _)
  | @read i r p hin hw hr hgo hp =>
      refine Prod.Lex.toLex_lt_toLex.2 (Or.inr ⟨Finset.sum_congr rfl fun j _ => ?_,
        Prod.Lex.toLex_lt_toLex.2 (Or.inr ⟨rfl, sum_lt (i := i) ?_ fun j hj => ?_⟩)⟩)
      · by_cases hj : j = i
        · rw [hj, setMember_self]
        · rw [setMember_of_ne hj]
      · have hlt := (List.getElem?_eq_some_iff.1 hp).1
        dsimp only
        rw [setMember_self]
        change s.wire.length - _ < _
        simp only [List.length_append, List.length_singleton] at hlt ⊢
        omega
      · dsimp only
        rw [setMember_of_ne hj]
        rfl

end Steps

/-! ### A round goes on -/

namespace Ok

variable {prog : List (Round ι α)} {s : State ι α} {i j : ι} {k : ℕ}

/-- A member that has entered the `k`-th round has chosen its lines. -/
theorem entered_iff (h : Ok prog s) : (s.member j).chosen[k]? ≠ none ↔
    k < (s.member j).round ∨ (k = (s.member j).round ∧ (s.member j).inside = true) := by
  rw [Ne, List.getElem?_eq_none_iff, not_le, (h.member j).length_chosen]
  split
  · rename_i hin
    simp only [hin, and_true]
    omega
  · rename_i hin
    simp [hin]

/-- **When somebody has left a round, all members have entered it.** -/
theorem entered_of_left (h : Ok prog s) (hk : k < (s.member i).round) (j : ι) :
    k < (s.member j).round ∨ (k = (s.member j).round ∧ (s.member j).inside = true) := by
  rw [← h.entered_iff, (h.written hk j).1]
  exact Option.some_ne_none _

/-- What is written out and not on its way is in the common order. -/
theorem chosen_eq (h : Ok prog s) (hwrite : ∀ j, (s.member j).toWrite = [])
    (hpipe : ∀ j, s.pipe j = []) (j : ι) (k : ℕ) :
    (s.member j).chosen[k]?.getD [] = linesOf j k s.wire := by
  rw [← (h.member j).account k, hwrite, hpipe, ite_self, linesOf_nil, List.append_nil,
    List.append_nil]

/-- **A round that all members have entered goes on**: a line is written, gets its place or is read,
or a member leaves. -/
theorem goes_on (h : Ok prog s) (hround : ∀ j, (s.member i).round ≤ (s.member j).round)
    (hin : ∀ j, (s.member j).round = (s.member i).round → (s.member j).inside = true) :
    ∃ t, Step prog s t ∧ (Stays s t ∨ ∃ j, Leaves j s t) := by
  by_cases hwrite : ∀ j, (s.member j).toWrite = []
  swap
  · obtain ⟨j, hj⟩ := not_forall.1 hwrite
    obtain ⟨a, w, hw⟩ := List.exists_cons_of_ne_nil hj
    exact ⟨_, Step.write hw, Or.inl (stays_setMember rfl rfl)⟩
  by_cases hpipe : ∀ j, s.pipe j = []
  swap
  · obtain ⟨j, hj⟩ := not_forall.1 hpipe
    obtain ⟨p, l, hl⟩ := List.exists_cons_of_ne_nil hj
    exact ⟨_, Step.post hl, Or.inl fun j => ⟨rfl, rfl⟩⟩
  -- all lines of the round are in the common order
  have hentered : ∀ j, (s.member j).chosen[(s.member i).round]? ≠ none := by
    intro j
    rw [h.entered_iff]
    rcases (hround j).lt_or_eq with hlt | heq
    · exact Or.inl hlt
    · exact Or.inr ⟨heq, hin j heq.symm⟩
  have hall : ∀ j, ∃ r, prog[(s.member i).round]? = some r ∧
      r.writes j (linesOf j (s.member i).round s.wire) := by
    intro j
    obtain ⟨w, hw⟩ := Option.ne_none_iff_exists'.1 (hentered j)
    obtain ⟨r, hr, hwrites⟩ := (h.member j).writes _ _ hw
    have heq := h.chosen_eq hwrite hpipe j (s.member i).round
    rw [hw, Option.getD_some] at heq
    exact ⟨r, hr, heq ▸ hwrites⟩
  obtain ⟨r, hr, _⟩ := hall i
  by_cases hstop : r.stop ((s.member i).got.map Post.line)
  · refine ⟨_, Step.leave (hin i rfl) (hwrite i) hr hstop, Or.inr ⟨i, hin i rfl, ?_, ?_, ?_⟩⟩
    · rw [setMember_self]
    · rw [setMember_self]
    · exact fun j hj => setMember_of_ne hj
  · obtain ⟨rest, hrest⟩ := (h.member i).got
    have hne : rest ≠ [] := by
      rintro rfl
      rw [List.append_nil] at hrest
      refine hstop ((h.stop_iff hr).2 fun j => ?_)
      obtain ⟨r', hr', hj⟩ := hall j
      obtain rfl : r = r' := Option.some.inj (hr.symm.trans hr')
      rw [hrest, linesOf_ofRound]
      exact hj
    have hlt : ((s.member i).log.flatten ++ (s.member i).got).length < s.wire.length := by
      have hsplit := congrArg List.length (h.sorted.split (s.member i).round)
      have hle : (ofRound (s.member i).round s.wire).length ≤
          (s.wire.filter fun p => (s.member i).round ≤ p.round).length := by
        refine List.Sublist.length_le (List.monotone_filter_right _ fun p hp => ?_)
        rw [of_decide_eq_true hp]
        exact decide_eq_true le_rfl
      have hpos := List.length_pos_iff.2 hne
      rw [List.length_append, ← h.log_flatten] at hsplit
      rw [← hrest, List.length_append] at hle
      rw [List.length_append]
      omega
    exact ⟨_, Step.read (hin i rfl) (hwrite i) hr hstop (List.getElem?_eq_getElem hlt),
      Or.inl (stays_setMember rfl rfl)⟩

end Ok

end Collective

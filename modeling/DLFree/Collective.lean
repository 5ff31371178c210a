/-
**Rounds of collective exchanges over one common order of lines.**

The members of a group go through the same sequence of rounds.  In a round a member first writes its
lines, and then reads lines until the stopping rule of the round holds.  All members read the same
sequence of lines, which keeps the order of each writer.  A line does not show its round: the
reader only counts.  The writer and the round of a line are kept here for the statements.

Main definitions:

* `Collective.Post`, `Collective.linesOf`, `Collective.ofRound` — lines, by writer and by round;
* `Collective.Round` — what may be written in a round, and when its readers stop;
* `Collective.Round.weighted` — rounds whose readers stop at a given total weight;
* `Collective.State`, `Collective.Step` — the members, what is on its way, and the common order;
* `Collective.Ok` — the invariant.

Main results:

* `Collective.ok_of_reach` — every reachable state meets the invariant;
* `Collective.Ok.log_eq` — **a member has read exactly the lines of the rounds it has left**;
* `Collective.Round.go_on` — the readers of a round do not stop while a line is missing;
* `Collective.Ok.written` — nobody leaves a round before all members have written all their lines.
-/

import DLFree.TransitionRun
import Mathlib

set_option relaxedAutoImplicit false
set_option autoImplicit false

namespace Collective

variable {ι α : Type} [DecidableEq ι]

/-- A line on the common medium; only `line` is visible to a reader. -/
structure Post (ι α : Type) where
  writer : ι
  round : ℕ
  line : α

/-- The lines of one writer and one round, in their order. -/
def linesOf (j : ι) (k : ℕ) (l : List (Post ι α)) : List α :=
  (l.filter fun p => p.writer = j ∧ p.round = k).map Post.line

/-- The lines of one round, in their order. -/
def ofRound (k : ℕ) (l : List (Post ι α)) : List (Post ι α) := l.filter fun p => p.round = k

section Lists

variable {l l' : List (Post ι α)} {j : ι} {k : ℕ} {p : Post ι α}

@[simp] theorem linesOf_nil : linesOf j k ([] : List (Post ι α)) = [] := rfl

@[simp] theorem linesOf_append : linesOf j k (l ++ l') = linesOf j k l ++ linesOf j k l' := by
  simp [linesOf]

theorem linesOf_single :
    linesOf j k [p] = if p.writer = j ∧ p.round = k then [p.line] else [] := by
  by_cases h : p.writer = j ∧ p.round = k
  · simp [linesOf, h]
  · rw [if_neg h]
    simp only [linesOf, List.map_eq_nil_iff, List.filter_eq_nil_iff, List.mem_singleton]
    rintro _ rfl
    simpa using h

theorem linesOf_cons : linesOf j k (p :: l) = linesOf j k [p] ++ linesOf j k l :=
  linesOf_append (l := [p])

theorem linesOf_ofRound : linesOf j k (ofRound k l) = linesOf j k l := by
  unfold linesOf ofRound
  rw [List.filter_filter]
  congr 1
  refine List.filter_congr fun p _ => ?_
  by_cases h : p.round = k <;> simp [h]

omit [DecidableEq ι] in
@[simp] theorem ofRound_append : ofRound k (l ++ l') = ofRound k l ++ ofRound k l' := by
  simp [ofRound]

omit [DecidableEq ι] in
theorem ofRound_of_ne (h : p.round ≠ k) : ofRound k [p] = [] := by simp [ofRound, h]

omit [DecidableEq ι] in
theorem mem_ofRound : p ∈ ofRound k l ↔ p ∈ l ∧ p.round = k := by simp [ofRound]

/-- A line is among the lines of its writer and round. -/
theorem line_mem_linesOf (hp : p ∈ l) : p.line ∈ linesOf p.writer p.round l :=
  List.mem_map_of_mem (List.mem_filter.2 ⟨hp, by simp⟩)

theorem linesOf_isPrefix (h : l <+: l') : linesOf j k l <+: linesOf j k l' := by
  obtain ⟨t, rfl⟩ := h
  exact ⟨linesOf j k t, linesOf_append.symm⟩

/-- A prefix of a round with the same lines of every writer is the whole round. -/
theorem eq_of_linesOf (h : l <+: ofRound k l') (heq : ∀ j, linesOf j k l = linesOf j k l') :
    l = ofRound k l' := by
  obtain ⟨t, ht⟩ := h
  cases t with
  | nil => simpa using ht
  | cons p t =>
      have hp : p.round = k := (mem_ofRound.1 (ht ▸ by simp : p ∈ ofRound k l')).2
      have hlen := congrArg List.length (heq p.writer)
      rw [← linesOf_ofRound (l := l'), ← ht, linesOf_append, linesOf_cons, linesOf_single,
        if_pos ⟨rfl, hp⟩] at hlen
      simp only [List.length_append, List.length_cons] at hlen
      omega

/-! ### Lines in the order of their rounds -/

/-- No line stands after a line of a later round. -/
def Sorted (l : List (Post ι α)) : Prop := l.Pairwise fun p q => p.round ≤ q.round

omit [DecidableEq ι] in
theorem Sorted.split (h : Sorted l) (k : ℕ) :
    l = (l.filter fun p => p.round < k) ++ l.filter fun p => k ≤ p.round := by
  induction l with
  | nil => rfl
  | cons p l ih =>
      have hp := List.pairwise_cons.1 h
      by_cases hk : p.round < k
      · have hk' : ¬ k ≤ p.round := by omega
        simp only [List.filter_cons, hk, hk', decide_true, decide_false, if_true, List.cons_append]
        exact congrArg (p :: ·) (ih hp.2)
      · -- everything after the first late line is late
        have hlate : ∀ q ∈ p :: l, k ≤ q.round := by
          intro q hq
          rcases List.mem_cons.1 hq with rfl | hq
          · omega
          · have := hp.1 q hq
            omega
        rw [List.filter_eq_nil_iff.2 fun q hq => by simpa using hlate q hq,
          List.filter_eq_self.2 fun q hq => by simpa using hlate q hq, List.nil_append]

omit [DecidableEq ι] in
/-- The lines of the first rounds are those of each of these rounds in turn. -/
theorem Sorted.filter_lt (h : Sorted l) (k : ℕ) :
    (l.filter fun p => p.round < k) = (List.range k).flatMap fun m => ofRound m l := by
  induction k with
  | zero => simp
  | succ k ih =>
      have hs : Sorted (l.filter fun p => p.round < k + 1) := List.Pairwise.filter _ h
      rw [hs.split k, List.filter_filter, List.filter_filter, List.range_succ, List.flatMap_append,
        ← ih, List.flatMap_singleton]
      congr 1
      · refine List.filter_congr fun p _ => ?_
        by_cases hp : p.round < k
        · have : p.round < k + 1 := by omega
          simp [hp, this]
        · simp [hp]
      · refine List.filter_congr fun p _ => ?_
        by_cases hp : p.round = k
        · simp [hp]
        · by_cases hlt : k ≤ p.round
          · have : ¬ p.round < k + 1 := by omega
            simp [this, hp]
          · simp [hlt, hp]

end Lists

/-! ### Rounds -/

/-- A round: the lines that a member may write, and the stopping rule of its readers.  A member
knows from its own lines when they are complete, and the readers stop exactly when the lines of all
members are. -/
structure Round (ι α : Type) [DecidableEq ι] where
  writes : ι → List α → Prop
  stop : List α → Prop
  ne_nil : ∀ {j : ι} {w : List α}, writes j w → w ≠ []
  eq_of_isPrefix : ∀ {j : ι} {v w : List α}, writes j v → writes j w → v <+: w → v = w
  stop_iff : ∀ {k : ℕ} {got : List (Post ι α)}, (∀ p ∈ got, p.round = k) →
    (∀ j, linesOf j k got = [] ∨ ∃ w, writes j w ∧ linesOf j k got <+: w) →
    (stop (got.map Post.line) ↔ ∀ j, writes j (linesOf j k got))

/-- While a line is missing, the readers go on. -/
theorem Round.go_on (r : Round ι α) {k : ℕ} {got pre : List (Post ι α)}
    (hk : ∀ p ∈ got, p.round = k) (hall : ∀ j, r.writes j (linesOf j k got)) (hpre : pre <+: got)
    (hne : pre ≠ got) : ¬ r.stop (pre.map Post.line) := by
  intro hstop
  have hgot : got = ofRound k got := (List.filter_eq_self.2 fun p hp => by simpa using hk p hp).symm
  have hcases : ∀ j, linesOf j k pre = [] ∨ ∃ w, r.writes j w ∧ linesOf j k pre <+: w :=
    fun j => Or.inr ⟨_, hall j, linesOf_isPrefix hpre⟩
  have hpreAll := (r.stop_iff (fun p hp => hk p (hpre.subset hp)) hcases).1 hstop
  refine hne ((eq_of_linesOf (hgot ▸ hpre) fun j => ?_).trans hgot.symm)
  exact r.eq_of_isPrefix (hpreAll j) (hall j) (linesOf_isPrefix hpre)

/-- When no line is missing, they stop. -/
theorem Round.stop_of_all (r : Round ι α) {k : ℕ} {got : List (Post ι α)}
    (hk : ∀ p ∈ got, p.round = k) (hall : ∀ j, r.writes j (linesOf j k got)) :
    r.stop (got.map Post.line) :=
  (r.stop_iff hk fun j => Or.inr ⟨_, hall j, List.prefix_rfl⟩).2 hall

section Weighted

variable {n : ℕ}

/-- The weight of lines of one round is that of the lines of all members. -/
theorem weight_eq_sum (weight : α → ℕ) {k : ℕ} {got : List (Post (Fin n) α)}
    (hk : ∀ p ∈ got, p.round = k) :
    ((got.map Post.line).map weight).sum = ∑ j, ((linesOf j k got).map weight).sum := by
  induction got with
  | nil => simp
  | cons p got ih =>
      have hhead : ∑ j, ((linesOf j k [p]).map weight).sum = weight p.line := by
        rw [Finset.sum_eq_single p.writer]
        · rw [linesOf_single, if_pos ⟨rfl, hk p List.mem_cons_self⟩]
          simp
        · intro j _ hj
          rw [linesOf_single, if_neg fun h => hj h.1.symm]
          rfl
        · intro h
          exact absurd (Finset.mem_univ _) h
      have htail := ih fun q hq => hk q (List.mem_cons_of_mem _ hq)
      simp only [List.map_cons, List.sum_cons]
      rw [htail, ← hhead, ← Finset.sum_add_distrib]
      refine Finset.sum_congr rfl fun j _ => ?_
      rw [linesOf_cons (l := got), List.map_append, List.sum_append]

/-- Readers add up the weights of the lines and stop at the total of all members; the lines of a
member reach their total with the last one. -/
def Round.weighted (writes : Fin n → List α → Prop) (weight : α → ℕ) (total : ℕ)
    (hpos : 0 < n → 0 < total)
    (htotal : ∀ j w, writes j w → (w.map weight).sum = total)
    (hlast : ∀ j w, writes j w → ∀ v, v <+: w → v ≠ w → (v.map weight).sum < total) :
    Round (Fin n) α where
  writes := writes
  stop l := n * total ≤ (l.map weight).sum
  ne_nil {j w} hw := by
    rintro rfl
    have h0 := htotal j [] hw
    have := hpos j.pos
    rw [List.map_nil, List.sum_nil] at h0
    omega
  eq_of_isPrefix {j v w} hv hw h := by
    by_contra hne
    exact absurd (htotal j v hv) (hlast j w hw v h hne).ne
  stop_iff {k got} hk hpre := by
    have hle : ∀ j, ((linesOf j k got).map weight).sum ≤ total := by
      intro j
      rcases hpre j with h | ⟨w, hw, h⟩
      · rw [h]
        exact Nat.zero_le _
      · by_cases hne : linesOf j k got = w
        · exact (hne ▸ htotal j w hw).le
        · exact (hlast j w hw _ h hne).le
    have hsum : n * total = ∑ _j : Fin n, total := by simp
    rw [weight_eq_sum weight hk, hsum]
    constructor
    · intro h j
      -- no member can be behind
      have hj : ((linesOf j k got).map weight).sum = total := by
        by_contra hne
        have hlt : ((linesOf j k got).map weight).sum < total := lt_of_le_of_ne (hle j) hne
        have := Finset.sum_lt_sum (fun i _ => hle i) ⟨j, Finset.mem_univ j, hlt⟩
        omega
      rcases hpre j with h0 | ⟨w, hw, hp⟩
      · rw [h0, List.map_nil, List.sum_nil] at hj
        have := hpos j.pos
        omega
      · by_cases hne : linesOf j k got = w
        · exact hne ▸ hw
        · have := hlast j w hw _ hp hne
          omega
    · intro h
      exact (Finset.sum_congr rfl fun j _ => (htotal j _ (h j)).symm).le

end Weighted

/-! ### The system -/

/-- A member: the rounds it has left, whether it is in a round, the lines it still has to write in
it and the lines it has read in it.  `log` are the lines it read in the rounds it has left, and
`chosen` those it writes in the rounds it has entered. -/
structure Member (ι α : Type) where
  round : ℕ
  inside : Bool
  toWrite : List α
  got : List (Post ι α)
  log : List (List (Post ι α))
  chosen : List (List α)

/-- `pipe j` are the lines that `j` has written and that have no place in the common order yet. -/
structure State (ι α : Type) where
  member : ι → Member ι α
  pipe : ι → List (Post ι α)
  wire : List (Post ι α)

/-- Nothing has been written. -/
def State.initial : State ι α where
  member := fun _ => ⟨0, false, [], [], [], []⟩
  pipe := fun _ => []
  wire := []

/-- The member `i` changes. -/
def State.setMember (s : State ι α) (i : ι) (m : Member ι α) : State ι α where
  member := Function.update s.member i m
  pipe := s.pipe
  wire := s.wire

/-- What `i` has written and what is not yet in the common order changes. -/
def State.setPipe (s : State ι α) (i : ι) (l : List (Post ι α)) : State ι α where
  member := s.member
  pipe := Function.update s.pipe i l
  wire := s.wire

/-- The line `p` of `i` gets its place in the common order. -/
def State.post (s : State ι α) (i : ι) (p : Post ι α) (l : List (Post ι α)) : State ι α where
  member := s.member
  pipe := Function.update s.pipe i l
  wire := s.wire ++ [p]

/-- A step of a group that goes through the rounds of `prog`. -/
inductive Step (prog : List (Round ι α)) (s : State ι α) : State ι α → Prop
  | enter {i : ι} {r : Round ι α} {w : List α} (hout : (s.member i).inside = false)
      (hr : prog[(s.member i).round]? = some r) (hw : r.writes i w) :
      Step prog s (s.setMember i { s.member i with
        inside := true, toWrite := w, chosen := (s.member i).chosen ++ [w] })
  | write {i : ι} {a : α} {w : List α} (hw : (s.member i).toWrite = a :: w) :
      Step prog s ((s.setMember i { s.member i with toWrite := w }).setPipe i
        (s.pipe i ++ [⟨i, (s.member i).round, a⟩]))
  | post {i : ι} {p : Post ι α} {l : List (Post ι α)} (hl : s.pipe i = p :: l) :
      Step prog s (s.post i p l)
  | read {i : ι} {r : Round ι α} {p : Post ι α} (hin : (s.member i).inside = true)
      (hw : (s.member i).toWrite = []) (hr : prog[(s.member i).round]? = some r)
      (hgo : ¬ r.stop ((s.member i).got.map Post.line))
      (hp : s.wire[((s.member i).log.flatten ++ (s.member i).got).length]? = some p) :
      Step prog s (s.setMember i { s.member i with got := (s.member i).got ++ [p] })
  | leave {i : ι} {r : Round ι α} (hin : (s.member i).inside = true)
      (hw : (s.member i).toWrite = []) (hr : prog[(s.member i).round]? = some r)
      (hstop : r.stop ((s.member i).got.map Post.line)) :
      Step prog s (s.setMember i { s.member i with
        round := (s.member i).round + 1, inside := false, got := [],
        log := (s.member i).log ++ [(s.member i).got] })

/-- The states that a group can reach. -/
abbrev Reachable (prog : List (Round ι α)) : State ι α → Prop :=
  TransitionRun.Reach (· = State.initial) (Step prog)

/-! ### The invariant -/

/-- What holds of a member `j`, with the common order and what is on its way from `j`. -/
structure MemberOk (prog : List (Round ι α)) (wire pipe : List (Post ι α)) (j : ι)
    (m : Member ι α) : Prop where
  /-- the lines of a round are in the common order, on their way, or to be written -/
  account : ∀ k, linesOf j k wire ++ linesOf j k pipe ++
    (if k = m.round then m.toWrite else []) = (m.chosen[k]?).getD []
  /-- what is on its way from a member has been written by it -/
  own : ∀ p ∈ pipe, p.writer = j
  length_chosen : m.chosen.length = m.round + if m.inside then 1 else 0
  outside : m.inside = false → m.toWrite = [] ∧ m.got = []
  writes : ∀ (k : ℕ) (w : List α), m.chosen[k]? = some w →
    ∃ r : Round ι α, prog[k]? = some r ∧ r.writes j w
  log : m.log = (List.range m.round).map fun k => ofRound k wire
  got : m.got <+: ofRound m.round wire

/-- What holds in every reachable state. -/
structure Ok (prog : List (Round ι α)) (s : State ι α) : Prop where
  member : ∀ j, MemberOk prog s.wire (s.pipe j) j (s.member j)
  sorted : Sorted s.wire
  /-- a round that a member has left has been written out by all members -/
  complete : ∀ (i : ι) (k : ℕ), k < (s.member i).round →
    ∃ r : Round ι α, prog[k]? = some r ∧ ∀ j, r.writes j (linesOf j k s.wire)

namespace Ok

variable {prog : List (Round ι α)} {s t : State ι α} {i j : ι} {k : ℕ} {p : Post ι α}

theorem initial : Ok prog (State.initial : State ι α) where
  member j :=
    { account := fun k => by
        show ([] : List α) ++ [] ++ (if k = 0 then [] else []) = _
        rw [ite_self]
        rfl
      own := fun p hp => absurd hp List.not_mem_nil
      length_chosen := rfl
      outside := fun _ => ⟨rfl, rfl⟩
      writes := fun k w h => by simp [State.initial] at h
      log := rfl
      got := List.nil_prefix }
  sorted := List.Pairwise.nil
  complete i k h := absurd h (Nat.not_lt_zero k)

/-- A member has entered every round from which it has written a line. -/
theorem le_round_of_ne (h : Ok prog s) (hne : linesOf j k s.wire ++ linesOf j k (s.pipe j) ≠ []) :
    k ≤ (s.member j).round := by
  have hc := (h.member j).account k
  cases hk : (s.member j).chosen[k]? with
  | none =>
      rw [hk, Option.getD_none] at hc
      exact absurd (List.append_eq_nil_iff.1 hc).1 hne
  | some w =>
      have hlt := (List.getElem?_eq_some_iff.1 hk).1
      rw [(h.member j).length_chosen] at hlt
      split at hlt <;> omega

theorem le_round_wire (h : Ok prog s) (hp : p ∈ s.wire) : p.round ≤ (s.member p.writer).round :=
  h.le_round_of_ne fun h0 =>
    List.ne_nil_of_mem (line_mem_linesOf hp) (List.append_eq_nil_iff.1 h0).1

/-- The lines of a member in the common order come first among those it writes. -/
theorem wire_isPrefix (h : Ok prog s) (hne : linesOf j k s.wire ≠ []) :
    ∃ (r : Round ι α) (w : List α), prog[k]? = some r ∧ r.writes j w ∧
      (s.member j).chosen[k]? = some w ∧
      linesOf j k s.wire <+: w := by
  have hc := (h.member j).account k
  cases hk : (s.member j).chosen[k]? with
  | none =>
      rw [hk, Option.getD_none] at hc
      exact absurd (List.append_eq_nil_iff.1 (List.append_eq_nil_iff.1 hc).1).1 hne
  | some w =>
      obtain ⟨r, hr, hw⟩ := (h.member j).writes k w hk
      rw [hk, Option.getD_some, List.append_assoc] at hc
      exact ⟨r, w, hr, hw, rfl, ⟨_, hc⟩⟩

/-- In a round that somebody has left, all members have written all their lines. -/
theorem written (h : Ok prog s) (hk : k < (s.member i).round) (j : ι) :
    (s.member j).chosen[k]? = some (linesOf j k s.wire) ∧ linesOf j k (s.pipe j) = [] ∧
      (k = (s.member j).round → (s.member j).toWrite = []) := by
  obtain ⟨r, hr, hall⟩ := h.complete i k hk
  obtain ⟨r', w, hr', hw, hchosen, hpre⟩ := h.wire_isPrefix (r.ne_nil (hall j))
  obtain rfl : r = r' := Option.some.inj (hr.symm.trans hr')
  have heq := r.eq_of_isPrefix (hall j) hw hpre
  have hc := (h.member j).account k
  rw [hchosen, Option.getD_some, ← heq, List.append_assoc] at hc
  have hrest := List.append_eq_nil_iff.1 (List.append_right_eq_self.1 hc)
  refine ⟨by rw [hchosen, heq], hrest.1, fun hj => ?_⟩
  simpa [hj] using hrest.2

/-- Nobody has left the round of a line that is still on its way. -/
theorem round_le_pipe (h : Ok prog s) (hp : p ∈ s.pipe j) (i : ι) :
    (s.member i).round ≤ p.round := by
  by_contra hlt
  have hmem := line_mem_linesOf hp
  rw [(h.member j).own p hp, (h.written (not_le.1 hlt) j).2.1] at hmem
  cases hmem

/-- What a member has read of its round are the first lines of all writers. -/
theorem got_round (h : Ok prog s) (hp : p ∈ (s.member i).got) : p.round = (s.member i).round :=
  (mem_ofRound.1 (((h.member i).got).subset hp)).2

theorem got_linesOf (h : Ok prog s) {r : Round ι α} (hr : prog[(s.member i).round]? = some r)
    (j : ι) : linesOf j (s.member i).round (s.member i).got = [] ∨
      ∃ w, r.writes j w ∧ linesOf j (s.member i).round (s.member i).got <+: w := by
  have hpre : linesOf j (s.member i).round (s.member i).got <+:
      linesOf j (s.member i).round s.wire := by
    rw [← linesOf_ofRound (l := s.wire)]
    exact linesOf_isPrefix (h.member i).got
  rcases List.eq_nil_or_concat (linesOf j (s.member i).round s.wire) with h0 | ⟨_, _, h1⟩
  · rw [h0] at hpre
    exact Or.inl (List.prefix_nil.1 hpre)
  · obtain ⟨r', w, hr', hw, _, hw'⟩ := h.wire_isPrefix (j := j) (k := (s.member i).round)
      (by rw [h1]; simp)
    obtain rfl : r = r' := Option.some.inj (hr.symm.trans hr')
    exact Or.inr ⟨w, hw, hpre.trans hw'⟩

/-- The reader stops exactly when all members have written all their lines. -/
theorem stop_iff (h : Ok prog s) {r : Round ι α} (hr : prog[(s.member i).round]? = some r) :
    r.stop ((s.member i).got.map Post.line) ↔
      ∀ j, r.writes j (linesOf j (s.member i).round (s.member i).got) :=
  r.stop_iff (fun _ hp => h.got_round hp) (h.got_linesOf hr)

/-- When the reader stops, it has read the whole round. -/
theorem got_eq (h : Ok prog s) {r : Round ι α} (hr : prog[(s.member i).round]? = some r)
    (hstop : r.stop ((s.member i).got.map Post.line)) :
    (s.member i).got = ofRound (s.member i).round s.wire := by
  refine eq_of_linesOf (h.member i).got fun j => ?_
  have hj := (h.stop_iff hr).1 hstop j
  have hpre : linesOf j (s.member i).round (s.member i).got <+:
      linesOf j (s.member i).round s.wire := by
    rw [← linesOf_ofRound (l := s.wire)]
    exact linesOf_isPrefix (h.member i).got
  have hne : linesOf j (s.member i).round s.wire ≠ [] := fun h0 =>
    r.ne_nil hj (List.prefix_nil.1 (h0 ▸ hpre))
  obtain ⟨r', w, hr', hw, _, hw'⟩ := h.wire_isPrefix hne
  obtain rfl : r = r' := Option.some.inj (hr.symm.trans hr')
  have heq := r.eq_of_isPrefix hj hw (hpre.trans hw')
  rw [heq]
  exact (hw'.eq_of_length_le (heq ▸ hpre.length_le)).symm

/-- The lines of the rounds that a member has left stand first in the common order. -/
theorem log_flatten (h : Ok prog s) (i : ι) :
    (s.member i).log.flatten = s.wire.filter fun p => p.round < (s.member i).round := by
  rw [(h.member i).log, h.sorted.filter_lt, List.flatMap_def]

/-- **The line that a member reads next belongs to its round.** -/
theorem read_next (h : Ok prog s) {r : Round ι α} (hr : prog[(s.member i).round]? = some r)
    (hgo : ¬ r.stop ((s.member i).got.map Post.line))
    (hp : s.wire[((s.member i).log.flatten ++ (s.member i).got).length]? = some p) :
    (s.member i).got ++ [p] <+: ofRound (s.member i).round s.wire := by
  obtain ⟨rest, hrest⟩ := (h.member i).got
  -- the order consists of the rounds that have been left, this round, and later rounds
  have hsplit : s.wire = (s.member i).log.flatten ++ ((s.member i).got ++ (rest ++
      s.wire.filter fun p => (s.member i).round + 1 ≤ p.round)) := by
    conv_lhs => rw [h.sorted.split ((s.member i).round + 1)]
    rw [h.sorted.filter_lt, List.range_succ, List.flatMap_append, List.flatMap_singleton,
      ← h.sorted.filter_lt, ← h.log_flatten, ← hrest]
    simp only [List.append_assoc]
  rw [hsplit, ← List.append_assoc, List.getElem?_append_right le_rfl, Nat.sub_self] at hp
  cases rest with
  | cons q rest =>
      obtain rfl : q = p := by simpa using hp
      exact ⟨rest, by rw [List.append_assoc]; exact hrest⟩
  | nil =>
      -- otherwise its writer has left the round, and the reader would have stopped
      rw [List.append_nil] at hrest
      rw [List.nil_append] at hp
      obtain ⟨hmem, hlate⟩ := List.mem_filter.1 (List.mem_of_getElem? hp)
      have hround := h.le_round_wire hmem
      have hlate' : (s.member i).round + 1 ≤ p.round := by simpa using hlate
      obtain ⟨r', hr', hall⟩ := h.complete p.writer (s.member i).round (by omega)
      obtain rfl : r = r' := Option.some.inj (hr.symm.trans hr')
      refine absurd ((h.stop_iff hr).2 fun j => ?_) hgo
      rw [hrest, linesOf_ofRound]
      exact hall j

/-! ### What a step keeps -/

/-- A member changes and stays in its round. -/
theorem setMember (h : Ok prog s) {m : Member ι α}
    (hm : MemberOk prog s.wire (s.pipe i) i m) (hround : m.round = (s.member i).round) :
    Ok prog (s.setMember i m) where
  member j := by
    by_cases hj : j = i
    · subst hj
      simpa [State.setMember] using hm
    · simpa [State.setMember, hj] using h.member j
  sorted := h.sorted
  complete j k hk := by
    refine h.complete j k ?_
    by_cases hj : j = i
    · subst hj
      simpa [State.setMember, hround] using hk
    · simpa [State.setMember, hj] using hk

theorem enter (h : Ok prog s) {r : Round ι α} {w : List α}
    (hout : (s.member i).inside = false) (hr : prog[(s.member i).round]? = some r)
    (hw : r.writes i w) :
    Ok prog (s.setMember i { s.member i with
      inside := true, toWrite := w, chosen := (s.member i).chosen ++ [w] }) := by
  have hm := h.member i
  have hlen := hm.length_chosen
  rw [hout] at hlen
  simp only [Bool.false_eq_true, if_false, Nat.add_zero] at hlen
  refine h.setMember ?_ rfl
  exact
    { account := fun k => by
        have hk := hm.account k
        rw [(hm.outside hout).1, ite_self, List.append_nil] at hk
        rw [hk]
        by_cases hround : k = (s.member i).round
        · subst hround
          simp [← hlen]
        · rw [if_neg hround, List.append_nil]
          by_cases hlt : k < (s.member i).chosen.length
          · rw [List.getElem?_append_left hlt]
          · rw [List.getElem?_eq_none (by omega), List.getElem?_eq_none (by simp; omega)]
      own := hm.own
      length_chosen := by simp [hlen]
      outside := fun h' => by cases h'
      writes := fun k w' hk => by
        by_cases hlt : k < (s.member i).chosen.length
        · rw [List.getElem?_append_left hlt] at hk
          exact hm.writes k w' hk
        · rw [List.getElem?_append_right (not_lt.1 hlt), List.getElem?_singleton] at hk
          split at hk
          · cases hk
            exact ⟨r, by rw [← hr]; congr 1; omega, hw⟩
          · cases hk
      log := hm.log
      got := hm.got }

theorem write (h : Ok prog s) {a : α} {w : List α} (hw : (s.member i).toWrite = a :: w) :
    Ok prog ((s.setMember i { s.member i with toWrite := w }).setPipe i
      (s.pipe i ++ [⟨i, (s.member i).round, a⟩])) := by
  have hm := h.member i
  refine ⟨fun j => ?_, h.sorted, fun j k hk => h.complete j k ?_⟩
  · by_cases hj : j = i
    · subst hj
      simp only [State.setPipe, State.setMember, Function.update_self]
      exact
        { account := fun k => by
            have hk := hm.account k
            rw [← hk, hw, linesOf_append, linesOf_single]
            by_cases hround : k = (s.member j).round
            · simp [hround]
            · simp [hround, Ne.symm hround]
          own := fun p hp => by
            rcases List.mem_append.1 hp with hp | hp
            · exact hm.own p hp
            · rw [List.mem_singleton.1 hp]
          length_chosen := hm.length_chosen
          outside := fun hout => by
            rw [(hm.outside hout).1] at hw
            cases hw
          writes := hm.writes
          log := hm.log
          got := hm.got }
    · simpa [State.setPipe, State.setMember, hj] using h.member j
  · by_cases hj : j = i
    · subst hj
      simpa [State.setPipe, State.setMember] using hk
    · simpa [State.setPipe, State.setMember, hj] using hk

theorem post (h : Ok prog s) {l : List (Post ι α)} (hl : s.pipe i = p :: l) :
    Ok prog (s.post i p l) := by
  have hmem : p ∈ s.pipe i := by simp [hl]
  have hown := (h.member i).own p hmem
  have hle := h.round_le_pipe hmem
  refine ⟨fun j => ?_, ?_, fun j k hk => ?_⟩
  · have hm := h.member j
    exact
      { account := fun k => by
          show linesOf j k (s.wire ++ [p]) ++ linesOf j k (Function.update s.pipe i l j) ++
            (if k = (s.member j).round then (s.member j).toWrite else []) =
              ((s.member j).chosen[k]?).getD []
          rw [← hm.account k, linesOf_append]
          by_cases hj : j = i
          · subst hj
            simp only [Function.update_self]
            rw [hl, linesOf_cons (l := l)]
            simp only [List.append_assoc]
          · have hne : ¬ (p.writer = j ∧ p.round = k) := fun h' => hj (h'.1.symm.trans hown)
            rw [linesOf_single, if_neg hne, List.append_nil, Function.update_of_ne hj]
        own := fun q hq => by
          by_cases hj : j = i
          · subst hj
            refine hm.own q ?_
            rw [hl]
            exact List.mem_cons_of_mem _ (by simpa [State.post] using hq)
          · exact hm.own q (by simpa [State.post, hj] using hq)
        length_chosen := hm.length_chosen
        outside := hm.outside
        writes := hm.writes
        -- the rounds that have been left are not touched
        log := by
          show (s.member j).log = (List.range (s.member j).round).map fun k =>
            ofRound k (s.wire ++ [p])
          rw [hm.log]
          refine List.map_congr_left fun k hk => ?_
          have hk' := List.mem_range.1 hk
          have := hle j
          rw [ofRound_append, ofRound_of_ne (k := k) (by omega), List.append_nil]
        got := hm.got.trans (by
          show ofRound (s.member j).round s.wire <+: ofRound (s.member j).round (s.wire ++ [p])
          rw [ofRound_append]
          exact List.prefix_append _ _) }
  · refine List.pairwise_append.2 ⟨h.sorted, List.pairwise_singleton _ _, fun q hq q' hq' => ?_⟩
    rw [List.mem_singleton.1 hq']
    exact (h.le_round_wire hq).trans (hle q.writer)
  · obtain ⟨r, hr, hall⟩ := h.complete j k hk
    have hk' : k < (s.member j).round := hk
    have := hle j
    refine ⟨r, hr, fun j' => ?_⟩
    show r.writes j' (linesOf j' k (s.wire ++ [p]))
    rw [linesOf_append, linesOf_single, if_neg fun h' => by omega, List.append_nil]
    exact hall j'

theorem read (h : Ok prog s) {r : Round ι α} (hin : (s.member i).inside = true)
    (hr : prog[(s.member i).round]? = some r)
    (hgo : ¬ r.stop ((s.member i).got.map Post.line))
    (hp : s.wire[((s.member i).log.flatten ++ (s.member i).got).length]? = some p) :
    Ok prog (s.setMember i { s.member i with got := (s.member i).got ++ [p] }) := by
  have hm := h.member i
  refine h.setMember ?_ rfl
  exact
    { account := hm.account
      own := hm.own
      length_chosen := hm.length_chosen
      outside := fun hout => by rw [show (s.member i).inside = false from hout] at hin; cases hin
      writes := hm.writes
      log := hm.log
      got := h.read_next hr hgo hp }

theorem leave (h : Ok prog s) {r : Round ι α} (hin : (s.member i).inside = true)
    (hw : (s.member i).toWrite = []) (hr : prog[(s.member i).round]? = some r)
    (hstop : r.stop ((s.member i).got.map Post.line)) :
    Ok prog (s.setMember i { s.member i with
      round := (s.member i).round + 1, inside := false, got := [],
      log := (s.member i).log ++ [(s.member i).got] }) := by
  have hm := h.member i
  have hgot := h.got_eq hr hstop
  have hall : ∀ j, r.writes j (linesOf j (s.member i).round s.wire) := by
    intro j
    have := (h.stop_iff hr).1 hstop j
    rwa [hgot, linesOf_ofRound] at this
  refine ⟨fun j => ?_, h.sorted, fun j k hk => ?_⟩
  · by_cases hj : j = i
    · subst hj
      simp only [State.setMember, Function.update_self]
      exact
        { account := fun k => by
            have hk := hm.account k
            rw [hw, ite_self] at hk
            simpa [hw] using hk
          own := hm.own
          length_chosen := by simp [hm.length_chosen, hin]
          outside := fun _ => ⟨hw, rfl⟩
          writes := hm.writes
          log := by rw [hm.log, hgot, List.range_succ, List.map_append, List.map_singleton]
          got := List.nil_prefix }
    · simpa [State.setMember, hj] using h.member j
  · by_cases hj : j = i
    · subst hj
      have hk' : k < (s.member j).round + 1 := by simpa [State.setMember] using hk
      rcases Nat.lt_or_eq_of_le (Nat.le_of_lt_succ hk') with hlt | rfl
      · exact h.complete j k hlt
      · exact ⟨r, hr, hall⟩
    · exact h.complete j k (by simpa [State.setMember, hj] using hk)

theorem step (h : Ok prog s) (hst : Step prog s t) : Ok prog t := by
  cases hst with
  | enter hout hr hw => exact h.enter hout hr hw
  | write hw => exact h.write hw
  | post hl => exact h.post hl
  | read hin _ hr hgo hp => exact h.read hin hr hgo hp
  | leave hin hw hr hstop => exact h.leave hin hw hr hstop

/-- **A member has read exactly the lines of the rounds it has left**, in the common order, and the
first lines of the round it is in. -/
theorem log_eq (h : Ok prog s) (hk : k < (s.member i).round) :
    (s.member i).log[k]? = some (ofRound k s.wire) := by
  rw [(h.member i).log, List.getElem?_map, List.getElem?_range hk, Option.map_some]

end Ok

/-- **Every reachable state meets the invariant.** -/
theorem ok_of_reach {prog : List (Round ι α)} {s : State ι α} (h : Reachable prog s) :
    Ok prog s := by
  refine h.inv ?_ fun _ _ => Ok.step
  rintro _ rfl
  exact Ok.initial

end Collective

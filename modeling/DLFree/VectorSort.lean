/-
**The sort that `std/vector.c` has without `qsort`.**

Where the C library has no `qsort`, `vector_sort` partitions in place around the first element.  It
hands the comparator the elements themselves, while `qsort` and the typed wrappers of `vector_sort`
hand over pointers to the slots; it looks for an element below the pivot without a lower bound; it
skips an element after each exchange; and it reads the first slot of an empty vector.

The comparator is given the benefit of the doubt here: it compares the elements, whatever the form
of its arguments, and the form of every call is recorded.

Main definitions:

* `CmpArg`, `SortState` — an argument of the comparator; the slots and the calls made so far;
* `qsortFallback`, `vectorSort` — `_qsort` and the fallback of `vector_sort`;
* `SortsLikeQsort` — the fallback does what `qsort` does.

Main results:

* `vectorSort_least_first` — a least element in front of a greater one sends the search below the
  vector;
* `sortsLikeQsort_iff` — **the fallback does what `qsort` does exactly on one element**.
-/

import DLFree.VectorBuf

set_option relaxedAutoImplicit false
set_option autoImplicit false

namespace DLFree

variable {α : Type}

/-! ### The sort -/

/-- An argument of the comparator: a pointer to a slot of the vector, or an element itself. -/
inductive CmpArg (α : Type) where
  | slot (i : ℤ)
  | item (x : α)
  deriving DecidableEq

/-- The slots of the vector, and the calls of the comparator so far. -/
structure SortState (α : Type) where
  vec : List α
  calls : List (CmpArg α × CmpArg α)
  deriving DecidableEq

/-- A call `cmp(x, y)` of the comparator. -/
def SortState.call (st : SortState α) (x y : CmpArg α) : SortState α :=
  { st with calls := st.calls ++ [(x, y)] }

/-- `_swap` of two slots of the vector. -/
def SortState.swap (st : SortState α) (p q : ℤ) : Except Abort (SortState α) := do
  let vec ← slotSwap st.vec p q
  Except.ok { st with vec }

section Code

variable (cmp : α → α → ℤ)

/-- `while(cmp(pivot, vec[j]) <= 0) j--;` -/
def qsortDown (pivot : α) : ℕ → SortState α → ℤ → Except Abort (SortState α × ℤ)
  | 0, _, _ => Except.error Abort.diverges
  | fuel + 1, st, j => do
      let y ← slotLoad st.vec j
      let st := st.call (.item pivot) (.item y)
      if cmp pivot y ≤ 0 then qsortDown pivot fuel st (j - 1) else Except.ok (st, j)

/-- The `for` loop of the partition, which returns the final `i`. -/
def qsortScan (pivot : α) : ℕ → SortState α → ℤ → ℤ → Except Abort (SortState α × ℤ)
  | 0, _, _, _ => Except.error Abort.diverges
  | fuel + 1, st, i, j =>
      if i < j then do
        let x ← slotLoad st.vec i
        let st := st.call (.item x) (.item pivot)
        if cmp x pivot ≤ 0 then qsortScan pivot fuel st (i + 1) j
        else do
          let (st, j) ← qsortDown cmp pivot (st.vec.length + 1) st j
          if i < j then do
            let st ← st.swap i j
            -- `i++` after the exchange, and once more in the head of the loop
            qsortScan pivot fuel st (i + 1 + 1) j
          else Except.ok (st, i)
      else Except.ok (st, i)

/-- `_qsort`. -/
def qsortFallback : ℕ → SortState α → ℤ → ℤ → Except Abort (SortState α)
  | 0, _, _, _ => Except.error Abort.diverges
  | fuel + 1, st, start, finish => do
      let pivot ← slotLoad st.vec start
      let st ← st.swap start finish
      let (st, i) ← qsortScan cmp pivot (st.vec.length + 1) st start finish
      let st ← st.swap finish i
      let st ← (if start < i - 1 then qsortFallback fuel st start (i - 1) else Except.ok st)
      if i + 1 < finish then qsortFallback fuel st (i + 1) finish else Except.ok st

/-- `vector_sort` without `qsort`. -/
def vectorSort (vec : List α) : Except Abort (SortState α) :=
  qsortFallback cmp (vec.length + 1) ⟨vec, []⟩ 0 ((vec.length : ℤ) - 1)

/-- The fallback does what `qsort` does: it returns, having used only slots of the vector, has
called the comparator with pointers to slots only, and leaves the elements in order. -/
def SortsLikeQsort (vec : List α) : Prop :=
  ∃ st, vectorSort cmp vec = Except.ok st ∧
    (∀ call ∈ st.calls, ∃ i k, call = (CmpArg.slot i, CmpArg.slot k)) ∧
    st.vec.Perm vec ∧ st.vec.Pairwise fun a b => cmp a b ≤ 0

end Code

/-! ### What a sort that returns has done -/

/-- The slots are rearranged, and the comparator is called with elements only. -/
structure SortState.Later (st st' : SortState α) : Prop where
  perm : st'.vec.Perm st.vec
  calls : ∃ made : List (α × α),
    st'.calls = st.calls ++ made.map fun p => (CmpArg.item p.1, CmpArg.item p.2)

namespace SortState.Later

variable {st st' st'' : SortState α} {x y : α}

theorem refl (st : SortState α) : st.Later st := ⟨List.Perm.refl _, [], by simp⟩

theorem trans (h : st.Later st') (h' : st'.Later st'') : st.Later st'' := by
  obtain ⟨made, hmade⟩ := h.calls
  obtain ⟨made', hmade'⟩ := h'.calls
  exact ⟨h'.perm.trans h.perm, made ++ made', by rw [hmade', hmade]; simp⟩

theorem call (st : SortState α) (x y : α) : st.Later (st.call (.item x) (.item y)) :=
  ⟨List.Perm.refl _, [(x, y)], rfl⟩

theorem swap {p q : ℤ} (h : st.swap p q = Except.ok st') : st.Later st' ∧ st'.calls = st.calls := by
  obtain ⟨vec, hvec, h⟩ := bind_eq_ok.1 h
  cases h
  exact ⟨⟨slotSwap_perm hvec, [], by simp⟩, rfl⟩

/-- Calls that were made stay made. -/
theorem mem_calls (h : st.Later st') {c : CmpArg α × CmpArg α} (hc : c ∈ st.calls) :
    c ∈ st'.calls := by
  obtain ⟨made, hmade⟩ := h.calls
  rw [hmade]
  exact List.mem_append_left _ hc

end SortState.Later

section Later

variable {cmp : α → α → ℤ} {pivot : α} {st st' : SortState α}

theorem qsortDown_later {fuel : ℕ} {j j' : ℤ}
    (h : qsortDown cmp pivot fuel st j = Except.ok (st', j')) : st.Later st' := by
  induction fuel generalizing st j with
  | zero => cases h
  | succ fuel ih =>
      obtain ⟨y, _, h⟩ := bind_eq_ok.1 h
      have hcall := SortState.Later.call st pivot y
      dsimp only at h
      split at h
      · exact hcall.trans (ih h)
      · cases h
        exact hcall

/-- A scan of two indices or more calls the comparator with elements. -/
theorem qsortScan_later {fuel : ℕ} {i j i' : ℤ}
    (h : qsortScan cmp pivot fuel st i j = Except.ok (st', i')) :
    st.Later st' ∧ (i < j → ∃ x, (CmpArg.item x, CmpArg.item pivot) ∈ st'.calls) := by
  induction fuel generalizing st i j with
  | zero => cases h
  | succ fuel ih =>
      unfold qsortScan at h
      split at h
      · obtain ⟨x, _, h⟩ := bind_eq_ok.1 h
        have hcall := SortState.Later.call st x pivot
        have hmem : (CmpArg.item x, CmpArg.item pivot) ∈
            (st.call (.item x) (.item pivot)).calls := by simp [SortState.call]
        -- whatever follows keeps the call that is recorded now
        have hdone : ∀ {st''}, (st.call (.item x) (.item pivot)).Later st'' →
            st.Later st'' ∧ (i < j → ∃ x, (CmpArg.item x, CmpArg.item pivot) ∈ st''.calls) :=
          fun hlater => ⟨hcall.trans hlater, fun _ => ⟨x, hlater.mem_calls hmem⟩⟩
        dsimp only at h
        split at h
        · exact hdone (ih h).1
        · obtain ⟨⟨st₁, j₁⟩, hdown, h⟩ := bind_eq_ok.1 h
          have hlater := qsortDown_later hdown
          dsimp only at h
          split at h
          · obtain ⟨st₂, hswap, h⟩ := bind_eq_ok.1 h
            exact hdone (hlater.trans ((SortState.Later.swap hswap).1.trans (ih h).1))
          · cases h
            exact hdone hlater
      · rename_i hij
        cases h
        exact ⟨SortState.Later.refl _, fun hlt => absurd hlt hij⟩

theorem qsortFallback_later {fuel : ℕ} {start finish : ℤ}
    (h : qsortFallback cmp fuel st start finish = Except.ok st') :
    st.Later st' ∧ (start < finish → ∃ x y, (CmpArg.item x, CmpArg.item y) ∈ st'.calls) := by
  induction fuel generalizing st st' start finish with
  | zero => cases h
  | succ fuel ih =>
      obtain ⟨pivot, _, h⟩ := bind_eq_ok.1 h
      obtain ⟨st₁, hswap₁, h⟩ := bind_eq_ok.1 h
      obtain ⟨⟨st₂, i⟩, hscan, h⟩ := bind_eq_ok.1 h
      obtain ⟨st₃, hswap₂, h⟩ := bind_eq_ok.1 h
      obtain ⟨st₄, hbefore, hafter⟩ := bind_eq_ok.1 h
      obtain ⟨hscan, hcalled⟩ := qsortScan_later hscan
      have h₄ : st₃.Later st₄ := by
        split at hbefore
        · exact (ih hbefore).1
        · cases hbefore
          exact SortState.Later.refl _
      have h₅ : st₄.Later st' := by
        split at hafter
        · exact (ih hafter).1
        · cases hafter
          exact SortState.Later.refl _
      have hrest := (SortState.Later.swap hswap₂).1.trans (h₄.trans h₅)
      refine ⟨(SortState.Later.swap hswap₁).1.trans (hscan.trans hrest), fun hlt => ?_⟩
      obtain ⟨x, hx⟩ := hcalled hlt
      exact ⟨x, pivot, hrest.mem_calls hx⟩

/-- **A sort that returns has rearranged the elements.** -/
theorem vectorSort_perm {vec : List α} (h : vectorSort cmp vec = Except.ok st) :
    st.vec.Perm vec :=
  (qsortFallback_later h).1.perm

end Later

/-! ### Sorted vectors -/

section LeastFirst

variable {cmp : α → α → ℤ} {pivot : α} {st : SortState α}

/-- The search from the index `k - 1` down passes every element that is not below the pivot, and
then the start of the vector. -/
theorem qsortDown_least (hleast : ∀ x ∈ st.vec, cmp pivot x ≤ 0) {k fuel : ℕ}
    (hk : k ≤ st.vec.length) (hfuel : k < fuel) :
    qsortDown cmp pivot fuel st ((k : ℤ) - 1) = Except.error Abort.badAccess := by
  induction k generalizing fuel st with
  | zero =>
      obtain ⟨fuel, rfl⟩ := Nat.exists_eq_succ_of_ne_zero (Nat.ne_of_gt hfuel)
      rw [qsortDown, slotLoad_of_neg (by omega)]
      rfl
  | succ k ih =>
      obtain ⟨fuel, rfl⟩ := Nat.exists_eq_succ_of_ne_zero (Nat.ne_of_gt (Nat.zero_lt_of_lt hfuel))
      have hindex : ((k + 1 : ℕ) : ℤ) - 1 = (k : ℕ) := by omega
      have hload : slotLoad st.vec (k : ℕ) = Except.ok st.vec[k] :=
        slotLoad_eq_ok (List.getElem?_eq_getElem hk)
      rw [hindex, qsortDown, hload, ok_bind, if_pos (hleast _ (List.getElem_mem hk))]
      have hleast' : ∀ x ∈ (st.call (.item pivot) (.item st.vec[k])).vec, cmp pivot x ≤ 0 := hleast
      exact ih hleast' (Nat.le_of_succ_le hk) (Nat.lt_of_succ_lt_succ hfuel)

/-- The scan comes to the first element above the pivot, and searches in vain from there. -/
theorem qsortScan_least (hleast : ∀ x ∈ st.vec, cmp pivot x ≤ 0) (A B : List α)
    (hvec : st.vec = A ++ (B ++ [pivot])) (hgt : ∃ x ∈ B, ¬ cmp x pivot ≤ 0) {fuel : ℕ}
    (hfuel : B.length < fuel) :
    qsortScan cmp pivot fuel st A.length ((st.vec.length : ℤ) - 1) =
      Except.error Abort.badAccess := by
  induction B generalizing A fuel st with
  | nil =>
      obtain ⟨x, hx, _⟩ := hgt
      cases hx
  | cons b B ih =>
      obtain ⟨fuel, rfl⟩ := Nat.exists_eq_succ_of_ne_zero (Nat.ne_of_gt (Nat.zero_lt_of_lt hfuel))
      have hlt : (A.length : ℤ) < (st.vec.length : ℤ) - 1 := by
        rw [hvec]
        simp only [List.length_append, List.length_cons, List.length_nil]
        omega
      have hload : slotLoad st.vec A.length = Except.ok b := by
        rw [hvec]
        exact slotLoad_append A b (B ++ [pivot])
      rw [qsortScan, if_pos hlt, hload, ok_bind]
      by_cases hb : cmp b pivot ≤ 0
      · have hgt' : ∃ x ∈ B, ¬ cmp x pivot ≤ 0 := by
          obtain ⟨x, hx, hxp⟩ := hgt
          rcases List.mem_cons.1 hx with rfl | hx
          · exact absurd hb hxp
          · exact ⟨x, hx, hxp⟩
        have hleast' : ∀ x ∈ (st.call (.item b) (.item pivot)).vec, cmp pivot x ≤ 0 := hleast
        have hstep := ih hleast' (A ++ [b])
          (by rw [SortState.call, hvec]; simp) hgt' (Nat.lt_of_succ_lt_succ hfuel)
        have hindex : ((A ++ [b]).length : ℤ) = A.length + 1 := by simp
        rw [hindex] at hstep
        rw [if_pos hb]
        exact hstep
      · -- no element is below the pivot, so the search from above does not stop
        rw [if_neg hb]
        have hdown := qsortDown_least
          (show ∀ x ∈ (st.call (.item b) (.item pivot)).vec, cmp pivot x ≤ 0 from hleast)
          (k := st.vec.length) le_rfl (Nat.lt_succ_self st.vec.length)
        change (qsortDown cmp pivot (st.vec.length + 1) (st.call (.item b) (.item pivot))
          ((st.vec.length : ℤ) - 1) >>= _) = _
        rw [hdown]
        rfl

/-- **With a least element in front and a greater one behind it, the search for an element below the
pivot leaves the vector**; so every sorted vector of different elements makes the sort fail. -/
theorem vectorSort_least_first {a : α} {rest : List α} (hleast : ∀ x ∈ a :: rest, cmp a x ≤ 0)
    (hgt : ∃ x ∈ rest, ¬ cmp x a ≤ 0) :
    vectorSort cmp (a :: rest) = Except.error Abort.badAccess := by
  rcases List.eq_nil_or_concat' rest with rfl | ⟨ys, z, rfl⟩
  · obtain ⟨x, hx, _⟩ := hgt
    cases hx
  have hswap : slotSwap (a :: (ys ++ [z])) 0 (((a :: (ys ++ [z])).length : ℤ) - 1) =
      Except.ok (z :: (ys ++ [a])) :=
    slotSwap_append [] a ys z [] rfl (by simp; omega)
  have hlen : (a :: (ys ++ [z])).length = (z :: (ys ++ [a])).length := by simp
  have hleast' : ∀ x ∈ (⟨z :: (ys ++ [a]), []⟩ : SortState α).vec, cmp a x ≤ 0 :=
    fun x hx => hleast x (by simp at hx ⊢; tauto)
  have hscan := qsortScan_least hleast' [] (z :: ys) (by simp)
    (by obtain ⟨x, hx, hxa⟩ := hgt; exact ⟨x, by simp at hx ⊢; tauto, hxa⟩)
    (show (z :: ys).length < (z :: (ys ++ [a])).length + 1 by simp)
  have hload : slotLoad (a :: (ys ++ [z])) 0 = Except.ok a := slotLoad_append [] a (ys ++ [z])
  rw [vectorSort, qsortFallback, hload, ok_bind, SortState.swap, hswap, ok_bind, ok_bind, hlen]
  change (qsortScan cmp a _ ⟨z :: (ys ++ [a]), []⟩ ([] : List α).length _ >>= _) = _
  rw [hscan]
  rfl

end LeastFirst

/-- `[3, 4, 1, 2, 5]` comes back out of order: after the exchange of `4` and `2` the scan skips an
element. -/
example : (vectorSort (fun a b : ℤ => a - b) [3, 4, 1, 2, 5]).map SortState.vec =
    Except.ok [1, 2, 4, 3, 5] := by decide

/-! ### Where the fallback does what `qsort` does -/

/-- **The fallback does what `qsort` does exactly on one element**: it reads outside an empty
vector, and it hands every comparison of a longer one the elements instead of their slots. -/
theorem sortsLikeQsort_iff (cmp : α → α → ℤ) (vec : List α) :
    SortsLikeQsort cmp vec ↔ vec.length = 1 := by
  constructor
  · rintro ⟨st, hsort, hslots, _⟩
    obtain ⟨_, hcalled⟩ := qsortFallback_later hsort
    match vec with
    | [] => cases hsort
    | [_] => rfl
    | _ :: _ :: rest =>
        obtain ⟨x, y, hcall⟩ := hcalled (by simp only [List.length_cons]; omega)
        obtain ⟨i, k, heq⟩ := hslots _ hcall
        cases heq
  · intro hlen
    obtain ⟨x, rfl⟩ := List.length_eq_one_iff.1 hlen
    refine ⟨⟨[x], []⟩, rfl, fun call hcall => ?_, List.Perm.refl _, List.pairwise_singleton _ _⟩
    cases hcall

/-- Two numbers in order are not sorted as `qsort` does: the sort reads below the vector. -/
theorem not_sortsLikeQsort : ¬ ∀ (cmp : ℤ → ℤ → ℤ) (vec : List ℤ), TotalCmp cmp →
    SortsLikeQsort cmp vec := by
  intro hall
  have hcmp : TotalCmp fun a b : ℤ => a - b := ⟨fun a b => by omega, fun a b c _ _ => by omega⟩
  obtain ⟨st, hst, _⟩ := hall (fun a b => a - b) [1, 2] hcmp
  have hbad : vectorSort (fun a b : ℤ => a - b) [1, 2] = Except.error Abort.badAccess := by decide
  rw [hbad] at hst
  cases hst

end DLFree

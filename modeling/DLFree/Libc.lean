/-
**What the program uses of the C run time, and the vectors of `std/vector.c`.**

A call of the source either returns or ends the process: an `assert` fails, an `exit(1)` is taken,
memory is used that is not allocated, or a loop runs forever.  `Abort` names these ends, and a
function of the source that can meet one returns `Except Abort`.

`rand` after `srand(seed)` is a stream that the seed determines, and `qsort` is a function that
returns some sorted rearrangement of its input; both are carried by `Libc`, so that every result
holds for every C library.

Main definitions:

* `Abort` — the ways a call does not return;
* `Libc` — `rand` and `qsort`, with what the standard promises of `qsort`;
* `vectorShuffle` — `vector_shuffle`;
* `floatFormat`, `floatRound`, `floatAdd` — the arithmetic of `float`.

Main results:

* `vectorShuffle_perm` — a shuffle rearranges its vector, whatever `rand` returns;
* `Libc.insertion` — a C library with the required properties exists.
-/

import DLFree.FloatRound
import Mathlib.Data.List.Sort
import Mathlib.Data.Rat.Floor

set_option relaxedAutoImplicit false
set_option autoImplicit false

namespace DLFree

/-- The ways in which a call of the source does not return. -/
inductive Abort
  /-- an `assert` fails, or the process ends itself with an error message -/
  | assertion
  /-- `calc_rt` prints "unreachable" and exits -/
  | unreachable
  /-- memory is read or written that is not allocated -/
  | badAccess
  /-- a loop never ends -/
  | diverges
  deriving DecidableEq, Repr

/-- `assert(b)`. -/
def cAssert (b : Bool) : Except Abort Unit :=
  if b then Except.ok () else Except.error Abort.assertion

@[simp] theorem cAssert_eq_ok {b : Bool} {u : Unit} : cAssert b = Except.ok u ↔ b = true := by
  cases b <;> simp [cAssert]

@[simp] theorem cAssert_true : cAssert true = Except.ok () := rfl

@[simp] theorem cAssert_false : cAssert false = Except.error Abort.assertion := rfl

theorem cAssert_of {p : Prop} [Decidable p] (h : p) : cAssert p = Except.ok () := by
  simp [cAssert, h]

/-- A sequence of calls returns exactly when the first returns and then the second does. -/
theorem bind_eq_ok {α β : Type} {x : Except Abort α} {f : α → Except Abort β} {b : β} :
    (x >>= f) = Except.ok b ↔ ∃ a, x = Except.ok a ∧ f a = Except.ok b := by
  cases x with
  | error e =>
      constructor
      · intro h; cases h
      · rintro ⟨a, h, _⟩; cases h
  | ok a =>
      constructor
      · intro h; exact ⟨a, rfl, h⟩
      · rintro ⟨a', h, hb⟩
        cases h
        exact hb

/-- What follows a call that has returned. -/
theorem ok_bind {α β : Type} {a : α} {f : α → Except Abort β} : (Except.ok a >>= f) = f a := rfl

/-- A loop returns when each of its steps does, and keeps what they keep. -/
theorem foldlM_total {α β : Type} {I : β → Prop} {f : β → α → Except Abort β} {l : List α}
    (hf : ∀ x ∈ l, ∀ b, I b → ∃ b', f b x = Except.ok b' ∧ I b') {b : β} (hb : I b) :
    ∃ b', l.foldlM f b = Except.ok b' ∧ I b' := by
  induction l generalizing b with
  | nil => exact ⟨b, rfl, hb⟩
  | cons x l ih =>
      obtain ⟨b', hb', hI⟩ := hf x List.mem_cons_self b hb
      rw [List.foldlM_cons, hb']
      exact ih (fun y hy => hf y (List.mem_cons_of_mem _ hy)) hI

/-- A loop returns when each of its steps does. -/
theorem foldlM_ok {α β : Type} {f : β → α → Except Abort β} {l : List α}
    (hf : ∀ x ∈ l, ∀ b, ∃ b', f b x = Except.ok b') (b : β) :
    ∃ b', l.foldlM f b = Except.ok b' := by
  obtain ⟨b', h, _⟩ := foldlM_total (I := fun _ => True)
    (fun x hx b _ => (hf x hx b).imp fun _ h => ⟨h, trivial⟩) (b := b) trivial
  exact ⟨b', h⟩

/-- Loops whose steps agree agree. -/
theorem foldlM_congr {α β : Type} {f f' : β → α → Except Abort β} {l : List α}
    (h : ∀ x ∈ l, ∀ b, f b x = f' b x) (b : β) : l.foldlM f b = l.foldlM f' b := by
  induction l generalizing b with
  | nil => rfl
  | cons x l ih =>
      rw [List.foldlM_cons, List.foldlM_cons, h x List.mem_cons_self]
      exact congrArg _ (funext fun b' => ih (fun y hy => h y (List.mem_cons_of_mem _ hy)) b')

/-- What every step of a loop keeps, the loop keeps. -/
theorem foldlM_keeps {α β : Type} {P : β → Prop} {f : β → α → Except Abort β} {l : List α}
    (hf : ∀ x b b', P b → f b x = Except.ok b' → P b') {b b' : β} (hb : P b)
    (h : l.foldlM f b = Except.ok b') : P b' := by
  induction l generalizing b with
  | nil =>
      cases h
      exact hb
  | cons x l ih =>
      rw [List.foldlM_cons] at h
      obtain ⟨b₁, h₁, h⟩ := bind_eq_ok.1 h
      exact ih (hf x b b₁ hb h₁) h

/-- Every step of a loop that returns has returned. -/
theorem foldlM_step {α β : Type} {f : β → α → Except Abort β} {l : List α} {x : α} (hx : x ∈ l)
    {b b' : β} (h : l.foldlM f b = Except.ok b') : ∃ b₁ b₂, f b₁ x = Except.ok b₂ := by
  induction l generalizing b with
  | nil => cases hx
  | cons y l ih =>
      rw [List.foldlM_cons] at h
      obtain ⟨b₁, h₁, h⟩ := bind_eq_ok.1 h
      rcases List.mem_cons.1 hx with rfl | hx
      · exact ⟨b, b₁, h₁⟩
      · exact ih hx h

/-- What one step of a loop sets, and all later ones set again or leave alone, is set after the
loop. -/
theorem foldlM_sets {α β γ : Type} {I : β → Prop} {get : β → γ} {v : γ} {f : β → α → Except Abort β}
    {l : List α} (hI : ∀ x ∈ l, ∀ b b', I b → f b x = Except.ok b' → I b')
    (hkeep : ∀ x ∈ l, ∀ b b', I b → f b x = Except.ok b' → get b' = v ∨ get b' = get b)
    {b b' : β} (hb : I b) (hset : get b = v ∨ ∃ x ∈ l, ∀ b b', I b → f b x = Except.ok b' → get b' = v)
    (h : l.foldlM f b = Except.ok b') : get b' = v := by
  induction l generalizing b with
  | nil =>
      cases h
      rcases hset with h | ⟨x, hx, _⟩
      · exact h
      · cases hx
  | cons x l ih =>
      rw [List.foldlM_cons] at h
      obtain ⟨b₁, h₁, h⟩ := bind_eq_ok.1 h
      refine ih (fun y hy => hI y (List.mem_cons_of_mem _ hy))
        (fun y hy => hkeep y (List.mem_cons_of_mem _ hy)) (hI x List.mem_cons_self b b₁ hb h₁) ?_ h
      rcases hkeep x List.mem_cons_self b b₁ hb h₁ with h' | h'
      · exact Or.inl h'
      · rcases hset with hv | ⟨y, hy, hv⟩
        · exact Or.inl (h'.trans hv)
        · rcases List.mem_cons.1 hy with rfl | hy
          · exact Or.inl (hv b b₁ hb h₁)
          · exact Or.inr ⟨y, hy, hv⟩

/-- `cmp` orders its arguments: its sign is that of a total preorder. -/
structure TotalCmp {α : Type} (cmp : α → α → ℤ) : Prop where
  total : ∀ a b, cmp a b ≤ 0 ∨ cmp b a ≤ 0
  trans : ∀ a b c, cmp a b ≤ 0 → cmp b c ≤ 0 → cmp a c ≤ 0

/-- The functions of the C library whose result the standard leaves open. -/
structure Libc where
  /-- `rand seed i` is the value of the `i`-th call of `rand()` after `srand(seed)`. -/
  rand : ℤ → ℕ → ℕ
  /-- `qsort` with the comparator of the source. -/
  qsort : {α : Type} → (α → α → ℤ) → List α → List α
  /-- `qsort` rearranges its input. -/
  qsort_perm : ∀ {α : Type} (cmp : α → α → ℤ) (l : List α), (qsort cmp l).Perm l
  /-- `qsort` sorts when the comparator is an order. -/
  qsort_sorted : ∀ {α : Type} (cmp : α → α → ℤ) (l : List α), TotalCmp cmp →
    (qsort cmp l).Pairwise fun a b => cmp a b ≤ 0

/-- Where the stream of `rand` stands: the last `srand`, and the number of calls since. -/
structure RandState where
  seed : ℤ
  calls : ℕ
  deriving Inhabited

/-- `srand(seed)`. -/
def srand (seed : ℤ) : RandState := ⟨seed, 0⟩

/-- The next value of `rand()`. -/
def RandState.value (lib : Libc) (r : RandState) : ℕ := lib.rand r.seed r.calls

/-- The stream after one call. -/
def RandState.next (r : RandState) : RandState := ⟨r.seed, r.calls + 1⟩

/-! ### Shuffling a vector -/

section Shuffle

variable {α : Type}

/-- The exchange of two elements of a vector. -/
def listSwap (l : List α) (i j : ℕ) : List α :=
  match l[i]?, l[j]? with
  | some a, some b => (l.set i b).set j a
  | _, _ => l

theorem listSwap_perm (l : List α) (i j : ℕ) : (listSwap l i j).Perm l := by
  unfold listSwap
  cases hi : l[i]? with
  | none => exact List.Perm.refl _
  | some a =>
      cases hj : l[j]? with
      | none => exact List.Perm.refl _
      | some b =>
          obtain ⟨hi', rfl⟩ := List.getElem?_eq_some_iff.1 hi
          obtain ⟨hj', rfl⟩ := List.getElem?_eq_some_iff.1 hj
          exact List.set_set_perm hi' hj'

/-- `vector_shuffle`: the element at each index in turn is exchanged with one at a random index. -/
def vectorShuffle (lib : Libc) (seed : ℤ) (vec : List α) : List α :=
  (List.range vec.length).foldl (fun v i => listSwap v i (lib.rand seed i % vec.length)) vec

theorem foldl_listSwap_perm (f : ℕ → ℕ) (is : List ℕ) (v : List α) :
    (is.foldl (fun v i => listSwap v i (f i)) v).Perm v := by
  induction is generalizing v with
  | nil => exact List.Perm.refl _
  | cons i is ih => exact (ih _).trans (listSwap_perm v i (f i))

/-- **A shuffle rearranges its vector.** -/
theorem vectorShuffle_perm (lib : Libc) (seed : ℤ) (vec : List α) :
    (vectorShuffle lib seed vec).Perm vec :=
  foldl_listSwap_perm _ _ vec

end Shuffle

/-! ### A library -/

/-- A C library with the given `rand`, whose `qsort` is the insertion sort. -/
def Libc.insertion (rand : ℤ → ℕ → ℕ) : Libc where
  rand := rand
  qsort cmp l := l.insertionSort fun a b => cmp a b ≤ 0
  qsort_perm cmp l := l.perm_insertionSort _
  qsort_sorted {α} cmp l h := by
    have : Std.Total fun a b : α => cmp a b ≤ 0 := ⟨h.total⟩
    have : IsTrans α fun a b => cmp a b ≤ 0 := ⟨h.trans⟩
    exact l.pairwise_insertionSort _

/-! ### Numbers of type `float` -/

/-- The format of `float`. -/
def floatFormat : FloatRound.Format := ⟨24, -149, 128⟩

/-- A result that is stored in a `float`. -/
def floatRound (x : ℚ) : ℚ := floatFormat.round x

/-- The sum of two `float`s, the second one finite. -/
def floatAdd (x y : ℚ) : ℚ := floatFormat.add x y

theorem floatRound_mono {x y : ℚ} (h : x ≤ y) : floatRound x ≤ floatRound y :=
  FloatRound.Format.round_mono (by decide) h

/-- Whole numbers of at most 24 digits are not changed. -/
theorem floatRound_intCast {m : ℤ} (hm : |m| ≤ 2 ^ 24) : floatRound m = m := by
  refine FloatRound.Format.round_eq (FloatRound.Format.representable_intCast (by decide) hm)
    (by decide) ?_
  have hcast : |(m : ℚ)| ≤ 2 ^ 24 := by exact_mod_cast hm
  exact hcast.trans (by norm_num [floatFormat, FloatRound.Format.inf])

theorem floatRound_zero : floatRound 0 = 0 := by
  exact_mod_cast floatRound_intCast (m := 0) (by norm_num)

theorem floatRound_one : floatRound 1 = 1 := by
  exact_mod_cast floatRound_intCast (m := 1) (by norm_num)

theorem floatRound_nonneg {x : ℚ} (h : 0 ≤ x) : 0 ≤ floatRound x :=
  floatRound_zero ▸ floatRound_mono h

theorem one_le_floatRound {m : ℤ} (h : 1 ≤ m) : 1 ≤ floatRound m :=
  floatRound_one ▸ floatRound_mono (by exact_mod_cast h)

/-- `FLT_MAX`. -/
def fltMax : ℚ := (2 ^ 24 - 1) * 2 ^ 104

/-- The conversion of a C `float` to `int`, which drops the fractional part. -/
def truncToInt (q : ℚ) : ℤ := if 0 ≤ q then ⌊q⌋ else ⌈q⌉

/-- What `%f` scans of a number that `%.f` has printed: the nearest integer, or the even one of the
two nearest. -/
def printfRound (q : ℚ) : ℚ :=
  if q - ⌊q⌋ < 1 / 2 ∨ (q - ⌊q⌋ = 1 / 2 ∧ ⌊q⌋ % 2 = 0) then (⌊q⌋ : ℚ) else (⌊q⌋ : ℚ) + 1

end DLFree

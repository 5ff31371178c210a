/-
**Vectors in their buffers: `std/vector.c`.**

A vector is a buffer of `n` slots of which the first `c` hold its elements.  Every read and write of
a slot is checked against the buffer here, so that a call which goes past it ends as a bad access.

Deleting an element shifts the later ones down and reads one slot past the last element, which is
past the buffer exactly when the vector is full; and a full vector grows by a shift of an `int`,
which overflows for a buffer of `2 ^ 29` slots or more.

Main definitions:

* `slotLoad`, `slotStore`, `slotSwap` — reads and writes of slots;
* `CVector` and the calls `CVector.vectorAdd`, …, `CVector.vectorShuffle`;
* `VectorOp`, `vectorCall` — a call on one of the vectors that exist;
* `ListStep` — the same calls on lists.

Main results:

* `CVector.Holds.vectorAdd_iff`, `CVector.Holds.vectorDel`, `CVector.Holds.vectorRemove` — **when a
  call stays in its buffer**;
* `CVector.grows_of_lt` — a buffer of less than `2 ^ 29` slots grows;
* `CVector.Holds.call`, `VectorRun.refines` — one call, and a run of calls, on vectors and on lists;
* `vector_run` — **calls that stay in their buffers are the calls on lists**.
-/

import DLFree.Libc
import Mathlib.Data.List.Induction

set_option relaxedAutoImplicit false
set_option autoImplicit false

namespace DLFree

/-! ### Slots -/

section Slots

variable {β : Type} {buf A B : List β} {y z : β} {i : ℤ}

/-- The read of the slot `i` of a buffer. -/
def slotLoad (buf : List β) (i : ℤ) : Except Abort β :=
  if i < 0 then Except.error Abort.badAccess
  else
    match buf[i.toNat]? with
    | some y => Except.ok y
    | none => Except.error Abort.badAccess

/-- The write of the slot `i` of a buffer. -/
def slotStore (buf : List β) (i : ℤ) (y : β) : Except Abort (List β) :=
  if 0 ≤ i ∧ i < buf.length then Except.ok (buf.set i.toNat y)
  else Except.error Abort.badAccess

theorem slotLoad_eq_ok {k : ℕ} (h : buf[k]? = some y) : slotLoad buf k = Except.ok y := by
  have hk : ¬ (k : ℤ) < 0 := by omega
  simp [slotLoad, h]

theorem slotLoad_append (A : List β) (y : β) (B : List β) :
    slotLoad (A ++ y :: B) A.length = Except.ok y :=
  slotLoad_eq_ok (by simp)

theorem slotLoad_cases (h : slotLoad buf i = Except.ok y) : 0 ≤ i ∧ buf[i.toNat]? = some y := by
  unfold slotLoad at h
  split at h
  · cases h
  · rename_i hi
    refine ⟨not_lt.1 hi, ?_⟩
    cases hget : buf[i.toNat]? with
    | none =>
        rw [hget] at h
        cases h
    | some z =>
        rw [hget] at h
        cases h
        rfl

theorem slotStore_cases {buf' : List β} (h : slotStore buf i y = Except.ok buf') :
    buf' = buf.set i.toNat y := by
  unfold slotStore at h
  split at h
  · cases h
    rfl
  · cases h

theorem slotLoad_of_length_le (h : (buf.length : ℤ) ≤ i) :
    slotLoad buf i = Except.error Abort.badAccess := by
  have hnone : buf[i.toNat]? = none := List.getElem?_eq_none (by omega)
  simp [slotLoad, hnone]

theorem slotLoad_of_neg (h : i < 0) : slotLoad buf i = Except.error Abort.badAccess := if_pos h

theorem slotStore_eq_ok {k : ℕ} (h : k < buf.length) (y : β) :
    slotStore buf k y = Except.ok (buf.set k y) := by
  rw [slotStore, if_pos (by omega), Int.toNat_natCast]

theorem slotStore_append (A : List β) (y : β) (B : List β) (z : β) :
    slotStore (A ++ y :: B) A.length z = Except.ok (A ++ z :: B) := by
  rw [slotStore_eq_ok (by simp) z]
  simp

theorem slotStore_of_length_le (h : (buf.length : ℤ) ≤ i) (y : β) :
    slotStore buf i y = Except.error Abort.badAccess :=
  if_neg fun hlt => by omega

/-- The exchange of the elements in two slots. -/
def slotSwap (buf : List β) (p q : ℤ) : Except Abort (List β) := do
  let tmp ← slotLoad buf p
  let y ← slotLoad buf q
  let buf ← slotStore buf p y
  slotStore buf q tmp

/-- An exchange rearranges the slots. -/
theorem slotSwap_perm {p q : ℤ} {buf' : List β} (h : slotSwap buf p q = Except.ok buf') :
    buf'.Perm buf := by
  obtain ⟨a, ha, hrest⟩ := bind_eq_ok.1 h
  obtain ⟨b, hb, hstores⟩ := bind_eq_ok.1 hrest
  obtain ⟨buf₁, h₁, h₂⟩ := bind_eq_ok.1 hstores
  obtain ⟨hp, rfl⟩ := List.getElem?_eq_some_iff.1 (slotLoad_cases ha).2
  obtain ⟨hq, rfl⟩ := List.getElem?_eq_some_iff.1 (slotLoad_cases hb).2
  rw [slotStore_cases h₂, slotStore_cases h₁]
  exact List.set_set_perm hp hq

/-- Two elements change places. -/
theorem slotSwap_append (A : List β) (a : β) (M : List β) (b : β) (B : List β) {p q : ℤ}
    (hp : p = A.length) (hq : q = A.length + 1 + M.length) :
    slotSwap (A ++ a :: (M ++ b :: B)) p q = Except.ok (A ++ b :: (M ++ a :: B)) := by
  have hsplit : ∀ y z : β, A ++ y :: (M ++ z :: B) = (A ++ y :: M) ++ z :: B := by simp
  have hq' : q = ((A ++ a :: M).length : ℕ) := by
    rw [hq, List.length_append, List.length_cons]
    omega
  have hloadp : slotLoad (A ++ a :: (M ++ b :: B)) p = Except.ok a := by
    rw [hp]
    exact slotLoad_append A a _
  have hloadq : slotLoad (A ++ a :: (M ++ b :: B)) q = Except.ok b := by
    rw [hsplit, hq']
    exact slotLoad_append _ b B
  have hstorep : slotStore (A ++ a :: (M ++ b :: B)) p b =
      Except.ok (A ++ b :: (M ++ b :: B)) := by
    rw [hp]
    exact slotStore_append A a _ b
  have hstoreq : slotStore (A ++ b :: (M ++ b :: B)) q a =
      Except.ok (A ++ b :: (M ++ a :: B)) := by
    have hlen : (A ++ a :: M).length = (A ++ b :: M).length := by simp
    rw [hsplit b b, hq', hlen, slotStore_append, hsplit b a]
  rw [slotSwap, hloadp, ok_bind, hloadq, ok_bind, hstorep, ok_bind, hstoreq]

end Slots

/-! ### Vectors -/

/-- `struct vector`: the buffer has `n` slots, and a slot that was never written holds no element. -/
structure CVector (α : Type) where
  n : ℤ
  c : ℕ
  vec : List (Option α)

/-- `n <<= 2` for an `int`. -/
def intShl2 (n : ℤ) : ℤ := (n * 4).bmod (2 ^ 32)

/-- `std_realloc` of a buffer to `n` slots, which ends the process when there is no such memory. -/
def bufRealloc {β : Type} (buf : List (Option β)) (n : ℤ) : Except Abort (List (Option β)) :=
  if n ≤ 0 then Except.error Abort.assertion
  else Except.ok (buf.take n.toNat ++ List.replicate (n.toNat - buf.length) none)

namespace CVector

variable {α : Type}

/-- `vector_create`. -/
def vectorCreate (n : ℕ) : CVector α where
  n := n
  c := 0
  vec := List.replicate n none

/-- `vector_copy`. -/
def vectorCopy (vec : CVector α) : Except Abort (CVector α) :=
  -- the copied slots are those below `c` in both buffers
  if vec.c ≤ vec.vec.length ∧ (vec.c : ℤ) ≤ vec.n then
    Except.ok ⟨vec.n, vec.c, vec.vec.take vec.c ++ List.replicate (vec.n.toNat - vec.c) none⟩
  else Except.error Abort.badAccess

/-- The expansion of a full vector in `vector_add`. -/
def expand (vec : CVector α) : Except Abort (CVector α) :=
  if (vec.c : ℤ) = vec.n then do
    let buf ← bufRealloc vec.vec (intShl2 vec.n)
    Except.ok { vec with n := intShl2 vec.n, vec := buf }
  else Except.ok vec

/-- `vector_add`. -/
def vectorAdd (vec : CVector α) (x : α) : Except Abort (CVector α) := do
  let vec ← vec.expand
  let buf ← slotStore vec.vec vec.c (some x)
  Except.ok { vec with c := vec.c + 1, vec := buf }

/-- `vector_get`. -/
def vectorGet (vec : CVector α) (i : ℤ) : Except Abort (Option α) := do
  cAssert (i < vec.c)
  slotLoad vec.vec i

/-- `vector_last`. -/
def vectorLast (vec : CVector α) : Except Abort (Option α) := do
  cAssert (vec.c > 0)
  slotLoad vec.vec ((vec.c : ℤ) - 1)

/-- `vector_pop`. -/
def vectorPop (vec : CVector α) : Except Abort (CVector α × Option α) := do
  cAssert (vec.c > 0)
  let x ← slotLoad vec.vec ((vec.c : ℤ) - 1)
  Except.ok ({ vec with c := vec.c - 1 }, x)

/-- The loop of `vector_del` and `vector_remove` that shifts `k` elements down, from `p` on. -/
def shiftDown : ℕ → List (Option α) → ℤ → Except Abort (List (Option α))
  | 0, buf, _ => Except.ok buf
  | k + 1, buf, p => do
      let y ← slotLoad buf (p + 1)
      let buf ← slotStore buf p y
      shiftDown k buf (p + 1)

/-- `vector_del`. -/
def vectorDel (vec : CVector α) (i : ℤ) : Except Abort (CVector α × Option α) := do
  cAssert (i < vec.c)
  let x ← slotLoad vec.vec i
  let buf ← shiftDown ((vec.c : ℤ) - i).toNat vec.vec i
  Except.ok ({ vec with c := vec.c - 1, vec := buf }, x)

section Search

variable [DecidableEq α]

/-- The search of `vector_remove` and `vector_contains` among the `k` slots from `p` on: where it
stops. -/
def search (buf : List (Option α)) (x : α) : ℕ → ℤ → Except Abort ℤ
  | 0, p => Except.ok p
  | k + 1, p => do
      let y ← slotLoad buf p
      if y = some x then Except.ok p else search buf x k (p + 1)

/-- `vector_remove`. -/
def vectorRemove (vec : CVector α) (x : α) : Except Abort (CVector α × Option α) := do
  let p ← search vec.vec x vec.c 0
  cAssert (p < vec.c)
  let y ← slotLoad vec.vec p
  let buf ← shiftDown ((vec.c : ℤ) - p).toNat vec.vec p
  Except.ok ({ vec with c := vec.c - 1, vec := buf }, y)

/-- `vector_contains`. -/
def vectorContains (vec : CVector α) (x : α) : Except Abort Bool := do
  let p ← search vec.vec x vec.c 0
  Except.ok (p < vec.c)

end Search

/-- `vector_clear`. -/
def vectorClear (vec : CVector α) : CVector α := { vec with c := 0 }

/-- The loop of `vector_reverse`; it ends before `fuel` does. -/
def reverseLoop : ℕ → List (Option α) → ℤ → ℤ → Except Abort (List (Option α))
  | 0, _, _, _ => Except.error Abort.diverges
  | fuel + 1, buf, p, q =>
      if p < q then do
        let buf ← slotSwap buf p q
        reverseLoop fuel buf (p + 1) (q - 1)
      else Except.ok buf

/-- `vector_reverse`. -/
def vectorReverse (vec : CVector α) : Except Abort (CVector α) := do
  let buf ← reverseLoop (vec.c + 1) vec.vec 0 ((vec.c : ℤ) - 1)
  Except.ok { vec with vec := buf }

/-- `vector_size`. -/
def vectorSize (vec : CVector α) : ℕ := vec.c

/-- `vector_shuffle`. -/
def vectorShuffle (lib : Libc) (seed : ℤ) (vec : CVector α) : Except Abort (CVector α) := do
  let buf ← (List.range vec.c).foldlM (fun (buf : List (Option α)) (i : ℕ) =>
    slotSwap buf i ((lib.rand seed i % vec.c : ℕ) : ℤ)) vec.vec
  Except.ok { vec with vec := buf }

/-! ### What a vector holds -/

/-- The elements of the vector are `xs`: they fill the first slots of a buffer of `n` slots. -/
structure Holds (vec : CVector α) (xs : List α) : Prop where
  c : vec.c = xs.length
  n : vec.n = vec.vec.length
  slots : ∃ rest, vec.vec = xs.map some ++ rest

/-- Every slot of the buffer holds an element. -/
def Full (vec : CVector α) : Prop := (vec.c : ℤ) = vec.n

/-- A full buffer grows. -/
def Grows (vec : CVector α) : Prop := vec.n < intShl2 vec.n

variable {vec : CVector α} {xs : List α} {x : α}

theorem Holds.c_le_n (h : vec.Holds xs) : (vec.c : ℤ) ≤ vec.n := by
  obtain ⟨rest, hrest⟩ := h.slots
  rw [h.c, h.n, hrest]
  simp

/-- A vector that is not full has a slot after its elements. -/
theorem Holds.exists_slot (h : vec.Holds xs) (hfull : ¬ vec.Full) :
    ∃ r rest, vec.vec = xs.map some ++ r :: rest := by
  obtain ⟨rest, hrest⟩ := h.slots
  cases rest with
  | nil =>
      refine absurd ?_ hfull
      rw [Full, h.c, h.n, hrest]
      simp
  | cons r rest => exact ⟨r, rest, hrest⟩

/-- A full vector has no slot after its elements. -/
theorem Holds.slots_of_full (h : vec.Holds xs) (hfull : vec.Full) : vec.vec = xs.map some := by
  obtain ⟨rest, hrest⟩ := h.slots
  have hlen : (xs.length : ℤ) = xs.length + rest.length := by
    have hc := h.n
    rw [← hfull, h.c, hrest] at hc
    simpa using hc
  have hnil : rest = [] := List.length_eq_zero_iff.1 (by omega)
  rw [hrest, hnil, List.append_nil]

theorem holds_create (n : ℕ) : (vectorCreate n : CVector α).Holds [] where
  c := rfl
  n := by simp [vectorCreate]
  slots := ⟨List.replicate n none, rfl⟩

theorem Holds.load (h : vec.Holds xs) {k : ℕ} (hk : xs[k]? = some x) :
    slotLoad vec.vec k = Except.ok (some x) := by
  obtain ⟨rest, hrest⟩ := h.slots
  refine slotLoad_eq_ok ?_
  rw [hrest, List.getElem?_append_left, List.getElem?_map, hk]
  · rfl
  · obtain ⟨hlt, _⟩ := List.getElem?_eq_some_iff.1 hk
    simpa using hlt

/-! ### Adding -/

/-- The write of a new element into the slot after the others. -/
theorem Holds.store_last {n : ℤ} {r : Option α} {rest : List (Option α)}
    (hn : n = (xs.map some ++ r :: rest).length) (x : α) :
    slotStore (xs.map some ++ r :: rest) xs.length (some x) =
        Except.ok (xs.map some ++ some x :: rest) ∧
      Holds ⟨n, xs.length + 1, xs.map some ++ some x :: rest⟩ (xs ++ [x]) := by
  refine ⟨?_, by simp, by rw [hn]; simp, ⟨rest, by simp⟩⟩
  have hstore := slotStore_append (xs.map some) r rest (some x)
  rwa [List.length_map] at hstore

/-- **`vector_add` appends when there is a free slot or the buffer grows.** -/
theorem Holds.vectorAdd (h : vec.Holds xs) (hsafe : vec.Full → vec.Grows) (x : α) :
    ∃ vec', vec.vectorAdd x = Except.ok vec' ∧ vec'.Holds (xs ++ [x]) := by
  by_cases hfull : vec.Full
  · have hgrows : vec.n < intShl2 vec.n := hsafe hfull
    have hlen : vec.n = (xs.map some).length := by rw [h.n, h.slots_of_full hfull]
    have hpos : ¬ intShl2 vec.n ≤ 0 := by omega
    -- the new buffer is longer, so its first free slot is there
    have hbuf : ∃ rest, bufRealloc vec.vec (intShl2 vec.n) =
        Except.ok (xs.map some ++ none :: rest) ∧
          intShl2 vec.n = (xs.map some ++ none :: rest).length := by
      obtain ⟨k, hk⟩ : ∃ k, (intShl2 vec.n).toNat - (xs.map some).length = k + 1 :=
        Nat.exists_eq_succ_of_ne_zero (by omega)
      refine ⟨List.replicate k none, ?_, ?_⟩
      · rw [bufRealloc, if_neg hpos, h.slots_of_full hfull, hk, List.replicate_succ,
          List.take_of_length_le (by omega)]
      · rw [List.length_append, List.length_cons, List.length_replicate]
        omega
    obtain ⟨rest, hrealloc, hn⟩ := hbuf
    obtain ⟨hstore, hholds⟩ := Holds.store_last hn x
    have hexpand : vec.expand =
        Except.ok ⟨intShl2 vec.n, vec.c, xs.map some ++ none :: rest⟩ := by
      rw [expand, if_pos (show (vec.c : ℤ) = vec.n from hfull), hrealloc, ok_bind]
    refine ⟨_, ?_, hholds⟩
    rw [CVector.vectorAdd, hexpand, ok_bind, h.c, hstore, ok_bind]
  · obtain ⟨r, rest, hrest⟩ := h.exists_slot hfull
    obtain ⟨hstore, hholds⟩ := Holds.store_last (h.n.trans (by rw [hrest])) x
    have hexpand : vec.expand = Except.ok vec := if_neg hfull
    refine ⟨_, ?_, hholds⟩
    rw [CVector.vectorAdd, hexpand, ok_bind, h.c, hrest, hstore, ok_bind]

/-- **`vector_add` returns exactly then**: the write is past a buffer that did not grow. -/
theorem Holds.vectorAdd_iff (h : vec.Holds xs) (x : α) :
    (∃ vec', vec.vectorAdd x = Except.ok vec') ↔ (vec.Full → vec.Grows) := by
  constructor
  · rintro ⟨vec', hadd⟩ hfull
    by_contra hgrows
    obtain ⟨v, hv, hadd⟩ := bind_eq_ok.1 hadd
    rw [expand, if_pos (show (vec.c : ℤ) = vec.n from hfull)] at hv
    obtain ⟨buf, hbuf, hv⟩ := bind_eq_ok.1 hv
    cases hv
    obtain ⟨buf', hstore, _⟩ := bind_eq_ok.1 hadd
    have hlen : (buf.length : ℤ) ≤ vec.c := by
      rw [bufRealloc] at hbuf
      split at hbuf
      · cases hbuf
      · have hn := h.n
        have hc : (vec.c : ℤ) = vec.n := hfull
        rw [Grows, not_lt] at hgrows
        cases hbuf
        rw [List.length_append, List.length_take, List.length_replicate]
        omega
    rw [slotStore_of_length_le hlen] at hstore
    cases hstore
  · intro hsafe
    obtain ⟨vec', hadd, _⟩ := h.vectorAdd hsafe x
    exact ⟨vec', hadd⟩

/-! ### Reading -/

theorem Holds.vectorGet (h : vec.Holds xs) {k : ℕ} (hk : xs[k]? = some x) :
    vec.vectorGet k = Except.ok (some x) := by
  obtain ⟨hlt, _⟩ := List.getElem?_eq_some_iff.1 hk
  have hc : (k : ℤ) < vec.c := by
    rw [h.c]
    exact_mod_cast hlt
  rw [CVector.vectorGet, cAssert_of hc, ok_bind, h.load hk]

theorem Holds.load_last (h : vec.Holds (xs ++ [x])) :
    slotLoad vec.vec ((vec.c : ℤ) - 1) = Except.ok (some x) := by
  have hc : ((vec.c : ℤ) - 1) = (xs.length : ℕ) := by
    rw [h.c]
    simp
  rw [hc]
  exact h.load (by simp)

theorem Holds.vectorLast (h : vec.Holds (xs ++ [x])) :
    vec.vectorLast = Except.ok (some x) := by
  have hc : vec.c > 0 := by
    rw [h.c]
    simp
  rw [CVector.vectorLast, cAssert_of hc, ok_bind, h.load_last]

/-- **`vector_pop` removes the last element.** -/
theorem Holds.vectorPop (h : vec.Holds (xs ++ [x])) :
    ∃ vec', vec.vectorPop = Except.ok (vec', some x) ∧ vec'.Holds xs := by
  have hc : vec.c > 0 := by
    rw [h.c]
    simp
  obtain ⟨rest, hrest⟩ := h.slots
  refine ⟨{ vec with c := vec.c - 1 }, ?_, ?_, h.n, ⟨some x :: rest, by simp [hrest]⟩⟩
  · rw [CVector.vectorPop, cAssert_of hc, ok_bind, h.load_last, ok_bind]
  · rw [h.c]
    simp

/-! ### Deleting -/

/-- The shift moves the `k` slots after the index `p` one down, if there are as many. -/
theorem shiftDown_ok {p : ℤ} (A : List (Option α)) (a : Option α) (B : List (Option α))
    (r : Option α) (rest : List (Option α)) (hp : p = A.length) :
    ∃ last, shiftDown (B.length + 1) (A ++ a :: (B ++ r :: rest)) p =
      Except.ok (A ++ B ++ r :: last :: rest) := by
  induction B generalizing A a p with
  | nil =>
      refine ⟨r, ?_⟩
      have hload : slotLoad (A ++ a :: r :: rest) (p + 1) = Except.ok r := by
        have h := slotLoad_append (A ++ [a]) r rest
        rw [hp]
        simpa using h
      have hstore : slotStore (A ++ a :: r :: rest) p r = Except.ok (A ++ r :: r :: rest) := by
        rw [hp]
        exact slotStore_append A a (r :: rest) r
      rw [List.length_nil, List.nil_append, shiftDown, hload, ok_bind, hstore, ok_bind, shiftDown,
        List.append_nil]
  | cons b B ih =>
      obtain ⟨last, hlast⟩ := ih (p := p + 1) (A ++ [b]) b (by simp [hp])
      refine ⟨last, ?_⟩
      have hload : slotLoad (A ++ a :: (b :: B ++ r :: rest)) (p + 1) = Except.ok b := by
        have h := slotLoad_append (A ++ [a]) b (B ++ r :: rest)
        rw [hp]
        simpa using h
      have hstore : slotStore (A ++ a :: (b :: B ++ r :: rest)) p b =
          Except.ok (A ++ [b] ++ b :: (B ++ r :: rest)) := by
        have h := slotStore_append A a (b :: (B ++ r :: rest)) b
        rw [hp]
        simpa using h
      rw [List.length_cons, shiftDown, hload, ok_bind, hstore, ok_bind, hlast]
      simp

/-- In a full buffer the shift reads past the end. -/
theorem shiftDown_full {p : ℤ} (A : List (Option α)) (a : Option α) (B : List (Option α))
    (hp : p = A.length) :
    shiftDown (B.length + 1) (A ++ a :: B) p = Except.error Abort.badAccess := by
  induction B generalizing A a p with
  | nil =>
      rw [List.length_nil, shiftDown, slotLoad_of_length_le (by simp [hp])]
      rfl
  | cons b B ih =>
      have hload : slotLoad (A ++ a :: b :: B) (p + 1) = Except.ok b := by
        have h := slotLoad_append (A ++ [a]) b B
        rw [hp]
        simpa using h
      have hstore : slotStore (A ++ a :: b :: B) p b = Except.ok (A ++ [b] ++ b :: B) := by
        have h := slotStore_append A a (b :: B) b
        rw [hp]
        simpa using h
      rw [List.length_cons, shiftDown, hload, ok_bind, hstore, ok_bind,
        ih (p := p + 1) (A ++ [b]) b (by simp [hp])]

/-- The shift of `vector_del` and `vector_remove` from the element `x` on, between `pre` and
`post`. -/
theorem Holds.shiftDown {pre post : List α} (h : vec.Holds (pre ++ x :: post)) :
    (vec.Full → CVector.shiftDown ((vec.c : ℤ) - pre.length).toNat vec.vec pre.length =
      Except.error Abort.badAccess) ∧
    (¬ vec.Full → ∃ buf, CVector.shiftDown ((vec.c : ℤ) - pre.length).toNat vec.vec pre.length =
      Except.ok buf ∧ Holds ⟨vec.n, vec.c - 1, buf⟩ (pre ++ post)) := by
  have hcount : ((vec.c : ℤ) - pre.length).toNat = (post.map some).length + 1 := by
    rw [h.c, List.length_append, List.length_cons, List.length_map]
    omega
  have hp : (pre.length : ℤ) = (pre.map some).length := by rw [List.length_map]
  rw [hcount]
  constructor
  · intro hfull
    have hbuf : vec.vec = pre.map some ++ some x :: post.map some := by
      rw [h.slots_of_full hfull]
      simp
    rw [hbuf]
    exact shiftDown_full _ _ _ hp
  · intro hfull
    obtain ⟨r, rest, hrest⟩ := h.exists_slot hfull
    have hbuf : vec.vec = pre.map some ++ some x :: (post.map some ++ r :: rest) := by
      rw [hrest]
      simp
    obtain ⟨last, hlast⟩ := shiftDown_ok (pre.map some) (some x) (post.map some) r rest hp
    refine ⟨_, by rw [hbuf]; exact hlast, ?_, ?_, ⟨r :: last :: rest, by simp⟩⟩
    · rw [h.c]
      simp
    · rw [h.n, hbuf]
      simp only [List.length_append, List.length_cons]
      omega

/-- **`vector_del` removes the element at its index, unless the vector is full.** -/
theorem Holds.vectorDel (h : vec.Holds xs) {k : ℕ} (hk : xs[k]? = some x) :
    (vec.Full → vec.vectorDel k = Except.error Abort.badAccess) ∧
    (¬ vec.Full → ∃ vec', vec.vectorDel k = Except.ok (vec', some x) ∧
      vec'.Holds (xs.eraseIdx k)) := by
  obtain ⟨hlt, hget⟩ := List.getElem?_eq_some_iff.1 hk
  have hc : (k : ℤ) < vec.c := by
    rw [h.c]
    exact_mod_cast hlt
  have hsplit : xs = xs.take k ++ x :: xs.drop (k + 1) := by
    rw [← hget, List.cons_getElem_drop_succ, List.take_append_drop]
  have hlen : (xs.take k).length = k := List.length_take_of_le hlt.le
  have hload := h.load hk
  rw [hsplit] at h
  obtain ⟨hbad, hok⟩ := h.shiftDown
  rw [hlen] at hbad hok
  rw [CVector.vectorDel, cAssert_of hc, ok_bind, hload, ok_bind]
  constructor
  · intro hfull
    rw [hbad hfull]
    rfl
  · intro hfull
    obtain ⟨buf, hbuf, hholds⟩ := hok hfull
    rw [hbuf, ok_bind, List.eraseIdx_eq_take_drop_succ]
    exact ⟨_, rfl, hholds⟩

/-! ### Searching -/

section Search

variable [DecidableEq α]

/-- The search stops at the first element equal to `x`, or after all of them. -/
theorem search_eq (pre ys : List α) (rest : List (Option α)) (x : α) :
    search (pre.map some ++ (ys.map some ++ rest)) x ys.length pre.length =
      Except.ok ((pre.length : ℤ) + (ys.idxOf x : ℕ)) := by
  induction ys generalizing pre with
  | nil => simp [search]
  | cons y ys ih =>
      have hload : slotLoad (pre.map some ++ ((y :: ys).map some ++ rest)) pre.length =
          Except.ok (some y) := by
        have h := slotLoad_append (pre.map some) (some y) (ys.map some ++ rest)
        rw [List.length_map] at h
        simpa using h
      rw [List.length_cons, search, hload, ok_bind]
      by_cases hy : y = x
      · rw [if_pos (by rw [hy]), List.idxOf_cons_eq _ hy]
        simp
      · have hstep := ih (pre ++ [y])
        rw [if_neg (by simpa using hy), List.idxOf_cons_ne _ hy]
        simp only [List.map_append, List.map_cons, List.map_nil, List.append_assoc,
          List.singleton_append, List.length_append, List.length_singleton, Nat.cast_add,
          Nat.cast_one] at hstep
        rw [List.map_cons, List.cons_append, hstep]
        congr 1
        push_cast
        ring

theorem Holds.search (h : vec.Holds xs) (x : α) :
    CVector.search vec.vec x vec.c 0 = Except.ok ((xs.idxOf x : ℕ) : ℤ) := by
  obtain ⟨rest, hrest⟩ := h.slots
  have hs := search_eq [] xs rest x
  rw [hrest, h.c]
  simpa using hs

/-- **`vector_contains` tells whether the element is there.** -/
theorem Holds.vectorContains (h : vec.Holds xs) (x : α) :
    vec.vectorContains x = Except.ok (decide (x ∈ xs)) := by
  rw [CVector.vectorContains, h.search, ok_bind, Except.ok.injEq, decide_eq_decide, h.c,
    ← List.idxOf_lt_length_iff]
  exact Int.ofNat_lt

/-- **`vector_remove` removes the first occurrence of its element, unless the vector is full.** -/
theorem Holds.vectorRemove (h : vec.Holds xs) (hx : x ∈ xs) :
    (vec.Full → vec.vectorRemove x = Except.error Abort.badAccess) ∧
    (¬ vec.Full → ∃ vec', vec.vectorRemove x = Except.ok (vec', some x) ∧
      vec'.Holds (xs.erase x)) := by
  have hlt : xs.idxOf x < xs.length := List.idxOf_lt_length_iff.2 hx
  have hdel := h.vectorDel (List.getElem?_idxOf hx)
  have hc : ((xs.idxOf x : ℕ) : ℤ) < vec.c := by
    rw [h.c]
    exact_mod_cast hlt
  -- once the element is found, the call is that of `vector_del` at its index
  have heq : vec.vectorRemove x = vec.vectorDel (xs.idxOf x : ℕ) := by
    rw [CVector.vectorRemove, h.search, ok_bind, CVector.vectorDel]
  rw [heq, List.erase_eq_eraseIdx_of_idxOf rfl]
  exact hdel

end Search

/-! ### Reversing, shuffling, copying -/

/-- The two pointers of `vector_reverse` turn what lies between them around. -/
theorem reverseLoop_ok (M A B : List (Option α)) {fuel : ℕ} (hfuel : M.length < fuel) {p q : ℤ}
    (hp : p = A.length) (hq : q = A.length + M.length - 1) :
    reverseLoop fuel (A ++ (M ++ B)) p q = Except.ok (A ++ (M.reverse ++ B)) := by
  induction M using List.bidirectionalRec generalizing A B fuel p q with
  | nil =>
      obtain ⟨fuel, rfl⟩ := Nat.exists_eq_succ_of_ne_zero (Nat.ne_of_gt hfuel)
      have hle : ¬ p < q := by
        rw [hp, hq]
        simp
      rw [reverseLoop, if_neg hle, List.reverse_nil]
  | singleton a =>
      obtain ⟨fuel, rfl⟩ := Nat.exists_eq_succ_of_ne_zero (Nat.ne_of_gt (Nat.lt_of_succ_lt hfuel))
      have hle : ¬ p < q := by
        rw [hp, hq]
        simp
      rw [reverseLoop, if_neg hle, List.reverse_singleton]
  | cons_append a M b ih =>
      have hlen : (a :: (M ++ [b])).length = M.length + 2 := by simp
      rw [hlen] at hfuel hq
      obtain ⟨fuel, rfl⟩ := Nat.exists_eq_succ_of_ne_zero (Nat.ne_of_gt (Nat.zero_lt_of_lt hfuel))
      have hlt : p < q := by
        rw [hp, hq]
        omega
      have hbuf : A ++ (a :: (M ++ [b]) ++ B) = A ++ a :: (M ++ b :: B) := by simp
      have hswap := slotSwap_append A a M b B hp (show q = _ by rw [hq]; omega)
      have hmid : A ++ b :: (M ++ a :: B) = (A ++ [b]) ++ (M ++ a :: B) := by simp
      have hlenA : ((A ++ [b]).length : ℤ) = A.length + 1 := by simp
      have hrec := ih (A ++ [b]) (a :: B) (show M.length < fuel by omega) (p := p + 1) (q := q - 1)
        (by rw [hlenA, hp]) (by rw [hlenA, hq]; omega)
      rw [hbuf, reverseLoop, if_pos hlt, hswap, ok_bind, hmid, hrec]
      simp

/-- **`vector_reverse` turns the elements around.** -/
theorem Holds.vectorReverse (h : vec.Holds xs) :
    ∃ vec', vec.vectorReverse = Except.ok vec' ∧ vec'.Holds xs.reverse := by
  obtain ⟨rest, hrest⟩ := h.slots
  have hloop := reverseLoop_ok (xs.map some) [] rest
    (show (xs.map some).length < vec.c + 1 by rw [h.c, List.length_map]; omega) (p := 0)
    (q := (vec.c : ℤ) - 1) rfl (by rw [h.c, List.length_map]; simp)
  rw [List.nil_append, ← hrest, List.nil_append] at hloop
  refine ⟨{ vec with vec := (xs.map some).reverse ++ rest }, ?_, by simpa using h.c, ?_,
    ⟨rest, by simp⟩⟩
  · rw [CVector.vectorReverse, hloop, ok_bind]
  · rw [h.n, hrest]
    simp

/-- The exchange of two slots that hold elements is that of the elements. -/
theorem slotSwap_listSwap {i j : ℕ} (hi : i < xs.length) (hj : j < xs.length)
    (rest : List (Option α)) :
    slotSwap (xs.map some ++ rest) i j = Except.ok ((listSwap xs i j).map some ++ rest) := by
  have hload : ∀ {k : ℕ} (hk : k < xs.length),
      slotLoad (xs.map some ++ rest) k = Except.ok (some xs[k]) := fun hk =>
    slotLoad_eq_ok (by rw [List.getElem?_append_left (by simpa using hk)]; simp [hk])
  have hstore : ∀ {ys : List α} {k : ℕ} (y : α), k < ys.length →
      slotStore (ys.map some ++ rest) k (some y) = Except.ok ((ys.set k y).map some ++ rest) := by
    intro ys k y hk
    rw [slotStore_eq_ok (by simp; omega), List.set_append_left _ _ (by simpa using hk),
      List.map_set]
  have hlen : j < (xs.set i xs[j]).length := by rwa [List.length_set]
  rw [slotSwap, hload hi, ok_bind, hload hj, ok_bind, hstore xs[j] hi, ok_bind,
    hstore xs[i] hlen, listSwap, List.getElem?_eq_getElem hi, List.getElem?_eq_getElem hj]

/-- **`vector_shuffle` is the shuffle of the elements**, whatever `rand` returns. -/
theorem Holds.vectorShuffle (h : vec.Holds xs) (lib : Libc) (seed : ℤ) :
    ∃ vec', vec.vectorShuffle lib seed = Except.ok vec' ∧
      vec'.Holds (DLFree.vectorShuffle lib seed xs) := by
  obtain ⟨rest, hrest⟩ := h.slots
  have hloop : ∀ (is : List ℕ) (ys : List α), (∀ i ∈ is, i < xs.length) →
      ys.length = xs.length →
      is.foldlM (fun (buf : List (Option α)) (i : ℕ) =>
          slotSwap buf i ((lib.rand seed i % xs.length : ℕ) : ℤ)) (ys.map some ++ rest) =
        Except.ok ((is.foldl (fun v i => listSwap v i (lib.rand seed i % xs.length)) ys).map some ++
          rest) := by
    intro is
    induction is with
    | nil => exact fun ys _ _ => rfl
    | cons i is ih =>
        intro ys his hys
        have hi : i < ys.length := hys ▸ his i List.mem_cons_self
        have hj : lib.rand seed i % xs.length < ys.length := by
          rw [hys] at hi ⊢
          exact Nat.mod_lt _ (Nat.zero_lt_of_lt hi)
        rw [List.foldlM_cons, slotSwap_listSwap hi hj, ok_bind, List.foldl_cons]
        exact ih _ (fun k hk => his k (List.mem_cons_of_mem _ hk))
          ((listSwap_perm _ _ _).length_eq.trans hys)
  have hrun := hloop (List.range xs.length) xs (fun i hi => List.mem_range.1 hi) rfl
  rw [← hrest, ← h.c] at hrun
  have hlen : (DLFree.vectorShuffle lib seed xs).length = xs.length :=
    (vectorShuffle_perm lib seed xs).length_eq
  refine ⟨{ vec with vec := (DLFree.vectorShuffle lib seed xs).map some ++ rest }, ?_,
    h.c.trans hlen.symm, ?_, ⟨rest, rfl⟩⟩
  · rw [CVector.vectorShuffle, hrun, ok_bind, DLFree.vectorShuffle, h.c]
  · rw [h.n, hrest]
    simp [hlen]

/-- **`vector_copy` makes a vector of the same elements.** -/
theorem Holds.vectorCopy (h : vec.Holds xs) :
    ∃ vec', vec.vectorCopy = Except.ok vec' ∧ vec'.Holds xs := by
  obtain ⟨rest, hrest⟩ := h.slots
  have hle : vec.c ≤ vec.vec.length := by
    rw [h.c, hrest]
    simp
  have htake : vec.vec.take vec.c = xs.map some := by
    rw [hrest, h.c, ← List.length_map (f := some), List.take_left]
  refine ⟨_, if_pos ⟨hle, h.c_le_n⟩, h.c, ?_, ⟨_, by rw [htake]⟩⟩
  rw [htake, List.length_append, List.length_map, List.length_replicate, ← h.c]
  have hn := h.n
  simp only
  omega

theorem Holds.vectorClear (h : vec.Holds xs) : vec.vectorClear.Holds [] :=
  ⟨rfl, h.n, vec.vec, rfl⟩

/-- A buffer of less than `2 ^ 29` slots grows. -/
theorem grows_of_lt (hpos : 1 ≤ vec.n) (hlt : vec.n < 2 ^ 29) : vec.Grows := by
  have hshl : intShl2 vec.n = vec.n * 4 := by
    rw [intShl2, Int.bmod_eq_of_le] <;> omega
  rw [Grows, hshl]
  omega

end CVector

/-! ### Calls -/

/-- A call on a vector. -/
inductive VectorOp (α : Type) where
  | add (x : α)
  | get (i : ℤ)
  | last
  | pop
  | del (i : ℤ)
  | remove (x : α)
  | clear
  | reverse
  | contains (x : α)
  | size
  | shuffle (seed : ℤ)
  | copy

/-- What a call returns: an element, which may be what a slot held that was never written, a truth
value, a number, or a new vector. -/
inductive VectorRet (α : Type) where
  | unit
  | elem (x : Option α)
  | bool (b : Bool)
  | int (n : ℕ)
  | vector

section Calls

variable {α : Type} [DecidableEq α]

/-- What a call does to its vector, the vectors it creates, and what it returns. -/
def CVector.call (lib : Libc) (vec : CVector α) :
    VectorOp α → Except Abort (CVector α × List (CVector α) × VectorRet α)
  | .add x => do
      let vec ← vec.vectorAdd x
      Except.ok (vec, [], .unit)
  | .get i => do
      let x ← vec.vectorGet i
      Except.ok (vec, [], .elem x)
  | .last => do
      let x ← vec.vectorLast
      Except.ok (vec, [], .elem x)
  | .pop => do
      let r ← vec.vectorPop
      Except.ok (r.1, [], .elem r.2)
  | .del i => do
      let r ← vec.vectorDel i
      Except.ok (r.1, [], .elem r.2)
  | .remove x => do
      let r ← vec.vectorRemove x
      Except.ok (r.1, [], .elem r.2)
  | .clear => Except.ok (vec.vectorClear, [], .unit)
  | .reverse => do
      let vec ← vec.vectorReverse
      Except.ok (vec, [], .unit)
  | .contains x => do
      let b ← vec.vectorContains x
      Except.ok (vec, [], .bool b)
  | .size => Except.ok (vec, [], .int vec.vectorSize)
  | .shuffle seed => do
      let vec ← vec.vectorShuffle lib seed
      Except.ok (vec, [], .unit)
  | .copy => do
      let new ← vec.vectorCopy
      Except.ok (vec, [new], .vector)

/-- A call on the `k`-th of the vectors that exist; a new vector comes after them. -/
def vectorCall (lib : Libc) (vecs : List (CVector α)) (k : ℕ) (op : VectorOp α) :
    Except Abort (List (CVector α) × VectorRet α) :=
  match vecs[k]? with
  | none => Except.error Abort.badAccess
  | some vec => do
      let r ← vec.call lib op
      Except.ok (vecs.set k r.1 ++ r.2.1, r.2.2)

theorem vectorCall_eq {lib : Libc} {vecs : List (CVector α)} {k : ℕ} {vec : CVector α}
    (hk : vecs[k]? = some vec) (op : VectorOp α) :
    vectorCall lib vecs k op = (do
      let r ← vec.call lib op
      Except.ok (vecs.set k r.1 ++ r.2.1, r.2.2)) := by
  rw [vectorCall, hk]

/-- A call with an index below the number of elements, or an element that is there. -/
def CVector.Allowed (vec : CVector α) : VectorOp α → Prop
  | .get i => 0 ≤ i ∧ i < vec.c
  | .del i => 0 ≤ i ∧ i < vec.c
  | .remove x => some x ∈ vec.vec.take vec.c
  | _ => True

/-- A call that stays in the buffer: nothing is deleted from a full vector, and a full vector that
gets one more element grows. -/
def CVector.Safe (vec : CVector α) : VectorOp α → Prop
  | .add _ => vec.Full → vec.Grows
  | .del _ => ¬ vec.Full
  | .remove _ => ¬ vec.Full
  | _ => True

/-- The calls on lists: what a call does to its list, the lists it creates, and what it returns. -/
inductive ListStep : List α → VectorOp α → List α → List (List α) → VectorRet α → Prop
  | add {xs : List α} {x : α} : ListStep xs (.add x) (xs ++ [x]) [] .unit
  | get {xs : List α} {k : ℕ} {x : α} (hk : xs[k]? = some x) :
      ListStep xs (.get k) xs [] (.elem (some x))
  | last {xs : List α} {x : α} : ListStep (xs ++ [x]) .last (xs ++ [x]) [] (.elem (some x))
  | pop {xs : List α} {x : α} : ListStep (xs ++ [x]) .pop xs [] (.elem (some x))
  | del {xs : List α} {k : ℕ} {x : α} (hk : xs[k]? = some x) :
      ListStep xs (.del k) (xs.eraseIdx k) [] (.elem (some x))
  | remove {xs : List α} {x : α} (hx : x ∈ xs) :
      ListStep xs (.remove x) (xs.erase x) [] (.elem (some x))
  | clear {xs : List α} : ListStep xs .clear [] [] .unit
  | reverse {xs : List α} : ListStep xs .reverse xs.reverse [] .unit
  | contains {xs : List α} {x : α} : ListStep xs (.contains x) xs [] (.bool (decide (x ∈ xs)))
  | size {xs : List α} : ListStep xs .size xs [] (.int xs.length)
  | shuffle {xs ys : List α} {seed : ℤ} (hperm : ys.Perm xs) :
      ListStep xs (.shuffle seed) ys [] .unit
  | copy {xs : List α} : ListStep xs .copy xs [xs] .vector

/-- The calls made so far, with the vector of each and what it returned. -/
abbrev VectorHistory (α : Type) := List (ℕ × VectorOp α × VectorRet α)

/-- The runs of calls on lists, from one empty list. -/
inductive ListRun : VectorHistory α → List (List α) → Prop
  | create : ListRun [] [[]]
  | call {hist : VectorHistory α} {xss news : List (List α)} {k : ℕ} {xs xs' : List α}
      {op : VectorOp α} {ret : VectorRet α} (hrun : ListRun hist xss) (hk : xss[k]? = some xs)
      (hstep : ListStep xs op xs' news ret) :
      ListRun (hist ++ [(k, op, ret)]) (xss.set k xs' ++ news)

/-- The runs of allowed calls on vectors, from one `vector_create(n)`, that meet `cond`. -/
inductive VectorRun (lib : Libc) (n : ℕ) (cond : CVector α → VectorOp α → Prop) :
    VectorHistory α → List (CVector α) → Prop
  | create : VectorRun lib n cond [] [CVector.vectorCreate n]
  | call {hist : VectorHistory α} {vecs vecs' : List (CVector α)} {k : ℕ} {vec : CVector α}
      {op : VectorOp α} {ret : VectorRet α} (hrun : VectorRun lib n cond hist vecs)
      (hk : vecs[k]? = some vec) (hallowed : vec.Allowed op) (hcond : cond vec op)
      (hcall : vectorCall lib vecs k op = Except.ok (vecs', ret)) :
      VectorRun lib n cond (hist ++ [(k, op, ret)]) vecs'

/-! ### What the calls do -/

namespace CVector

variable {lib : Libc} {vec : CVector α} {xs : List α} {op : VectorOp α}

/-- The outcome of a call that stays in the buffer: it is the call on the list, or the assertion of
`vector_last` and `vector_pop` that there is an element fails. -/
inductive Outcome (lib : Libc) (vec : CVector α) (xs : List α) (op : VectorOp α) : Prop
  | returns {vec' : CVector α} {news : List (CVector α)} {xs' : List α} {newLists : List (List α)}
      {ret : VectorRet α} (hcall : vec.call lib op = Except.ok (vec', news, ret))
      (hstep : ListStep xs op xs' newLists ret) (hholds : vec'.Holds xs')
      (hnews : List.Forall₂ Holds news newLists)
  | empty (hc : vec.c = 0) (hop : op = .last ∨ op = .pop)
      (hcall : vec.call lib op = Except.error Abort.assertion)

omit [DecidableEq α] in
theorem Holds.exists_getElem (h : vec.Holds xs) {i : ℤ} (hi : 0 ≤ i ∧ i < vec.c) :
    ∃ (k : ℕ) (x : α), i = k ∧ xs[k]? = some x := by
  have hc := h.c
  obtain ⟨k, rfl⟩ := Int.eq_ofNat_of_zero_le hi.1
  have hk : k < xs.length := by omega
  exact ⟨k, xs[k], rfl, List.getElem?_eq_getElem hk⟩

omit [DecidableEq α] in
theorem Holds.mem_of_mem_take (h : vec.Holds xs) {x : α} (hx : some x ∈ vec.vec.take vec.c) :
    x ∈ xs := by
  obtain ⟨rest, hrest⟩ := h.slots
  rw [hrest, h.c, ← List.length_map (f := some), List.take_left] at hx
  simpa using hx

/-- **A call that stays in the buffer is the call on the list.** -/
theorem Holds.call (h : vec.Holds xs) (hallowed : vec.Allowed op) (hsafe : vec.Safe op) :
    vec.Outcome lib xs op := by
  cases op with
  | add x =>
      obtain ⟨vec', hadd, hholds⟩ := h.vectorAdd hsafe x
      exact .returns (by rw [CVector.call, hadd, ok_bind]) .add hholds .nil
  | get i =>
      obtain ⟨k, x, rfl, hk⟩ := h.exists_getElem hallowed
      exact .returns (by rw [CVector.call, h.vectorGet hk, ok_bind]) (.get hk) h .nil
  | last =>
      rcases List.eq_nil_or_concat' xs with rfl | ⟨ys, x, rfl⟩
      · refine .empty h.c (Or.inl rfl) ?_
        rw [CVector.call, CVector.vectorLast, h.c]
        rfl
      · exact .returns (by rw [CVector.call, h.vectorLast, ok_bind]) .last h .nil
  | pop =>
      rcases List.eq_nil_or_concat' xs with rfl | ⟨ys, x, rfl⟩
      · refine .empty h.c (Or.inr rfl) ?_
        rw [CVector.call, CVector.vectorPop, h.c]
        rfl
      · obtain ⟨vec', hpop, hholds⟩ := h.vectorPop
        exact .returns (by rw [CVector.call, hpop, ok_bind]) .pop hholds .nil
  | del i =>
      obtain ⟨k, x, rfl, hk⟩ := h.exists_getElem hallowed
      obtain ⟨vec', hdel, hholds⟩ := (h.vectorDel hk).2 hsafe
      exact .returns (by rw [CVector.call, hdel, ok_bind]) (.del hk) hholds .nil
  | remove x =>
      have hx := h.mem_of_mem_take hallowed
      obtain ⟨vec', hremove, hholds⟩ := (h.vectorRemove hx).2 hsafe
      exact .returns (by rw [CVector.call, hremove, ok_bind]) (.remove hx) hholds .nil
  | clear => exact .returns rfl .clear h.vectorClear .nil
  | reverse =>
      obtain ⟨vec', hreverse, hholds⟩ := h.vectorReverse
      exact .returns (by rw [CVector.call, hreverse, ok_bind]) .reverse hholds .nil
  | contains x =>
      exact .returns (by rw [CVector.call, h.vectorContains x, ok_bind]) .contains h .nil
  | size =>
      have hstep : ListStep xs .size xs [] (.int xs.length) := ListStep.size
      rw [← h.c] at hstep
      exact .returns rfl hstep h .nil
  | shuffle seed =>
      obtain ⟨vec', hshuffle, hholds⟩ := h.vectorShuffle lib seed
      exact .returns (by rw [CVector.call, hshuffle, ok_bind])
        (.shuffle (vectorShuffle_perm lib seed xs)) hholds .nil
  | copy =>
      obtain ⟨vec', hcopy, hholds⟩ := h.vectorCopy
      exact .returns (by rw [CVector.call, hcopy, ok_bind]) .copy h (.cons hholds .nil)

/-- **A call returns only if it stays in the buffer.** -/
theorem Holds.safe_of_call (h : vec.Holds xs) (hallowed : vec.Allowed op)
    {r : CVector α × List (CVector α) × VectorRet α} (hcall : vec.call lib op = Except.ok r) :
    vec.Safe op := by
  cases op with
  | add x =>
      obtain ⟨vec', hadd, _⟩ := bind_eq_ok.1 hcall
      exact (h.vectorAdd_iff x).1 ⟨vec', hadd⟩
  | del i =>
      obtain ⟨k, x, rfl, hk⟩ := h.exists_getElem hallowed
      obtain ⟨_, hdel, _⟩ := bind_eq_ok.1 hcall
      intro hfull
      rw [(h.vectorDel hk).1 hfull] at hdel
      cases hdel
  | remove x =>
      obtain ⟨_, hremove, _⟩ := bind_eq_ok.1 hcall
      intro hfull
      rw [(h.vectorRemove (h.mem_of_mem_take hallowed)).1 hfull] at hremove
      cases hremove
  | _ => trivial

end CVector

variable {lib : Libc} {n : ℕ} {cond : CVector α → VectorOp α → Prop} {hist : VectorHistory α}
  {vecs : List (CVector α)}

theorem forall₂_getElem? {β γ : Type} {R : β → γ → Prop} {l : List β} {m : List γ}
    (h : List.Forall₂ R l m) {k : ℕ} {b : β} (hk : l[k]? = some b) :
    ∃ c, m[k]? = some c ∧ R b c := by
  induction h generalizing k with
  | nil => cases hk
  | cons hr _ ih =>
      cases k with
      | zero =>
          cases hk
          exact ⟨_, rfl, hr⟩
      | succ k => exact ih hk

theorem forall₂_set {β γ : Type} {R : β → γ → Prop} {l : List β} {m : List γ}
    (h : List.Forall₂ R l m) (k : ℕ) {b : β} {c : γ} (hbc : R b c) :
    List.Forall₂ R (l.set k b) (m.set k c) := by
  induction h generalizing k with
  | nil => exact List.Forall₂.nil
  | cons hr hrest ih =>
      cases k with
      | zero => exact List.Forall₂.cons hbc hrest
      | succ k => exact List.Forall₂.cons hr (ih k)

/-- **Every run of calls on vectors is a run of the same calls on lists**, with the same results. -/
theorem VectorRun.refines (h : VectorRun lib n cond hist vecs) :
    ∃ xss, ListRun hist xss ∧ List.Forall₂ CVector.Holds vecs xss := by
  induction h with
  | create =>
      exact ⟨[[]], ListRun.create, List.Forall₂.cons (CVector.holds_create n) List.Forall₂.nil⟩
  | @call hist vecs vecs' k vec op ret _ hk hallowed _ hcall ih =>
      obtain ⟨xss, hrun, hrep⟩ := ih
      obtain ⟨xs, hxs, hholds⟩ := forall₂_getElem? hrep hk
      rw [vectorCall_eq hk] at hcall
      obtain ⟨r, hr, hcall⟩ := bind_eq_ok.1 hcall
      cases hcall
      cases hholds.call hallowed (hholds.safe_of_call hallowed hr) with
      | returns hcall' hstep hholds' hnews =>
          -- the call on the list has the same result, and only this vector and the new ones change
          rw [hr, Except.ok.injEq] at hcall'
          subst hcall'
          exact ⟨_, hrun.call hxs hstep, List.rel_append (forall₂_set hrep k hholds') hnews⟩
      | empty _ _ hcall' =>
          rw [hr] at hcall'
          cases hcall'

/-- **Calls that delete nothing from a full vector, and add to a full vector only when it grows, are
the calls on lists.**  In every run of such calls all elements lie in their buffers, and the next
allowed call returns, or finds the vector empty and says so, exactly when it is such a call again;
any other one goes past its buffer or ends the process. -/
theorem vector_run (lib : Libc) (n : ℕ) (hist : VectorHistory α) (vecs : List (CVector α))
    (h : VectorRun lib n CVector.Safe hist vecs) :
    (∃ xss, ListRun hist xss ∧ List.Forall₂ CVector.Holds vecs xss) ∧
      (∀ vec ∈ vecs, (vec.c : ℤ) ≤ vec.n ∧ vec.n = vec.vec.length) ∧
      ∀ (k : ℕ) (vec : CVector α) (op : VectorOp α), vecs[k]? = some vec → vec.Allowed op →
        (vec.Safe op ↔ (∃ r, vectorCall lib vecs k op = Except.ok r) ∨
          (vec.c = 0 ∧ (op = .last ∨ op = .pop) ∧
            vectorCall lib vecs k op = Except.error Abort.assertion)) := by
  obtain ⟨xss, hrun, hrep⟩ := h.refines
  refine ⟨⟨xss, hrun, hrep⟩, ?_, ?_⟩
  · intro vec hvec
    obtain ⟨k, hk⟩ := List.getElem?_of_mem hvec
    obtain ⟨xs, _, hholds⟩ := forall₂_getElem? hrep hk
    exact ⟨hholds.c_le_n, hholds.n⟩
  · intro k vec op hk hallowed
    obtain ⟨xs, _, hholds⟩ := forall₂_getElem? hrep hk
    rw [vectorCall_eq hk]
    constructor
    · intro hsafe
      cases (hholds.call hallowed hsafe : vec.Outcome lib xs op) with
      | returns hcall => exact Or.inl ⟨_, by rw [hcall, ok_bind]⟩
      | empty hc hop hcall => exact Or.inr ⟨hc, hop, by rw [hcall]; rfl⟩
    · rintro (⟨r, hr⟩ | ⟨_, rfl | rfl, _⟩)
      · obtain ⟨_, hcall, _⟩ := bind_eq_ok.1 hr
        exact hholds.safe_of_call hallowed hcall
      · trivial
      · trivial

/-- A vector of two slots with one element: the element can be deleted. -/
theorem vector_run_one_of_two : ∃ vecs : List (CVector ℕ),
    VectorRun (Libc.insertion fun _ _ => 0) 2 CVector.Safe [(0, .add 7, .unit)] vecs ∧
      ∃ r, vectorCall (Libc.insertion fun _ _ => 0) vecs 0 (.del 0) = Except.ok r := by
  have hrun : VectorRun (Libc.insertion fun _ _ => 0) 2 CVector.Safe [(0, .add 7, .unit)]
      [⟨2, 1, [some 7, none]⟩] :=
    VectorRun.call VectorRun.create (k := 0) rfl trivial (fun hfull => by cases hfull) rfl
  refine ⟨_, hrun, ?_⟩
  have hcall := ((vector_run _ _ _ _ hrun).2.2 0 ⟨2, 1, [some 7, none]⟩ (.del 0) rfl
    ⟨by decide, by decide⟩).1 fun hfull => by cases hfull
  rcases hcall with hcall | ⟨hc, _⟩
  · exact hcall
  · cases hc

/-- Deleting the only element of a vector of one slot goes past its buffer. -/
theorem vector_del_full : ¬ ∀ (hist : VectorHistory ℕ) (vecs : List (CVector ℕ)),
    VectorRun (Libc.insertion fun _ _ => 0) 1 (fun _ _ => True) hist vecs →
      ∀ (k : ℕ) (vec : CVector ℕ) (op : VectorOp ℕ), vecs[k]? = some vec → vec.Allowed op →
        vectorCall (Libc.insertion fun _ _ => 0) vecs k op ≠ Except.error Abort.badAccess := by
  intro hall
  have hrun : VectorRun (Libc.insertion fun _ _ => 0) 1 (fun _ _ => True) [(0, .add 7, .unit)]
      [⟨1, 1, [some 7]⟩] := VectorRun.call VectorRun.create (k := 0) rfl trivial trivial rfl
  exact hall _ _ hrun 0 ⟨1, 1, [some 7]⟩ (.del 0) rfl ⟨by decide, by decide⟩ rfl

end Calls

end DLFree

/-
**Integers on the wire: `std/bytes.c`.**

Headers and routing tables are written with `pack_int` and `pack_uint64` and read back with
`unpack_int` and `unpack_uint64`.  Each packs a host integer by converting it to network byte order
and copying its bytes, so the bytes written depend on the byte order of the host only through the
conversion; the two orders are both covered here.

`unpack_uint64` keeps its result in an `int` before returning it, so only the low 32 bits survive,
extended by their sign (`wireUint64`).

Main definitions:

* `hostBytes`, `hostWord` — the bytes of a word in the memory of the host, and back;
* `htonl`, `htonll` — conversion to network byte order;
* `packInt`, `unpackInt`, `packUint64`, `unpackUint64` — the functions of `std/bytes.c`.

Main results:

* `packInt_eq`, `packUint64_eq` — what is written is the big-endian representation;
* `unpackInt_packInt` — **an `int` survives the wire**;
* `unpackUint64_packUint64` — a 64-bit value comes back as `wireUint64` of it;
* `wireUint64_eq_self_iff` — exactly the values that fit a signed `int` survive.
-/

import Mathlib.Data.Nat.Basic
import Mathlib.Tactic.Ring

set_option relaxedAutoImplicit false
set_option autoImplicit false

namespace DLFree

/-- A byte of memory or of a stream. -/
abbrev Byte := BitVec 8

/-- The byte order of the host. -/
inductive ByteOrder
  | little
  | big
  deriving DecidableEq, Repr

/-! ### Words in memory -/

/-- The `k` low bytes of a number, least significant first. -/
def leBytes : ℕ → ℕ → List Byte
  | 0, _ => []
  | k + 1, v => BitVec.ofNat 8 v :: leBytes k (v / 256)

/-- The number with the given bytes, least significant first. -/
def leValue : List Byte → ℕ
  | [] => 0
  | b :: bs => b.toNat + 256 * leValue bs

@[simp] theorem leBytes_length (k v : ℕ) : (leBytes k v).length = k := by
  induction k generalizing v with
  | zero => rfl
  | succ k ih => simp [leBytes, ih]

theorem leValue_leBytes (k v : ℕ) : leValue (leBytes k v) = v % 256 ^ k := by
  induction k generalizing v with
  | zero => simp [leBytes, leValue, Nat.mod_one]
  | succ k ih =>
      simp only [leBytes, leValue, ih, BitVec.toNat_ofNat]
      rw [pow_succ 256 k, Nat.mul_comm (256 ^ k) 256, Nat.mod_mul]

theorem leValue_lt (bs : List Byte) : leValue bs < 256 ^ bs.length := by
  induction bs with
  | nil => simp [leValue]
  | cons b bs ih =>
      have hb : b.toNat < 256 := b.isLt
      simp only [leValue, List.length_cons, pow_succ]
      omega

theorem leBytes_leValue (bs : List Byte) : leBytes bs.length (leValue bs) = bs := by
  induction bs with
  | nil => rfl
  | cons b bs ih =>
      have hb : b.toNat < 256 := b.isLt
      have hdiv : (b.toNat + 256 * leValue bs) / 256 = leValue bs := by omega
      simp only [List.length_cons, leBytes, leValue, hdiv, ih, List.cons.injEq, and_true]
      apply BitVec.eq_of_toNat_eq
      simp only [BitVec.toNat_ofNat]
      omega

/-- The `k` bytes of a word as the host lays them out in memory. -/
def hostBytes (bo : ByteOrder) (k v : ℕ) : List Byte :=
  match bo with
  | ByteOrder.little => leBytes k v
  | ByteOrder.big => (leBytes k v).reverse

/-- The word the host reads from the given bytes. -/
def hostWord (bo : ByteOrder) (bs : List Byte) : ℕ :=
  match bo with
  | ByteOrder.little => leValue bs
  | ByteOrder.big => leValue bs.reverse

@[simp] theorem hostBytes_length (bo : ByteOrder) (k v : ℕ) : (hostBytes bo k v).length = k := by
  cases bo <;> simp [hostBytes]

theorem hostWord_hostBytes (bo : ByteOrder) (k v : ℕ) :
    hostWord bo (hostBytes bo k v) = v % 256 ^ k := by
  cases bo <;> simp [hostWord, hostBytes, leValue_leBytes]

/-! ### Network byte order -/

/-- `htonl`, which is also `ntohl`: a little-endian host reverses the four bytes. -/
def htonl (bo : ByteOrder) (v : BitVec 32) : BitVec 32 :=
  match bo with
  | ByteOrder.little => BitVec.ofNat 32 (leValue (leBytes 4 v.toNat).reverse)
  | ByteOrder.big => v

/-- `htonll`, which is also `ntohll`. -/
def htonll (bo : ByteOrder) (v : BitVec 64) : BitVec 64 :=
  match bo with
  | ByteOrder.big => v
  | ByteOrder.little =>
      (htonl bo ((v >>> 32).setWidth 32)).setWidth 64 +
        ((htonl bo (v.setWidth 32)).setWidth 64 <<< 32)

theorem htonl_toNat_little (v : BitVec 32) :
    (htonl ByteOrder.little v).toNat = leValue (leBytes 4 v.toNat).reverse := by
  have h := leValue_lt (leBytes 4 v.toNat).reverse
  simp only [List.length_reverse, leBytes_length] at h
  simp only [htonl, BitVec.toNat_ofNat]
  exact Nat.mod_eq_of_lt h

/-- Converting twice gives the word back. -/
theorem htonl_htonl (bo : ByteOrder) (v : BitVec 32) : htonl bo (htonl bo v) = v := by
  cases bo with
  | big => rfl
  | little =>
      apply BitVec.eq_of_toNat_eq
      rw [htonl_toNat_little, htonl_toNat_little]
      have h := leBytes_leValue (leBytes 4 v.toNat).reverse
      simp only [List.length_reverse, leBytes_length] at h
      rw [h, List.reverse_reverse, leValue_leBytes]
      exact Nat.mod_eq_of_lt v.isLt

/-- The memory of a word in network byte order is its big-endian representation. -/
theorem hostBytes_htonl (bo : ByteOrder) (v : BitVec 32) :
    hostBytes bo 4 (htonl bo v).toNat = (leBytes 4 v.toNat).reverse := by
  cases bo with
  | big => rfl
  | little =>
      rw [htonl_toNat_little]
      have h := leBytes_leValue (leBytes 4 v.toNat).reverse
      simp only [List.length_reverse, leBytes_length] at h
      exact h

/-- Bytes of a number above the low `k` do not matter. -/
theorem leBytes_mod (k m v : ℕ) (h : k ≤ m) : leBytes k (v % 256 ^ m) = leBytes k v := by
  induction k generalizing m v with
  | zero => rfl
  | succ k ih =>
      obtain ⟨m, rfl⟩ : ∃ m', m = m' + 1 := ⟨m - 1, by omega⟩
      have hdiv : v % 256 ^ (m + 1) / 256 = v / 256 % 256 ^ m := by
        rw [pow_succ, Nat.mul_comm, Nat.mod_mul_right_div_self]
      have hmod : v % 256 ^ (m + 1) % 256 = v % 256 :=
        Nat.mod_mod_of_dvd v (dvd_pow_self 256 (Nat.succ_ne_zero m))
      have hhead : BitVec.ofNat 8 (v % 256 ^ (m + 1)) = BitVec.ofNat 8 v := by
        apply BitVec.eq_of_toNat_eq
        simpa only [BitVec.toNat_ofNat] using hmod
      simp only [leBytes, hhead, hdiv, ih m (v / 256) (by omega)]

/-- The bytes of a number are those of its low part followed by those of its high part. -/
theorem leBytes_add (j k v : ℕ) : leBytes (j + k) v = leBytes j v ++ leBytes k (v / 256 ^ j) := by
  induction j generalizing v with
  | zero => simp [leBytes]
  | succ j ih =>
      have h : v / 256 / 256 ^ j = v / 256 ^ (j + 1) := by
        rw [Nat.div_div_eq_div_mul, pow_succ, Nat.mul_comm]
      rw [show j + 1 + k = (j + k) + 1 by omega]
      simp only [leBytes, ih, h, List.cons_append]

theorem leValue_append (as bs : List Byte) :
    leValue (as ++ bs) = leValue as + 256 ^ as.length * leValue bs := by
  induction as with
  | nil => simp [leValue]
  | cons a as ih =>
      simp only [List.cons_append, leValue, ih, List.length_cons, pow_succ]
      ring

theorem htonll_toNat_little (v : BitVec 64) :
    (htonll ByteOrder.little v).toNat = leValue (leBytes 8 v.toNat).reverse := by
  have hlo : (v.setWidth 32).toNat = v.toNat % 256 ^ 4 := by simp [BitVec.toNat_setWidth]
  have hhi : ((v >>> 32).setWidth 32).toNat = v.toNat / 256 ^ 4 % 256 ^ 4 := by
    simp [BitVec.toNat_setWidth, BitVec.toNat_ushiftRight, Nat.shiftRight_eq_div_pow]
  have h₁ := htonl_toNat_little ((v >>> 32).setWidth 32)
  have h₂ := htonl_toNat_little (v.setWidth 32)
  rw [hhi, leBytes_mod 4 4 _ le_rfl] at h₁
  rw [hlo, leBytes_mod 4 4 _ le_rfl] at h₂
  have b₁ := leValue_lt (leBytes 4 (v.toNat / 256 ^ 4)).reverse
  have b₂ := leValue_lt (leBytes 4 v.toNat).reverse
  rw [show (8 : ℕ) = 4 + 4 from rfl, leBytes_add, List.reverse_append, leValue_append]
  simp only [List.length_reverse, leBytes_length] at b₁ b₂ ⊢
  simp only [htonll, BitVec.toNat_add, BitVec.toNat_setWidth, BitVec.toNat_shiftLeft,
    Nat.shiftLeft_eq, h₁, h₂]
  omega

theorem htonll_htonll (bo : ByteOrder) (v : BitVec 64) : htonll bo (htonll bo v) = v := by
  cases bo with
  | big => rfl
  | little =>
      apply BitVec.eq_of_toNat_eq
      rw [htonll_toNat_little, htonll_toNat_little]
      have h := leBytes_leValue (leBytes 8 v.toNat).reverse
      simp only [List.length_reverse, leBytes_length] at h
      rw [h, List.reverse_reverse, leValue_leBytes]
      exact Nat.mod_eq_of_lt v.isLt

theorem hostBytes_htonll (bo : ByteOrder) (v : BitVec 64) :
    hostBytes bo 8 (htonll bo v).toNat = (leBytes 8 v.toNat).reverse := by
  cases bo with
  | big => rfl
  | little =>
      rw [htonll_toNat_little]
      have h := leBytes_leValue (leBytes 8 v.toNat).reverse
      simp only [List.length_reverse, leBytes_length] at h
      exact h

/-! ### Packing -/

/-- A number fits a C `int`. -/
def FitsInt (i : ℤ) : Prop := -2 ^ 31 ≤ i ∧ i < 2 ^ 31

instance (i : ℤ) : Decidable (FitsInt i) := inferInstanceAs (Decidable (_ ∧ _))

/-- `pack_int`: the bytes that are written. -/
def packInt (bo : ByteOrder) (i : ℤ) : List Byte :=
  hostBytes bo 4 (htonl bo (BitVec.ofInt 32 i)).toNat

/-- `unpack_int`: the value read and the rest of the buffer. -/
def unpackInt (bo : ByteOrder) (buf : List Byte) : Option (ℤ × List Byte) :=
  if buf.length < 4 then none
  else some ((htonl bo (BitVec.ofNat 32 (hostWord bo (buf.take 4)))).toInt, buf.drop 4)

/-- `pack_uint64`. -/
def packUint64 (bo : ByteOrder) (v : BitVec 64) : List Byte :=
  hostBytes bo 8 (htonll bo v).toNat

/-- What is left of a 64-bit value that is kept in an `int` and then returned as a 64-bit value. -/
def wireUint64 (v : BitVec 64) : BitVec 64 := (v.setWidth 32).signExtend 64

/-- `unpack_uint64`: the value is assigned to an `int` on its way. -/
def unpackUint64 (bo : ByteOrder) (buf : List Byte) : Option (BitVec 64 × List Byte) :=
  if buf.length < 8 then none
  else some (wireUint64 (htonll bo (BitVec.ofNat 64 (hostWord bo (buf.take 8)))), buf.drop 8)

@[simp] theorem packInt_length (bo : ByteOrder) (i : ℤ) : (packInt bo i).length = 4 := by
  simp [packInt]

@[simp] theorem packUint64_length (bo : ByteOrder) (v : BitVec 64) :
    (packUint64 bo v).length = 8 := by
  simp [packUint64]

/-- `pack_int` writes the big-endian representation on every host. -/
theorem packInt_eq (bo : ByteOrder) (i : ℤ) :
    packInt bo i = (leBytes 4 (BitVec.ofInt 32 i).toNat).reverse :=
  hostBytes_htonl bo _

theorem packUint64_eq (bo : ByteOrder) (v : BitVec 64) :
    packUint64 bo v = (leBytes 8 v.toNat).reverse :=
  hostBytes_htonll bo v

/-- **An `int` survives the wire**, and exactly its four bytes are consumed. -/
theorem unpackInt_packInt (bo : ByteOrder) {i : ℤ} (hi : FitsInt i) (rest : List Byte) :
    unpackInt bo (packInt bo i ++ rest) = some (i, rest) := by
  have hlen : ¬ (packInt bo i ++ rest).length < 4 := by simp
  have htake : (packInt bo i ++ rest).take 4 = packInt bo i := by
    rw [List.take_append_of_le_length (by simp)]
    exact List.take_of_length_le (by simp)
  have hdrop : (packInt bo i ++ rest).drop 4 = rest := by
    rw [List.drop_append_of_le_length (by simp), List.drop_of_length_le (by simp)]
    rfl
  have hword : BitVec.ofNat 32 (hostWord bo (packInt bo i)) = htonl bo (BitVec.ofInt 32 i) := by
    apply BitVec.eq_of_toNat_eq
    have := (htonl bo (BitVec.ofInt 32 i)).isLt
    rw [packInt, hostWord_hostBytes, BitVec.toNat_ofNat]
    omega
  have hval : (BitVec.ofInt 32 i).toInt = i := by
    obtain ⟨h₁, h₂⟩ := hi
    rw [BitVec.toInt_ofInt]
    exact Int.bmod_eq_of_le (by norm_num at h₁ ⊢; omega) (by norm_num at h₂ ⊢; omega)
  rw [unpackInt, if_neg hlen, htake, hdrop, hword, htonl_htonl, hval]

/-- A 64-bit value comes back as what an `int` keeps of it. -/
theorem unpackUint64_packUint64 (bo : ByteOrder) (v : BitVec 64) (rest : List Byte) :
    unpackUint64 bo (packUint64 bo v ++ rest) = some (wireUint64 v, rest) := by
  have hlen : ¬ (packUint64 bo v ++ rest).length < 8 := by simp
  have htake : (packUint64 bo v ++ rest).take 8 = packUint64 bo v := by
    rw [List.take_append_of_le_length (by simp)]
    exact List.take_of_length_le (by simp)
  have hdrop : (packUint64 bo v ++ rest).drop 8 = rest := by
    rw [List.drop_append_of_le_length (by simp), List.drop_of_length_le (by simp)]
    rfl
  have hword : BitVec.ofNat 64 (hostWord bo (packUint64 bo v)) = htonll bo v := by
    apply BitVec.eq_of_toNat_eq
    have := (htonll bo v).isLt
    rw [packUint64, hostWord_hostBytes, BitVec.toNat_ofNat]
    omega
  rw [unpackUint64, if_neg hlen, htake, hdrop, hword, htonll_htonll]

/-! ### What an `int` keeps of a 64-bit value -/

theorem wireUint64_toNat (v : BitVec 64) :
    (wireUint64 v).toNat =
      v.toNat % 2 ^ 32 + if v.toNat % 2 ^ 32 < 2 ^ 31 then 0 else 2 ^ 64 - 2 ^ 32 := by
  have hmsb : (v.setWidth 32).msb = decide (2 ^ 31 ≤ v.toNat % 2 ^ 32) := by
    rw [BitVec.msb_eq_decide, BitVec.toNat_setWidth]
  have hlow : ((v.setWidth 32).setWidth 64).toNat = v.toNat % 2 ^ 32 := by
    simp only [BitVec.toNat_setWidth]
    omega
  rw [wireUint64, BitVec.toNat_signExtend, hmsb, hlow]
  by_cases h : v.toNat % 2 ^ 32 < 2 ^ 31
  · rw [if_pos h, if_neg (by simpa using h)]
  · rw [if_neg h, if_pos (by simpa using h)]

/-- Two values are confused exactly when their low 32 bits agree. -/
theorem wireUint64_eq_iff (v w : BitVec 64) :
    wireUint64 v = wireUint64 w ↔ v.toNat % 2 ^ 32 = w.toNat % 2 ^ 32 := by
  constructor
  · intro h
    have h' := congrArg BitVec.toNat h
    rw [wireUint64_toNat, wireUint64_toNat] at h'
    split at h' <;> split at h' <;> omega
  · intro h
    apply BitVec.eq_of_toNat_eq
    rw [wireUint64_toNat, wireUint64_toNat, h]

/-- **The values that survive** are those that a signed `int` can hold. -/
theorem wireUint64_eq_self_iff (v : BitVec 64) :
    wireUint64 v = v ↔ v.toNat < 2 ^ 31 ∨ 2 ^ 64 - 2 ^ 31 ≤ v.toNat := by
  have hv := v.isLt
  rw [← BitVec.toNat_inj, wireUint64_toNat]
  split <;> omega

end DLFree

/-
**Hash maps: `std/map.c`.**

Cells with a key and a datum are chained in buckets by the remainder of the key; adding puts a cell
in front of its chain, so that later bindings of a key hide earlier ones.  A cell is taken out either
at the head of its bucket or behind another cell of the chain, and a removal by datum goes through
all buckets.

A cell is named by its address; `malloc` returns any name that is not in use.

Main definitions:

* `HashMapCell`, `HashMap` — `struct hash_map_cell` and `struct hash_map`;
* `hashMapAdd`, `hashMapPop`, `hashMapRemove`, `hashMapFind`, `hashMapNewKey` — the operations;
* `HashMap.Rep` — the cells of a hash map, the latest first;
* `StackStep` — the operations on a stack of bindings.

Main results:

* `HashMap.Rep.add`, `HashMap.Rep.unlinkBucket` — adding and taking out a cell;
* `HashMap.Rep.call` — every call returns, and is the call on the stack;
* `hashMap_run` — **a hash map is a stack of bindings**, and new keys do not repeat.
-/

import DLFree.VectorBuf
import DLFree.LinkedCells

set_option relaxedAutoImplicit false
set_option autoImplicit false

namespace DLFree

open LinkedCells (Leads)

/-- `struct hash_map_cell`; `none` is `NULL`. -/
structure HashMapCell (κ δ : Type) where
  data : Option δ
  key : BitVec 64
  next : Option κ

/-- `struct hash_map`, with the cells that are allocated. -/
structure HashMap (κ δ : Type) where
  heap : κ → Option (HashMapCell κ δ)
  bucket : List (Option κ)
  size : ℕ
  c : ℕ
  keyC : BitVec 64

/-- A binding: a key and its datum. -/
abbrev Binding (δ : Type) := BitVec 64 × Option δ

/-- The binding that a cell holds. -/
def HashMapCell.binding {κ δ : Type} (cell : HashMapCell κ δ) : Binding δ := (cell.key, cell.data)

section Code

variable {κ δ : Type} [DecidableEq κ]

/-- `hash_map_create`. -/
def hashMapCreate (size : ℕ) : HashMap κ δ where
  heap := fun _ => none
  bucket := List.replicate size none
  size := size
  c := 0
  keyC := 0

/-- The cell that a pointer points to. -/
def HashMap.get (hash : HashMap κ δ) (cell : κ) : Except Abort (HashMapCell κ δ) :=
  match hash.heap cell with
  | some x => Except.ok x
  | none => Except.error Abort.badAccess

/-- `hash_map_size`. -/
def hashMapSize (hash : HashMap κ δ) : ℕ := hash.c

/-- `hash_map_new_key`. -/
def hashMapNewKey (hash : HashMap κ δ) : HashMap κ δ × BitVec 64 :=
  ({ hash with keyC := hash.keyC + 1 }, hash.keyC)

/-- `hash_map_hash`. -/
def hashMapHash (hash : HashMap κ δ) (key : BitVec 64) : ℕ := key.toNat % hash.size

/-- `hash_map_add`; `cell` is what `malloc` returns. -/
def hashMapAdd (hash : HashMap κ δ) (cell : κ) (key : BitVec 64) (data : Option δ) :
    Except Abort (HashMap κ δ) := do
  let h := hashMapHash hash key
  let first ← slotLoad hash.bucket h
  let bucket ← slotStore hash.bucket h (some cell)
  Except.ok { hash with
    heap := Function.update hash.heap cell (some ⟨data, key, first⟩)
    bucket := bucket
    c := hash.c + 1 }

/-- `hash -> bucket[h] = cell -> next`, and the cell is freed. -/
def HashMap.unlinkHead (hash : HashMap κ δ) (h : ℕ) (cell : κ) (x : HashMapCell κ δ) :
    Except Abort (HashMap κ δ) := do
  let bucket ← slotStore hash.bucket h x.next
  Except.ok { hash with
    heap := Function.update hash.heap cell none
    bucket := bucket
    c := hash.c - 1 }

/-- `prev -> next = cell -> next`, and the cell is freed. -/
def HashMap.unlinkAfter (hash : HashMap κ δ) (prev cell : κ) (x : HashMapCell κ δ) :
    Except Abort (HashMap κ δ) := do
  let y ← hash.get prev
  Except.ok { hash with
    heap := Function.update (Function.update hash.heap prev (some { y with next := x.next }))
      cell none
    c := hash.c - 1 }

/-- The `for` loop of `hash_map_pop` and `hash_map_remove` along a chain, which takes out the first
cell that `p` selects; it ends before `fuel` does. -/
def hashMapUnlink (hash : HashMap κ δ) (p : Binding δ → Bool) :
    ℕ → κ → Option κ → Except Abort (Option (HashMap κ δ × Option δ))
  | 0, _, _ => Except.error Abort.diverges
  | _ + 1, _, none => Except.ok none
  | fuel + 1, prev, some cell => do
      let x ← hash.get cell
      if p x.binding then do
        let hash' ← hash.unlinkAfter prev cell x
        Except.ok (some (hash', x.data))
      else hashMapUnlink hash p fuel cell x.next

/-- What `hash_map_pop` does in the bucket of its key, and `hash_map_remove` in each bucket. -/
def hashMapUnlinkBucket (hash : HashMap κ δ) (p : Binding δ → Bool) (h : ℕ) :
    Except Abort (Option (HashMap κ δ × Option δ)) := do
  let first ← slotLoad hash.bucket h
  match first with
  | none => Except.ok none
  | some cell => do
      let x ← hash.get cell
      if p x.binding then do
        let hash' ← hash.unlinkHead h cell x
        Except.ok (some (hash', x.data))
      else hashMapUnlink hash p (hash.c + 1) cell x.next

/-- `hash_map_pop`. -/
def hashMapPop (hash : HashMap κ δ) (key : BitVec 64) :
    Except Abort (HashMap κ δ × Option δ) := do
  let found ← hashMapUnlinkBucket hash (fun b => b.1 = key) (hashMapHash hash key)
  match found with
  | some (hash', data) => Except.ok (hash', data)
  | none => Except.ok (hash, none)

/-- The loop of `hash_map_remove` over the `k` buckets from `h` on. -/
def hashMapRemoveFrom [DecidableEq δ] (hash : HashMap κ δ) (data : Option δ) :
    ℕ → ℕ → Except Abort (HashMap κ δ × ℤ)
  | 0, _ => Except.ok (hash, -1)
  | k + 1, h => do
      let found ← hashMapUnlinkBucket hash (fun b => b.2 = data) h
      match found with
      | some (hash', _) => Except.ok (hash', 0)
      | none => hashMapRemoveFrom hash data k (h + 1)

/-- `hash_map_remove`. -/
def hashMapRemove [DecidableEq δ] (hash : HashMap κ δ) (data : Option δ) :
    Except Abort (HashMap κ δ × ℤ) :=
  hashMapRemoveFrom hash data hash.size 0

/-- The loop of `hash_map_find` along a chain; it ends before `fuel` does. -/
def hashMapFindLoop (hash : HashMap κ δ) (key : BitVec 64) :
    ℕ → Option κ → Except Abort (Option δ)
  | 0, _ => Except.error Abort.diverges
  | _ + 1, none => Except.ok none
  | fuel + 1, some cell => do
      let x ← hash.get cell
      if x.key = key then Except.ok x.data else hashMapFindLoop hash key fuel x.next

/-- `hash_map_find`. -/
def hashMapFind (hash : HashMap κ δ) (key : BitVec 64) : Except Abort (Option δ) := do
  let first ← slotLoad hash.bucket (hashMapHash hash key)
  hashMapFindLoop hash key (hash.c + 1) first

end Code

/-! ### What a hash map holds -/

namespace HashMap

variable {κ δ : Type} {hash hash' : HashMap κ δ} {es s₁ s₂ : List (κ × Binding δ)}
  {e : κ × Binding δ} {p : Option κ} {k : ℕ}

/-- Where the pointer of each cell leads. -/
def nextOf (hash : HashMap κ δ) (a : κ) : Option κ := (hash.heap a).bind HashMapCell.next

/-- The cell of the name `e.1` holds the binding `e.2`. -/
def Holds (hash : HashMap κ δ) (e : κ × Binding δ) : Prop :=
  ∃ x, hash.heap e.1 = some x ∧ x.binding = e.2

/-- The cells of the bucket `k`. -/
def inBucket (size k : ℕ) (es : List (κ × Binding δ)) : List (κ × Binding δ) :=
  es.filter fun e => e.2.1.toNat % size = k

/-- The names of cells. -/
abbrev names (es : List (κ × Binding δ)) : List κ := es.map Prod.fst

/-- The hash map has the cells `es`, the latest first, and each bucket chains those of its keys. -/
structure Rep (hash : HashMap κ δ) (es : List (κ × Binding δ)) : Prop where
  pos : 0 < hash.size
  bucket : hash.bucket.length = hash.size
  nodup : (names es).Nodup
  cells : ∀ e ∈ es, hash.Holds e
  linked : ∀ k < hash.size, ∃ first, hash.bucket[k]? = some first ∧
    Leads hash.nextOf first (names (inBucket hash.size k es))
  c : hash.c = es.length

theorem Holds.get (h : hash.Holds e) :
    ∃ x, hash.get e.1 = Except.ok x ∧ x.binding = e.2 ∧ hash.nextOf e.1 = x.next ∧
      hash.heap e.1 = some x := by
  obtain ⟨x, hx, hbinding⟩ := h
  exact ⟨x, by rw [HashMap.get, hx], hbinding, by rw [nextOf, hx]; rfl, hx⟩

theorem mem_inBucket {size : ℕ} :
    e ∈ inBucket size k es ↔ e ∈ es ∧ e.2.1.toNat % size = k := by
  simp [inBucket]

theorem inBucket_append (size k : ℕ) (s₁ s₂ : List (κ × Binding δ)) :
    inBucket size k (s₁ ++ s₂) = inBucket size k s₁ ++ inBucket size k s₂ :=
  List.filter_append ..

theorem inBucket_subset (size k : ℕ) (es : List (κ × Binding δ)) : inBucket size k es ⊆ es :=
  List.filter_subset_self _

theorem Rep.hash_lt (h : hash.Rep es) (key : BitVec 64) : hashMapHash hash key < hash.size :=
  Nat.mod_lt _ h.pos

/-- Cells of one name are one cell. -/
theorem Rep.eq_of_fst (h : hash.Rep es) {e e' : κ × Binding δ} (he : e ∈ es) (he' : e' ∈ es)
    (heq : e.1 = e'.1) : e = e' :=
  List.inj_on_of_nodup_map h.nodup he he' heq

/-! ### Looking up -/

/-- The latest binding of a key in a stack of bindings. -/
def lookup (stack : List (Binding δ)) (key : BitVec 64) : Option δ :=
  (stack.find? fun b => b.1 = key).bind Prod.snd

theorem findLoop_eq {key : BitVec 64} (hcells : ∀ e ∈ es, hash.Holds e)
    (hlinked : Leads hash.nextOf p (names es)) {fuel : ℕ} (hfuel : es.length < fuel) :
    hashMapFindLoop hash key fuel p = Except.ok (lookup (es.map Prod.snd) key) := by
  induction es generalizing p fuel with
  | nil =>
      obtain ⟨fuel, rfl⟩ := Nat.exists_eq_succ_of_ne_zero (Nat.ne_of_gt hfuel)
      rw [hlinked]
      rfl
  | cons e es ih =>
      obtain ⟨fuel, rfl⟩ := Nat.exists_eq_succ_of_ne_zero (Nat.ne_of_gt (Nat.zero_lt_of_lt hfuel))
      obtain ⟨rfl, hrest⟩ := hlinked
      obtain ⟨x, hget, hbinding, hnext, _⟩ := (hcells e List.mem_cons_self).get
      have hkey : x.key = e.2.1 := congrArg Prod.fst hbinding
      have hdata : x.data = e.2.2 := congrArg Prod.snd hbinding
      rw [hashMapFindLoop, hget, ok_bind, hkey]
      by_cases heq : e.2.1 = key
      · rw [if_pos heq, lookup, List.map_cons, List.find?_cons_of_pos (by simpa using heq), hdata]
        rfl
      · rw [if_neg heq, lookup, List.map_cons, List.find?_cons_of_neg (by simpa using heq)]
        rw [hnext] at hrest
        exact ih (fun e' he' => hcells e' (List.mem_cons_of_mem _ he')) hrest
          (Nat.lt_of_succ_lt_succ hfuel)

/-- **`hash_map_find` returns the datum of the latest binding of its key.** -/
theorem Rep.find (h : hash.Rep es) (key : BitVec 64) :
    hashMapFind hash key = Except.ok (lookup (es.map Prod.snd) key) := by
  obtain ⟨first, hfirst, hlinked⟩ := h.linked _ (h.hash_lt key)
  have hlen : (inBucket hash.size (hashMapHash hash key) es).length < hash.c + 1 := by
    rw [h.c]
    exact Nat.lt_succ_of_le (List.length_filter_le _ _)
  rw [hashMapFind, slotLoad_eq_ok hfirst, ok_bind,
    findLoop_eq (fun e he => h.cells e (inBucket_subset _ _ _ he)) hlinked hlen]
  -- the cells of other buckets have other keys
  have hfind : ((inBucket hash.size (hashMapHash hash key) es).map Prod.snd).find?
      (fun b => decide (b.1 = key)) = (es.map Prod.snd).find? fun b => decide (b.1 = key) := by
    rw [List.find?_map, List.find?_map, inBucket, List.find?_filter]
    congr 2
    funext e
    by_cases heq : e.2.1 = key <;> simp [heq, hashMapHash]
  rw [lookup, hfind, lookup]

/-! ### Adding -/

section Changes

variable [DecidableEq κ]

/-- **`hash_map_add` puts a binding in front of the others.** -/
theorem Rep.add (h : hash.Rep es) {cell : κ} (hfree : hash.heap cell = none) (key : BitVec 64)
    (data : Option δ) :
    ∃ hash', hashMapAdd hash cell key data = Except.ok hash' ∧
      hash'.Rep ((cell, key, data) :: es) ∧ hash'.size = hash.size ∧ hash'.keyC = hash.keyC := by
  obtain ⟨first, hfirst, hlinked⟩ := h.linked _ (h.hash_lt key)
  have hlt : hashMapHash hash key < hash.bucket.length := h.bucket ▸ h.hash_lt key
  have hnew : ∀ e ∈ es, e.1 ≠ cell := by
    rintro e he rfl
    obtain ⟨x, hx, _⟩ := h.cells e he
    rw [hfree] at hx
    cases hx
  refine ⟨{ hash with
    heap := Function.update hash.heap cell (some ⟨data, key, first⟩)
    bucket := hash.bucket.set (hashMapHash hash key) (some cell)
    c := hash.c + 1 }, ?_, ⟨h.pos, ?_, ?_, ?_, ?_, ?_⟩, rfl, rfl⟩
  · rw [hashMapAdd, slotLoad_eq_ok hfirst, ok_bind, slotStore_eq_ok hlt, ok_bind]
  · simpa using h.bucket
  · rw [names, List.map_cons, List.nodup_cons]
    refine ⟨fun hmem => ?_, h.nodup⟩
    obtain ⟨e, he, heq⟩ := List.mem_map.1 hmem
    exact hnew e he heq
  · intro e he
    rcases List.mem_cons.1 he with rfl | he
    · exact ⟨_, Function.update_self .., rfl⟩
    · obtain ⟨x, hx, hbinding⟩ := h.cells e he
      exact ⟨x, by simp only [Function.update_of_ne (hnew e he), hx], hbinding⟩
  · intro k hk
    -- the pointers of the old cells are as before
    have hold : ∀ (p : Option κ), Leads hash.nextOf p (names (inBucket hash.size k es)) →
        Leads (nextOf { hash with
          heap := Function.update hash.heap cell (some ⟨data, key, first⟩)
          bucket := hash.bucket.set (hashMapHash hash key) (some cell)
          c := hash.c + 1 }) p (names (inBucket hash.size k es)) := by
      intro p hp
      refine hp.congr fun a ha => ?_
      obtain ⟨e, he, rfl⟩ := List.mem_map.1 ha
      have hne := hnew e (inBucket_subset _ _ _ he)
      simp [nextOf, Function.update_of_ne hne]
    by_cases hkey : key.toNat % hash.size = k
    · subst hkey
      refine ⟨some cell, List.getElem?_set_self hlt, ?_⟩
      rw [inBucket, List.filter_cons_of_pos (by simp), names, List.map_cons]
      refine ⟨rfl, ?_⟩
      have hnext : nextOf { hash with
          heap := Function.update hash.heap cell (some ⟨data, key, first⟩)
          bucket := hash.bucket.set (hashMapHash hash key) (some cell)
          c := hash.c + 1 } cell = first := by simp [nextOf]
      rw [hnext]
      exact hold first hlinked
    · obtain ⟨first', hfirst', hlinked'⟩ := h.linked k hk
      refine ⟨first', (List.getElem?_set_ne hkey).trans hfirst', ?_⟩
      rw [inBucket, List.filter_cons_of_neg (by simpa using hkey)]
      exact hold first' hlinked'
  · simp [h.c]

/-! ### Taking out -/

omit [DecidableEq κ] in
/-- What is left when one cell is gone: the others hold what they held, the chain of its bucket goes
past it, and the other buckets are as they were. -/
theorem Rep.erase (h : hash.Rep (s₁ ++ e :: s₂)) (hk : e.2.1.toNat % hash.size = k)
    (hsize : hash'.size = hash.size) (hc : hash'.c = hash.c - 1)
    (hlen : hash'.bucket.length = hash.bucket.length)
    (hcells : ∀ x ∈ s₁ ++ s₂, hash'.Holds x)
    (hlinked : ∃ first, hash'.bucket[k]? = some first ∧
      Leads hash'.nextOf first (names (inBucket hash.size k (s₁ ++ s₂))))
    (hbucket : ∀ i, i ≠ k → hash'.bucket[i]? = hash.bucket[i]?)
    (hnext : ∀ x ∈ s₁ ++ s₂, x.2.1.toNat % hash.size ≠ k →
      hash'.nextOf x.1 = hash.nextOf x.1) : hash'.Rep (s₁ ++ s₂) := by
  have hsub : (s₁ ++ s₂).Sublist (s₁ ++ e :: s₂) :=
    (List.Sublist.refl s₁).append (List.sublist_cons_self e s₂)
  refine ⟨hsize ▸ h.pos, by rw [hlen, h.bucket, hsize], h.nodup.sublist (hsub.map _), hcells, ?_,
    ?_⟩
  · intro i hi
    rw [hsize] at hi ⊢
    by_cases hik : i = k
    · rw [hik]
      exact hlinked
    · obtain ⟨first, hfirst, hchain⟩ := h.linked i hi
      have hsame : inBucket hash.size i (s₁ ++ e :: s₂) = inBucket hash.size i (s₁ ++ s₂) := by
        rw [inBucket_append, inBucket_append]
        congr 1
        exact List.filter_cons_of_neg (by simp only [hk]; simpa using Ne.symm hik)
      rw [hsame] at hchain
      refine ⟨first, (hbucket i hik).trans hfirst, hchain.congr fun a ha => ?_⟩
      obtain ⟨x, hx, rfl⟩ := List.mem_map.1 ha
      obtain ⟨hx, hxi⟩ := mem_inBucket.1 hx
      exact hnext x hx (hxi ▸ hik)
  · rw [hc, h.c]
    simp

/-- The loop along a chain takes out its first selected cell, behind the cell before it. -/
theorem unlink_found {f : Binding δ → Bool} {l₁ l₂ : List (κ × Binding δ)}
    (hcells : ∀ x ∈ l₁ ++ e :: l₂, hash.Holds x)
    (hlinked : Leads hash.nextOf p (names (l₁ ++ e :: l₂))) (hl₁ : ∀ x ∈ l₁, f x.2 = false)
    (he : f e.2 = true) (prev : κ) {fuel : ℕ} (hfuel : (l₁ ++ e :: l₂).length < fuel) :
    ∃ l₀ b x, prev :: names l₁ = l₀ ++ [b] ∧ hash.heap e.1 = some x ∧ x.binding = e.2 ∧
      hashMapUnlink hash f fuel prev p = (do
        let hash' ← hash.unlinkAfter b e.1 x
        Except.ok (some (hash', x.data))) := by
  induction l₁ generalizing prev p fuel with
  | nil =>
      obtain ⟨fuel, rfl⟩ := Nat.exists_eq_succ_of_ne_zero (Nat.ne_of_gt (Nat.zero_lt_of_lt hfuel))
      obtain ⟨rfl, _⟩ := hlinked
      obtain ⟨x, hget, hbinding, _, hx⟩ := (hcells e List.mem_cons_self).get
      refine ⟨[], prev, x, rfl, hx, hbinding, ?_⟩
      rw [hashMapUnlink, hget, ok_bind, if_pos (hbinding ▸ he)]
  | cons y l₁ ih =>
      obtain ⟨fuel, rfl⟩ := Nat.exists_eq_succ_of_ne_zero (Nat.ne_of_gt (Nat.zero_lt_of_lt hfuel))
      obtain ⟨rfl, hrest⟩ := hlinked
      obtain ⟨z, hget, hbinding, hnext, _⟩ := (hcells y List.mem_cons_self).get
      have hy := hl₁ y List.mem_cons_self
      rw [hnext] at hrest
      obtain ⟨l₀, b, x, hsplit, hx, hxb, heq⟩ := ih
        (fun w hw => hcells w (List.mem_cons_of_mem _ hw)) hrest
        (fun w hw => hl₁ w (List.mem_cons_of_mem _ hw)) y.1 (Nat.lt_of_succ_lt_succ hfuel)
      refine ⟨prev :: l₀, b, x, by rw [names, List.map_cons, hsplit]; rfl, hx, hxb, ?_⟩
      rw [hashMapUnlink, hget, ok_bind, if_neg (by rw [hbinding, hy]; decide), heq]

/-- Where no cell is selected, the loop along a chain takes out none. -/
theorem unlink_none {f : Binding δ → Bool} (hcells : ∀ x ∈ es, hash.Holds x)
    (hlinked : Leads hash.nextOf p (names es)) (hes : ∀ x ∈ es, f x.2 = false) (prev : κ)
    {fuel : ℕ} (hfuel : es.length < fuel) :
    hashMapUnlink hash f fuel prev p = Except.ok none := by
  induction es generalizing prev p fuel with
  | nil =>
      obtain ⟨fuel, rfl⟩ := Nat.exists_eq_succ_of_ne_zero (Nat.ne_of_gt hfuel)
      rw [hlinked]
      rfl
  | cons y es ih =>
      obtain ⟨fuel, rfl⟩ := Nat.exists_eq_succ_of_ne_zero (Nat.ne_of_gt (Nat.zero_lt_of_lt hfuel))
      obtain ⟨rfl, hrest⟩ := hlinked
      obtain ⟨z, hget, hbinding, hnext, _⟩ := (hcells y List.mem_cons_self).get
      have hy := hes y List.mem_cons_self
      rw [hnext] at hrest
      rw [hashMapUnlink, hget, ok_bind, if_neg (by rw [hbinding, hy]; decide)]
      exact ih (fun w hw => hcells w (List.mem_cons_of_mem _ hw)) hrest
        (fun w hw => hes w (List.mem_cons_of_mem _ hw)) y.1 (Nat.lt_of_succ_lt_succ hfuel)

omit [DecidableEq κ] in
/-- The other cells have other names. -/
theorem Rep.ne_of_mem (h : hash.Rep (s₁ ++ e :: s₂)) {x : κ × Binding δ} (hx : x ∈ s₁ ++ s₂) :
    x.1 ≠ e.1 := by
  have hnodup := h.nodup
  rw [names, List.map_append, List.map_cons, List.nodup_middle, List.nodup_cons,
    ← List.map_append] at hnodup
  exact fun heq => hnodup.1 (heq ▸ List.mem_map_of_mem hx)

omit [DecidableEq κ] in
theorem Rep.holds_of_mem (h : hash.Rep (s₁ ++ e :: s₂)) {x : κ × Binding δ}
    (hx : x ∈ s₁ ++ s₂) : hash.Holds x := by
  refine h.cells x ?_
  rcases List.mem_append.1 hx with hx | hx
  · exact List.mem_append_left _ hx
  · exact List.mem_append_right _ (List.mem_cons_of_mem _ hx)

omit [DecidableEq κ] in
/-- The chain of a bucket around one of its cells. -/
theorem inBucket_split {size : ℕ} (hk : e.2.1.toNat % size = k) :
    inBucket size k (s₁ ++ e :: s₂) = inBucket size k s₁ ++ e :: inBucket size k s₂ := by
  rw [inBucket_append]
  congr 1
  exact List.filter_cons_of_pos (by simpa using hk)

/-- The first cell of a bucket is taken out at the head. -/
theorem Rep.unlinkHead (h : hash.Rep (s₁ ++ e :: s₂)) (hk : e.2.1.toNat % hash.size = k)
    (hfirst : inBucket hash.size k s₁ = []) {x : HashMapCell κ δ} (hx : hash.heap e.1 = some x) :
    ∃ hash', hash.unlinkHead k e.1 x = Except.ok hash' ∧ hash'.Rep (s₁ ++ s₂) ∧
      hash'.size = hash.size ∧ hash'.keyC = hash.keyC := by
  have hksize : k < hash.size := hk ▸ Nat.mod_lt _ h.pos
  have hlt : k < hash.bucket.length := h.bucket ▸ hksize
  obtain ⟨first, _, hlinked⟩ := h.linked k hksize
  rw [inBucket_split hk, hfirst, List.nil_append] at hlinked
  have hnext : hash.nextOf e.1 = x.next := by rw [nextOf, hx]; rfl
  have hsame : ∀ y ∈ s₁ ++ s₂, Function.update hash.heap e.1 none y.1 = hash.heap y.1 :=
    fun y hy => Function.update_of_ne (h.ne_of_mem hy) ..
  refine ⟨{ hash with
    heap := Function.update hash.heap e.1 none
    bucket := hash.bucket.set k x.next
    c := hash.c - 1 }, ?_, ?_, rfl, rfl⟩
  · rw [HashMap.unlinkHead, slotStore_eq_ok hlt, ok_bind]
  · refine h.erase hk rfl rfl (by simp) ?_ ?_ ?_ ?_
    · intro y hy
      obtain ⟨z, hz, hbinding⟩ := h.holds_of_mem hy
      exact ⟨z, (hsame y hy).trans hz, hbinding⟩
    · refine ⟨x.next, List.getElem?_set_self hlt, ?_⟩
      rw [inBucket_append, hfirst, List.nil_append, ← hnext]
      refine hlinked.2.congr fun a ha => ?_
      obtain ⟨y, hy, rfl⟩ := List.mem_map.1 ha
      have hy' := List.mem_append_right s₁ (inBucket_subset _ _ _ hy)
      simp only [nextOf, hsame y hy']
    · exact fun i hi => List.getElem?_set_ne (Ne.symm hi)
    · exact fun y hy _ => by simp only [nextOf, hsame y hy]

/-- Any other cell of a bucket is taken out behind the cell before it. -/
theorem Rep.unlinkAfter (h : hash.Rep (s₁ ++ e :: s₂)) (hk : e.2.1.toNat % hash.size = k)
    {l₀ : List κ} {b : κ} (hbefore : names (inBucket hash.size k s₁) = l₀ ++ [b])
    {x : HashMapCell κ δ} (hx : hash.heap e.1 = some x) :
    ∃ hash', hash.unlinkAfter b e.1 x = Except.ok hash' ∧ hash'.Rep (s₁ ++ s₂) ∧
      hash'.size = hash.size ∧ hash'.keyC = hash.keyC := by
  have hksize : k < hash.size := hk ▸ Nat.mod_lt _ h.pos
  obtain ⟨first, hfirst, hlinked⟩ := h.linked k hksize
  have hchain : names (inBucket hash.size k (s₁ ++ e :: s₂)) =
      l₀ ++ b :: e.1 :: names (inBucket hash.size k s₂) := by
    rw [inBucket_split hk, names, List.map_append, ← names, hbefore]
    simp
  have hnext : hash.nextOf e.1 = x.next := by rw [nextOf, hx]; rfl
  -- the cell before it is a cell of the same bucket
  obtain ⟨y, hy, rfl⟩ : ∃ y ∈ inBucket hash.size k s₁, y.1 = b := by
    have hb : b ∈ names (inBucket hash.size k s₁) := by simp [hbefore]
    exact List.mem_map.1 hb
  obtain ⟨hy, hyk⟩ := mem_inBucket.1 hy
  have hy' : y ∈ s₁ ++ s₂ := List.mem_append_left _ hy
  obtain ⟨z, hget, hzb, _, hz⟩ := (h.holds_of_mem hy').get
  obtain ⟨heap', hheap'⟩ : ∃ heap', heap' = Function.update
      (Function.update hash.heap y.1 (some { z with next := x.next })) e.1 none := ⟨_, rfl⟩
  have hat : heap' y.1 = some { z with next := x.next } := by
    rw [hheap', Function.update_of_ne (h.ne_of_mem hy'), Function.update_self]
  have hother : ∀ a, a ≠ y.1 → a ≠ e.1 → heap' a = hash.heap a := by
    intro a ha hae
    rw [hheap', Function.update_of_ne hae, Function.update_of_ne ha]
  refine ⟨{ hash with heap := heap', c := hash.c - 1 }, ?_, ?_, rfl, rfl⟩
  · rw [HashMap.unlinkAfter, hget, ok_bind, hheap']
  · refine h.erase hk rfl rfl rfl ?_ ?_ (fun _ _ => rfl) ?_
    · intro w hw
      by_cases hwy : w.1 = y.1
      · obtain rfl := h.eq_of_fst (by simp at hw ⊢; tauto) (by simp [hy]) hwy
        exact ⟨_, hat, hzb⟩
      · obtain ⟨v, hv, hbinding⟩ := h.holds_of_mem hw
        exact ⟨v, (hother w.1 hwy (h.ne_of_mem hw)).trans hv, hbinding⟩
    · refine ⟨first, hfirst, ?_⟩
      have hnodup : (l₀ ++ y.1 :: e.1 :: names (inBucket hash.size k s₂)).Nodup := by
        rw [← hchain]
        exact h.nodup.sublist (List.filter_sublist.map _)
      rw [hchain] at hlinked
      have hrest : names (inBucket hash.size k (s₁ ++ s₂)) =
          l₀ ++ y.1 :: names (inBucket hash.size k s₂) := by
        rw [inBucket_append, names, List.map_append, ← names, hbefore]
        simp
      rw [hrest]
      refine hlinked.unlink_of_nodup hnodup ?_ fun a ha hae => ?_
      · rw [hnext, nextOf]
        simp only [hat]
        rfl
      · simp only [nextOf, hother a ha hae]
    · intro w hw hwk
      have hwy : w.1 ≠ y.1 := by
        intro heq
        obtain rfl := h.eq_of_fst (by simp at hw ⊢; tauto) (by simp [hy]) heq
        exact hwk hyk
      simp only [nextOf, hother w.1 hwy (h.ne_of_mem hw)]

/-- The outcome of taking the first selected cell out of the bucket `k`: there is none, or the
latest one of the bucket is gone. -/
inductive Unlinked (hash : HashMap κ δ) (es : List (κ × Binding δ)) (f : Binding δ → Bool) (k : ℕ) :
    Option (HashMap κ δ × Option δ) → Prop
  | absent (hnone : ∀ x ∈ es, x.2.1.toNat % hash.size = k → f x.2 = false) :
      Unlinked hash es f k none
  | found {s₁ s₂ : List (κ × Binding δ)} {e : κ × Binding δ} {hash' : HashMap κ δ}
      (hsplit : es = s₁ ++ e :: s₂) (hk : e.2.1.toNat % hash.size = k) (he : f e.2 = true)
      (hs₁ : ∀ x ∈ s₁, x.2.1.toNat % hash.size = k → f x.2 = false)
      (hrep : hash'.Rep (s₁ ++ s₂)) (hsize : hash'.size = hash.size)
      (hkey : hash'.keyC = hash.keyC) : Unlinked hash es f k (some (hash', e.2.2))

omit [DecidableEq κ] in
theorem Rep.holds_of_bucket (h : hash.Rep es) :
    ∀ x ∈ inBucket hash.size k es, hash.Holds x := fun x hx => h.cells x (inBucket_subset _ _ _ hx)

omit [DecidableEq κ] in
/-- The number of all cells bounds the loop along one chain. -/
theorem Rep.length_inBucket_le (h : hash.Rep es) : (inBucket hash.size k es).length ≤ hash.c := by
  rw [h.c]
  exact List.length_filter_le _ _

/-- Where no cell of a bucket is selected, it keeps all of them. -/
theorem Rep.unlinkBucket_none (h : hash.Rep es) {f : Binding δ → Bool} (hk : k < hash.size)
    (hnone : ∀ x ∈ es, x.2.1.toNat % hash.size = k → f x.2 = false) :
    hashMapUnlinkBucket hash f k = Except.ok none := by
  obtain ⟨first, hfirst, hlinked⟩ := h.linked k hk
  have hcells : ∀ x ∈ inBucket hash.size k es, hash.Holds x := h.holds_of_bucket
  have hlen : (inBucket hash.size k es).length ≤ hash.c := h.length_inBucket_le
  have hbucket : ∀ x ∈ inBucket hash.size k es, f x.2 = false := fun x hx =>
    hnone x (mem_inBucket.1 hx).1 (mem_inBucket.1 hx).2
  rw [hashMapUnlinkBucket, slotLoad_eq_ok hfirst, ok_bind]
  cases hchain : inBucket hash.size k es with
  | nil =>
      rw [hchain] at hlinked
      rw [hlinked]
  | cons y l =>
      rw [hchain] at hlinked hcells hbucket hlen
      obtain ⟨rfl, hrest⟩ := hlinked
      obtain ⟨z, hget, hbinding, hnext, _⟩ := (hcells y List.mem_cons_self).get
      have hy := hbucket y List.mem_cons_self
      rw [hnext] at hrest
      simp only [hget, ok_bind, hbinding, hy, Bool.false_eq_true, if_false]
      exact unlink_none (fun w hw => hcells w (List.mem_cons_of_mem _ hw)) hrest
        (fun w hw => hbucket w (List.mem_cons_of_mem _ hw)) y.1
        (by rw [List.length_cons] at hlen; omega)

/-- A bucket loses its first selected cell, at its head or behind another. -/
theorem Rep.unlinkBucket_found (h : hash.Rep (s₁ ++ e :: s₂)) {f : Binding δ → Bool}
    (hk : e.2.1.toNat % hash.size = k) (he : f e.2 = true)
    (hs₁ : ∀ x ∈ s₁, x.2.1.toNat % hash.size = k → f x.2 = false) :
    ∃ hash', hashMapUnlinkBucket hash f k = Except.ok (some (hash', e.2.2)) ∧
      hash'.Rep (s₁ ++ s₂) ∧ hash'.size = hash.size ∧ hash'.keyC = hash.keyC := by
  have hksize : k < hash.size := hk ▸ Nat.mod_lt _ h.pos
  obtain ⟨first, hfirst, hlinked⟩ := h.linked k hksize
  have hcells : ∀ x ∈ inBucket hash.size k (s₁ ++ e :: s₂), hash.Holds x := h.holds_of_bucket
  have hlen : (inBucket hash.size k (s₁ ++ e :: s₂)).length ≤ hash.c := h.length_inBucket_le
  rw [hashMapUnlinkBucket, slotLoad_eq_ok hfirst, ok_bind]
  rw [inBucket_split hk] at hlinked hcells hlen
  cases hchain : inBucket hash.size k s₁ with
  | nil =>
      rw [hchain, List.nil_append] at hlinked
      obtain ⟨rfl, _⟩ := hlinked
      obtain ⟨x, hget, hbinding, _, hx⟩ := (h.cells e (by simp)).get
      obtain ⟨hash', hunlink, hrep, hsize, hkey⟩ := h.unlinkHead hk hchain hx
      have hdata : x.data = e.2.2 := congrArg Prod.snd hbinding
      refine ⟨hash', ?_, hrep, hsize, hkey⟩
      simp only [hget, ok_bind, hbinding, he, if_true, hunlink, hdata]
  | cons y l =>
      rw [hchain] at hlinked hcells hlen
      have hbucket : ∀ x ∈ y :: l, f x.2 = false := by
        intro x hx
        rw [← hchain] at hx
        exact hs₁ x (mem_inBucket.1 hx).1 (mem_inBucket.1 hx).2
      obtain ⟨rfl, hrest⟩ := hlinked
      obtain ⟨z, hget, hbinding, hnext, _⟩ := (hcells y List.mem_cons_self).get
      have hy := hbucket y List.mem_cons_self
      rw [hnext] at hrest
      -- the head is not selected, so the loop starts behind it
      obtain ⟨l₀, b, x, hsplit, hx, hxb, heq⟩ := unlink_found
        (fun w hw => hcells w (List.mem_cons_of_mem _ hw)) hrest
        (fun w hw => hbucket w (List.mem_cons_of_mem _ hw)) he y.1
        (show _ < hash.c + 1 by rw [List.cons_append, List.length_cons] at hlen; omega)
      obtain ⟨hash', hunlink, hrep, hsize, hkey⟩ := h.unlinkAfter hk
        (show names (inBucket hash.size k s₁) = l₀ ++ [b] by rw [hchain]; exact hsplit) hx
      have hdata : x.data = e.2.2 := congrArg Prod.snd hxb
      refine ⟨hash', ?_, hrep, hsize, hkey⟩
      simp only [hget, ok_bind, hbinding, hy, Bool.false_eq_true, if_false]
      rw [heq, hunlink, ok_bind, hdata]

/-- **A bucket loses the first of its cells that is selected**, if there is one. -/
theorem Rep.unlinkBucket (h : hash.Rep es) (f : Binding δ → Bool) (hk : k < hash.size) :
    ∃ r, hashMapUnlinkBucket hash f k = Except.ok r ∧ Unlinked hash es f k r := by
  cases hfind : es.find? fun x => x.2.1.toNat % hash.size = k ∧ f x.2 = true with
  | none =>
      have hnone : ∀ x ∈ es, x.2.1.toNat % hash.size = k → f x.2 = false := by
        intro x hx hxk
        have := List.find?_eq_none.1 hfind x hx
        simpa [hxk] using this
      exact ⟨none, h.unlinkBucket_none hk hnone, Unlinked.absent hnone⟩
  | some e =>
      obtain ⟨hsel, s₁, s₂, rfl, hs₁⟩ := List.find?_eq_some_iff_append.1 hfind
      obtain ⟨hek, hef⟩ := of_decide_eq_true hsel
      have hs₁' : ∀ x ∈ s₁, x.2.1.toNat % hash.size = k → f x.2 = false := by
        intro x hx hxk
        have := hs₁ x hx
        simpa [hxk] using this
      obtain ⟨hash', hunlink, hrep, hsize, hkey⟩ := h.unlinkBucket_found hek hef hs₁'
      exact ⟨_, hunlink, Unlinked.found rfl hek hef hs₁' hrep hsize hkey⟩

/-- **`hash_map_pop` takes out the latest binding of its key**, or finds none. -/
theorem Rep.pop (h : hash.Rep es) (key : BitVec 64) :
    (∃ s₁ e s₂ hash', es = s₁ ++ e :: s₂ ∧ e.2.1 = key ∧ (∀ x ∈ s₁, x.2.1 ≠ key) ∧
        hashMapPop hash key = Except.ok (hash', e.2.2) ∧ hash'.Rep (s₁ ++ s₂) ∧
        hash'.keyC = hash.keyC) ∨
      (∀ x ∈ es, x.2.1 ≠ key) ∧ hashMapPop hash key = Except.ok (hash, none) := by
  obtain ⟨r, hr, hcases⟩ := h.unlinkBucket (fun b => decide (b.1 = key)) (h.hash_lt key)
  rw [hashMapPop, hr, ok_bind]
  -- every cell of the key is in the bucket of the key
  have hbucket : ∀ x : κ × Binding δ,
      (x.2.1.toNat % hash.size = hashMapHash hash key → decide (x.2.1 = key) = false) →
        x.2.1 ≠ key := by
    rintro x hx rfl
    simpa using hx rfl
  cases hcases with
  | absent hnone => exact Or.inr ⟨fun x hx => hbucket x (hnone x hx), rfl⟩
  | found hsplit _ he hs₁ hrep _ hkey =>
      exact Or.inl ⟨_, _, _, _, hsplit, of_decide_eq_true he,
        fun x hx => hbucket x (hs₁ x hx), rfl, hrep, hkey⟩

/-- The buckets before the first one that holds the datum are left alone. -/
theorem Rep.removeFrom [DecidableEq δ] (h : hash.Rep es) (data : Option δ) {m i : ℕ}
    (hm : i + m = hash.size) (hbelow : ∀ x ∈ es, x.2.1.toNat % hash.size < i → x.2.2 ≠ data) :
    (∃ s₁ e s₂ hash', es = s₁ ++ e :: s₂ ∧ e.2.2 = data ∧
        hashMapRemoveFrom hash data m i = Except.ok (hash', 0) ∧ hash'.Rep (s₁ ++ s₂) ∧
        hash'.keyC = hash.keyC) ∨
      (∀ x ∈ es, x.2.2 ≠ data) ∧ hashMapRemoveFrom hash data m i = Except.ok (hash, -1) := by
  induction m generalizing i with
  | zero =>
      refine Or.inr ⟨fun x hx => hbelow x hx ?_, rfl⟩
      have := Nat.mod_lt x.2.1.toNat h.pos
      omega
  | succ m ih =>
      obtain ⟨r, hr, hcases⟩ := h.unlinkBucket (fun b => decide (b.2 = data))
        (show i < hash.size by omega)
      rw [hashMapRemoveFrom, hr, ok_bind]
      cases hcases with
      | absent hnone =>
          refine ih (by omega) fun x hx hlt => ?_
          rcases Nat.lt_succ_iff_lt_or_eq.1 hlt with hlt | heq
          · exact hbelow x hx hlt
          · exact of_decide_eq_false (hnone x hx heq)
      | found hsplit _ he _ hrep _ hkey =>
          exact Or.inl ⟨_, _, _, _, hsplit, of_decide_eq_true he, rfl, hrep, hkey⟩

/-- **`hash_map_remove` takes out one binding of its datum**, or finds none in any bucket. -/
theorem Rep.remove [DecidableEq δ] (h : hash.Rep es) (data : Option δ) :
    (∃ s₁ e s₂ hash', es = s₁ ++ e :: s₂ ∧ e.2.2 = data ∧
        hashMapRemove hash data = Except.ok (hash', 0) ∧ hash'.Rep (s₁ ++ s₂) ∧
        hash'.keyC = hash.keyC) ∨
      (∀ x ∈ es, x.2.2 ≠ data) ∧ hashMapRemove hash data = Except.ok (hash, -1) :=
  h.removeFrom data (Nat.zero_add _) fun _ _ hlt => absurd hlt (Nat.not_lt_zero _)

end Changes

theorem rep_create {size : ℕ} (hsize : 1 ≤ size) :
    (hashMapCreate size : HashMap κ δ).Rep [] where
  pos := hsize
  bucket := List.length_replicate
  nodup := List.nodup_nil
  cells := by simp
  linked := fun k hk => ⟨none, List.getElem?_replicate_of_lt hk, rfl⟩
  c := rfl

end HashMap

/-! ### Runs of calls -/

/-- A call on a hash map. -/
inductive MapOp (δ : Type) where
  | add (key : BitVec 64) (data : Option δ)
  | find (key : BitVec 64)
  | pop (key : BitVec 64)
  | remove (data : Option δ)
  | newKey
  | size

/-- What a call returns. -/
inductive MapRet (δ : Type) where
  | unit
  | data (data : Option δ)
  | int (n : ℤ)
  | key (key : BitVec 64)

/-- The calls on a stack of bindings, the latest in front. -/
inductive StackStep {δ : Type} : List (Binding δ) → MapOp δ → List (Binding δ) → MapRet δ → Prop
  | add {s : List (Binding δ)} {key : BitVec 64} {data : Option δ} :
      StackStep s (.add key data) ((key, data) :: s) .unit
  | find {s : List (Binding δ)} {key : BitVec 64} :
      StackStep s (.find key) s (.data (HashMap.lookup s key))
  | pop {s₁ s₂ : List (Binding δ)} {key : BitVec 64} {data : Option δ}
      (hs₁ : ∀ b ∈ s₁, b.1 ≠ key) :
      StackStep (s₁ ++ (key, data) :: s₂) (.pop key) (s₁ ++ s₂) (.data data)
  | popNone {s : List (Binding δ)} {key : BitVec 64} (hs : ∀ b ∈ s, b.1 ≠ key) :
      StackStep s (.pop key) s (.data none)
  | remove {s₁ s₂ : List (Binding δ)} {key : BitVec 64} {data : Option δ} :
      StackStep (s₁ ++ (key, data) :: s₂) (.remove data) (s₁ ++ s₂) (.int 0)
  | removeNone {s : List (Binding δ)} {data : Option δ} (hs : ∀ b ∈ s, b.2 ≠ data) :
      StackStep s (.remove data) s (.int (-1))
  | newKey {s : List (Binding δ)} {key : BitVec 64} : StackStep s .newKey s (.key key)
  | size {s : List (Binding δ)} : StackStep s .size s (.int s.length)

/-- The calls made so far, with what they returned. -/
abbrev MapHistory (δ : Type) := List (MapOp δ × MapRet δ)

/-- The runs of calls on a stack of bindings, from the empty one. -/
inductive StackRun {δ : Type} : MapHistory δ → List (Binding δ) → Prop
  | create : StackRun [] []
  | call {hist : MapHistory δ} {s s' : List (Binding δ)} {op : MapOp δ} {ret : MapRet δ}
      (hrun : StackRun hist s) (hstep : StackStep s op s' ret) : StackRun (hist ++ [(op, ret)]) s'

/-- The keys that `hash_map_new_key` has returned. -/
def newKeys {δ : Type} (hist : MapHistory δ) : List (BitVec 64) :=
  hist.filterMap fun
    | (.newKey, .key key) => some key
    | _ => none

section Runs

variable {κ δ : Type} [DecidableEq κ] [DecidableEq δ]

/-- A call on a hash map; `cell` is what `malloc` returns if it is called. -/
def hashMapCall (hash : HashMap κ δ) (cell : κ) : MapOp δ → Except Abort (HashMap κ δ × MapRet δ)
  | .add key data => do
      let hash ← hashMapAdd hash cell key data
      Except.ok (hash, .unit)
  | .find key => do
      let data ← hashMapFind hash key
      Except.ok (hash, .data data)
  | .pop key => do
      let r ← hashMapPop hash key
      Except.ok (r.1, .data r.2)
  | .remove data => do
      let r ← hashMapRemove hash data
      Except.ok (r.1, .int r.2)
  | .newKey => Except.ok ((hashMapNewKey hash).1, .key (hashMapNewKey hash).2)
  | .size => Except.ok (hash, .int (hashMapSize hash))

/-- The runs of calls on a hash map of `size` buckets; `malloc` returns cells not in use. -/
inductive HashMapRun (size : ℕ) : MapHistory δ → HashMap κ δ → Prop
  | create : HashMapRun size [] (hashMapCreate size)
  | call {hist : MapHistory δ} {hash hash' : HashMap κ δ} {cell : κ} {op : MapOp δ}
      {ret : MapRet δ} (hrun : HashMapRun size hist hash) (hfree : hash.heap cell = none)
      (hcall : hashMapCall hash cell op = Except.ok (hash', ret)) :
      HashMapRun size (hist ++ [(op, ret)]) hash'

variable {hash : HashMap κ δ} {es : List (κ × Binding δ)} {hist : MapHistory δ}

/-- **Every call returns, and is the call on the stack of bindings.** -/
theorem HashMap.Rep.call (h : hash.Rep es) {cell : κ} (hfree : hash.heap cell = none)
    (op : MapOp δ) :
    ∃ hash' ret es', hashMapCall hash cell op = Except.ok (hash', ret) ∧ hash'.Rep es' ∧
      StackStep (es.map Prod.snd) op (es'.map Prod.snd) ret ∧
      (newKeys [(op, ret)] = [] ∧ hash'.keyC = hash.keyC ∨
        newKeys [(op, ret)] = [hash.keyC] ∧ hash'.keyC = hash.keyC + 1) := by
  cases op with
  | add key data =>
      obtain ⟨hash', hadd, hrep, _, hkey⟩ := h.add hfree key data
      exact ⟨hash', .unit, _, by rw [hashMapCall, hadd, ok_bind], hrep, StackStep.add,
        Or.inl ⟨rfl, hkey⟩⟩
  | find key =>
      exact ⟨hash, _, es, by rw [hashMapCall, h.find, ok_bind], h, StackStep.find,
        Or.inl ⟨rfl, rfl⟩⟩
  | pop key =>
      rcases h.pop key with ⟨s₁, e, s₂, hash', rfl, rfl, hs₁, hpop, hrep, hkey⟩ | ⟨hnone, hpop⟩
      · refine ⟨hash', _, _, by rw [hashMapCall, hpop, ok_bind], hrep, ?_, Or.inl ⟨rfl, hkey⟩⟩
        rw [List.map_append, List.map_append, List.map_cons]
        refine StackStep.pop fun b hb => ?_
        obtain ⟨x, hx, rfl⟩ := List.mem_map.1 hb
        exact hs₁ x hx
      · refine ⟨hash, _, es, by rw [hashMapCall, hpop, ok_bind], h, ?_, Or.inl ⟨rfl, rfl⟩⟩
        refine StackStep.popNone fun b hb => ?_
        obtain ⟨x, hx, rfl⟩ := List.mem_map.1 hb
        exact hnone x hx
  | remove data =>
      rcases h.remove data with ⟨s₁, e, s₂, hash', rfl, rfl, hremove, hrep, hkey⟩ | ⟨hnone, hremove⟩
      · refine ⟨hash', _, _, by rw [hashMapCall, hremove, ok_bind], hrep, ?_,
          Or.inl ⟨rfl, hkey⟩⟩
        rw [List.map_append, List.map_append, List.map_cons]
        exact StackStep.remove
      · refine ⟨hash, _, es, by rw [hashMapCall, hremove, ok_bind], h, ?_, Or.inl ⟨rfl, rfl⟩⟩
        refine StackStep.removeNone fun b hb => ?_
        obtain ⟨x, hx, rfl⟩ := List.mem_map.1 hb
        exact hnone x hx
  | newKey =>
      exact ⟨_, _, es, rfl, ⟨h.pos, h.bucket, h.nodup, h.cells, h.linked, h.c⟩, StackStep.newKey,
        Or.inr ⟨rfl, rfl⟩⟩
  | size =>
      have hstep := StackStep.size (s := es.map Prod.snd)
      rw [List.length_map, ← h.c] at hstep
      exact ⟨hash, _, es, rfl, h, hstep, Or.inl ⟨rfl, rfl⟩⟩

omit [DecidableEq κ] [DecidableEq δ] in
theorem newKeys_append (hist hist' : MapHistory δ) :
    newKeys (hist ++ hist') = newKeys hist ++ newKeys hist' := List.filterMap_append

/-- Every run is a run of the same calls on a stack, and its new keys count up from zero. -/
theorem HashMapRun.refines {size : ℕ} (hsize : 1 ≤ size) (h : HashMapRun size hist hash) :
    ∃ es, hash.Rep es ∧ StackRun hist (es.map Prod.snd) ∧
      newKeys hist = (List.range (newKeys hist).length).map (BitVec.ofNat 64) ∧
      hash.keyC = BitVec.ofNat 64 (newKeys hist).length := by
  induction h with
  | create => exact ⟨[], HashMap.rep_create hsize, StackRun.create, rfl, rfl⟩
  | @call hist hash hash' cell op ret _ hfree hcall ih =>
      obtain ⟨es, hrep, hrun, hkeys, hkeyC⟩ := ih
      obtain ⟨_, _, es', hcall', hrep', hstep, hnew⟩ := hrep.call hfree op
      rw [hcall, Except.ok.injEq, Prod.mk.injEq] at hcall'
      obtain ⟨rfl, rfl⟩ := hcall'
      refine ⟨es', hrep', hrun.call hstep, ?_, ?_⟩
      · rw [newKeys_append]
        rcases hnew with ⟨hnew, _⟩ | ⟨hnew, _⟩
        · rw [hnew, List.append_nil]
          exact hkeys
        · rw [hnew, List.length_append, List.length_singleton, List.range_succ, List.map_append,
            ← hkeys, hkeyC]
          rfl
      · rw [newKeys_append]
        rcases hnew with ⟨hnew, hkey⟩ | ⟨hnew, hkey⟩
        · rw [hnew, List.append_nil, hkey, hkeyC]
        · rw [hnew, hkey, hkeyC, List.length_append, List.length_singleton, BitVec.ofNat_add]
          rfl

/-- **A hash map is a stack of bindings**: for every number of buckets and all calls, every call
returns what the same call on the stack returns, and the hash map counts its bindings; and
`hash_map_new_key` does not return a key twice before its counter wraps around. -/
theorem hashMap_run (size : ℕ) (hsize : 1 ≤ size) (hist : MapHistory δ) (hash : HashMap κ δ)
    (h : HashMapRun size hist hash) :
    (∃ stack, StackRun hist stack ∧ hash.c = stack.length) ∧
      ((newKeys hist).length ≤ 2 ^ 64 → (newKeys hist).Nodup) ∧
      ∀ (cell : κ) (op : MapOp δ), hash.heap cell = none →
        ∃ hash' ret, hashMapCall hash cell op = Except.ok (hash', ret) := by
  obtain ⟨es, hrep, hrun, hkeys, _⟩ := h.refines hsize
  refine ⟨⟨es.map Prod.snd, hrun, by rw [List.length_map, hrep.c]⟩, fun hlen => ?_, ?_⟩
  · rw [hkeys]
    refine List.Nodup.map_on ?_ List.nodup_range
    intro a ha b hb heq
    rw [List.mem_range] at ha hb
    have := congrArg BitVec.toNat heq
    rwa [BitVec.toNat_ofNat, BitVec.toNat_ofNat, Nat.mod_eq_of_lt (by omega),
      Nat.mod_eq_of_lt (by omega)] at this
  · intro cell op hfree
    obtain ⟨hash', ret, _, hcall, _⟩ := hrep.call hfree op
    exact ⟨hash', ret, hcall⟩

/-- Two bindings in one bucket: the earlier one can be popped from behind the later one. -/
theorem hashMap_run_two : ∃ hash : HashMap ℕ ℕ,
    HashMapRun 1 [(.add 5 (some 7), .unit), (.add 6 (some 8), .unit)] hash ∧
      ∃ hash' ret, hashMapCall hash 2 (.pop 5) = Except.ok (hash', ret) := by
  have h1 : HashMapRun (κ := ℕ) (δ := ℕ) 1 [(.add 5 (some 7), .unit)] _ :=
    HashMapRun.call HashMapRun.create (show _ = none from rfl) (show hashMapCall _ 0 _ = _ from rfl)
  have h2 : HashMapRun (κ := ℕ) 1 [(.add 5 (some 7), .unit), (.add 6 (some 8), .unit)] _ :=
    HashMapRun.call h1 (show _ = none from rfl) (show hashMapCall _ 1 _ = _ from rfl)
  exact ⟨_, h2, (hashMap_run 1 le_rfl _ _ h2).2.2 2 (.pop 5) rfl⟩

end Runs

end DLFree

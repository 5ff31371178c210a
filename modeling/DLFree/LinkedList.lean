/-
**Circular lists: `std/list.c`.**

A list is a ring of doubly linked cells behind a cell without a datum.  The queues of the program are
such lists, and its I/O loops go through the list of channels while they take dead channels out of
it: they save the successor of a cell before they remove it.

A cell is named by its address; `malloc` returns any name that is not in use.

Main definitions:

* `ListCell`, `CList` — `struct list_cell` and `struct list`;
* `listAppend`, `listAppendleft`, `listInsert`, `listRemove`, `listPopleft`, `listPop` — the
  operations;
* `listTraverse`, `listLoop` — the way the I/O loops go through a list;
* `CList.Rep` — the cells of a list, with their data;
* `DequeStep` — the operations on a sequence of cells.

Main results:

* `CList.Rep.inserted`, `CList.Rep.removed` — what the pointer assignments do to the cells;
* `CList.Rep.call` — an allowed call returns, and is the call on the sequence;
* `CList.Rep.traverse` — a traversal visits every cell once, and leaves those it keeps;
* `list_run` — **a list is a sequence of cells, linked both ways**.
-/

import DLFree.Libc
import DLFree.CellRing

set_option relaxedAutoImplicit false
set_option autoImplicit false

namespace DLFree

open CellRing (Path Ring)

/-- `struct list_cell`; `none` is `NULL`. -/
structure ListCell (κ δ : Type) where
  data : Option δ
  next : Option κ
  prev : Option κ

/-- `struct list`, with the cells that are allocated. -/
structure CList (κ δ : Type) where
  heap : κ → Option (ListCell κ δ)
  head : κ
  n : ℤ

variable {κ δ : Type} [DecidableEq κ]

/-! ### Cells -/

namespace CList

omit [DecidableEq κ] in
/-- The cell that a pointer points to. -/
def get (lt : CList κ δ) : Option κ → Except Abort (ListCell κ δ)
  | none => Except.error Abort.badAccess
  | some a =>
      match lt.heap a with
      | some x => Except.ok x
      | none => Except.error Abort.badAccess

/-- `list_cell_create`; `cell` is what `malloc` returns. -/
def cellCreate (lt : CList κ δ) (cell : κ) (x : Option δ) : CList κ δ :=
  { lt with heap := Function.update lt.heap cell (some ⟨x, none, none⟩) }

/-- `list_cell_destroy`. -/
def cellDestroy (lt : CList κ δ) : Option κ → Except Abort (CList κ δ)
  | none => Except.error Abort.badAccess
  | some a => do
      let _ ← lt.get (some a)
      Except.ok { lt with heap := Function.update lt.heap a none }

/-- The list after `a -> next = q`. -/
def withNext (lt : CList κ δ) (a : κ) (q : Option κ) : CList κ δ :=
  { lt with heap := Function.update lt.heap a ((lt.heap a).map fun x => { x with next := q }) }

/-- The list after `a -> prev = q`. -/
def withPrev (lt : CList κ δ) (a : κ) (q : Option κ) : CList κ δ :=
  { lt with heap := Function.update lt.heap a ((lt.heap a).map fun x => { x with prev := q }) }

/-- `p -> next = q`. -/
def setNext (lt : CList κ δ) (p q : Option κ) : Except Abort (CList κ δ) :=
  match p with
  | none => Except.error Abort.badAccess
  | some a => do
      let _ ← lt.get (some a)
      Except.ok (lt.withNext a q)

/-- `p -> prev = q`. -/
def setPrev (lt : CList κ δ) (p q : Option κ) : Except Abort (CList κ δ) :=
  match p with
  | none => Except.error Abort.badAccess
  | some a => do
      let _ ← lt.get (some a)
      Except.ok (lt.withPrev a q)

end CList

/-! ### The operations -/

/-- `list_create`; `dummy` is what `malloc` returns for the head. -/
def listCreate (dummy : κ) : CList κ δ where
  heap := Function.update (fun _ => none) dummy (some ⟨none, some dummy, some dummy⟩)
  head := dummy
  n := 0

/-- `list_head`. -/
def listHead (lt : CList κ δ) : Except Abort (Option κ) := do
  let head ← lt.get (some lt.head)
  Except.ok head.next

/-- `list_tail`. -/
def listTail (lt : CList κ δ) : Except Abort (Option κ) := do
  let head ← lt.get (some lt.head)
  Except.ok head.prev

/-- `list_end`. -/
def listEnd (lt : CList κ δ) : Option κ := some lt.head

/-- `list_append`. -/
def listAppend (lt : CList κ δ) (cell : κ) (x : Option δ) : Except Abort (CList κ δ) := do
  let lt := lt.cellCreate cell x
  let head ← lt.get (some lt.head)
  let lt ← lt.setPrev (some cell) head.prev
  let lt ← lt.setNext (some cell) (some lt.head)
  let head ← lt.get (some lt.head)
  let lt ← lt.setNext head.prev (some cell)
  let lt ← lt.setPrev (some lt.head) (some cell)
  Except.ok { lt with n := lt.n + 1 }

/-- `list_appendleft`. -/
def listAppendleft (lt : CList κ δ) (cell : κ) (x : Option δ) : Except Abort (CList κ δ) := do
  let lt := lt.cellCreate cell x
  let head ← lt.get (some lt.head)
  let lt ← lt.setNext (some cell) head.next
  let lt ← lt.setPrev (some cell) (some lt.head)
  let head ← lt.get (some lt.head)
  let lt ← lt.setPrev head.next (some cell)
  let lt ← lt.setNext (some lt.head) (some cell)
  Except.ok { lt with n := lt.n + 1 }

/-- The loop of `list_insert`, which goes `j` cells on. -/
def listWalk (lt : CList κ δ) : ℕ → Option κ → Except Abort (Option κ)
  | 0, cell => Except.ok cell
  | j + 1, cell => do
      let x ← lt.get cell
      cAssert (x.next ≠ some lt.head)
      listWalk lt j x.next

/-- `list_insert`. -/
def listInsert (lt : CList κ δ) (new : κ) (i : ℤ) (x : Option δ) : Except Abort (CList κ δ) := do
  let lt := lt.cellCreate new x
  let prev ← listWalk lt i.toNat (some lt.head)
  let cell ← lt.get prev
  let lt ← lt.setNext (some new) cell.next
  let lt ← lt.setPrev (some new) prev
  let lt ← lt.setNext prev (some new)
  let lt ← lt.setPrev cell.next (some new)
  Except.ok { lt with n := lt.n + 1 }

/-- `list_remove`. -/
def listRemove (lt : CList κ δ) (cell : κ) : Except Abort (CList κ δ × Option δ) := do
  let c ← lt.get (some cell)
  cAssert (c.prev ≠ none ∧ c.next ≠ none)
  let prev ← lt.get c.prev
  let prevNext ← lt.get prev.next
  cAssert (prevNext.next = c.next)
  cAssert (cell ≠ lt.head)
  cAssert (lt.n > 0)
  let lt ← lt.setNext c.prev c.next
  let lt ← lt.setPrev c.next c.prev
  let lt := { lt with n := lt.n - 1 }
  let c ← lt.get (some cell)
  let lt ← lt.cellDestroy (some cell)
  Except.ok (lt, c.data)

/-- `list_popleft`. -/
def listPopleft (lt : CList κ δ) : Except Abort (CList κ δ × Option δ) := do
  let head ← listHead lt
  cAssert (head ≠ some lt.head)
  let c ← lt.get head
  let lt ← lt.setPrev c.next (some lt.head)
  let c ← lt.get head
  let lt ← lt.setNext (some lt.head) c.next
  let lt := { lt with n := lt.n - 1 }
  let c ← lt.get head
  let lt ← lt.cellDestroy head
  Except.ok (lt, c.data)

/-- `list_pop`. -/
def listPop (lt : CList κ δ) : Except Abort (CList κ δ × Option δ) := do
  let tail ← listTail lt
  cAssert (tail ≠ some lt.head)
  let c ← lt.get tail
  let lt ← lt.setPrev (some lt.head) c.prev
  let c ← lt.get tail
  let lt ← lt.setNext c.prev (some lt.head)
  let lt := { lt with n := lt.n - 1 }
  let c ← lt.get tail
  let lt ← lt.cellDestroy tail
  Except.ok (lt, c.data)

/-- `list_size`. -/
def listSize (lt : CList κ δ) : ℤ := lt.n

/-- The loop of `ioman_handle_readables` and `ioman_handle_writables` through their list, from
`cell` on: `body` handles the datum of a cell and says whether it is dead, and a dead cell is removed
after its successor is saved.  The cells visited are returned; the loop ends before `fuel` does. -/
def listTraverse {σ : Type} (body : σ → κ → Option δ → σ × Bool) :
    ℕ → CList κ δ → σ → Option κ → Except Abort (CList κ δ × σ × List κ)
  | 0, _, _, _ => Except.error Abort.diverges
  | fuel + 1, lt, s, cell =>
      if cell = listEnd lt then Except.ok (lt, s, [])
      else
        match cell with
        | none => Except.error Abort.badAccess
        | some c => do
            let x ← lt.get (some c)
            if (body s c x.data).2 then do
              let (lt, _) ← listRemove lt c
              let (lt, s, visited) ← listTraverse body fuel lt (body s c x.data).1 x.next
              Except.ok (lt, s, c :: visited)
            else do
              let (lt, s, visited) ← listTraverse body fuel lt (body s c x.data).1 x.next
              Except.ok (lt, s, c :: visited)

/-- A whole traversal. -/
def listLoop {σ : Type} (body : σ → κ → Option δ → σ × Bool) (lt : CList κ δ) (s : σ) :
    Except Abort (CList κ δ × σ × List κ) := do
  let cell ← listHead lt
  listTraverse body (lt.n.toNat + 1) lt s cell

/-! ### What the assignments do -/

namespace CList

variable {lt lt' : CList κ δ} {a b c p q : κ} {x d : Option δ} {r : Option κ}

omit [DecidableEq κ] in
/-- The forward pointer of each cell. -/
def nextOf (lt : CList κ δ) (a : κ) : Option κ := (lt.heap a).bind ListCell.next

omit [DecidableEq κ] in
/-- The backward pointer of each cell. -/
def prevOf (lt : CList κ δ) (a : κ) : Option κ := (lt.heap a).bind ListCell.prev

omit [DecidableEq κ] in
/-- The datum of each cell. -/
def dataOf (lt : CList κ δ) (a : κ) : Option (Option δ) := (lt.heap a).map ListCell.data

omit [DecidableEq κ] in
theorem get_eq (h : lt.dataOf a = some d) :
    lt.get (some a) = Except.ok ⟨d, lt.nextOf a, lt.prevOf a⟩ := by
  obtain ⟨y, hy, rfl⟩ := Option.map_eq_some_iff.1 h
  simp [get, nextOf, prevOf, hy]

@[simp] theorem dataOf_cellCreate :
    (lt.cellCreate c x).dataOf = Function.update lt.dataOf c (some x) := by
  funext b
  by_cases hb : b = c <;> simp [dataOf, cellCreate, hb]

@[simp] theorem nextOf_cellCreate :
    (lt.cellCreate c x).nextOf = Function.update lt.nextOf c none := by
  funext b
  by_cases hb : b = c <;> simp [nextOf, cellCreate, hb]

@[simp] theorem prevOf_cellCreate :
    (lt.cellCreate c x).prevOf = Function.update lt.prevOf c none := by
  funext b
  by_cases hb : b = c <;> simp [prevOf, cellCreate, hb]

@[simp] theorem head_cellCreate : (lt.cellCreate c x).head = lt.head := rfl

@[simp] theorem n_cellCreate : (lt.cellCreate c x).n = lt.n := rfl

@[simp] theorem dataOf_withNext : (lt.withNext a r).dataOf = lt.dataOf := by
  funext b
  by_cases hb : b = a
  · subst hb
    cases hheap : lt.heap b <;> simp [dataOf, withNext, hheap]
  · simp [dataOf, withNext, hb]

@[simp] theorem prevOf_withNext : (lt.withNext a r).prevOf = lt.prevOf := by
  funext b
  by_cases hb : b = a
  · subst hb
    cases hheap : lt.heap b <;> simp [prevOf, withNext, hheap]
  · simp [prevOf, withNext, hb]

theorem nextOf_withNext (h : lt.dataOf a = some d) :
    (lt.withNext a r).nextOf = Function.update lt.nextOf a r := by
  obtain ⟨y, hy, _⟩ := Option.map_eq_some_iff.1 h
  funext b
  by_cases hb : b = a
  · subst hb
    simp [nextOf, withNext, hy]
  · simp [nextOf, withNext, hb]

@[simp] theorem head_withNext : (lt.withNext a r).head = lt.head := rfl

@[simp] theorem n_withNext : (lt.withNext a r).n = lt.n := rfl

@[simp] theorem dataOf_withPrev : (lt.withPrev a r).dataOf = lt.dataOf := by
  funext b
  by_cases hb : b = a
  · subst hb
    cases hheap : lt.heap b <;> simp [dataOf, withPrev, hheap]
  · simp [dataOf, withPrev, hb]

@[simp] theorem nextOf_withPrev : (lt.withPrev a r).nextOf = lt.nextOf := by
  funext b
  by_cases hb : b = a
  · subst hb
    cases hheap : lt.heap b <;> simp [nextOf, withPrev, hheap]
  · simp [nextOf, withPrev, hb]

theorem prevOf_withPrev (h : lt.dataOf a = some d) :
    (lt.withPrev a r).prevOf = Function.update lt.prevOf a r := by
  obtain ⟨y, hy, _⟩ := Option.map_eq_some_iff.1 h
  funext b
  by_cases hb : b = a
  · subst hb
    simp [prevOf, withPrev, hy]
  · simp [prevOf, withPrev, hb]

@[simp] theorem head_withPrev : (lt.withPrev a r).head = lt.head := rfl

@[simp] theorem n_withPrev : (lt.withPrev a r).n = lt.n := rfl

theorem setNext_eq (h : lt.dataOf a = some d) :
    lt.setNext (some a) r = Except.ok (lt.withNext a r) := by
  rw [setNext, get_eq h, ok_bind]

theorem setPrev_eq (h : lt.dataOf a = some d) :
    lt.setPrev (some a) r = Except.ok (lt.withPrev a r) := by
  rw [setPrev, get_eq h, ok_bind]

/-! ### A cell more, a cell less -/

/-- A cell `c` with the datum `x` was put between `p` and `q`. -/
structure Inserted (lt lt' : CList κ δ) (c : κ) (x : Option δ) (p q : κ) : Prop where
  head : lt'.head = lt.head
  n : lt'.n = lt.n + 1
  dataOf : lt'.dataOf = Function.update lt.dataOf c (some x)
  nextOf : lt'.nextOf = Function.update (Function.update lt.nextOf c (some q)) p (some c)
  prevOf : lt'.prevOf = Function.update (Function.update lt.prevOf c (some p)) q (some c)

/-- The cell `c` between `p` and `q` was taken out. -/
structure Removed (lt lt' : CList κ δ) (c p q : κ) : Prop where
  head : lt'.head = lt.head
  n : lt'.n = lt.n - 1
  dataOf : ∀ a, a ≠ c → lt'.dataOf a = lt.dataOf a
  nextOf : ∀ a, a ≠ c → lt'.nextOf a = Function.update lt.nextOf p (some q) a
  prevOf : ∀ a, a ≠ c → lt'.prevOf a = Function.update lt.prevOf q (some p) a

/-- The names of cells. -/
abbrev names (es : List (κ × Option δ)) : List κ := es.map Prod.fst

/-- The list has the cells `es` in order, and its head has no datum. -/
structure Rep (lt : CList κ δ) (es : List (κ × Option δ)) : Prop where
  ring : Ring lt.nextOf lt.prevOf lt.head (names es)
  headData : lt.dataOf lt.head = some none
  data : ∀ e ∈ es, lt.dataOf e.1 = some e.2
  n : lt.n = es.length

variable {es l₁ l₂ : List (κ × Option δ)}

omit [DecidableEq κ] in
/-- The head and the cells of a list are allocated. -/
theorem Rep.exists_data (h : lt.Rep es) (ha : a ∈ lt.head :: names es) :
    ∃ d, lt.dataOf a = some d := by
  rcases List.mem_cons.1 ha with rfl | ha
  · exact ⟨none, h.headData⟩
  · obtain ⟨e, he, rfl⟩ := List.mem_map.1 ha
    exact ⟨e.2, h.data e he⟩

omit [DecidableEq κ] in
/-- What is not allocated is no cell of the list. -/
theorem Rep.fresh (h : lt.Rep es) (hc : lt.heap c = none) : c ∉ lt.head :: names es := by
  intro hmem
  obtain ⟨d, hd⟩ := h.exists_data hmem
  rw [dataOf, hc] at hd
  cases hd

/-- **The cells of a list with one cell more.** -/
theorem Rep.inserted (h : lt.Rep (l₁ ++ l₂)) (hins : Inserted lt lt' c x p q)
    (hc : c ∉ lt.head :: names (l₁ ++ l₂)) (hp : (lt.head :: names l₁).getLast? = some p)
    (hq : (names l₂ ++ [lt.head]).head? = some q) : lt'.Rep (l₁ ++ (c, x) :: l₂) := by
  have hring := h.ring
  have hc' := hc
  rw [names, List.map_append] at hring hc'
  have hpmem : p ∈ lt.head :: names l₁ := List.mem_of_getLast? hp
  have hqmem : q ∈ names l₂ ++ [lt.head] := List.mem_of_mem_head? hq
  -- the new cell is none of the list, so its neighbours are other cells
  have hcp : c ≠ p := by
    rintro rfl
    refine hc' ?_
    simp only [List.mem_cons, List.mem_append] at hpmem ⊢
    tauto
  have hcq : c ≠ q := by
    rintro rfl
    refine hc' ?_
    simp only [List.mem_cons, List.mem_append, List.not_mem_nil, or_false] at hqmem ⊢
    tauto
  have hother : ∀ a ∈ lt.head :: (names l₁ ++ names l₂), a ≠ c := by
    rintro a ha rfl
    exact hc' ha
  refine ⟨?_, ?_, ?_, ?_⟩
  · rw [hins.head, hins.nextOf, hins.prevOf, names, List.map_append, List.map_cons]
    refine hring.insert hc' hp hq ?_ ?_ ?_ ?_ ?_ ?_
    · rw [Function.update_self]
    · rw [Function.update_of_ne hcp, Function.update_self]
    · intro a ha hap
      rw [Function.update_of_ne hap, Function.update_of_ne (hother a ha)]
    · rw [Function.update_self]
    · rw [Function.update_of_ne hcq, Function.update_self]
    · intro a ha haq
      rw [Function.update_of_ne haq, Function.update_of_ne (hother a ha)]
  · rw [hins.head, hins.dataOf, Function.update_of_ne (hother _ List.mem_cons_self), h.headData]
  · intro e he
    rw [hins.dataOf]
    rcases List.mem_append.1 he with he | he
    · rw [Function.update_of_ne (hother e.1 (by simp [List.mem_map_of_mem he]))]
      exact h.data e (List.mem_append_left _ he)
    · rcases List.mem_cons.1 he with rfl | he
      · rw [Function.update_self]
      · rw [Function.update_of_ne (hother e.1 (by simp [List.mem_map_of_mem he]))]
        exact h.data e (List.mem_append_right _ he)
  · rw [hins.n, h.n]
    simp only [List.length_append, List.length_cons]
    omega

/-- **The cells of a list with one cell less.** -/
theorem Rep.removed (h : lt.Rep (l₁ ++ (c, x) :: l₂)) (hrem : Removed lt lt' c p q)
    (hp : lt.prevOf c = some p) (hq : lt.nextOf c = some q) : lt'.Rep (l₁ ++ l₂) := by
  have hring := h.ring
  rw [names, List.map_append, List.map_cons] at hring
  have hnodup := hring.nodup
  have hother : ∀ a ∈ lt.head :: (names l₁ ++ names l₂), a ≠ c := by
    rintro a ha rfl
    have hmid : (lt.head :: (names l₁ ++ a :: names l₂)).Perm
        (a :: lt.head :: (names l₁ ++ names l₂)) :=
      (List.perm_middle.cons lt.head).trans (List.Perm.swap a lt.head _)
    exact (List.nodup_cons.1 (hmid.nodup_iff.1 hnodup)).1 ha
  -- the neighbours of a cell of a ring are not the cell itself, as the head is always there
  have hpc : p ≠ c := by
    have hlast := hring.prev_cell
    rw [hp] at hlast
    refine hother p ?_
    have hmem := List.mem_of_getLast? hlast.symm
    simp only [List.mem_cons, List.mem_append] at hmem ⊢
    tauto
  have hqc : q ≠ c := by
    have hfirst := hring.next_cell
    rw [hq] at hfirst
    refine hother q ?_
    have hmem := List.mem_of_mem_head? hfirst.symm
    simp only [List.mem_cons, List.mem_append, List.not_mem_nil, or_false] at hmem ⊢
    tauto
  refine ⟨?_, ?_, ?_, ?_⟩
  · rw [hrem.head, names, List.map_append]
    refine hring.remove hp hq ?_ ?_ ?_ ?_
    · rw [hrem.nextOf p hpc, Function.update_self]
    · intro a ha hap
      rw [hrem.nextOf a (hother a ha), Function.update_of_ne hap]
    · rw [hrem.prevOf q hqc, Function.update_self]
    · intro a ha haq
      rw [hrem.prevOf a (hother a ha), Function.update_of_ne haq]
  · rw [hrem.head, hrem.dataOf _ (hother _ List.mem_cons_self), h.headData]
  · intro e he
    have hmem : e.1 ∈ lt.head :: (names l₁ ++ names l₂) := by
      rw [← List.map_append]
      exact List.mem_cons_of_mem _ (List.mem_map_of_mem he)
    rw [hrem.dataOf e.1 (hother e.1 hmem)]
    refine h.data e ?_
    rcases List.mem_append.1 he with he | he
    · exact List.mem_append_left _ he
    · exact List.mem_append_right _ (List.mem_cons_of_mem _ he)
  · rw [hrem.n, h.n]
    simp only [List.length_append, List.length_cons]
    omega

/-! ### Putting a cell in -/

/-- Assignments to forward and to backward pointers do not interfere. -/
theorem withNext_withPrev_comm (lt : CList κ δ) (a b : κ) (r s : Option κ) :
    (lt.withNext a r).withPrev b s = (lt.withPrev b s).withNext a r := by
  unfold withNext withPrev
  congr 1
  funext e
  by_cases hab : a = b
  · subst hab
    by_cases hea : e = a
    · subst hea
      cases lt.heap e <;> simp
    · simp [hea]
  · by_cases hea : e = a
    · subst hea
      simp [hab]
    · by_cases heb : e = b
      · subst heb
        simp [hea]
      · simp [hea, heb]

/-- The four assignments that put the cell `c` between `p` and `q`. -/
def link (lt : CList κ δ) (c p q : κ) : CList κ δ :=
  { (((lt.withPrev c (some p)).withNext c (some q)).withNext p (some c)).withPrev q (some c) with
    n := lt.n + 1 }

theorem inserted_link (hp : ∃ d, lt.dataOf p = some d) (hq : ∃ d, lt.dataOf q = some d)
    (hpc : p ≠ c) (hqc : q ≠ c) (x : Option δ) :
    Inserted lt ((lt.cellCreate c x).link c p q) c x p q := by
  obtain ⟨dp, hp⟩ := hp
  obtain ⟨dq, hq⟩ := hq
  have hdc : (lt.cellCreate c x).dataOf c = some x := by simp
  have hdp : (lt.cellCreate c x).dataOf p = some dp := by simp [hpc, hp]
  have hdq : (lt.cellCreate c x).dataOf q = some dq := by simp [hqc, hq]
  refine ⟨rfl, rfl, ?_, ?_, ?_⟩
  · change (((((lt.cellCreate c x).withPrev c (some p)).withNext c (some q)).withNext p
      (some c)).withPrev q (some c)).dataOf = _
    simp
  · change (((((lt.cellCreate c x).withPrev c (some p)).withNext c (some q)).withNext p
      (some c)).withPrev q (some c)).nextOf = _
    rw [nextOf_withPrev, nextOf_withNext (d := dp) (by simpa using hdp),
      nextOf_withNext (d := x) (by simp), nextOf_withPrev, nextOf_cellCreate,
      Function.update_idem]
  · change (((((lt.cellCreate c x).withPrev c (some p)).withNext c (some q)).withNext p
      (some c)).withPrev q (some c)).prevOf = _
    rw [prevOf_withPrev (d := dq) (by simpa using hdq), prevOf_withNext, prevOf_withNext,
      prevOf_withPrev hdc, prevOf_cellCreate, Function.update_idem]

omit [DecidableEq κ] in
/-- The neighbours of a place in a list. -/
theorem exists_neighbours (lt : CList κ δ) (l₁ l₂ : List (κ × Option δ)) :
    ∃ p q, (lt.head :: names l₁).getLast? = some p ∧ (names l₂ ++ [lt.head]).head? = some q ∧
      p ∈ lt.head :: names (l₁ ++ l₂) ∧ q ∈ lt.head :: names (l₁ ++ l₂) := by
  obtain ⟨p, hp⟩ : ∃ p, (lt.head :: names l₁).getLast? = some p :=
    ⟨_, List.getLast?_eq_some_getLast (List.cons_ne_nil _ _)⟩
  obtain ⟨q, hq⟩ : ∃ q, (names l₂ ++ [lt.head]).head? = some q := by
    cases names l₂ with
    | nil => exact ⟨lt.head, rfl⟩
    | cons q l => exact ⟨q, rfl⟩
  refine ⟨p, q, hp, hq, ?_, ?_⟩
  · have hmem := List.mem_of_getLast? hp
    rw [names, List.map_append]
    simp only [List.mem_cons, List.mem_append] at hmem ⊢
    tauto
  · have hmem := List.mem_of_mem_head? hq
    rw [names, List.map_append]
    simp only [List.mem_cons, List.mem_append, List.not_mem_nil, or_false] at hmem ⊢
    tauto

/-- **Linking a new cell in between its neighbours.** -/
theorem Rep.link (h : lt.Rep (l₁ ++ l₂)) (hc : lt.heap c = none) (x : Option δ)
    (hp : (lt.head :: names l₁).getLast? = some p)
    (hq : (names l₂ ++ [lt.head]).head? = some q) :
    ((lt.cellCreate c x).link c p q).Rep (l₁ ++ (c, x) :: l₂) := by
  have hfresh := h.fresh hc
  obtain ⟨p', q', hp', hq', hpmem, hqmem⟩ := exists_neighbours lt l₁ l₂
  obtain rfl : p' = p := Option.some.inj (hp'.symm.trans hp)
  obtain rfl : q' = q := Option.some.inj (hq'.symm.trans hq)
  have hpc : p' ≠ c := fun heq => hfresh (heq ▸ hpmem)
  have hqc : q' ≠ c := fun heq => hfresh (heq ▸ hqmem)
  exact h.inserted (inserted_link (h.exists_data hpmem) (h.exists_data hqmem) hpc hqc x) hfresh
    hp hq

/-- What the assignments of an insertion find: the new cell and the old ones are allocated, and the
pointers of the old ones are as before. -/
theorem Rep.created (h : lt.Rep es) (hc : lt.heap c = none) (x : Option δ)
    (ha : a ∈ lt.head :: names es) :
    ∃ d, (lt.cellCreate c x).dataOf a = some d ∧
      (lt.cellCreate c x).nextOf a = lt.nextOf a ∧ (lt.cellCreate c x).prevOf a = lt.prevOf a := by
  obtain ⟨d, hd⟩ := h.exists_data ha
  have hac : a ≠ c := fun heq => h.fresh hc (heq ▸ ha)
  exact ⟨d, by simp [hac, hd], by simp [hac], by simp [hac]⟩

/-- **`list_append` puts a cell at the end.** -/
theorem Rep.append (h : lt.Rep es) (hc : lt.heap c = none) (x : Option δ) :
    ∃ lt', listAppend lt c x = Except.ok lt' ∧ lt'.Rep (es ++ [(c, x)]) := by
  rw [← List.append_nil es] at h
  obtain ⟨p, q, hp, hq, hpmem, hqmem⟩ := exists_neighbours lt es []
  obtain rfl : lt.head = q := Option.some.inj hq
  have hrep := h.link hc x hp hq
  rw [List.append_nil] at h hpmem hqmem
  obtain ⟨dp, hdp, _, _⟩ := h.created hc x hpmem
  obtain ⟨dh, hdh, _, hprev⟩ := h.created hc x hqmem
  rw [h.ring.prev_head.trans hp] at hprev
  have hhc : lt.head ≠ c := fun heq => h.fresh hc (heq ▸ hqmem)
  have hprev₂ : (((lt.cellCreate c x).withPrev c (some p)).withNext c (some lt.head)).prevOf
      lt.head = some p := by
    rw [prevOf_withNext, prevOf_withPrev (d := x) (by simp), Function.update_of_ne hhc, hprev]
  refine ⟨_, ?_, hrep⟩
  simp only [listAppend, head_cellCreate, get_eq hdh, ok_bind, hprev,
    setPrev_eq (show (lt.cellCreate c x).dataOf c = some x by simp), head_withPrev,
    setNext_eq (show ((lt.cellCreate c x).withPrev c (some p)).dataOf c = some x by simp),
    head_withNext, get_eq (show (((lt.cellCreate c x).withPrev c (some p)).withNext c
      (some lt.head)).dataOf lt.head = some dh by simpa using hdh), hprev₂,
    setNext_eq (show (((lt.cellCreate c x).withPrev c (some p)).withNext c
      (some lt.head)).dataOf p = some dp by simpa using hdp),
    setPrev_eq (show ((((lt.cellCreate c x).withPrev c (some p)).withNext c
      (some lt.head)).withNext p (some c)).dataOf lt.head = some dh by simpa using hdh)]
  rfl

/-- **`list_appendleft` puts a cell in front.** -/
theorem Rep.appendleft (h : lt.Rep es) (hc : lt.heap c = none) (x : Option δ) :
    ∃ lt', listAppendleft lt c x = Except.ok lt' ∧ lt'.Rep ((c, x) :: es) := by
  obtain ⟨p, q, hp, hq, hpmem, hqmem⟩ := exists_neighbours lt [] es
  obtain rfl : lt.head = p := Option.some.inj hp
  have hmid : lt.Rep ([] ++ es) := h
  have hrep := hmid.link hc x hp hq
  obtain ⟨dh, hdh, hnext, _⟩ := h.created hc x hpmem
  obtain ⟨dq, hdq, _, _⟩ := h.created hc x hqmem
  rw [h.ring.next_head.trans hq] at hnext
  have hhc : lt.head ≠ c := fun heq => h.fresh hc (heq ▸ hpmem)
  have hnext₂ : (((lt.cellCreate c x).withNext c (some q)).withPrev c (some lt.head)).nextOf
      lt.head = some q := by
    rw [nextOf_withPrev, nextOf_withNext (d := x) (by simp), Function.update_of_ne hhc, hnext]
  refine ⟨_, ?_, hrep⟩
  simp only [listAppendleft, head_cellCreate, get_eq hdh, ok_bind, hnext,
    setNext_eq (show (lt.cellCreate c x).dataOf c = some x by simp), head_withNext,
    setPrev_eq (show ((lt.cellCreate c x).withNext c (some q)).dataOf c = some x by simp),
    head_withPrev, get_eq (show (((lt.cellCreate c x).withNext c (some q)).withPrev c
      (some lt.head)).dataOf lt.head = some dh by simpa using hdh), hnext₂,
    setPrev_eq (show (((lt.cellCreate c x).withNext c (some q)).withPrev c
      (some lt.head)).dataOf q = some dq by simpa using hdq),
    setNext_eq (show ((((lt.cellCreate c x).withNext c (some q)).withPrev c
      (some lt.head)).withPrev q (some c)).dataOf lt.head = some dh by simpa using hdh)]
  -- the two kinds of assignments come in another order here
  rw [withNext_withPrev_comm, ← withNext_withPrev_comm _ lt.head q]
  rfl

/-- The loop of `list_insert` comes to the last of the cells it goes along. -/
theorem listWalk_eq {as bs : List κ} (hpath : Path lt.nextOf a (as ++ bs) lt.head)
    (hdata : ∀ y ∈ a :: as, ∃ d, lt.dataOf y = some d) (hhead : lt.head ∉ as)
    (hp : (a :: as).getLast? = some p) :
    listWalk lt as.length (some a) = Except.ok (some p) := by
  induction as generalizing a with
  | nil =>
      obtain rfl : a = p := by simpa using hp
      rfl
  | cons b as ih =>
      obtain ⟨d, hd⟩ := hdata a List.mem_cons_self
      obtain ⟨hnext, hrest⟩ := hpath
      have hb : some b ≠ some lt.head := fun heq =>
        hhead (Option.some.inj heq ▸ List.mem_cons_self)
      rw [List.getLast?_cons_cons] at hp
      rw [List.length_cons, listWalk, get_eq hd, ok_bind, hnext, cAssert_of hb, ok_bind]
      exact ih hrest (fun y hy => hdata y (List.mem_cons_of_mem _ hy))
        (fun hmem => hhead (List.mem_cons_of_mem _ hmem)) hp

/-- **`list_insert` puts a cell in at its index.** -/
theorem Rep.insert (h : lt.Rep (l₁ ++ l₂)) (hc : lt.heap c = none) {i : ℤ}
    (hi : i.toNat = l₁.length) (x : Option δ) :
    ∃ lt', listInsert lt c i x = Except.ok lt' ∧ lt'.Rep (l₁ ++ (c, x) :: l₂) := by
  obtain ⟨p, q, hp, hq, hpmem, hqmem⟩ := exists_neighbours lt l₁ l₂
  have hrep := h.link hc x hp hq
  have hring := h.ring
  rw [names, List.map_append] at hring
  have hfresh := h.fresh hc
  have hsub : ∀ y ∈ lt.head :: names l₁, y ∈ lt.head :: names (l₁ ++ l₂) := by
    intro y hy
    rw [names, List.map_append]
    simp only [List.mem_cons, List.mem_append] at hy ⊢
    tauto
  -- the walk goes along the old cells
  have hpath : Path (lt.cellCreate c x).nextOf (lt.cellCreate c x).head
      (names l₁ ++ names l₂) (lt.cellCreate c x).head := by
    refine hring.next.congr fun y hy => ?_
    rw [← List.map_append] at hy
    obtain ⟨_, _, hnext, _⟩ := h.created hc x hy
    exact hnext
  have hwalk := listWalk_eq hpath
    (fun y hy => by
      obtain ⟨d, hd, _⟩ := h.created hc x (hsub y hy)
      exact ⟨d, hd⟩)
    (fun hmem => (List.nodup_cons.1 hring.nodup).1 (List.mem_append_left _ hmem)) hp
  rw [List.length_map, ← hi] at hwalk
  obtain ⟨dp, hdp, hnext, _⟩ := h.created hc x hpmem
  obtain ⟨dq, hdq, _, _⟩ := h.created hc x hqmem
  have hpq : lt.nextOf p = some q := by
    have hsplit := hring.next.split hq
    exact (hsplit.next_last hp)
  rw [hpq] at hnext
  refine ⟨_, ?_, hrep⟩
  simp only [listInsert, hwalk, ok_bind, get_eq hdp, hnext,
    setNext_eq (show (lt.cellCreate c x).dataOf c = some x by simp),
    setPrev_eq (show ((lt.cellCreate c x).withNext c (some q)).dataOf c = some x by simp),
    setNext_eq (show (((lt.cellCreate c x).withNext c (some q)).withPrev c (some p)).dataOf p =
      some dp by simpa using hdp),
    setPrev_eq (show ((((lt.cellCreate c x).withNext c (some q)).withPrev c (some p)).withNext p
      (some c)).dataOf q = some dq by simpa using hdq)]
  rw [withNext_withPrev_comm (lt.cellCreate c x) c c]
  rfl

/-! ### Taking a cell out -/

/-- The two assignments that take the cell `c` out from between `p` and `q`, which is then freed. -/
def unlink (lt : CList κ δ) (c p q : κ) : CList κ δ :=
  { lt with
    heap := Function.update ((lt.withNext p (some q)).withPrev q (some p)).heap c none
    n := lt.n - 1 }

theorem removed_unlink (hp : ∃ d, lt.dataOf p = some d) (hq : ∃ d, lt.dataOf q = some d) (c : κ) :
    Removed lt (lt.unlink c p q) c p q := by
  obtain ⟨dp, hp⟩ := hp
  obtain ⟨dq, hq⟩ := hq
  have hheap : ∀ a, a ≠ c → (lt.unlink c p q).heap a =
      ((lt.withNext p (some q)).withPrev q (some p)).heap a :=
    fun a ha => Function.update_of_ne ha ..
  refine ⟨rfl, rfl, fun a ha => ?_, fun a ha => ?_, fun a ha => ?_⟩
  · rw [dataOf, hheap a ha, ← dataOf, dataOf_withPrev, dataOf_withNext]
  · rw [nextOf, hheap a ha, ← nextOf, nextOf_withPrev, nextOf_withNext hp]
  · rw [prevOf, hheap a ha, ← prevOf, prevOf_withPrev (d := dq) (by simpa using hq),
      prevOf_withNext]

/-- What a removal finds: the cell has two neighbours, which point to it, and all three are
allocated. -/
theorem Rep.exists_around (h : lt.Rep (l₁ ++ (c, x) :: l₂)) :
    ∃ p q, lt.prevOf c = some p ∧ lt.nextOf c = some q ∧ lt.nextOf p = some c ∧
      (lt.head :: names l₁).getLast? = some p ∧ (names l₂ ++ [lt.head]).head? = some q ∧
      (∃ d, lt.dataOf p = some d) ∧ (∃ d, lt.dataOf q = some d) ∧ lt.dataOf c = some x ∧
      c ≠ lt.head ∧ (lt.unlink c p q).Rep (l₁ ++ l₂) := by
  have hring := h.ring
  rw [names, List.map_append, List.map_cons] at hring
  obtain ⟨p, q, hp, hq, hpmem, hqmem⟩ := exists_neighbours lt l₁ l₂
  have hprev := hring.prev_cell.trans hp
  have hnext := hring.next_cell.trans hq
  have hback : lt.nextOf p = some c := (CellRing.path_append.1 hring.next).1.next_last hp
  have hmem : ∀ {a}, a ∈ lt.head :: names (l₁ ++ l₂) →
      a ∈ lt.head :: names (l₁ ++ (c, x) :: l₂) := by
    intro a ha
    rw [names, List.map_append] at ha
    rw [names, List.map_append, List.map_cons]
    simp only [List.mem_cons, List.mem_append] at ha ⊢
    tauto
  have hpd := h.exists_data (hmem hpmem)
  have hqd := h.exists_data (hmem hqmem)
  have hch : c ≠ lt.head := by
    rintro rfl
    exact (List.nodup_cons.1 hring.nodup).1 (by simp)
  exact ⟨p, q, hprev, hnext, hback, hp, hq, hpd, hqd, h.data (c, x) (by simp), hch,
    h.removed (removed_unlink hpd hqd c) hprev hnext⟩

/-- **`list_remove` takes its cell out.** -/
theorem Rep.remove (h : lt.Rep (l₁ ++ (c, x) :: l₂)) :
    ∃ lt', listRemove lt c = Except.ok (lt', x) ∧ lt'.Rep (l₁ ++ l₂) ∧ lt'.head = lt.head := by
  obtain ⟨p, q, hprev, hnext, hback, _, _, ⟨dp, hdp⟩, ⟨dq, hdq⟩, hdc, hch, hrep⟩ :=
    h.exists_around
  have hpos : lt.n > 0 := by
    rw [h.n]
    simp only [List.length_append, List.length_cons]
    omega
  have hpair : lt.prevOf c ≠ none ∧ lt.nextOf c ≠ none := by
    rw [hprev, hnext]
    exact ⟨nofun, nofun⟩
  have hdc' : ({ (lt.withNext p (some q)).withPrev q (some p) with n := lt.n - 1 } :
      CList κ δ).dataOf c = some x := by
    change ((lt.withNext p (some q)).withPrev q (some p)).dataOf c = some x
    simpa using hdc
  refine ⟨_, ?_, hrep, rfl⟩
  rw [listRemove, get_eq hdc, ok_bind]
  dsimp only
  rw [cAssert_of hpair, ok_bind, hprev, get_eq hdp, ok_bind]
  dsimp only
  rw [hback, get_eq hdc, ok_bind, cAssert_of rfl, ok_bind, cAssert_of hch, ok_bind,
    cAssert_of hpos, ok_bind, hnext, setNext_eq hdp, ok_bind,
    setPrev_eq (show (lt.withNext p (some q)).dataOf q = some dq by simpa using hdq), ok_bind]
  simp only [n_withPrev, n_withNext]
  rw [get_eq hdc', ok_bind, cellDestroy, get_eq hdc']
  rfl

/-- **`list_popleft` takes the first cell out.** -/
theorem Rep.popleft (h : lt.Rep ((c, x) :: l₂)) :
    ∃ lt', listPopleft lt = Except.ok (lt', x) ∧ lt'.Rep l₂ := by
  have hmid : lt.Rep ([] ++ (c, x) :: l₂) := h
  obtain ⟨p, q, _, hnext, hback, hp, _, _, ⟨dq, hdq⟩, hdc, hch, hrep⟩ :=
    hmid.exists_around
  obtain rfl : lt.head = p := Option.some.inj hp
  have hne : some c ≠ some lt.head := fun heq => hch (Option.some.inj heq)
  have hdc' : ({ (lt.withPrev q (some lt.head)).withNext lt.head (some q) with
      n := lt.n - 1 } : CList κ δ).dataOf c = some x := by
    change ((lt.withPrev q (some lt.head)).withNext lt.head (some q)).dataOf c = some x
    simpa using hdc
  refine ⟨_, ?_, hrep⟩
  rw [listPopleft, listHead, get_eq h.headData, ok_bind, ok_bind]
  dsimp only
  rw [hback, cAssert_of hne, ok_bind, get_eq hdc, ok_bind]
  dsimp only
  rw [hnext, setPrev_eq hdq, ok_bind,
    get_eq (show (lt.withPrev q (some lt.head)).dataOf c = some x by simpa using hdc), ok_bind]
  dsimp only
  rw [nextOf_withPrev, hnext, head_withPrev,
    setNext_eq (show (lt.withPrev q (some lt.head)).dataOf lt.head = some none by
      simpa using h.headData), ok_bind]
  simp only [n_withPrev, n_withNext]
  rw [get_eq hdc', ok_bind, cellDestroy, get_eq hdc', ← withNext_withPrev_comm]
  rfl

/-- **`list_pop` takes the last cell out.** -/
theorem Rep.pop (h : lt.Rep (l₁ ++ [(c, x)])) :
    ∃ lt', listPop lt = Except.ok (lt', x) ∧ lt'.Rep l₁ := by
  obtain ⟨p, q, hprev, hnext, _, _, hq, ⟨dp, hdp⟩, _, hdc, hch, hrep⟩ := h.exists_around
  obtain rfl : lt.head = q := Option.some.inj hq
  rw [List.append_nil] at hrep
  have hlast : lt.prevOf lt.head = some c := by
    have hring := h.ring
    rw [hring.prev_head, names, List.map_append, List.map_singleton, ← List.cons_append,
      List.getLast?_concat]
  have hne : some c ≠ some lt.head := fun heq => hch (Option.some.inj heq)
  have hprev' : (lt.withPrev lt.head (some p)).prevOf c = some p := by
    rw [prevOf_withPrev h.headData, Function.update_of_ne hch, hprev]
  have hdc' : ({ (lt.withPrev lt.head (some p)).withNext p (some lt.head) with
      n := lt.n - 1 } : CList κ δ).dataOf c = some x := by
    change ((lt.withPrev lt.head (some p)).withNext p (some lt.head)).dataOf c = some x
    simpa using hdc
  refine ⟨_, ?_, hrep⟩
  rw [listPop, listTail, get_eq h.headData, ok_bind, ok_bind]
  dsimp only
  rw [hlast, cAssert_of hne, ok_bind, get_eq hdc, ok_bind]
  dsimp only
  rw [hprev, setPrev_eq h.headData, ok_bind,
    get_eq (show (lt.withPrev lt.head (some p)).dataOf c = some x by simpa using hdc), ok_bind]
  dsimp only
  rw [hprev', head_withPrev,
    setNext_eq (show (lt.withPrev lt.head (some p)).dataOf p = some dp by simpa using hdp), ok_bind]
  simp only [n_withPrev, n_withNext]
  rw [get_eq hdc', ok_bind, cellDestroy, get_eq hdc', ← withNext_withPrev_comm]
  rfl

theorem rep_create (dummy : κ) : (listCreate dummy : CList κ δ).Rep [] where
  ring := Ring.single (by simp [nextOf, listCreate]) (by simp [prevOf, listCreate])
  headData := by simp [dataOf, listCreate]
  data := by simp
  n := rfl

/-! ### Going through a list -/

section Traverse

variable {σ : Type} (body : σ → κ → Option δ → σ × Bool)

omit [DecidableEq κ] in
/-- What a traversal makes of a sequence of cells: it handles them in order, and keeps those that
are not dead. -/
def visit : σ → List (κ × Option δ) → σ × List (κ × Option δ)
  | s, [] => (s, [])
  | s, e :: es =>
      let r := body s e.1 e.2
      let t := visit r.1 es
      (t.1, if r.2 then t.2 else e :: t.2)

/-- The loop goes on from each cell to the one behind it, whether the cell stays or not. -/
theorem Rep.traverse_from {kept : List (κ × Option δ)} (h : lt.Rep (kept ++ es)) (s : σ)
    {cell : Option κ} (hcell : cell = (names es ++ [lt.head]).head?) {fuel : ℕ}
    (hfuel : es.length < fuel) :
    ∃ lt', listTraverse body fuel lt s cell = Except.ok (lt', (visit body s es).1, names es) ∧
      lt'.Rep (kept ++ (visit body s es).2) := by
  induction es generalizing lt kept s cell fuel with
  | nil =>
      obtain ⟨fuel, rfl⟩ := Nat.exists_eq_succ_of_ne_zero (Nat.ne_of_gt hfuel)
      refine ⟨lt, ?_, h⟩
      rw [hcell]
      unfold listTraverse
      exact if_pos rfl
  | cons e es ih =>
      obtain ⟨fuel, rfl⟩ := Nat.exists_eq_succ_of_ne_zero (Nat.ne_of_gt (Nat.zero_lt_of_lt hfuel))
      obtain ⟨c, x⟩ := e
      obtain ⟨_, q, _, hnext, _, _, hq, _, _, hdc, hch, _⟩ := h.exists_around
      have hne : ¬ some c = listEnd lt := fun heq => hch (Option.some.inj heq)
      have hnext' : lt.nextOf c = (names es ++ [lt.head]).head? := hnext.trans hq.symm
      rw [hcell]
      unfold listTraverse
      simp only [names, List.map_cons, List.cons_append, List.head?_cons, if_neg hne,
        get_eq hdc, ok_bind, visit]
      cases hdead : (body s c x).2 with
      | true =>
          -- the loop has read the pointer behind the cell before the cell is freed
          obtain ⟨lt₁, hremove, hrep, hhead⟩ := h.remove
          rw [← hhead] at hnext'
          obtain ⟨lt', hrun, hrep'⟩ := ih hrep (body s c x).1 hnext' (Nat.lt_of_succ_lt_succ hfuel)
          refine ⟨lt', ?_, by simpa using hrep'⟩
          rw [if_pos rfl, hremove, ok_bind]
          dsimp only
          rw [hrun, ok_bind]
      | false =>
          have hmid : kept ++ (c, x) :: es = (kept ++ [(c, x)]) ++ es := by simp
          rw [hmid] at h
          obtain ⟨lt', hrun, hrep'⟩ := ih h (body s c x).1 hnext' (Nat.lt_of_succ_lt_succ hfuel)
          refine ⟨lt', ?_, by simpa using hrep'⟩
          rw [if_neg (by decide), hrun, ok_bind]

/-- **A traversal visits every cell once, in order**, and leaves the cells that it keeps. -/
theorem Rep.traverse (h : lt.Rep es) (s : σ) :
    ∃ lt', listLoop body lt s = Except.ok (lt', (visit body s es).1, names es) ∧
      lt'.Rep (visit body s es).2 := by
  have hfuel : es.length < lt.n.toNat + 1 := by
    rw [h.n]
    omega
  rw [listLoop, listHead, get_eq h.headData, ok_bind, ok_bind]
  have hmid : lt.Rep ([] ++ es) := h
  exact hmid.traverse_from body s h.ring.next_head hfuel

end Traverse

end CList

/-! ### Runs of calls -/

/-- A call on a list. -/
inductive ListOp (κ δ : Type) where
  | append (x : Option δ)
  | appendleft (x : Option δ)
  | insert (i : ℤ) (x : Option δ)
  | remove (cell : κ)
  | popleft
  | pop
  | size

/-- What a call returns. -/
inductive ListRet (δ : Type) where
  | unit
  | data (x : Option δ)
  | int (n : ℤ)

/-- A call on a list; `cell` is what `malloc` returns if it is called. -/
def listCall (lt : CList κ δ) (cell : κ) : ListOp κ δ → Except Abort (CList κ δ × ListRet δ)
  | .append x => do
      let lt ← listAppend lt cell x
      Except.ok (lt, .unit)
  | .appendleft x => do
      let lt ← listAppendleft lt cell x
      Except.ok (lt, .unit)
  | .insert i x => do
      let lt ← listInsert lt cell i x
      Except.ok (lt, .unit)
  | .remove c => do
      let r ← listRemove lt c
      Except.ok (r.1, .data r.2)
  | .popleft => do
      let r ← listPopleft lt
      Except.ok (r.1, .data r.2)
  | .pop => do
      let r ← listPop lt
      Except.ok (r.1, .data r.2)
  | .size => Except.ok (lt, .int (listSize lt))

/-- A call with an index of at most the size, a cell that the head leads to, or a list that is not
empty. -/
def CList.Allowed (lt : CList κ δ) : ListOp κ δ → Prop
  | .insert i _ => i ≤ lt.n
  | .remove c => c ≠ lt.head ∧ Relation.ReflTransGen (fun a b => lt.nextOf a = some b) lt.head c
  | .popleft => 0 < lt.n
  | .pop => 0 < lt.n
  | _ => True

/-- The calls on a sequence of cells. -/
inductive DequeStep {κ δ : Type} :
    List (κ × Option δ) → ListOp κ δ → List (κ × Option δ) → ListRet δ → Prop
  | append {es : List (κ × Option δ)} {c : κ} {x : Option δ} (hc : c ∉ CList.names es) :
      DequeStep es (.append x) (es ++ [(c, x)]) .unit
  | appendleft {es : List (κ × Option δ)} {c : κ} {x : Option δ} (hc : c ∉ CList.names es) :
      DequeStep es (.appendleft x) ((c, x) :: es) .unit
  | insert {l₁ l₂ : List (κ × Option δ)} {c : κ} {i : ℤ} {x : Option δ}
      (hc : c ∉ CList.names (l₁ ++ l₂)) (hi : l₁.length = i.toNat) :
      DequeStep (l₁ ++ l₂) (.insert i x) (l₁ ++ (c, x) :: l₂) .unit
  | remove {l₁ l₂ : List (κ × Option δ)} {c : κ} {x : Option δ} :
      DequeStep (l₁ ++ (c, x) :: l₂) (.remove c) (l₁ ++ l₂) (.data x)
  | popleft {es : List (κ × Option δ)} {c : κ} {x : Option δ} :
      DequeStep ((c, x) :: es) .popleft es (.data x)
  | pop {es : List (κ × Option δ)} {c : κ} {x : Option δ} :
      DequeStep (es ++ [(c, x)]) .pop es (.data x)
  | size {es : List (κ × Option δ)} : DequeStep es .size es (.int es.length)

/-- The calls made so far, with what they returned. -/
abbrev ListHistory (κ δ : Type) := List (ListOp κ δ × ListRet δ)

/-- The runs of calls on a sequence of cells, from the empty one. -/
inductive DequeRun {κ δ : Type} : ListHistory κ δ → List (κ × Option δ) → Prop
  | create : DequeRun [] []
  | call {hist : ListHistory κ δ} {es es' : List (κ × Option δ)} {op : ListOp κ δ}
      {ret : ListRet δ} (hrun : DequeRun hist es) (hstep : DequeStep es op es' ret) :
      DequeRun (hist ++ [(op, ret)]) es'

/-- The runs of allowed calls on a list; `malloc` returns cells not in use. -/
inductive CListRun : ListHistory κ δ → CList κ δ → Prop
  | create (dummy : κ) : CListRun [] (listCreate dummy)
  | call {hist : ListHistory κ δ} {lt lt' : CList κ δ} {cell : κ} {op : ListOp κ δ}
      {ret : ListRet δ} (hrun : CListRun hist lt) (hfree : lt.heap cell = none)
      (hallowed : lt.Allowed op) (hcall : listCall lt cell op = Except.ok (lt', ret)) :
      CListRun (hist ++ [(op, ret)]) lt'

variable {lt : CList κ δ} {es : List (κ × Option δ)}

omit [DecidableEq κ] in
/-- A cell that the head leads to is a cell of the list. -/
theorem CList.Rep.mem_of_reach (h : lt.Rep es) {c : κ}
    (hreach : Relation.ReflTransGen (fun a b => lt.nextOf a = some b) lt.head c) :
    c ∈ lt.head :: CList.names es := by
  induction hreach with
  | refl => exact List.mem_cons_self
  | @tail a b _ hab ih => exact h.ring.next_mem ih hab

/-- **An allowed call returns, and is the call on the sequence.** -/
theorem CList.Rep.call (h : lt.Rep es) {cell : κ} (hfree : lt.heap cell = none) {op : ListOp κ δ}
    (hallowed : lt.Allowed op) :
    ∃ lt' ret es', listCall lt cell op = Except.ok (lt', ret) ∧ lt'.Rep es' ∧
      DequeStep es op es' ret := by
  have hfresh : cell ∉ CList.names es := fun hmem =>
    h.fresh hfree (List.mem_cons_of_mem _ hmem)
  cases op with
  | append x =>
      obtain ⟨lt', happend, hrep⟩ := h.append hfree x
      exact ⟨lt', .unit, _, by rw [listCall, happend, ok_bind], hrep, DequeStep.append hfresh⟩
  | appendleft x =>
      obtain ⟨lt', happend, hrep⟩ := h.appendleft hfree x
      exact ⟨lt', .unit, _, by rw [listCall, happend, ok_bind], hrep, DequeStep.appendleft hfresh⟩
  | insert i x =>
      have hi : i ≤ es.length := h.n ▸ hallowed
      have hlen : (es.take i.toNat).length = i.toNat := List.length_take_of_le (by omega)
      rw [← List.take_append_drop i.toNat es] at h hfresh
      obtain ⟨lt', hinsert, hrep⟩ := h.insert hfree hlen.symm x
      have hstep := DequeStep.insert (x := x) hfresh hlen
      rw [List.take_append_drop] at hstep
      exact ⟨lt', .unit, _, by rw [listCall, hinsert, ok_bind], hrep, hstep⟩
  | remove c =>
      obtain ⟨hch, hreach⟩ := hallowed
      obtain ⟨e, he, rfl⟩ := List.mem_map.1
        ((List.mem_cons.1 (h.mem_of_reach hreach)).resolve_left hch)
      obtain ⟨l₁, l₂, rfl⟩ := List.append_of_mem he
      obtain ⟨lt', hremove, hrep, _⟩ := h.remove
      exact ⟨lt', _, _, by rw [listCall, hremove, ok_bind], hrep, DequeStep.remove⟩
  | popleft =>
      have hpos : 0 < lt.n := hallowed
      cases es with
      | nil =>
          rw [h.n] at hpos
          cases hpos
      | cons e es =>
          obtain ⟨lt', hpop, hrep⟩ := h.popleft
          exact ⟨lt', _, _, by rw [listCall, hpop, ok_bind], hrep, DequeStep.popleft⟩
  | pop =>
      have hpos : 0 < lt.n := hallowed
      rcases List.eq_nil_or_concat' es with rfl | ⟨es, e, rfl⟩
      · rw [h.n] at hpos
        cases hpos
      · obtain ⟨lt', hpop, hrep⟩ := h.pop
        exact ⟨lt', _, _, by rw [listCall, hpop, ok_bind], hrep, DequeStep.pop⟩
  | size =>
      have hstep : DequeStep es .size es (.int es.length) := DequeStep.size
      rw [← h.n] at hstep
      exact ⟨lt, _, es, rfl, h, hstep⟩

/-- Every run is a run of the same calls on a sequence of cells. -/
theorem CListRun.refines {hist : ListHistory κ δ} (h : CListRun hist lt) :
    ∃ es, DequeRun hist es ∧ lt.Rep es := by
  induction h with
  | create dummy => exact ⟨[], DequeRun.create, CList.rep_create dummy⟩
  | call _ hfree hallowed hcall ih =>
      obtain ⟨es, hrun, hrep⟩ := ih
      obtain ⟨_, _, es', hcall', hrep', hstep⟩ := hrep.call hfree hallowed
      rw [hcall, Except.ok.injEq, Prod.mk.injEq] at hcall'
      obtain ⟨rfl, rfl⟩ := hcall'
      exact ⟨es', hrun.call hstep, hrep'⟩

/-- **A list is a sequence of different cells**: after any allowed calls the forward pointers lead
from the head through the cells of the sequence and back, the backward pointers lead through them
the other way round, the cells hold its data, and `n` is its length; every call has returned what
it returns on the sequence, and every further allowed call returns; and a traversal that removes cells on its
way visits every cell once, in order, and leaves the list of those it keeps. -/
theorem list_run (hist : ListHistory κ δ) (lt : CList κ δ) (h : CListRun hist lt) :
    ∃ es : List (κ × Option δ), DequeRun hist es ∧ (lt.head :: CList.names es).Nodup ∧
      Path lt.nextOf lt.head (CList.names es) lt.head ∧
      Path lt.prevOf lt.head (CList.names es).reverse lt.head ∧
      (∀ e ∈ es, lt.dataOf e.1 = some e.2) ∧ lt.n = es.length ∧
      (∀ (cell : κ) (op : ListOp κ δ), lt.heap cell = none → lt.Allowed op →
        ∃ r, listCall lt cell op = Except.ok r) ∧
      ∀ (σ : Type) (body : σ → κ → Option δ → σ × Bool) (s : σ), ∃ lt',
        listLoop body lt s = Except.ok (lt', (CList.visit body s es).1, CList.names es) ∧
          lt'.Rep (CList.visit body s es).2 := by
  obtain ⟨es, hrun, hrep⟩ := h.refines
  refine ⟨es, hrun, hrep.ring.nodup, hrep.ring.next, hrep.ring.prev, hrep.data, hrep.n, ?_, ?_⟩
  · intro cell op hfree hallowed
    obtain ⟨lt', ret, _, hcall, _⟩ := hrep.call hfree hallowed
    exact ⟨_, hcall⟩
  · exact fun σ body s => hrep.traverse body s

/-- Two cells, the first of which is removed again. -/
theorem list_run_two : ∃ lt : CList ℕ ℕ,
    CListRun [(.append (some 7), .unit), (.append (some 8), .unit), (.popleft, .data (some 7))] lt ∧
      ∃ r, listCall lt 1 .pop = Except.ok r := by
  have h1 : CListRun (κ := ℕ) [(.append (some 7), .unit)] _ :=
    CListRun.call (CListRun.create 0) (show _ = none from rfl) trivial
      (show listCall _ 1 _ = _ from rfl)
  have h2 : CListRun (κ := ℕ) [(.append (some 7), .unit), (.append (some 8), .unit)] _ :=
    CListRun.call h1 (show _ = none from rfl) trivial (show listCall _ 2 _ = _ from rfl)
  have h3 : CListRun (κ := ℕ) [(.append (some 7), .unit), (.append (some 8), .unit),
      (.popleft, .data (some 7))] _ :=
    CListRun.call h2 (show _ = none from rfl) (show (0 : ℤ) < 2 by decide)
      (show listCall _ 3 _ = _ from rfl)
  obtain ⟨_, _, _, _, _, _, _, hcall, _⟩ := list_run _ _ h3
  exact ⟨_, h3, hcall 1 .pop rfl (show (0 : ℤ) < 1 by decide)⟩

end DLFree

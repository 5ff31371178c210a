/-
**Leveled Dijkstra: `graph/dijkstra.c`.**

A state of the search is a host together with a level: the route to the host has arrived over links
of at most this level, and goes on over links of at least this level.  The search extracts the
closest state that is left, relaxes the links of its host, and at the end walks back from every
destination to the source.

This module is the code; what it computes is shown in `DLFree.DijkstraRoutes`.

Main definitions:

* `LeveledDijkstra` — `struct leveled_dijkstra`;
* `dijkstraSetup`, `extractMinNode`, `dijkstraCompute`, `dijkstraCalcRt`, `leveledDijkstraRun` — the
  functions of the source;
* `LeveledDijkstra.relaxed` — the arrays after all relaxations of one state at once.

Main results:

* `extractMinNode_none`, `extractMinNode_some` — what extraction returns;
* `dijkstraRelax_eq` — the relaxation loops compute `relaxed`;
* `dijkstraSetup_ok`, `dijkstraSetup_error` — setting up succeeds exactly when all links have
  positive width and length.
-/

import DLFree.Router
import DLFree.Rtable

set_option relaxedAutoImplicit false
set_option autoImplicit false

namespace DLFree

/-! ### The code -/

/-- `MAX_DIJKSTRA_DIST`. -/
def maxDijkstraDist : ℚ := 10000000

/-- `MAX_DIJKSTRA_WIDTH`. -/
def maxDijkstraWidth : ℚ := 1000000000

/-- `struct leveled_dijkstra`; a missing predecessor is `none`. -/
structure LeveledDijkstra where
  numNodes : ℕ
  numLevels : ℕ
  dist : ℕ → ℕ → ℚ
  prev : ℕ → ℕ → Option ℕ
  prevLevel : ℕ → ℕ → Option ℕ
  levels : ℕ → ℕ → ℤ
  metrics : ℕ → ℕ → ℚ
  width : ℕ → ℕ → ℚ
  reached : ℕ → ℕ → Bool

/-- The assignment `a[i][j] = x`. -/
def setAt {β : Type} (a : ℕ → ℕ → β) (i j : ℕ) (x : β) : ℕ → ℕ → β :=
  fun p q => if p = i ∧ q = j then x else a p q

/-- `leveled_dijkstra_create`. -/
def leveledDijkstraCreate (nodes : List OverlayNode) (numLevels : ℕ) : LeveledDijkstra where
  numNodes := nodes.length
  numLevels := numLevels
  dist := fun _ _ => maxDijkstraDist
  prev := fun _ _ => none
  prevLevel := fun _ _ => none
  levels := fun _ _ => -1
  metrics := fun _ _ => maxDijkstraDist
  width := fun _ _ => 0
  reached := fun _ _ => false

/-- The matrices with the attributes of one more link. -/
def dijkstraSetLink (dijk : LeveledDijkstra) (link : RouterGraphLink) : LeveledDijkstra :=
  let pid0 := link.conn.n0
  let pid1 := link.conn.n1
  let w := link.conn.len
  { dijk with
    levels := setAt (setAt dijk.levels pid0 pid1 link.level0) pid1 pid0 link.level1
    metrics := setAt (setAt dijk.metrics pid0 pid1 w) pid1 pid0 w
    width := setAt (setAt dijk.width pid0 pid1 link.conn.width) pid1 pid0 link.conn.width }

/-- One link in `setup`. -/
def dijkstraSetupLink (dijk : LeveledDijkstra) (link : RouterGraphLink) :
    Except Abort LeveledDijkstra := do
  cAssert (0 < link.conn.width)
  cAssert (0 < link.conn.len)
  Except.ok (dijkstraSetLink dijk link)

/-- `setup`. -/
def dijkstraSetup (dijk : LeveledDijkstra) (links : List RouterGraphLink) :
    Except Abort LeveledDijkstra :=
  links.foldlM dijkstraSetupLink dijk

/-- The order in which `extract_min_node` looks at the states. -/
def scanOrder (numNodes numLevels : ℕ) : List (ℕ × ℕ) :=
  (List.range numNodes).flatMap fun p => (List.range numLevels).reverse.map fun l => (p, l)

/-- One state in `extract_min_node`: the smallest distance so far and where it is. -/
def extractMinStep (dijk : LeveledDijkstra) (best : ℚ × Option (ℕ × ℕ)) (pl : ℕ × ℕ) :
    ℚ × Option (ℕ × ℕ) :=
  if dijk.reached pl.1 pl.2 then best
  else if dijk.dist pl.1 pl.2 < best.1 then (dijk.dist pl.1 pl.2, some pl) else best

/-- `extract_min_node`; `none` when no state is left that can be reached. -/
def extractMinNode (dijk : LeveledDijkstra) : Option ((ℕ × ℕ) × LeveledDijkstra) :=
  match ((scanOrder dijk.numNodes dijk.numLevels).foldl (extractMinStep dijk)
      (maxDijkstraDist, none)).2 with
  | none => none
  | some (pid, level) =>
      some ((pid, level), { dijk with reached := setAt dijk.reached pid level true })

/-- One level `l` of the neighbor `v` in `compute`. -/
def dijkstraRelaxLevel (u level v : ℕ) (dijk : LeveledDijkstra) (l : ℕ) :
    Except Abort LeveledDijkstra :=
  if dijk.dist u level + dijk.metrics u v < dijk.dist v l then do
    cAssert (dijk.reached v l == false)
    Except.ok { dijk with
      dist := setAt dijk.dist v l (dijk.dist u level + dijk.metrics u v)
      prev := setAt dijk.prev v l (some u)
      prevLevel := setAt dijk.prevLevel v l (some level) }
  else Except.ok dijk

/-- One neighbor `v` in `compute`: the levels from that of the link on. -/
def dijkstraRelaxNode (u level : ℕ) (dijk : LeveledDijkstra) (v : ℕ) :
    Except Abort LeveledDijkstra :=
  if dijk.levels u v < level then Except.ok dijk
  else
    (List.range' (dijk.levels u v).toNat (dijk.numLevels - (dijk.levels u v).toNat)).foldlM
      (dijkstraRelaxLevel u level v) dijk

/-- The loop of `compute` over the neighbors of an extracted state. -/
def dijkstraRelax (u level : ℕ) (dijk : LeveledDijkstra) : Except Abort LeveledDijkstra :=
  (List.range dijk.numNodes).foldlM (dijkstraRelaxNode u level) dijk

/-- The main loop of `compute`. -/
def dijkstraLoop : ℕ → LeveledDijkstra → Except Abort LeveledDijkstra
  | fuel, dijk =>
      match extractMinNode dijk with
      | none => Except.ok dijk
      | some ((u, level), dijk) =>
          match fuel with
          | 0 => Except.error Abort.diverges
          | fuel + 1 => do
              let dijk ← dijkstraRelax u level dijk
              dijkstraLoop fuel dijk

/-- `compute`. -/
def dijkstraCompute (dijk : LeveledDijkstra) (srcPid : ℕ) : Except Abort LeveledDijkstra :=
  dijkstraLoop (dijk.numNodes * dijk.numLevels)
    { dijk with
      dist := fun p l => if p = srcPid ∧ l < dijk.numLevels then 0 else dijk.dist p l }

/-- One level in the search of `calc_rt` for the closest state of `dst`. -/
def closestStep (dijk : LeveledDijkstra) (dst : ℕ) (best : ℚ × Option ℕ) (l : ℕ) :
    ℚ × Option ℕ :=
  if dijk.dist dst l < best.1 then (dijk.dist dst l, some l) else best

/-- The closest level of `dst` and its distance; higher levels are preferred. -/
def closestLevel (dijk : LeveledDijkstra) (dst : ℕ) : ℚ × Option ℕ :=
  (List.range dijk.numLevels).reverse.foldl (closestStep dijk dst) (maxDijkstraDist, none)

/-- The walk of `calc_rt` from a state back to the source: the nodes and the smallest width. -/
def walkBack (dijk : LeveledDijkstra) :
    ℕ → ℕ → ℕ → ℚ → List ℕ → Except Abort (List ℕ × ℚ)
  | 0, _, _, _, _ => Except.error Abort.diverges
  | fuel + 1, node, level, minWidth, nodeStack =>
      let nodeStack := nodeStack ++ [node]
      match dijk.prev node level with
      | none => Except.ok (nodeStack, minWidth)
      | some tmpN =>
          match dijk.prevLevel node level with
          | none => Except.error Abort.badAccess
          | some tmpL =>
              let w := dijk.width tmpN node
              walkBack dijk fuel tmpN tmpL (if minWidth < w then minWidth else w) nodeStack

/-- The entry that `calc_rt` makes for `dst`. -/
def calcRtEntry (dijk : LeveledDijkstra) (dst : ℕ) : Except Abort OverlayRtableEntry :=
  match closestLevel dijk dst with
  | (_, none) => Except.error Abort.unreachable
  | (minDist, some level) => do
      let (nodeStack, minWidth) ←
        walkBack dijk (dijk.numNodes * dijk.numLevels + 1) dst level maxDijkstraWidth []
      Except.ok
        { dstPid := dst
          path := nodeStack.reverse.map Int.ofNat
          metric := truncToInt minDist
          width := truncToInt minWidth }

/-- `calc_rt`. -/
def dijkstraCalcRt (dijk : LeveledDijkstra) (srcPid : ℕ) : Except Abort OverlayRtable :=
  (List.range dijk.numNodes).foldlM
    (fun rt dst =>
      if dst = srcPid then Except.ok rt
      else do
        let rentry ← calcRtEntry dijk dst
        overlayRtableAddEntry rt rentry)
    (overlayRtableCreate srcPid dijk.numNodes)

/-- `leveled_dijkstra_run`. -/
def leveledDijkstraRun (dijk : LeveledDijkstra) (links : List RouterGraphLink) (srcPid : ℕ) :
    Except Abort OverlayRtable := do
  let dijk ← dijkstraSetup dijk links
  let dijk ← dijkstraCompute dijk srcPid
  dijkstraCalcRt dijk srcPid

/-! ### Extraction -/

theorem mem_scanOrder {numNodes numLevels p l : ℕ} :
    (p, l) ∈ scanOrder numNodes numLevels ↔ p < numNodes ∧ l < numLevels := by
  simp [scanOrder]

/-- What the scan has found after the states `seen`. -/
structure ScanInv (dijk : LeveledDijkstra) (seen : List (ℕ × ℕ)) (best : ℚ × Option (ℕ × ℕ)) :
    Prop where
  none : best.2 = none → best.1 = maxDijkstraDist
  some : ∀ pl, best.2 = some pl → pl ∈ seen ∧ dijk.reached pl.1 pl.2 = false ∧
    dijk.dist pl.1 pl.2 = best.1 ∧ best.1 < maxDijkstraDist
  least : ∀ pl ∈ seen, dijk.reached pl.1 pl.2 = false → best.1 ≤ dijk.dist pl.1 pl.2
  bound : best.1 ≤ maxDijkstraDist

theorem ScanInv.step {dijk : LeveledDijkstra} {seen : List (ℕ × ℕ)} {best : ℚ × Option (ℕ × ℕ)}
    (h : ScanInv dijk seen best) (pl : ℕ × ℕ) :
    ScanInv dijk (seen ++ [pl]) (extractMinStep dijk best pl) := by
  have hkeep : (dijk.reached pl.1 pl.2 = false → best.1 ≤ dijk.dist pl.1 pl.2) →
      ScanInv dijk (seen ++ [pl]) best := by
    intro hle
    refine ⟨h.none, fun q hq => ?_, fun q hq hr => ?_, h.bound⟩
    · exact ⟨List.mem_append_left _ (h.some q hq).1, (h.some q hq).2⟩
    · rcases List.mem_append.1 hq with hq | hq
      · exact h.least q hq hr
      · rw [List.mem_singleton] at hq
        subst hq
        exact hle hr
  rw [extractMinStep]
  split
  · rename_i hr
    exact hkeep fun hr' => by rw [hr] at hr'; cases hr'
  split
  · rename_i hr hlt
    refine ⟨?_, fun q hq => ?_, fun q hq hq' => ?_, hlt.le.trans h.bound⟩
    · intro he
      cases he
    · simp only [Option.some.injEq] at hq
      subst hq
      exact ⟨by simp, Bool.eq_false_iff.2 hr, rfl, hlt.trans_le h.bound⟩
    · rcases List.mem_append.1 hq with hq | hq
      · exact hlt.le.trans (h.least q hq hq')
      · rw [List.mem_singleton] at hq
        rw [hq]
  · rename_i hlt
    exact hkeep fun _ => not_lt.1 hlt

theorem ScanInv.foldl {dijk : LeveledDijkstra} {seen : List (ℕ × ℕ)} {best : ℚ × Option (ℕ × ℕ)}
    (h : ScanInv dijk seen best) (rest : List (ℕ × ℕ)) :
    ScanInv dijk (seen ++ rest) (rest.foldl (extractMinStep dijk) best) := by
  induction rest generalizing seen best with
  | nil => simpa using h
  | cons pl rest ih => simpa using ih (h.step pl)

theorem scan_inv (dijk : LeveledDijkstra) :
    ScanInv dijk (scanOrder dijk.numNodes dijk.numLevels)
      ((scanOrder dijk.numNodes dijk.numLevels).foldl (extractMinStep dijk)
        (maxDijkstraDist, none)) := by
  have hinit : ScanInv dijk [] (maxDijkstraDist, none) := by
    refine ⟨fun _ => rfl, ?_, by simp, le_rfl⟩
    intro pl hpl
    cases hpl
  simpa using hinit.foldl (scanOrder dijk.numNodes dijk.numLevels)

/-- When nothing is extracted, every state that is left is out of reach. -/
theorem extractMinNode_none {dijk : LeveledDijkstra} (h : extractMinNode dijk = none) {p l : ℕ}
    (hp : p < dijk.numNodes) (hl : l < dijk.numLevels) (hr : dijk.reached p l = false) :
    maxDijkstraDist ≤ dijk.dist p l := by
  have hinv := scan_inv dijk
  cases hb : ((scanOrder dijk.numNodes dijk.numLevels).foldl (extractMinStep dijk)
      (maxDijkstraDist, none)).2 with
  | none =>
      rw [← hinv.none hb]
      exact hinv.least (p, l) (mem_scanOrder.2 ⟨hp, hl⟩) hr
  | some pl =>
      rw [extractMinNode, hb] at h
      cases h

/-- What is extracted is a closest state among those that are left. -/
theorem extractMinNode_some {dijk dijk' : LeveledDijkstra} {u level : ℕ}
    (h : extractMinNode dijk = some ((u, level), dijk')) :
    dijk' = { dijk with reached := setAt dijk.reached u level true } ∧
      u < dijk.numNodes ∧ level < dijk.numLevels ∧ dijk.reached u level = false ∧
      dijk.dist u level < maxDijkstraDist ∧
      ∀ p < dijk.numNodes, ∀ l < dijk.numLevels, dijk.reached p l = false →
        dijk.dist u level ≤ dijk.dist p l := by
  have hinv := scan_inv dijk
  cases hb : ((scanOrder dijk.numNodes dijk.numLevels).foldl (extractMinStep dijk)
      (maxDijkstraDist, none)).2 with
  | none =>
      rw [extractMinNode, hb] at h
      cases h
  | some pl =>
      rw [extractMinNode, hb] at h
      simp only [Option.some.injEq, Prod.mk.injEq] at h
      obtain ⟨⟨rfl, rfl⟩, rfl⟩ := h
      obtain ⟨hmem, hr, hd, hlt⟩ := hinv.some pl hb
      obtain ⟨hu, hlevel⟩ := mem_scanOrder.1 hmem
      refine ⟨rfl, hu, hlevel, hr, hd ▸ hlt, fun p hp l hl hr' => ?_⟩
      rw [hd]
      exact hinv.least (p, l) (mem_scanOrder.2 ⟨hp, hl⟩) hr'

/-! ### Relaxation -/

namespace LeveledDijkstra

/-- The arrays in which the states of `M` have `(u, level)` as their predecessor. -/
def redirect (dijk : LeveledDijkstra) (u level : ℕ) (M : ℕ → ℕ → Bool) : LeveledDijkstra :=
  { dijk with
    dist := fun v l => if M v l then dijk.dist u level + dijk.metrics u v else dijk.dist v l
    prev := fun v l => if M v l then some u else dijk.prev v l
    prevLevel := fun v l => if M v l then some level else dijk.prevLevel v l }

/-- The states of `P` that are closer over the link from `(u, level)`. -/
def improves (dijk : LeveledDijkstra) (u level : ℕ) (P : ℕ → ℕ → Bool) (v l : ℕ) : Bool :=
  P v l && decide (dijk.dist u level + dijk.metrics u v < dijk.dist v l)

/-- The states that a link from `(u, level)` leads to. -/
def targets (dijk : LeveledDijkstra) (u level v l : ℕ) : Bool :=
  decide (v < dijk.numNodes ∧ l < dijk.numLevels ∧ (level : ℤ) ≤ dijk.levels u v ∧
    dijk.levels u v ≤ l)

/-- The arrays after all relaxations from `(u, level)`. -/
def relaxed (dijk : LeveledDijkstra) (u level : ℕ) : LeveledDijkstra :=
  dijk.redirect u level (dijk.improves u level (dijk.targets u level))

end LeveledDijkstra

open LeveledDijkstra

/-- The state `(v, l)` alone. -/
def only (v l : ℕ) (p q : ℕ) : Bool := decide (p = v ∧ q = l)

theorem setAt_ite {β : Type} (M : ℕ → ℕ → Bool) (x : ℕ → β) (f : ℕ → ℕ → β) (v l : ℕ) :
    setAt (fun p q => if M p q then x p else f p q) v l (x v) =
      fun p q => if M p q || only v l p q then x p else f p q := by
  funext p q
  by_cases hpq : p = v ∧ q = l
  · simp [setAt, only, hpq]
  · simp [setAt, only, hpq]

section Relax

variable {dijk : LeveledDijkstra} {u level : ℕ}

/-- Relaxing one more state. -/
theorem dijkstraRelaxLevel_redirect {P : ℕ → ℕ → Bool} {v l : ℕ} (hP : ∀ l, P u l = false)
    (hreached : dijk.dist u level + dijk.metrics u v < dijk.dist v l → dijk.reached v l = false) :
    dijkstraRelaxLevel u level v (dijk.redirect u level (dijk.improves u level P)) l =
      Except.ok (dijk.redirect u level
        (dijk.improves u level fun p q => P p q || only v l p q)) := by
  have hu : (dijk.redirect u level (dijk.improves u level P)).dist u level = dijk.dist u level := by
    simp [redirect, improves, hP]
  have hm : (dijk.redirect u level (dijk.improves u level P)).metrics = dijk.metrics := rfl
  have hother : ∀ p q, ¬ (p = v ∧ q = l) →
      dijk.improves u level (fun p q => P p q || only v l p q) p q = dijk.improves u level P p q := by
    intro p q hpq
    simp [improves, only, hpq]
  rw [dijkstraRelaxLevel, hu, hm]
  by_cases hlt : dijk.dist u level + dijk.metrics u v <
      (dijk.redirect u level (dijk.improves u level P)).dist v l
  · have hlt' : dijk.dist u level + dijk.metrics u v < dijk.dist v l := by
      simp only [redirect] at hlt
      split at hlt
      · exact absurd hlt (lt_irrefl _)
      · exact hlt
    have hr : (dijk.redirect u level (dijk.improves u level P)).reached v l = false :=
      hreached hlt'
    have hnew : (dijk.improves u level fun p q => P p q || only v l p q) =
        fun p q => dijk.improves u level P p q || only v l p q := by
      funext p q
      by_cases hpq : p = v ∧ q = l
      · simp [improves, only, hpq, hlt']
      · rw [hother p q hpq]
        simp [only, hpq]
    rw [if_pos hlt, hr, hnew]
    simp only [bind, Except.bind, beq_self_eq_true, cAssert_true, redirect,
      setAt_ite (dijk.improves u level P) (fun p => dijk.dist u level + dijk.metrics u p),
      setAt_ite (dijk.improves u level P) (fun _ => some u),
      setAt_ite (dijk.improves u level P) (fun _ => some level)]
  · rw [if_neg hlt]
    have hnew : (dijk.improves u level fun p q => P p q || only v l p q) =
        dijk.improves u level P := by
      funext p q
      by_cases hpq : p = v ∧ q = l
      · obtain ⟨rfl, rfl⟩ := hpq
        by_cases himp : dijk.improves u level P p q = true
        · rw [himp]
          simp only [improves, Bool.and_eq_true] at himp ⊢
          exact ⟨by simp [himp.1], himp.2⟩
        · simp only [redirect, himp, Bool.false_eq_true, if_false] at hlt
          simp [improves, hlt]
      · exact hother p q hpq
    rw [hnew]

theorem dijkstraRelaxLevels_redirect {P : ℕ → ℕ → Bool} {v : ℕ} (hv : v ≠ u) (ls : List ℕ)
    (hP : ∀ l, P u l = false)
    (hreached : ∀ l ∈ ls, dijk.dist u level + dijk.metrics u v < dijk.dist v l →
      dijk.reached v l = false) :
    ls.foldlM (dijkstraRelaxLevel u level v) (dijk.redirect u level (dijk.improves u level P)) =
      Except.ok (dijk.redirect u level
        (dijk.improves u level fun p q => P p q || decide (p = v ∧ q ∈ ls))) := by
  induction ls generalizing P with
  | nil =>
      have : (fun p q => P p q || decide (p = v ∧ q ∈ ([] : List ℕ))) = P := by
        funext p q
        simp
      rw [this]
      rfl
  | cons l ls ih =>
      rw [List.foldlM_cons, dijkstraRelaxLevel_redirect hP (hreached l List.mem_cons_self)]
      simp only [bind, Except.bind]
      rw [ih (fun q => by simp [hP, only, Ne.symm hv])
        (fun q hq => hreached q (List.mem_cons_of_mem _ hq))]
      congr 3
      funext p q
      by_cases hp : p = v <;> by_cases hq : q = l <;> simp [only, hp, hq]

/-- The relaxations of one neighbor. -/
theorem dijkstraRelaxNode_redirect {P : ℕ → ℕ → Bool} {v : ℕ} (hself : dijk.levels u u < 0)
    (hP : ∀ l, P u l = false)
    (hreached : ∀ l, dijk.targets u level v l = true →
      dijk.dist u level + dijk.metrics u v < dijk.dist v l → dijk.reached v l = false)
    (hvn : v < dijk.numNodes) :
    dijkstraRelaxNode u level (dijk.redirect u level (dijk.improves u level P)) v =
      Except.ok (dijk.redirect u level
        (dijk.improves u level fun p q => P p q || (decide (p = v) && dijk.targets u level p q))) := by
  rw [dijkstraRelaxNode]
  have hlevels : (dijk.redirect u level (dijk.improves u level P)).levels = dijk.levels := rfl
  have hnum : (dijk.redirect u level (dijk.improves u level P)).numLevels = dijk.numLevels := rfl
  rw [hlevels, hnum]
  split
  · rename_i hlt
    congr 3
    funext p q
    by_cases hp : p = v
    · subst hp
      have : dijk.targets u level p q = false := by
        simp only [targets, decide_eq_false_iff_not]
        rintro ⟨_, _, h, _⟩
        omega
      simp [this]
    · simp [hp]
  · rename_i hle
    have hv : v ≠ u := by
      rintro rfl
      omega
    have hmem : ∀ l, l ∈ List.range' (dijk.levels u v).toNat
        (dijk.numLevels - (dijk.levels u v).toNat) ↔ dijk.targets u level v l = true := by
      intro l
      simp only [List.mem_range'_1, targets, decide_eq_true_eq]
      omega
    rw [dijkstraRelaxLevels_redirect hv _ hP fun l hl => hreached l ((hmem l).1 hl)]
    congr 3
    funext p q
    by_cases hp : p = v
    · subst hp
      rw [Bool.eq_iff_iff]
      simp only [hmem, Bool.or_eq_true, Bool.and_eq_true, decide_eq_true_eq, true_and]
    · simp [hp]

/-- **The relaxation loops compute `relaxed`**: no assertion fails when only states that are left
get closer. -/
theorem dijkstraRelax_eq (hself : dijk.levels u u < 0)
    (hreached : ∀ v l, dijk.targets u level v l = true →
      dijk.dist u level + dijk.metrics u v < dijk.dist v l → dijk.reached v l = false) :
    dijkstraRelax u level dijk = Except.ok (dijk.relaxed u level) := by
  have loop : ∀ (vs : List ℕ), (∀ v ∈ vs, v < dijk.numNodes) → ∀ P : ℕ → ℕ → Bool,
      (∀ l, P u l = false) →
      vs.foldlM (dijkstraRelaxNode u level) (dijk.redirect u level (dijk.improves u level P)) =
        Except.ok (dijk.redirect u level (dijk.improves u level fun p q =>
          P p q || (decide (p ∈ vs) && dijk.targets u level p q))) := by
    intro vs
    induction vs with
    | nil =>
        intro _ P _
        have : (fun p q => P p q || (decide (p ∈ ([] : List ℕ)) && dijk.targets u level p q)) = P := by
          funext p q
          simp
        rw [this]
        rfl
    | cons v vs ih =>
        intro hvs P hP
        have hu : ∀ l, (P u l || (decide (u = v) && dijk.targets u level u l)) = false := by
          intro l
          have : dijk.targets u level u l = false := by
            simp only [targets, decide_eq_false_iff_not]
            rintro ⟨_, _, h, _⟩
            omega
          simp [hP, this]
        rw [List.foldlM_cons, dijkstraRelaxNode_redirect hself hP (hreached v)
          (hvs v List.mem_cons_self)]
        simp only [bind, Except.bind]
        rw [ih (fun x hx => hvs x (List.mem_cons_of_mem _ hx)) _ hu]
        congr 3
        funext p q
        rw [Bool.eq_iff_iff]
        simp only [Bool.or_eq_true, Bool.and_eq_true, decide_eq_true_eq, List.mem_cons]
        tauto
  have hstart : dijk.redirect u level (dijk.improves u level fun _ _ => false) = dijk := by
    simp [redirect, improves]
  have h := loop (List.range dijk.numNodes) (fun v hv => List.mem_range.1 hv) (fun _ _ => false)
    fun _ => rfl
  rw [hstart] at h
  rw [dijkstraRelax, h, relaxed]
  congr 3
  funext p q
  rw [Bool.eq_iff_iff]
  simp only [Bool.false_or, Bool.and_eq_true, decide_eq_true_eq, List.mem_range, targets]
  tauto

end Relax

/-! ### Setting up -/

/-- The matrices hold the levels, lengths and widths of the links, and -1 where there is no link. -/
structure LeveledDijkstra.Net (links : List RouterGraphLink) (n numLevels : ℕ)
    (dijk : LeveledDijkstra) : Prop where
  numNodes : dijk.numNodes = n
  numLevels : dijk.numLevels = numLevels
  level0 : ∀ link ∈ links, dijk.levels link.conn.n0 link.conn.n1 = link.level0
  level1 : ∀ link ∈ links, dijk.levels link.conn.n1 link.conn.n0 = link.level1
  metric : ∀ link ∈ links, dijk.metrics link.conn.n0 link.conn.n1 = link.conn.len ∧
    dijk.metrics link.conn.n1 link.conn.n0 = link.conn.len
  width : ∀ link ∈ links, dijk.width link.conn.n0 link.conn.n1 = link.conn.width ∧
    dijk.width link.conn.n1 link.conn.n0 = link.conn.width
  absent : ∀ u v, (∀ link ∈ links, link.conn.ends ≠ (u, v) ∧ link.conn.ends ≠ (v, u)) →
    dijk.levels u v = -1

/-- The search has not started. -/
structure LeveledDijkstra.Fresh (dijk : LeveledDijkstra) : Prop where
  dist : ∀ p l, dijk.dist p l = maxDijkstraDist
  prev : ∀ p l, dijk.prev p l = none
  reached : ∀ p l, dijk.reached p l = false

theorem setAt_pair {β : Type} (a : ℕ → ℕ → β) {i j : ℕ} (hij : i ≠ j) (x y : β) :
    setAt (setAt a i j x) j i y i j = x ∧ setAt (setAt a i j x) j i y j i = y ∧
      ∀ p q, (i, j) ≠ (p, q) → (i, j) ≠ (q, p) → setAt (setAt a i j x) j i y p q = a p q := by
  refine ⟨by simp [setAt, hij], by simp [setAt], fun p q h₁ h₂ => ?_⟩
  have h₁' : ¬ (p = i ∧ q = j) := fun h => h₁ (by rw [h.1, h.2])
  have h₂' : ¬ (p = j ∧ q = i) := fun h => h₂ (by rw [h.1, h.2])
  simp [setAt, h₁', h₂']

/-- Setting up succeeds when all widths and lengths are positive. -/
theorem dijkstraSetup_ok (nodes : List OverlayNode) (numLevels : ℕ) {links : List RouterGraphLink}
    (hpos : ∀ link ∈ links, 0 < link.conn.width ∧ 0 < link.conn.len)
    (hsimple : ForestLayers.Simple (fun link : RouterGraphLink => link.conn.ends) links) :
    ∃ dijk, dijkstraSetup (leveledDijkstraCreate nodes numLevels) links = Except.ok dijk ∧
      dijk.Net links nodes.length numLevels ∧ dijk.Fresh := by
  induction links using List.reverseRecOn with
  | nil =>
      exact ⟨_, rfl, ⟨rfl, rfl, by simp, by simp, by simp, by simp, fun _ _ _ => rfl⟩,
        ⟨fun _ _ => rfl, fun _ _ => rfl, fun _ _ => rfl⟩⟩
  | append_singleton links link ih =>
      have hpair := List.pairwise_append.1 hsimple.pair
      obtain ⟨dijk, hrun, hnet, hfresh⟩ := ih
        (fun x hx => hpos x (List.mem_append_left _ hx))
        ⟨fun x hx => hsimple.loop x (List.mem_append_left _ hx), hpair.1⟩
      obtain ⟨hw, hl⟩ := hpos link (by simp)
      have hloop : link.conn.n0 ≠ link.conn.n1 := hsimple.loop link (by simp)
      -- no earlier link has the ends of the new one
      have hne : ∀ x ∈ links, link.conn.ends ≠ (x.conn.n0, x.conn.n1) ∧
          link.conn.ends ≠ (x.conn.n1, x.conn.n0) := by
        intro x hx
        have h := hpair.2.2 x hx link (List.mem_singleton_self _)
        refine ⟨fun he => h (Or.inl ?_), fun he => h (Or.inr ?_)⟩
        · exact he.symm
        · exact (congrArg Prod.swap he).symm
      obtain ⟨hl₁, hl₂, hl₃⟩ := setAt_pair dijk.levels hloop link.level0 link.level1
      obtain ⟨hm₁, hm₂, hm₃⟩ := setAt_pair dijk.metrics hloop link.conn.len link.conn.len
      obtain ⟨hw₁, hw₂, hw₃⟩ := setAt_pair dijk.width hloop link.conn.width link.conn.width
      refine ⟨dijkstraSetLink dijk link, ?_, ⟨hnet.numNodes, hnet.numLevels, ?_, ?_, ?_, ?_, ?_⟩,
        ⟨hfresh.dist, hfresh.prev, hfresh.reached⟩⟩
      · rw [dijkstraSetup, List.foldlM_append]
        rw [dijkstraSetup] at hrun
        simp only [hrun, bind, Except.bind, List.foldlM_cons, List.foldlM_nil, dijkstraSetupLink,
          hw, hl, decide_true, cAssert_true, pure, Except.pure]
      · intro x hx
        rcases List.mem_append.1 hx with hx | hx
        · exact (hl₃ _ _ (hne x hx).1 (hne x hx).2).trans (hnet.level0 x hx)
        · rw [List.mem_singleton] at hx
          exact hx ▸ hl₁
      · intro x hx
        rcases List.mem_append.1 hx with hx | hx
        · exact (hl₃ _ _ (hne x hx).2 (hne x hx).1).trans (hnet.level1 x hx)
        · rw [List.mem_singleton] at hx
          exact hx ▸ hl₂
      · intro x hx
        rcases List.mem_append.1 hx with hx | hx
        · exact ⟨(hm₃ _ _ (hne x hx).1 (hne x hx).2).trans (hnet.metric x hx).1,
            (hm₃ _ _ (hne x hx).2 (hne x hx).1).trans (hnet.metric x hx).2⟩
        · rw [List.mem_singleton] at hx
          subst hx
          exact ⟨hm₁, hm₂⟩
      · intro x hx
        rcases List.mem_append.1 hx with hx | hx
        · exact ⟨(hw₃ _ _ (hne x hx).1 (hne x hx).2).trans (hnet.width x hx).1,
            (hw₃ _ _ (hne x hx).2 (hne x hx).1).trans (hnet.width x hx).2⟩
        · rw [List.mem_singleton] at hx
          subst hx
          exact ⟨hw₁, hw₂⟩
      · intro u v h
        obtain ⟨h₁, h₂⟩ := h link (by simp)
        exact (hl₃ u v h₁ h₂).trans
          (hnet.absent u v fun x hx => h x (List.mem_append_left _ hx))

/-- Setting up fails its assertion when a width or a length is not positive. -/
theorem dijkstraSetup_error {links : List RouterGraphLink} (dijk : LeveledDijkstra)
    (h : ¬ ∀ link ∈ links, 0 < link.conn.width ∧ 0 < link.conn.len) :
    dijkstraSetup dijk links = Except.error Abort.assertion := by
  induction links generalizing dijk with
  | nil => exact absurd (by simp) h
  | cons link links ih =>
      rw [dijkstraSetup, List.foldlM_cons, dijkstraSetupLink]
      by_cases hw : 0 < link.conn.width
      · by_cases hl : 0 < link.conn.len
        · have hrest : ¬ ∀ x ∈ links, 0 < x.conn.width ∧ 0 < x.conn.len := by
            intro hall
            refine h fun x hx => ?_
            rcases List.mem_cons.1 hx with rfl | hx
            · exact ⟨hw, hl⟩
            · exact hall x hx
          simp only [hw, hl, decide_true, cAssert_true, bind, Except.bind]
          exact ih _ hrest
        · simp [hw, hl, bind, Except.bind]
      · simp [hw, bind, Except.bind]

/-- The matrix of levels and the levels of the links agree. -/
theorem LeveledDijkstra.Net.levels_eq {links : List RouterGraphLink} {n numLevels : ℕ}
    {dijk : LeveledDijkstra} (h : dijk.Net links n numLevels) {u v : ℕ} (hk : 0 ≤ dijk.levels u v) :
    LinkLevel links u v (dijk.levels u v) := by
  by_contra hno
  have habsent : ∀ link ∈ links, link.conn.ends ≠ (u, v) ∧ link.conn.ends ≠ (v, u) := by
    intro link hl
    refine ⟨fun he => hno ⟨link, hl, Or.inl ?_⟩, fun he => hno ⟨link, hl, Or.inr ?_⟩⟩ <;>
      simp only [OverlayEdge.ends, Prod.mk.injEq] at he <;> obtain ⟨rfl, rfl⟩ := he
    · exact ⟨rfl, rfl, (h.level0 link hl).symm⟩
    · exact ⟨rfl, rfl, (h.level1 link hl).symm⟩
  rw [h.absent u v habsent] at hk
  exact absurd hk (by decide)

theorem LeveledDijkstra.Net.levels_of {links : List RouterGraphLink} {n numLevels : ℕ}
    {dijk : LeveledDijkstra} (h : dijk.Net links n numLevels) {u v : ℕ} {k : ℤ}
    (hk : LinkLevel links u v k) : dijk.levels u v = k := by
  obtain ⟨link, hl, ⟨rfl, rfl, rfl⟩ | ⟨rfl, rfl, rfl⟩⟩ := hk
  · exact h.level0 link hl
  · exact h.level1 link hl

/-- A leveled link has the length of a connection between its ends. -/
theorem LeveledDijkstra.Net.exists_link {links : List RouterGraphLink} {n numLevels : ℕ}
    {dijk : LeveledDijkstra} (h : dijk.Net links n numLevels) {u v : ℕ}
    (hk : 0 ≤ dijk.levels u v) :
    ∃ link ∈ links, dijk.metrics u v = link.conn.len ∧
      ((link.conn.n0 = u ∧ link.conn.n1 = v) ∨ (link.conn.n0 = v ∧ link.conn.n1 = u)) := by
  obtain ⟨link, hl, ⟨rfl, rfl, _⟩ | ⟨rfl, rfl, _⟩⟩ := h.levels_eq hk
  · exact ⟨link, hl, (h.metric link hl).1, Or.inl ⟨rfl, rfl⟩⟩
  · exact ⟨link, hl, (h.metric link hl).2, Or.inr ⟨rfl, rfl⟩⟩

end DLFree

/-
**The collective operations of GXP: `gxp/gxp.c`.**

The GXP processes give every node one stream of lines, with the lines of all nodes in it.  In a
collective operation a node first prints its lines and then scans lines in a loop; the loop ends
after as many lines as all nodes print, or, for the connect-back requests, after as many end markers
as there are nodes.  No line says to which operation it belongs.

A line is the list of its words, and one `fscanf` scans one line; this is what the formats of the
source do on the lines that the same operation prints.

Main definitions:

* `GxpCollective` — the collective operations;
* `gxpLines` — the lines that a node prints;
* `gxpScan`, `gxpRead` — one `fscanf` with what follows it, and the loop around it;
* `gxpRound` — an operation as a round of `Collective`;
* `Collected` — what a node knows after the operation.

Main results:

* `collected_of_lines` — all lines of an operation give the values of all nodes;
* `gxpRead_round` — the loop ends at the last line of the operation, with the values of all nodes;
* `gxpCollectives_separate` — **operations do not mix**.
-/

import DLFree.Collective
import DLFree.Libc
import Mathlib.Algebra.BigOperators.Fin

set_option relaxedAutoImplicit false
set_option autoImplicit false

namespace DLFree

/-! ### The code -/

/-- A word of a line. -/
inductive Word
  | int (i : ℤ)
  | str (s : String)
  | float (q : ℚ)
  deriving DecidableEq, Repr

/-- A line on the GXP stream. -/
abbrev Line := List Word

/-- `GXP_CONNECT_NO`, `GXP_CONNECT_YES`, `GXP_CONNECT_FAIL`. -/
inductive GxpConnect
  | no
  | yes
  | fail
  deriving DecidableEq, Repr

/-- What the collective operations read and write of a node: the fields of `struct gxp_man`, the
`plan` of the `gxp_man_connect` functions and the `avgdist_map` of `gxp_router_run`. -/
structure GxpMan where
  gxpIdx : ℕ
  gxpNumExecs : ℕ
  peerHostnames : ℕ → String
  peerEps : ℕ → String × ℤ
  connMat : ℕ → ℕ → ℤ
  plan : ℕ → GxpConnect
  avgdistMap : ℕ → ℚ

/-- The collective operations: the exchange of hostnames in `gxp_man_init`, `gxp_man_sync`,
`gxp_man_exchange_ports`, `gxp_man_exchange_conn_info`, the connect-back requests of
`gxp_man_connect_locality_aware`, and the average distances of `gxp_router_run`. -/
inductive GxpCollective
  | hostnames
  | sync
  | ports
  | connInfo
  | requests
  | avgdist
  deriving DecidableEq, Repr

/-- What a node prints depends on these values. -/
inductive GxpPrint
  | hostnames (gxpHostname : String)
  | sync
  | ports (addr : String) (myPort : ℤ)
  | connInfo (dist : ℕ → ℤ)
  | requests (idxs : List ℕ)
  | avgdist (avgdist : ℚ)

/-- The operation in which something is printed. -/
def GxpPrint.op : GxpPrint → GxpCollective
  | GxpPrint.hostnames _ => GxpCollective.hostnames
  | GxpPrint.sync => GxpCollective.sync
  | GxpPrint.ports _ _ => GxpCollective.ports
  | GxpPrint.connInfo _ => GxpCollective.connInfo
  | GxpPrint.requests _ => GxpCollective.requests
  | GxpPrint.avgdist _ => GxpCollective.avgdist

/-- A connect-back request: `idx` is asked to connect to `gxpIdx`. -/
def gxpRequestLine (gxpIdx : ℕ) (idx : ℕ) : Line := [Word.int idx, Word.int gxpIdx]

/-- The end marker of the requests. -/
def gxpEndMarker (gxpIdx : ℕ) : Line := [Word.int (-1), Word.int gxpIdx]

/-- The lines that the node `gxpIdx` of `n` prints. -/
def gxpLines (n gxpIdx : ℕ) : GxpPrint → List Line
  | GxpPrint.hostnames gxpHostname => [[Word.int gxpIdx, Word.str gxpHostname]]
  | GxpPrint.sync => [[Word.str "GXP_MAN_SYNC"]]
  | GxpPrint.ports addr myPort => [[Word.int gxpIdx, Word.str addr, Word.int myPort]]
  | GxpPrint.connInfo dist =>
      (List.range n).map fun idx : ℕ => [Word.int gxpIdx, Word.int idx, Word.int (dist idx)]
  | GxpPrint.requests idxs => idxs.map (gxpRequestLine gxpIdx) ++ [gxpEndMarker gxpIdx]
  | GxpPrint.avgdist avgdist => [[Word.int gxpIdx, Word.float (printfRound avgdist)]]

/-- An index into an array of `n` elements. -/
def arrayIndex (n : ℕ) (i : ℤ) : Except Abort ℕ :=
  if 0 ≤ i ∧ i < n then Except.ok i.toNat else Except.error Abort.badAccess

/-- The body of the scanning loop.  A line that does not fit the format leaves variables unset. -/
def gxpScan (op : GxpCollective) (man : GxpMan) (line : Line) : Except Abort GxpMan :=
  match op, line with
  | GxpCollective.hostnames, [Word.int peerIdx, Word.str buff] => do
      let i ← arrayIndex man.gxpNumExecs peerIdx
      Except.ok { man with peerHostnames := Function.update man.peerHostnames i buff }
  | GxpCollective.sync, [Word.str buf] => do
      cAssert (buf = "GXP_MAN_SYNC")
      Except.ok man
  | GxpCollective.ports, [Word.int peerIdx, Word.str buff, Word.int peerPort] => do
      let i ← arrayIndex man.gxpNumExecs peerIdx
      Except.ok { man with peerEps := Function.update man.peerEps i (buff, peerPort) }
  | GxpCollective.connInfo, [Word.int srcIdx, Word.int dstIdx, Word.int dist] => do
      let i ← arrayIndex man.gxpNumExecs srcIdx
      let j ← arrayIndex man.gxpNumExecs dstIdx
      Except.ok { man with
        connMat := Function.update man.connMat i (Function.update (man.connMat i) j dist) }
  | GxpCollective.requests, [Word.int srcIdx, Word.int dstIdx] =>
      if srcIdx = man.gxpIdx then do
        let j ← arrayIndex man.gxpNumExecs dstIdx
        Except.ok { man with plan := Function.update man.plan j GxpConnect.yes }
      else Except.ok man
  | GxpCollective.avgdist, [Word.int idx, Word.float avgdist] => do
      let i ← arrayIndex man.gxpNumExecs idx
      Except.ok { man with avgdistMap := Function.update man.avgdistMap i avgdist }
  | _, _ => Except.error Abort.badAccess

/-- What a line adds to the counter of the loop: the requests count their end markers. -/
def gxpCounts : GxpCollective → Line → ℕ
  | GxpCollective.requests, Word.int i :: _ => if i = -1 then 1 else 0
  | GxpCollective.requests, _ => 0
  | _, _ => 1

/-- The number of counted lines of each node. -/
def gxpPerNode (n : ℕ) : GxpCollective → ℕ
  | GxpCollective.connInfo => n
  | _ => 1

/-- The loop: lines are scanned from `rfp` until the counter `i` has reached its bound.  A node that
needs one more line waits for it. -/
def gxpRead (op : GxpCollective) : List Line → GxpMan → ℕ → Except Abort (GxpMan × List Line)
  | [], man, i =>
      if i < man.gxpNumExecs * gxpPerNode man.gxpNumExecs op then Except.error Abort.diverges
      else Except.ok (man, [])
  | line :: rfp, man, i =>
      if i < man.gxpNumExecs * gxpPerNode man.gxpNumExecs op then do
        let man ← gxpScan op man line
        gxpRead op rfp man (i + gxpCounts op line)
      else Except.ok (man, line :: rfp)

/-! ### Operations as rounds -/

/-- What the node `j` of `n` may print in an operation. -/
def GxpWrites (n : ℕ) (op : GxpCollective) (j : ℕ) (w : List Line) : Prop :=
  ∃ p : GxpPrint, p.op = op ∧ w = gxpLines n j p

/-- The counted lines among these. -/
def gxpCount (op : GxpCollective) (w : List Line) : ℕ := (w.map (gxpCounts op)).sum

theorem gxpCount_append (op : GxpCollective) (v w : List Line) :
    gxpCount op (v ++ w) = gxpCount op v + gxpCount op w := by
  simp [gxpCount]

/-- Requests are not counted. -/
theorem gxpCount_requests (gxpIdx : ℕ) (idxs : List ℕ) :
    gxpCount GxpCollective.requests (idxs.map (gxpRequestLine gxpIdx)) = 0 := by
  refine List.sum_eq_zero fun x hx => ?_
  obtain ⟨line, hline, rfl⟩ := List.mem_map.1 hx
  obtain ⟨idx, _, rfl⟩ := List.mem_map.1 hline
  show (if (idx : ℤ) = -1 then 1 else 0) = 0
  rw [if_neg (by omega)]

section Round

variable {n j : ℕ} {op : GxpCollective} {w : List Line}

theorem gxpCount_lines (h : GxpWrites n op j w) : gxpCount op w = gxpPerNode n op := by
  obtain ⟨p, rfl, rfl⟩ := h
  cases p with
  | hostnames gxpHostname => rfl
  | sync => rfl
  | ports addr myPort => rfl
  | connInfo dist => simp [gxpCount, gxpLines, gxpPerNode, GxpPrint.op, gxpCounts, Function.comp_def]
  | requests idxs =>
      show gxpCount GxpCollective.requests (idxs.map (gxpRequestLine j) ++ [gxpEndMarker j]) = 1
      rw [gxpCount_append, gxpCount_requests]
      rfl
  | avgdist avgdist => rfl

/-- The last line that a node prints is counted. -/
theorem gxpCounts_last (h : GxpWrites n op j w) (hne : w ≠ []) : 0 < gxpCounts op (w.getLast hne) := by
  obtain ⟨p, rfl, rfl⟩ := h
  cases p with
  | hostnames gxpHostname => exact Nat.one_pos
  | sync => exact Nat.one_pos
  | ports addr myPort => exact Nat.one_pos
  | connInfo dist => exact Nat.one_pos
  | requests idxs =>
      have hlast : (gxpLines n j (GxpPrint.requests idxs)).getLast hne = gxpEndMarker j :=
        List.getLast_append_of_ne_nil _ (List.cons_ne_nil _ _)
      rw [hlast]
      exact Nat.one_pos
  | avgdist avgdist => exact Nat.one_pos

theorem gxpCount_isPrefix (h : GxpWrites n op j w) {v : List Line} (hv : v <+: w) (hne : v ≠ w) :
    gxpCount op v < gxpPerNode n op := by
  obtain ⟨t, rfl⟩ := hv
  have ht : t ≠ [] := by
    rintro rfl
    exact hne (List.append_nil v).symm
  have hvt : v ++ t ≠ [] := fun h0 => ht (List.append_eq_nil_iff.1 h0).2
  have hlast := gxpCounts_last h hvt
  rw [List.getLast_append_of_ne_nil _ ht] at hlast
  have hle : gxpCounts op (t.getLast ht) ≤ gxpCount op t :=
    List.single_le_sum (fun _ _ => Nat.zero_le _) _ (List.mem_map_of_mem (List.getLast_mem ht))
  have htotal := gxpCount_lines h
  rw [gxpCount_append] at htotal
  omega

end Round

/-- An operation of `n` nodes as a round: the lines are counted until all nodes are through. -/
def gxpRound (n : ℕ) (op : GxpCollective) : Collective.Round (Fin n) Line :=
  Collective.Round.weighted (fun j => GxpWrites n op j) (gxpCounts op) (gxpPerNode n op)
    (fun hn => by cases op <;> first | exact Nat.one_pos | exact hn)
    (fun _ _ => gxpCount_lines) fun _ _ h _ => gxpCount_isPrefix h

/-! ### What an operation collects -/

theorem arrayIndex_of_lt {n i : ℕ} (h : i < n) : arrayIndex n i = Except.ok i := by
  rw [arrayIndex, if_pos ⟨Int.natCast_nonneg i, by omega⟩, Int.toNat_natCast]

/-- What a node knows after an operation in which every node `j` has printed `prints j`. -/
def Collected (n : ℕ) (prints : ℕ → GxpPrint) (man man' : GxpMan) : Prop :=
  ∀ j < n, match prints j with
    | GxpPrint.hostnames gxpHostname => man'.peerHostnames j = gxpHostname
    | GxpPrint.sync => True
    | GxpPrint.ports addr myPort => man'.peerEps j = (addr, myPort)
    | GxpPrint.connInfo dist => ∀ idx < n, man'.connMat j idx = dist idx
    | GxpPrint.requests idxs =>
        man'.plan j = if man.gxpIdx ∈ idxs then GxpConnect.yes else man.plan j
    | GxpPrint.avgdist avgdist => man'.avgdistMap j = printfRound avgdist

/-- The lines of one operation: every line is one that its node prints, and every line that a node
prints is there. -/
structure GxpLines (n : ℕ) (op : GxpCollective) (prints : ℕ → GxpPrint) (l : List Line) : Prop where
  op : ∀ j < n, (prints j).op = op
  sound : ∀ line ∈ l, ∃ j < n, line ∈ gxpLines n j (prints j)
  complete : ∀ j < n, ∀ line ∈ gxpLines n j (prints j), line ∈ l

/-- A node keeps its index and the number of nodes. -/
def GxpMan.Is (n gxpIdx : ℕ) (man : GxpMan) : Prop :=
  man.gxpNumExecs = n ∧ man.gxpIdx = gxpIdx

section Scan

variable {n gxpIdx j k : ℕ} {p : GxpPrint} {man man' : GxpMan} {line : Line}

/-- What scanning one line of the node `k` does. -/
def Scanned (k : ℕ) (line : Line) (man man' : GxpMan) : GxpPrint → Prop
  | GxpPrint.hostnames gxpHostname =>
      man' = { man with peerHostnames := Function.update man.peerHostnames k gxpHostname }
  | GxpPrint.sync => man' = man
  | GxpPrint.ports addr myPort =>
      man' = { man with peerEps := Function.update man.peerEps k (addr, myPort) }
  | GxpPrint.connInfo dist => ∃ idx : ℕ,
      line = [Word.int k, Word.int idx, Word.int (dist idx)] ∧
      man' = { man with
        connMat := Function.update man.connMat k (Function.update (man.connMat k) idx (dist idx)) }
  | GxpPrint.requests idxs =>
      (man' = man ∧ line ≠ gxpRequestLine k man.gxpIdx) ∨
      (line = gxpRequestLine k man.gxpIdx ∧ man.gxpIdx ∈ idxs ∧
        man' = { man with plan := Function.update man.plan k GxpConnect.yes })
  | GxpPrint.avgdist avgdist =>
      man' = { man with avgdistMap := Function.update man.avgdistMap k (printfRound avgdist) }

/-- Every line fits the format of its operation. -/
theorem gxpScan_line (hman : man.gxpNumExecs = n) (hk : k < n) (hline : line ∈ gxpLines n k p) :
    ∃ man', gxpScan p.op man line = Except.ok man' ∧ Scanned k line man man' p := by
  subst hman
  have hidx := arrayIndex_of_lt hk
  cases p with
  | hostnames gxpHostname =>
      obtain rfl := List.mem_singleton.1 hline
      exact ⟨_, by simp only [gxpScan, GxpPrint.op, hidx, ok_bind], rfl⟩
  | sync =>
      obtain rfl := List.mem_singleton.1 hline
      exact ⟨_, by simp only [gxpScan, GxpPrint.op, decide_true, cAssert_true, ok_bind], rfl⟩
  | ports addr myPort =>
      obtain rfl := List.mem_singleton.1 hline
      exact ⟨_, by simp only [gxpScan, GxpPrint.op, hidx, ok_bind], rfl⟩
  | connInfo dist =>
      obtain ⟨idx, hlt, rfl⟩ := List.mem_map.1 hline
      have hidx' := arrayIndex_of_lt (List.mem_range.1 hlt)
      exact ⟨_, by simp only [gxpScan, GxpPrint.op, hidx, hidx', ok_bind], idx, rfl, rfl⟩
  | requests idxs =>
      rcases List.mem_append.1 hline with hline | hline
      · obtain ⟨idx, hmem, rfl⟩ := List.mem_map.1 hline
        by_cases hme : idx = man.gxpIdx
        · subst hme
          exact ⟨_, by simp only [gxpScan, GxpPrint.op, gxpRequestLine, if_true, hidx, ok_bind],
            Or.inr ⟨rfl, hmem, rfl⟩⟩
        · have hne : ¬ (idx : ℤ) = man.gxpIdx := by omega
          refine ⟨man, by simp only [gxpScan, GxpPrint.op, gxpRequestLine, if_neg hne],
            Or.inl ⟨rfl, ?_⟩⟩
          intro h
          simp only [gxpRequestLine, List.cons.injEq, Word.int.injEq] at h
          exact hne h.1
      · obtain rfl := List.mem_singleton.1 hline
        have hne : ¬ (-1 : ℤ) = man.gxpIdx := by omega
        refine ⟨man, by simp only [gxpScan, GxpPrint.op, gxpEndMarker, if_neg hne],
          Or.inl ⟨rfl, ?_⟩⟩
        intro h
        simp only [gxpRequestLine, gxpEndMarker, List.cons.injEq, Word.int.injEq] at h
        exact hne h.1
  | avgdist avgdist =>
      obtain rfl := List.mem_singleton.1 hline
      exact ⟨_, by simp only [gxpScan, GxpPrint.op, hidx, ok_bind], rfl⟩

theorem Scanned.is (h : Scanned k line man man' p) (hman : man.Is n gxpIdx) :
    man'.Is n gxpIdx := by
  cases p with
  | hostnames gxpHostname => cases h; exact hman
  | sync => cases h; exact hman
  | ports addr myPort => cases h; exact hman
  | connInfo dist =>
      obtain ⟨idx, _, rfl⟩ := h
      exact hman
  | requests idxs =>
      rcases h with ⟨rfl, _⟩ | ⟨_, _, rfl⟩
      · exact hman
      · exact hman
  | avgdist avgdist => cases h; exact hman

end Scan

section Collect

variable {n gxpIdx : ℕ} {op : GxpCollective} {prints : ℕ → GxpPrint} {l : List Line}
  {man man' : GxpMan}

theorem gxpScan_cases (h : GxpLines n op prints l) {line : Line} (hline : line ∈ l)
    (hman : man.Is n gxpIdx) (hscan : gxpScan op man line = Except.ok man') :
    ∃ k < n, line ∈ gxpLines n k (prints k) ∧ Scanned k line man man' (prints k) := by
  obtain ⟨k, hk, hmem⟩ := h.sound line hline
  obtain ⟨man₁, h₁, hscanned⟩ := gxpScan_line hman.1 hk hmem
  rw [h.op k hk, hscan] at h₁
  obtain rfl := Except.ok.inj h₁
  exact ⟨k, hk, hmem, hscanned⟩

/-- The scan of a line of `j` does what it does for `j`. -/
theorem gxpScan_own (h : GxpLines n op prints l) {j : ℕ} (hj : j < n) {line : Line}
    (hline : line ∈ gxpLines n j (prints j)) (hman : man.Is n gxpIdx)
    (hscan : gxpScan op man line = Except.ok man') : Scanned j line man man' (prints j) := by
  obtain ⟨man₁, h₁, hscanned⟩ := gxpScan_line hman.1 hj hline
  rw [h.op j hj, hscan] at h₁
  obtain rfl := Except.ok.inj h₁
  exact hscanned

/-- **All lines of an operation are scanned without an error.** -/
theorem gxpScan_all (h : GxpLines n op prints l) (hman : man.Is n gxpIdx) :
    ∃ man', l.foldlM (gxpScan op) man = Except.ok man' ∧ man'.Is n gxpIdx := by
  refine foldlM_total (fun line hline man hman => ?_) hman
  obtain ⟨k, hk, hmem⟩ := h.sound line hline
  obtain ⟨man₁, h₁, hscanned⟩ := gxpScan_line hman.1 hk hmem
  rw [h.op k hk] at h₁
  exact ⟨man₁, h₁, hscanned.is hman⟩

/-- What the lines of `j` set, and the lines of the other nodes leave alone, is set in the end. -/
theorem gxpScan_sets (h : GxpLines n op prints l) (hman : man.Is n gxpIdx)
    (hread : l.foldlM (gxpScan op) man = Except.ok man') {γ : Type} {g : GxpMan → γ} {v : γ}
    (hkeep : ∀ k < n, ∀ (line : Line) (m m' : GxpMan), m.Is n gxpIdx →
      Scanned k line m m' (prints k) → g m' = v ∨ g m' = g m)
    (hset : g man = v ∨ ∃ j < n, ∃ line ∈ gxpLines n j (prints j), ∀ m m' : GxpMan,
      m.Is n gxpIdx → Scanned j line m m' (prints j) → g m' = v) : g man' = v := by
  refine foldlM_sets (I := GxpMan.Is n gxpIdx) (fun line hline m m' hm hscan => ?_)
    (fun line hline m m' hm hscan => ?_) hman ?_ hread
  · obtain ⟨k, _, _, hscanned⟩ := gxpScan_cases h hline hm hscan
    exact hscanned.is hm
  · obtain ⟨k, hk, _, hscanned⟩ := gxpScan_cases h hline hm hscan
    exact hkeep k hk line m m' hm hscanned
  · refine hset.imp id ?_
    rintro ⟨j, hj, line, hline, hv⟩
    exact ⟨line, h.complete j hj line hline,
      fun m m' hm hscan => hv m m' hm (gxpScan_own h hj hline hm hscan)⟩

/-- An array in which the line of a node sets the element of this node holds the values of all nodes
in the end. -/
theorem gxpScan_keyed (h : GxpLines n op prints l) (hman : man.Is n gxpIdx)
    (hread : l.foldlM (gxpScan op) man = Except.ok man') {γ : Type} {g : GxpMan → ℕ → γ}
    {f : ℕ → γ}
    (hscan : ∀ k < n, ∀ (line : Line) (m m' : GxpMan), Scanned k line m m' (prints k) →
      g m' = Function.update (g m) k (f k))
    {j : ℕ} (hj : j < n) {line : Line} (hline : line ∈ gxpLines n j (prints j)) :
    g man' j = f j := by
  refine gxpScan_sets h hman hread (g := fun m => g m j) ?_ (Or.inr ⟨j, hj, line, hline, ?_⟩)
  · intro k hk line' m m' _ hs
    rw [hscan k hk line' m m' hs]
    by_cases hkj : j = k
    · subst hkj
      exact Or.inl (Function.update_self _ _ _)
    · exact Or.inr (Function.update_of_ne hkj _ _)
  · intro m m' _ hs
    rw [hscan j hj line m m' hs]
    exact Function.update_self _ _ _

/-- **After an operation a node knows the values of all nodes.** -/
theorem collected_of_lines (h : GxpLines n op prints l) (hman : man.Is n gxpIdx)
    (hread : l.foldlM (gxpScan op) man = Except.ok man') : Collected n prints man man' := by
  intro j hj
  have hop : ∀ k < n, (prints k).op = (prints j).op := fun k hk => (h.op k hk).trans (h.op j hj).symm
  cases hp : prints j with
  | hostnames gxpHostname =>
      have hval := gxpScan_keyed h hman hread (g := GxpMan.peerHostnames)
        (f := fun k => match prints k with
          | GxpPrint.hostnames gxpHostname => gxpHostname
          | _ => "")
        (fun k hk line m m' hs => by
          have hopk := hop k hk
          rw [hp] at hopk
          cases hpk : prints k <;> rw [hpk] at hopk hs <;> cases hopk
          cases hs
          rfl)
        hj (by rw [hp]; exact List.mem_singleton_self _)
      simpa only [hp] using hval
  | sync => trivial
  | ports addr myPort =>
      have hval := gxpScan_keyed h hman hread (g := GxpMan.peerEps)
        (f := fun k => match prints k with
          | GxpPrint.ports addr myPort => (addr, myPort)
          | _ => ("", 0))
        (fun k hk line m m' hs => by
          have hopk := hop k hk
          rw [hp] at hopk
          cases hpk : prints k <;> rw [hpk] at hopk hs <;> cases hopk
          cases hs
          rfl)
        hj (by rw [hp]; exact List.mem_singleton_self _)
      simpa only [hp] using hval
  | connInfo dist =>
      intro idx hidx
      refine gxpScan_sets h hman hread (g := fun m => m.connMat j idx) ?_
        (Or.inr ⟨j, hj, [Word.int j, Word.int idx, Word.int (dist idx)], ?_, ?_⟩)
      · intro k hk line m m' _ hs
        have hopk := hop k hk
        rw [hp] at hopk
        by_cases hkj : k = j
        · subst hkj
          rw [hp] at hs
          obtain ⟨idx', _, rfl⟩ := hs
          by_cases hi : idx' = idx
          · subst hi
            exact Or.inl (by simp)
          · exact Or.inr (by simp [Ne.symm hi])
        · cases hpk : prints k <;> rw [hpk] at hopk hs <;> cases hopk
          obtain ⟨idx', _, rfl⟩ := hs
          exact Or.inr (by simp [Ne.symm hkj])
      · rw [hp]
        exact List.mem_map.2 ⟨idx, List.mem_range.2 hidx, rfl⟩
      · intro m m' _ hs
        rw [hp] at hs
        obtain ⟨idx', hline, rfl⟩ := hs
        simp only [List.cons.injEq, Word.int.injEq, Nat.cast_inj] at hline
        obtain ⟨_, rfl, _⟩ := hline
        simp
  | requests idxs =>
      have hme : ∀ m : GxpMan, m.Is n gxpIdx → m.gxpIdx = man.gxpIdx := fun m hm =>
        hm.2.trans hman.2.symm
      show man'.plan j = if man.gxpIdx ∈ idxs then GxpConnect.yes else man.plan j
      by_cases hin : man.gxpIdx ∈ idxs
      · rw [if_pos hin]
        refine gxpScan_sets h hman hread (g := fun m => m.plan j) ?_
          (Or.inr ⟨j, hj, gxpRequestLine j man.gxpIdx, ?_, ?_⟩)
        · intro k hk line m m' _ hs
          have hopk := hop k hk
          rw [hp] at hopk
          cases hpk : prints k <;> rw [hpk] at hopk hs <;> cases hopk
          rcases hs with ⟨rfl, _⟩ | ⟨_, _, rfl⟩
          · exact Or.inr rfl
          · by_cases hkj : k = j
            · subst hkj
              exact Or.inl (by simp)
            · exact Or.inr (by simp [Ne.symm hkj])
        · rw [hp]
          exact List.mem_append_left _ (List.mem_map_of_mem hin)
        · intro m m' hm hs
          rw [hp] at hs
          rcases hs with ⟨_, hne⟩ | ⟨_, _, rfl⟩
          · exact absurd (by rw [hme m hm]) hne
          · simp
      · -- nobody else's request names `j`
        rw [if_neg hin]
        refine gxpScan_sets h hman hread (g := fun m => m.plan j) ?_ (Or.inl rfl)
        intro k hk line m m' hm hs
        have hopk := hop k hk
        rw [hp] at hopk
        cases hpk : prints k <;> rw [hpk] at hopk hs <;> cases hopk
        rcases hs with ⟨rfl, _⟩ | ⟨_, hmem, rfl⟩
        · exact Or.inr rfl
        · have hkj : k ≠ j := by
            rintro rfl
            rw [hp] at hpk
            cases hpk
            exact hin (hme m hm ▸ hmem)
          exact Or.inr (by simp [Ne.symm hkj])
  | avgdist avgdist =>
      have hval := gxpScan_keyed h hman hread (g := GxpMan.avgdistMap)
        (f := fun k => match prints k with
          | GxpPrint.avgdist avgdist => printfRound avgdist
          | _ => 0)
        (fun k hk line m m' hs => by
          have hopk := hop k hk
          rw [hp] at hopk
          cases hpk : prints k <;> rw [hpk] at hopk hs <;> cases hopk
          cases hs
          rfl)
        hj (by rw [hp]; exact List.mem_singleton_self _)
      simpa only [hp] using hval

/-- The loop scans the lines up to the one with which the counter reaches its bound. -/
theorem gxpRead_append {i : ℕ} (rest : List Line) (h : l.foldlM (gxpScan op) man = Except.ok man')
    (hscan : ∀ line ∈ l, ∀ m m', m.Is n gxpIdx → gxpScan op m line = Except.ok m' → m'.Is n gxpIdx)
    (hman : man.Is n gxpIdx)
    (hgo : ∀ v, v <+: l → v ≠ l → i + gxpCount op v < n * gxpPerNode n op)
    (hstop : n * gxpPerNode n op ≤ i + gxpCount op l) :
    gxpRead op (l ++ rest) man i = Except.ok (man', rest) := by
  induction l generalizing man i with
  | nil =>
      cases h
      have hle : ¬ i < man'.gxpNumExecs * gxpPerNode man'.gxpNumExecs op := by
        rw [hman.1]
        exact not_lt.2 hstop
      cases rest with
      | nil => exact if_neg hle
      | cons line rest => exact if_neg hle
  | cons line l ih =>
      rw [List.foldlM_cons] at h
      obtain ⟨man₁, h₁, h⟩ := bind_eq_ok.1 h
      have hcount : ∀ v, gxpCount op (line :: v) = gxpCounts op line + gxpCount op v :=
        fun v => List.sum_cons
      have hlt : i < man.gxpNumExecs * gxpPerNode man.gxpNumExecs op := by
        have := hgo [] List.nil_prefix (List.cons_ne_nil _ _).symm
        rw [hman.1]
        exact this
      rw [List.cons_append, gxpRead, if_pos hlt, h₁, ok_bind]
      refine ih h (fun x hx => hscan x (List.mem_cons_of_mem _ hx))
        (hscan line List.mem_cons_self man man₁ hman h₁) (fun v hv hne => ?_) ?_
      · have := hgo (line :: v) (List.cons_prefix_cons.2 ⟨rfl, hv⟩) fun h' => hne (List.cons.inj h').2
        rw [hcount] at this
        omega
      · rw [hcount] at hstop
        omega

end Collect

/-! ### Runs -/

section Run

open Collective

variable {n : ℕ} {prog : List GxpCollective} {op : GxpCollective} {k : ℕ}
  {got : List (Post (Fin n) Line)}

/-- What the nodes print, when `got` holds all lines of an operation. -/
theorem gxpLines_of_round (hk : ∀ p ∈ got, p.round = k) {prints : ℕ → GxpPrint}
    (hop : ∀ j < n, (prints j).op = op)
    (hall : ∀ j : Fin n, linesOf j k got = gxpLines n j (prints j)) :
    GxpLines n op prints (got.map Post.line) where
  op := hop
  sound line hline := by
    obtain ⟨p, hp, rfl⟩ := List.mem_map.1 hline
    refine ⟨p.writer, p.writer.isLt, ?_⟩
    rw [← hall]
    exact hk p hp ▸ line_mem_linesOf hp
  complete j hj line hline := by
    rw [← hall ⟨j, hj⟩] at hline
    obtain ⟨p, hp, rfl⟩ := List.mem_map.1 hline
    exact List.mem_map_of_mem (List.mem_filter.1 hp).1

/-- **The loop of an operation scans exactly its lines**, whatever follows them, and ends with the
values of all nodes. -/
theorem gxpRead_round (hk : ∀ p ∈ got, p.round = k) {prints : ℕ → GxpPrint}
    (hop : ∀ j < n, (prints j).op = op)
    (hall : ∀ j : Fin n, linesOf j k got = gxpLines n j (prints j)) {man : GxpMan} {gxpIdx : ℕ}
    (hman : man.Is n gxpIdx) (rest : List Line) :
    ∃ man', gxpRead op (got.map Post.line ++ rest) man 0 = Except.ok (man', rest) ∧
      man'.Is n gxpIdx ∧ Collected n prints man man' := by
  have hlines := gxpLines_of_round hk hop hall
  obtain ⟨man', hread, hman'⟩ := gxpScan_all hlines hman
  have hwrites : ∀ j : Fin n, (gxpRound n op).writes j (linesOf j k got) := fun j =>
    ⟨prints j, hop j j.isLt, hall j⟩
  have hgo : ∀ v, v <+: got.map Post.line → v ≠ got.map Post.line →
      0 + gxpCount op v < n * gxpPerNode n op := by
    intro v hv hne
    rw [Nat.zero_add]
    obtain ⟨pre, hpre, rfl⟩ := List.prefix_map_iff.1 hv
    exact not_le.1 ((gxpRound n op).go_on hk hwrites hpre fun h => hne (by rw [h]))
  have hstop : n * gxpPerNode n op ≤ 0 + gxpCount op (got.map Post.line) := by
    rw [Nat.zero_add]
    exact (gxpRound n op).stop_of_all hk hwrites
  refine ⟨man', gxpRead_append rest hread (fun line hline m m' hm hs => ?_) hman hgo hstop, hman',
    collected_of_lines hlines hman hread⟩
  obtain ⟨j, _, _, hscanned⟩ := gxpScan_cases hlines hline hm hs
  exact hscanned.is hm

/-- The programs of nodes that call the operations `prog`. -/
def gxpProgram (n : ℕ) (prog : List GxpCollective) : List (Round (Fin n) Line) :=
  prog.map (gxpRound n)

/-- In their `k`-th operation the nodes have printed `prints`: all their lines of it stand in the
common order. -/
structure PrintedCollective (n : ℕ) (s : State (Fin n) Line) (k : ℕ) (prints : ℕ → GxpPrint) :
    Prop where
  entered : ∀ j : Fin n, (s.member j).chosen[k]? = some (gxpLines n j (prints j))
  printed : ∀ j : Fin n, linesOf j k s.wire = gxpLines n j (prints j)
  flushed : ∀ j : Fin n, linesOf j k (s.pipe j) = [] ∧
    (k = (s.member j).round → (s.member j).toWrite = [])

/-- Once a node has left an operation, all nodes have printed all their lines of it. -/
theorem printed_of_left {s : State (Fin n) Line} (hok : Ok (gxpProgram n prog) s) {i : Fin n}
    (hk : k < (s.member i).round) :
    ∃ op prints, prog[k]? = some op ∧ (∀ j < n, (prints j).op = op) ∧
      PrintedCollective n s k prints := by
  obtain ⟨r, hr, hall⟩ := hok.complete i k hk
  rw [gxpProgram, List.getElem?_map, Option.map_eq_some_iff] at hr
  obtain ⟨op, hop, rfl⟩ := hr
  choose print hprint hlines using hall
  let prints : ℕ → GxpPrint := fun j => if hj : j < n then print ⟨j, hj⟩ else GxpPrint.sync
  have hprinted : ∀ j : Fin n, linesOf j k s.wire = gxpLines n j (prints j) := fun j => by
    rw [show prints j = print j from dif_pos j.isLt]
    exact hlines j
  refine ⟨op, prints, hop, fun j hj => ?_, ⟨fun j => ?_, hprinted, fun j => (hok.written hk j).2⟩⟩
  · rw [show prints j = print ⟨j, hj⟩ from dif_pos hj]
    exact hprint ⟨j, hj⟩
  · rw [(hok.written hk j).1, hprinted]

/-- What a node has scanned of the operation it is in fits the formats. -/
theorem gxpScan_got {s : State (Fin n) Line} (hok : Ok (gxpProgram n prog) s) {i : Fin n}
    (hop : prog[(s.member i).round]? = some op) {man : GxpMan} (hman : man.Is n i) :
    ∃ man', ((s.member i).got.map Post.line).foldlM (gxpScan op) man = Except.ok man' ∧
      man'.Is n i := by
  refine foldlM_total (fun line hline m hm => ?_) hman
  obtain ⟨p, hp, rfl⟩ := List.mem_map.1 hline
  have hr : (gxpProgram n prog)[(s.member i).round]? = some (gxpRound n op) := by
    rw [gxpProgram, List.getElem?_map, hop, Option.map_some]
  have hmem := hok.got_round hp ▸ line_mem_linesOf hp
  rcases hok.got_linesOf hr p.writer with h0 | ⟨w, ⟨print, hprint, rfl⟩, hpre⟩
  · rw [h0] at hmem
    cases hmem
  · obtain ⟨man₁, h₁, hscanned⟩ := gxpScan_line hm.1 p.writer.isLt (hpre.subset hmem)
    rw [hprint] at h₁
    exact ⟨man₁, h₁, hscanned.is hm⟩

/-- **Collective operations do not mix.**  In every reachable state, once some node has left its
`k`-th operation, all nodes have printed all their lines of it; every node that has left it has
scanned exactly these lines, its loop ended at the last of them without an error, and it knows the
values of all nodes.  A node in its `k`-th operation has scanned only lines of the `k`-th
operation, all of which fit. -/
theorem gxpCollectives_separate {s : State (Fin n) Line} (h : Reachable (gxpProgram n prog) s) :
    (∀ k, (∃ i, k < (s.member i).round) → ∃ op prints, prog[k]? = some op ∧
      (∀ j < n, (prints j).op = op) ∧ PrintedCollective n s k prints ∧
      ∀ i, k < (s.member i).round → (s.member i).log[k]? = some (ofRound k s.wire) ∧
        ∀ man : GxpMan, man.Is n i → ∀ rest : List Line, ∃ man' : GxpMan,
          gxpRead op ((ofRound k s.wire).map Post.line ++ rest) man 0 = Except.ok (man', rest) ∧
          man'.Is n i ∧ Collected n prints man man') ∧
    ∀ i, (s.member i).got <+: ofRound (s.member i).round s.wire ∧
      ∀ op, prog[(s.member i).round]? = some op → ∀ man : GxpMan, man.Is n i → ∃ man',
        ((s.member i).got.map Post.line).foldlM (gxpScan op) man = Except.ok man' := by
  have hok := ok_of_reach h
  constructor
  · rintro k ⟨i, hk⟩
    obtain ⟨op, prints, hop, hprints, hprinted⟩ := printed_of_left hok hk
    refine ⟨op, prints, hop, hprints, hprinted, fun i hk => ⟨hok.log_eq hk, fun man hman rest => ?_⟩⟩
    refine gxpRead_round (fun p hp => (mem_ofRound.1 hp).2) hprints (fun j => ?_) hman rest
    rw [linesOf_ofRound]
    exact hprinted.printed j
  · refine fun i => ⟨(hok.member i).got, fun op hop man hman => ?_⟩
    obtain ⟨man', hread, _⟩ := gxpScan_got hok hop hman
    exact ⟨man', hread⟩

/-- Two nodes call `gxp_man_sync`, and the first one has left it. -/
theorem gxpSync_left : ∃ s : State (Fin 2) Line,
    Reachable (gxpProgram 2 [GxpCollective.sync]) s ∧ (s.member 0).round = 1 := by
  have hr : (gxpProgram 2 [GxpCollective.sync])[0]? = some (gxpRound 2 GxpCollective.sync) := rfl
  have hw : ∀ j : Fin 2, (gxpRound 2 GxpCollective.sync).writes j [[Word.str "GXP_MAN_SYNC"]] :=
    fun j => ⟨GxpPrint.sync, rfl, rfl⟩
  have h0 : Reachable (gxpProgram 2 [GxpCollective.sync]) State.initial :=
    TransitionRun.Reach.init rfl
  have h1 := h0.step (Step.enter (i := 0) rfl hr (hw 0))
  have h2 := h1.step (Step.enter (i := 1) rfl hr (hw 1))
  have h3 := h2.step (Step.write (i := 0) rfl)
  have h4 := h3.step (Step.write (i := 1) rfl)
  have h5 := h4.step (Step.post (i := 1) rfl)
  have h6 := h5.step (Step.post (i := 0) rfl)
  have h7 := h6.step (Step.read (i := 0) rfl rfl hr
    (fun h => absurd (show 2 ≤ 0 from h) (by omega)) rfl)
  have h8 := h7.step (Step.read (i := 0) rfl rfl hr
    (fun h => absurd (show 2 ≤ 1 from h) (by omega)) rfl)
  exact ⟨_, h8.step (Step.leave (i := 0) rfl rfl hr (show 2 ≤ 2 from le_rfl)), rfl⟩

theorem gxpCollectives_separate_sync : ∃ s : State (Fin 2) Line, (s.member 0).round = 1 ∧
    ∃ prints, PrintedCollective 2 s 0 prints ∧ (s.member 0).log[0]? = some (ofRound 0 s.wire) := by
  obtain ⟨s, hs, h0⟩ := gxpSync_left
  obtain ⟨_, prints, _, _, hprinted, hleft⟩ :=
    (gxpCollectives_separate hs).1 0 ⟨0, by rw [h0]; exact Nat.one_pos⟩
  exact ⟨s, h0, prints, hprinted, (hleft 0 (by rw [h0]; exact Nat.one_pos)).1⟩

end Run

end DLFree

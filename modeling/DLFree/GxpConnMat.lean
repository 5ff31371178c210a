/-
**The matrix of connections and its readers: `gxp_man_exchange_conn_info`.**

After the planned connections have been tried, every node prints a line for each node: the
round-trip time in microseconds of a connection that it has made, and `GXP_NO_RTT` otherwise.  The
lines of all nodes fill `conn_mat`.  Three loops read the matrix: one counts the connections that
were made, one counts them by cluster, and the router adds them to the overlay.

`GXP_NO_RTT` is -1, and only two of the loops test for it.  The third takes every entry but 0 for a
connection, as the comment at `conn_mat` has it.

Main definitions:

* `gxpConnectWait`, `gxpConnDist`, `gxpManExchangeConnInfo` — from the plan to the matrix;
* `gxpNconns`, `gxpManConnStats` — the loops that count;
* `ConnMatAgrees` — the comment at the matrix, and its readers agree.

Main results:

* `gxpManExchangeConnInfo_spec` — what the matrix holds;
* `connMat_readers` — what each of the readers takes for a connection;
* `connMat_disagrees` — **no matrix of a node meets its comment with all readers in agreement**.
-/

import DLFree.GxpConnect

set_option relaxedAutoImplicit false
set_option autoImplicit false

namespace DLFree

/-! ### The code -/

/-- The loop of `gxp_man_connect` over the planned connections; `made idx` is whether
`dlfree_comm_node_connect_wait` returns 0. -/
def gxpConnectWait (n : ℕ) (made : ℕ → Bool) (plan : ℕ → GxpConnect) : ℕ → GxpConnect :=
  (List.range n).foldl
    (fun plan idx =>
      if plan idx = GxpConnect.yes then
        if made idx then plan else Function.update plan idx GxpConnect.fail
      else plan)
    plan

/-- What `gxp_man_exchange_conn_info` prints for the node `idx`.  The product is exact here; the
source multiplies `double`s, which rounds it before the conversion to `int`. -/
def gxpConnDist (plan : ℕ → GxpConnect) (rtt : ℕ → ℚ) (idx : ℕ) : ℤ :=
  if plan idx = GxpConnect.yes then truncToInt (rtt idx * 10 ^ 6) else gxpNoRtt

/-- The loop of `gxp_man_exchange_conn_info` that counts the connections. -/
def gxpNconns (n : ℕ) (connMat : ℕ → ℕ → ℤ) : ℕ :=
  (upperPairs n).foldl
    (fun nconns p => if connMat p.1 p.2 ≠ gxpNoRtt then nconns + 1 else nconns) 0

/-- `gxp_man_exchange_conn_info` after the printing: the number of connections, which the first node
prints, and the node with its matrix. -/
def gxpManExchangeConnInfo (man : GxpMan) (rfp : List Line) :
    Except Abort (ℕ × GxpMan × List Line) := do
  let (man, rfp) ← gxpRead GxpCollective.connInfo rfp man 0
  Except.ok (gxpNconns man.gxpNumExecs man.connMat, man, rfp)

/-- `GXP_CLUSTER_NAME_PREFIX`. -/
def gxpClusterNamePrefix : ℤ := 5

/-- The counters of `gxp_man_conn_stats`. -/
structure GxpConnStats where
  intraC : ℕ
  interC : ℕ
  total : ℕ
  deriving DecidableEq, Repr

/-- `gxp_man_conn_stats`. -/
def gxpManConnStats (names : ℕ → String) (n : ℕ) (connMat : ℕ → ℕ → ℤ) : GxpConnStats :=
  (upperPairs n).foldl
    (fun s p =>
      if connMat p.1 p.2 ≠ 0 then
        if gxpManSameCluster names p.1 p.2 gxpClusterNamePrefix then
          { s with intraC := s.intraC + 1, total := s.total + 1 }
        else { s with interC := s.interC + 1, total := s.total + 1 }
      else s)
    ⟨0, 0, 0⟩

/-! ### What should hold -/

/-- An entry of the matrix is not 0 exactly when its connection was made, and the readers of the
matrix see the same links: those that are counted by `gxp_man_exchange_conn_info`, those that are
counted by `gxp_man_conn_stats`, and those that `gxp_router_run` adds to the overlay. -/
structure ConnMatAgrees (names : ℕ → String) (n : ℕ) (made : ℕ → ℕ → Prop) (nconns : ℕ)
    (connMat : ℕ → ℕ → ℤ) : Prop where
  contract : ∀ i < n, ∀ j < n, connMat i j ≠ 0 ↔ made i j
  stats : nconns = (gxpManConnStats names n connMat).total
  router : ∀ xmlTop g, gxpBuildGraph xmlTop names n connMat = Except.ok g →
    g.conns.length = nconns ∧ ∀ u v, u < v → v < n →
      ((∃ e ∈ g.conns, e.ends = (u, v) ∨ e.ends = (v, u)) ↔ connMat u v ≠ gxpNoRtt) ∧
      (connMat u v ≠ gxpNoRtt ↔ connMat u v ≠ 0)

/-! ### The matrix -/

section Matrix

variable {plan : ℕ → GxpConnect} {j : ℕ}

/-- A connection that was made has a positive entry, and any other entry is `GXP_NO_RTT`. -/
theorem gxpConnDist_cases {rtt : ℕ → ℚ}
    (hrtt : plan j = GxpConnect.yes → 1 / 10 ^ 6 ≤ rtt j) :
    (plan j = GxpConnect.yes ∧ 1 ≤ gxpConnDist plan rtt j) ∨
      (plan j ≠ GxpConnect.yes ∧ gxpConnDist plan rtt j = gxpNoRtt) := by
  unfold gxpConnDist
  by_cases hplan : plan j = GxpConnect.yes
  · refine Or.inl ⟨hplan, ?_⟩
    have hone : (1 : ℚ) ≤ rtt j * 10 ^ 6 := by
      have := hrtt hplan
      rw [div_le_iff₀ (by norm_num)] at this
      exact this
    rw [if_pos hplan, truncToInt, if_pos (by linarith)]
    exact Int.le_floor.2 (by exact_mod_cast hone)
  · exact Or.inr ⟨hplan, if_neg hplan⟩

end Matrix

/-- The connections that the nodes have made: planned ones that did not fail. -/
def Made (n : ℕ) (plan : ℕ → ℕ → GxpConnect) (made : ℕ → ℕ → Bool) (i j : ℕ) : Prop :=
  gxpConnectWait n (made i) (plan i) j = GxpConnect.yes

/-- What the node `j` prints. -/
def connInfoPrint (n : ℕ) (plan : ℕ → ℕ → GxpConnect) (made : ℕ → ℕ → Bool) (rtt : ℕ → ℕ → ℚ)
    (j : ℕ) : GxpPrint :=
  GxpPrint.connInfo (gxpConnDist (gxpConnectWait n (made j) (plan j)) (rtt j))

section Exchange

variable {names : ℕ → String} {n : ℕ} {plan : ℕ → ℕ → GxpConnect} {made : ℕ → ℕ → Bool}
  {rtt : ℕ → ℕ → ℚ} {connMat : ℕ → ℕ → ℤ}

/-- The matrix of a run: entries of made connections are positive, all others are `GXP_NO_RTT`. -/
def ConnMatOf (n : ℕ) (made : ℕ → ℕ → Prop) (connMat : ℕ → ℕ → ℤ) : Prop :=
  ∀ i < n, ∀ j < n, (made i j ∧ 1 ≤ connMat i j) ∨ (¬ made i j ∧ connMat i j = gxpNoRtt)

/-- **Every node reads the matrix of the run.** -/
theorem gxpManExchangeConnInfo_spec
    (hrtt : ∀ i < n, ∀ j < n, Made n plan made i j → 1 / 10 ^ 6 ≤ rtt i j)
    {gxpIdx : ℕ} {man : GxpMan} (hman : man.Is n gxpIdx) {lines : List Line}
    (hlines : GxpMerge n (fun j => gxpLines n j (connInfoPrint n plan made rtt j)) lines)
    (rest : List Line) :
    ∃ man', gxpManExchangeConnInfo man (lines ++ rest) =
        Except.ok (gxpNconns n man'.connMat, man', rest) ∧
      ConnMatOf n (Made n plan made) man'.connMat := by
  obtain ⟨man', hread, hman', hcollected⟩ := gxpRead_merge GxpCollective.connInfo
    (connInfoPrint n plan made rtt) (fun _ _ => rfl) hlines hman rest
  refine ⟨man', ?_, fun i hi j hj => ?_⟩
  · unfold gxpManExchangeConnInfo
    rw [hread, ok_bind]
    dsimp only
    rw [hman'.1]
  · have hentry := hcollected i hi j hj
    rw [hentry]
    exact gxpConnDist_cases (hrtt i hi j hj)

/-! ### The readers -/

/-- A counting loop counts the pairs that pass its test. -/
theorem foldl_count {α : Type} (p : α → Bool) (l : List α) (c : ℕ) :
    l.foldl (fun c x => if p x then c + 1 else c) c = c + (l.filter p).length := by
  induction l generalizing c with
  | nil => rfl
  | cons x l ih =>
      rw [List.foldl_cons, ih]
      by_cases hx : p x = true
      · rw [if_pos hx, List.filter_cons_of_pos hx, List.length_cons]
        omega
      · rw [if_neg hx, List.filter_cons_of_neg hx]

theorem gxpNconns_eq (n : ℕ) (connMat : ℕ → ℕ → ℤ) :
    gxpNconns n connMat = ((upperPairs n).filter fun p => connMat p.1 p.2 ≠ gxpNoRtt).length := by
  have h := foldl_count (fun p : ℕ × ℕ => decide (connMat p.1 p.2 ≠ gxpNoRtt)) (upperPairs n) 0
  rw [Nat.zero_add] at h
  rw [← h]
  unfold gxpNconns
  simp only [decide_eq_true_eq]

theorem gxpManConnStats_total (names : ℕ → String) (n : ℕ) (connMat : ℕ → ℕ → ℤ) :
    (gxpManConnStats names n connMat).total =
      ((upperPairs n).filter fun p => connMat p.1 p.2 ≠ 0).length := by
  have hall : ∀ (l : List (ℕ × ℕ)) (s : GxpConnStats), (l.foldl
      (fun s p =>
        if connMat p.1 p.2 ≠ 0 then
          if gxpManSameCluster names p.1 p.2 gxpClusterNamePrefix then
            { s with intraC := s.intraC + 1, total := s.total + 1 }
          else { s with interC := s.interC + 1, total := s.total + 1 }
        else s) s).total = s.total + (l.filter fun p => connMat p.1 p.2 ≠ 0).length := by
    intro l
    induction l with
    | nil => exact fun _ => rfl
    | cons p l ih =>
        intro s
        rw [List.foldl_cons, ih]
        by_cases hp : connMat p.1 p.2 ≠ 0
        · rw [List.filter_cons_of_pos (by simpa using hp), List.length_cons, if_pos hp]
          split <;> dsimp only <;> omega
        · rw [List.filter_cons_of_neg (by simpa using hp), if_neg hp]
  unfold gxpManConnStats
  rw [hall, Nat.zero_add]

/-- **What the readers take for a connection.**  The router adds the connections that were made;
`gxp_man_exchange_conn_info` counts those that the node of smaller index has made; and
`gxp_man_conn_stats` counts every pair of nodes. -/
theorem connMat_readers {made : ℕ → ℕ → Prop} (h : ConnMatOf n made connMat)
    (names : ℕ → String) :
    (∀ u v, (u, v) ∈ linkPairs n connMat ↔ (u < n ∧ v < n) ∧ made u v) ∧
      (∀ u v, (u, v) ∈ (upperPairs n).filter (fun p => connMat p.1 p.2 ≠ gxpNoRtt) ↔
        (u < v ∧ v < n) ∧ made u v) ∧
      (gxpManConnStats names n connMat).total = (upperPairs n).length := by
  have hmade : ∀ u < n, ∀ v < n, connMat u v ≠ gxpNoRtt ↔ made u v := by
    intro u hu v hv
    rcases h u hu v hv with ⟨hm, hpos⟩ | ⟨hm, heq⟩
    · exact iff_of_true (by unfold gxpNoRtt; omega) hm
    · exact iff_of_false (not_not.2 heq) hm
  refine ⟨fun u v => ?_, fun u v => ?_, ?_⟩
  · rw [mem_linkPairs]
    exact and_congr_right fun hlt => hmade u hlt.1 v hlt.2
  · rw [List.mem_filter, mem_upperPairs, decide_eq_true_eq]
    exact and_congr_right fun hlt => hmade u (hlt.1.trans hlt.2) v hlt.2
  · rw [gxpManConnStats_total, List.filter_eq_self.2]
    rintro ⟨u, v⟩ hp
    have hlt := mem_upperPairs.1 hp
    rcases h u (hlt.1.trans hlt.2) v hlt.2 with ⟨_, hpos⟩ | ⟨_, heq⟩
    · simpa using (show connMat u v ≠ 0 by omega)
    · simp [heq, gxpNoRtt]

/-- A matrix in which every entry is a connection has more links for the router than any loop over
the pairs `i < j` can count. -/
theorem connMatAgrees_false (hn : 1 ≤ n) {made : ℕ → ℕ → Prop} (h : ConnMatOf n made connMat)
    (hagree : ConnMatAgrees names n made (gxpNconns n connMat) connMat) : False := by
  have hall : ∀ u < n, ∀ v < n, made u v := by
    intro u hu v hv
    refine (hagree.contract u hu v hv).1 ?_
    rcases h u hu v hv with ⟨_, hpos⟩ | ⟨_, heq⟩
    · omega
    · rw [heq]
      decide
  obtain ⟨g, hg⟩ : ∃ g, gxpBuildGraph (fun _ _ => some (1, 1)) names n connMat = Except.ok g := by
    rcases @gxpAddConns_cases (fun _ _ => some (1, 1)) names connMat (linkPairs n connMat)
      (gxpAddNodes n names) with ⟨g, hg, _⟩ | ⟨_, _, _, hnone⟩
    · exact ⟨g, hg⟩
    · cases hnone
  have hbuilt : BuiltFrom (fun _ _ => some (1, 1)) names n connMat (linkPairs n connMat) g :=
    gxpAddConns_spec (linkPairs n connMat) hg
  have hlen : (linkPairs n connMat).length = gxpNconns n connMat := by
    rw [← (hagree.router _ g hg).1, ← hbuilt.ends, List.length_map]
  -- the pair of the first node with itself is a link, but no pair that is counted
  have hself : (0, 0) ∈ linkPairs n connMat :=
    ((connMat_readers h names).1 0 0).2 ⟨⟨hn, hn⟩, hall 0 hn 0 hn⟩
  have hsub : ((0, 0) :: (upperPairs n).filter fun p => connMat p.1 p.2 ≠ gxpNoRtt) ⊆
      linkPairs n connMat := by
    rintro ⟨u, v⟩ hp
    rcases List.mem_cons.1 hp with hp | hp
    · rw [hp]
      exact hself
    · obtain ⟨hlt, hm⟩ := ((connMat_readers h names).2.1 u v).1 hp
      exact ((connMat_readers h names).1 u v).2 ⟨⟨hlt.1.trans hlt.2, hlt.2⟩, hm⟩
  have hnodup : ((0, 0) :: (upperPairs n).filter fun p => connMat p.1 p.2 ≠ gxpNoRtt).Nodup := by
    refine List.nodup_cons.2 ⟨fun hmem => ?_, ?_⟩
    · exact absurd (mem_upperPairs.1 (List.mem_filter.1 hmem).1).1 (lt_irrefl 0)
    · exact nodup_upperPairs.filter _
  have hle := (List.subperm_of_subset hnodup hsub).length_le
  rw [List.length_cons, hlen, gxpNconns_eq] at hle
  omega

/-- **No run meets the comment at the matrix with all its readers in agreement**, whatever was planned
and whatever has failed. -/
theorem connMat_disagrees (hn : 1 ≤ n) (names : ℕ → String)
    (hrtt : ∀ i < n, ∀ j < n, Made n plan made i j → 1 / 10 ^ 6 ≤ rtt i j)
    {gxpIdx : ℕ} {man : GxpMan} (hman : man.Is n gxpIdx) {lines : List Line}
    (hlines : GxpMerge n (fun j => gxpLines n j (connInfoPrint n plan made rtt j)) lines)
    (rest : List Line) :
    ∃ nconns man', gxpManExchangeConnInfo man (lines ++ rest) = Except.ok (nconns, man', rest) ∧
      ¬ ConnMatAgrees names n (Made n plan made) nconns man'.connMat := by
  obtain ⟨man', hrun, hmat⟩ := gxpManExchangeConnInfo_spec hrtt hman hlines rest
  exact ⟨_, man', hrun, connMatAgrees_false hn hmat⟩

end Exchange

/-- Two nodes connect to all nodes of larger index, and the only connection is refused. -/
def refusedLines : List Line :=
  [[Word.int 0, Word.int 0, Word.int (-1)], [Word.int 1, Word.int 0, Word.int (-1)],
    [Word.int 0, Word.int 1, Word.int (-1)], [Word.int 1, Word.int 1, Word.int (-1)]]

theorem refusedLines_merge : GxpMerge 2 (fun j => gxpLines 2 j
    (connInfoPrint 2 (gxpManConnectAll 2) (fun _ _ => false) (fun _ _ => 1) j)) refusedLines := by
  refine ⟨[⟨0, 0, [Word.int 0, Word.int 0, Word.int (-1)]⟩,
    ⟨1, 0, [Word.int 1, Word.int 0, Word.int (-1)]⟩,
    ⟨0, 0, [Word.int 0, Word.int 1, Word.int (-1)]⟩,
    ⟨1, 0, [Word.int 1, Word.int 1, Word.int (-1)]⟩], rfl, by decide, fun j => ?_⟩
  match j with
  | 0 => rfl
  | 1 => rfl

theorem connMat_disagrees_refused : ∃ nconns man', gxpManExchangeConnInfo (plainMan 2 0)
      (refusedLines ++ []) = Except.ok (nconns, man', []) ∧
    ¬ ConnMatAgrees pairNames 2 (Made 2 (gxpManConnectAll 2) fun _ _ => false) nconns
      man'.connMat :=
  connMat_disagrees (show 1 ≤ 2 by omega) pairNames
    (fun _ _ _ _ _ => by norm_num) (show (plainMan 2 0).Is 2 0 from ⟨rfl, rfl⟩) refusedLines_merge []

/-- No connection was made and none is counted, but the entries are not 0, and the statistics count
a link. -/
theorem connMat_refused : ∃ man', gxpManExchangeConnInfo (plainMan 2 0) refusedLines =
      Except.ok (0, man', []) ∧ man'.connMat 0 1 = -1 ∧ linkPairs 2 man'.connMat = [] ∧
    gxpManConnStats pairNames 2 man'.connMat = ⟨0, 1, 1⟩ ∧
    ¬ Made 2 (gxpManConnectAll 2) (fun _ _ => false) 0 1 ∧
    ¬ ConnMatAgrees pairNames 2 (Made 2 (gxpManConnectAll 2) fun _ _ => false) 0 man'.connMat :=
  ⟨_, rfl, rfl, rfl, rfl, by unfold Made; decide,
    fun h => absurd (show (0 : ℕ) = 1 from h.stats) (by decide)⟩

end DLFree

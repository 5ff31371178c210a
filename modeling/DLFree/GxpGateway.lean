/-
**The gateways of clusters: `gxp_man_connect_with_gateway`.**

Nodes whose hostnames share a prefix form a cluster, and the first nodes of a cluster are its
gateways.  A node counts the nodes before itself to see whether it is a gateway, and it counts the
nodes before every other node to see whether that one is; nobody tells anybody.

Main definitions:

* `IsGateway` — fewer than `ngates` nodes of smaller index are in the same cluster;
* `densityDraw` — the random decision of a node for a node of its own cluster;
* `planGraph`, `drawGraph` — the overlay of all plans, and the part that the draws connect.

Main results:

* `gatewayLoop_eq` — both loops of the source count the cluster;
* `planWithGateway_iff` — which nodes a node plans;
* `gateways_agree` — **all nodes agree on the gateways, and clusters that are connected inside are
  connected to one another**.
-/

import DLFree.GxpConnect

set_option relaxedAutoImplicit false
set_option autoImplicit false

namespace DLFree

open LinkGraph

/-! ### Clusters and gateways -/

theorem gxpManSameCluster_iff {names : ℕ → String} {h0 h1 : ℕ} {len : ℤ} :
    gxpManSameCluster names h0 h1 len = true ↔
      (names h0).toList.take (len % 2 ^ 64).toNat = (names h1).toList.take (len % 2 ^ 64).toNat := by
  unfold gxpManSameCluster strncmpEqual
  exact decide_eq_true_iff

theorem gxpManSameCluster_comm (names : ℕ → String) (h0 h1 : ℕ) (len : ℤ) :
    gxpManSameCluster names h0 h1 len = gxpManSameCluster names h1 h0 len := by
  rw [Bool.eq_iff_iff, gxpManSameCluster_iff, gxpManSameCluster_iff]
  exact eq_comm

theorem gxpManSameCluster_trans {names : ℕ → String} {h0 h1 h2 : ℕ} {len : ℤ}
    (h01 : gxpManSameCluster names h0 h1 len = true)
    (h12 : gxpManSameCluster names h1 h2 len = true) :
    gxpManSameCluster names h0 h2 len = true :=
  gxpManSameCluster_iff.2 ((gxpManSameCluster_iff.1 h01).trans (gxpManSameCluster_iff.1 h12))

/-- Fewer than `ngates` nodes of smaller index are in the cluster of the node `i`. -/
def IsGateway (names : ℕ → String) (len ngates : ℤ) (i : ℕ) : Prop :=
  (((List.range i).filter fun k => gxpManSameCluster names i k len).length : ℤ) < ngates

instance (names : ℕ → String) (len ngates : ℤ) (i : ℕ) : Decidable (IsGateway names len ngates i) :=
  inferInstanceAs (Decidable (_ < _))

/-- The decision of the node `i` for the node `j` of its cluster: it draws once for every node of
its cluster in turn. -/
def densityDraw (lib : Libc) (below : ℕ → ℚ → Bool) (names : ℕ → String) (len : ℤ) (density : ℚ)
    (seed : ℤ) (i j : ℕ) : Bool :=
  below (lib.rand (seed + i) ((List.range' (i + 1) (j - (i + 1))).filter fun k =>
    gxpManSameCluster names i k len).length) density

/-- The loop has counted the nodes of the cluster, or stopped at the last gateway. -/
theorem gatewayLoop_eq (same : ℕ → Bool) (idxs : List ℕ) {gateway : ℤ} (hpos : 0 < gateway) :
    gatewayLoop same idxs gateway =
      if ((idxs.filter same).length : ℤ) < gateway then
        (gateway - (idxs.filter same).length, false)
      else (0, true) := by
  induction idxs generalizing gateway with
  | nil => simp [gatewayLoop, hpos]
  | cons idx idxs ih =>
      rw [gatewayLoop]
      by_cases hsame : same idx = true
      · rw [if_pos hsame, List.filter_cons_of_pos hsame, List.length_cons]
        by_cases hlast : gateway - 1 = 0
        · have hge : ¬ (((idxs.filter same).length + 1 : ℕ) : ℤ) < gateway := by omega
          rw [if_pos hlast, if_neg hge, hlast]
        · rw [if_neg hlast, ih (by omega)]
          by_cases hlt : ((idxs.filter same).length : ℤ) < gateway - 1
          · rw [if_pos hlt, if_pos (by push_cast; omega)]
            push_cast
            rw [sub_sub, add_comm (1 : ℤ)]
          · rw [if_neg hlt, if_neg (by push_cast; omega)]
      · rw [if_neg hsame, List.filter_cons_of_neg hsame]
        exact ih hpos

/-! ### The loops over the plan -/

section Loops

variable {plan : ℕ → GxpConnect} {j : ℕ}

theorem mem_largerIdxs_iff {n gxpIdx : ℕ} : j ∈ largerIdxs n gxpIdx ↔ gxpIdx < j ∧ j < n := by
  refine ⟨mem_largerIdxs, fun h => List.mem_range'_1.2 ?_⟩
  omega

theorem foldl_plan_yes (l : List ℕ) (plan : ℕ → GxpConnect) (j : ℕ) :
    l.foldl (fun plan idx => Function.update plan idx GxpConnect.yes) plan j =
      if j ∈ l then GxpConnect.yes else plan j := by
  induction l generalizing plan with
  | nil => simp
  | cons idx l ih =>
      rw [List.foldl_cons, ih]
      by_cases hj : j = idx
      · subst hj
        simp
      · simp [hj]

theorem foldl_plan_no (p : ℕ → Bool) (l : List ℕ) (plan : ℕ → GxpConnect) (j : ℕ) :
    l.foldl (fun plan idx => if p idx then Function.update plan idx GxpConnect.no else plan) plan j =
      if j ∈ l ∧ p j then GxpConnect.no else plan j := by
  induction l generalizing plan with
  | nil => simp
  | cons idx l ih =>
      rw [List.foldl_cons, ih]
      by_cases hj : j = idx
      · subst hj
        by_cases hp : p j = true <;> simp [hp]
      · by_cases hp : p idx = true <;> simp [hj, hp]

/-- A draw for a node leaves the others alone. -/
theorem planAtRandom_of_ne (lib : Libc) (below : ℕ → ℚ → Bool) (density : ℚ)
    (s : RandState × (ℕ → GxpConnect)) {idx : ℕ} (hj : j ≠ idx) :
    (planAtRandom lib below density s idx).2 j = s.2 j := by
  unfold planAtRandom
  dsimp only
  split
  · exact Function.update_of_ne hj _ _
  · rfl

/-- The loop over the own cluster: the draw for a node comes after those for the nodes of the
cluster before it. -/
theorem foldl_plan_draws (lib : Libc) (below : ℕ → ℚ → Bool) (density : ℚ) (same : ℕ → Bool)
    (k a : ℕ) (s : RandState × (ℕ → GxpConnect)) (j : ℕ) :
    ((List.range' a k).foldl
      (fun (s : RandState × (ℕ → GxpConnect)) (idx : ℕ) =>
        if same idx then planAtRandom lib below density s idx else s) s).2 j =
      if (a ≤ j ∧ j < a + k) ∧ same j ∧ below
          (lib.rand s.1.seed (s.1.calls + ((List.range' a (j - a)).filter same).length)) density
      then GxpConnect.yes else s.2 j := by
  induction k generalizing a s with
  | zero =>
      rw [if_neg (by omega)]
      rfl
  | succ k ih =>
      rw [List.range'_succ, List.foldl_cons, ih]
      rcases lt_trichotomy j a with hj | rfl | hj
      · have hbefore : ¬ (a + 1 ≤ j ∧ j < a + 1 + k) ∧ ¬ (a ≤ j ∧ j < a + (k + 1)) := by omega
        simp only [hbefore.1, hbefore.2, false_and, if_false]
        split
        · exact planAtRandom_of_ne lib below density s hj.ne
        · rfl
      · -- the draw for this node
        rw [if_neg (by omega), Nat.sub_self]
        by_cases hsame : same j = true
        · have hvalue : s.1.value lib = lib.rand s.1.seed s.1.calls := rfl
          rw [if_pos hsame]
          by_cases hbelow : below (s.1.value lib) density = true
          · rw [if_pos ⟨by omega, hsame, by simpa [hvalue] using hbelow⟩]
            simp [planAtRandom, hbelow]
          · rw [if_neg (fun h => hbelow (by simpa [hvalue] using h.2.2))]
            simp [planAtRandom, hbelow]
        · rw [if_neg hsame, if_neg (fun h => hsame h.2.1)]
      · have hrange : List.range' a (j - a) = a :: List.range' (a + 1) (j - (a + 1)) := by
          rw [show j - a = (j - (a + 1)) + 1 by omega, List.range'_succ]
        have hiff : (a + 1 ≤ j ∧ j < a + 1 + k) ↔ (a ≤ j ∧ j < a + (k + 1)) := by omega
        rw [hrange]
        by_cases hsame : same a = true
        · rw [if_pos hsame, planAtRandom_of_ne lib below density s hj.ne',
            List.filter_cons_of_pos hsame, List.length_cons]
          simp only [hiff, planAtRandom, RandState.next]
          rw [Nat.add_assoc, Nat.add_comm 1]
        · rw [if_neg hsame, List.filter_cons_of_neg hsame]
          simp only [hiff]

end Loops

/-! ### What a node plans -/

section Plans

variable {lib : Libc} {below : ℕ → ℚ → Bool} {names : ℕ → String} {n : ℕ} {len ngates : ℤ}
  {density : ℚ} {seed : ℤ} {i j : ℕ}

/-- The first loop leaves something exactly when the node is a gateway. -/
theorem gatewayLoop_self (hngates : 1 ≤ ngates) :
    (gatewayLoop (fun k => gxpManSameCluster names i k len) (List.range i) ngates).1 ≠ 0 ↔
      IsGateway names len ngates i := by
  rw [gatewayLoop_eq _ _ (show 0 < ngates by omega)]
  unfold IsGateway
  split
  · rename_i hlt
    exact iff_of_true (by dsimp only; omega) hlt
  · rename_i hlt
    exact iff_of_false (fun h => h rfl) hlt

/-- The second loop takes out exactly the nodes that are no gateways. -/
theorem gatewayLoop_other (hngates : 1 ≤ ngates) :
    (gatewayLoop (fun k => gxpManSameCluster names k j len) (List.range j) ngates).2 = true ↔
      ¬ IsGateway names len ngates j := by
  rw [gatewayLoop_eq _ _ (show 0 < ngates by omega)]
  unfold IsGateway
  simp only [gxpManSameCluster_comm names _ j len]
  split
  · rename_i hlt
    exact iff_of_false Bool.false_ne_true (not_not.2 hlt)
  · rename_i hlt
    exact iff_of_true rfl hlt

/-- **A node plans the gateways if it is one, and the nodes of its cluster for which its draw has
succeeded.** -/
theorem planWithGateway_iff (hngates : 1 ≤ ngates) :
    gxpManConnectWithGateway lib below names n i len ngates density seed j = GxpConnect.yes ↔
      (i < j ∧ j < n) ∧ ((IsGateway names len ngates i ∧ IsGateway names len ngates j) ∨
        (gxpManSameCluster names i j len = true ∧
          densityDraw lib below names len density seed i j = true)) := by
  have hrange : (i + 1 ≤ j ∧ j < i + 1 + (n - (i + 1))) ↔ (i < j ∧ j < n) := by omega
  have hcalls : densityDraw lib below names len density seed i j =
      below (lib.rand (srand (seed + i)).seed ((srand (seed + i)).calls +
        ((List.range' (i + 1) (j - (i + 1))).filter fun k =>
          gxpManSameCluster names i k len).length)) density := by
    unfold densityDraw srand
    rw [Nat.zero_add]
  have hmem : j ∈ List.range' (i + 1) (n - (i + 1)) ↔ i < j ∧ j < n := mem_largerIdxs_iff
  unfold gxpManConnectWithGateway
  dsimp only
  unfold largerIdxs
  rw [foldl_plan_draws]
  simp only [hrange, ← hcalls]
  by_cases hi : IsGateway names len ngates i
  · rw [if_pos ((gatewayLoop_self hngates).2 hi), foldl_plan_no, foldl_plan_yes]
    simp only [gatewayLoop_other hngates, hmem, hi, true_and]
    by_cases hlt : i < j ∧ j < n
    · by_cases hj : IsGateway names len ngates j <;> simp [hlt, hj]
    · simp [hlt, emptyPlan]
  · rw [if_neg (fun h => hi ((gatewayLoop_self hngates).1 h))]
    simp only [hi, false_and, false_or, emptyPlan]
    split
    · rename_i h
      exact iff_of_true rfl h
    · rename_i h
      exact iff_of_false (by decide) h

/-! ### The overlay of all plans -/

/-- The nodes that some plan joins. -/
def planGraph (n : ℕ) (plan : ℕ → ℕ → GxpConnect) : SimpleGraph ℕ :=
  SimpleGraph.fromRel fun i j => i < n ∧ j < n ∧ plan i j = GxpConnect.yes

/-- The nodes of one cluster that a draw joins. -/
def drawGraph (n : ℕ) (same draw : ℕ → ℕ → Bool) : SimpleGraph ℕ :=
  SimpleGraph.fromRel fun i j => (i < j ∧ j < n) ∧ same i j = true ∧ draw i j = true

/-- The plans of all nodes, as every node is to understand them. -/
structure GatewayPlans (names : ℕ → String) (n : ℕ) (len ngates : ℤ) (draw : ℕ → ℕ → Bool)
    (plan : ℕ → ℕ → GxpConnect) : Prop where
  apart : ∀ i j, i < j → j < n → gxpManSameCluster names i j len = false →
    (plan i j = GxpConnect.yes ↔ IsGateway names len ngates i ∧ IsGateway names len ngates j)
  within : ∀ i j, i < j → j < n → gxpManSameCluster names i j len = true →
    (plan i j = GxpConnect.yes ↔
      (IsGateway names len ngates i ∧ IsGateway names len ngates j) ∨ draw i j = true)
  larger : ∀ i j, plan i j = GxpConnect.yes → i < j
  connected : (∀ u < n, ∀ v < n, gxpManSameCluster names u v len = true →
      (drawGraph n (fun i j => gxpManSameCluster names i j len) draw).Reachable u v) →
    ∀ u < n, ∀ v < n, (planGraph n plan).Reachable u v

/-- The first node of every cluster is a gateway. -/
theorem exists_gateway (names : ℕ → String) (len : ℤ) (hngates : 1 ≤ ngates) (u : ℕ) :
    ∃ g ≤ u, gxpManSameCluster names u g len = true ∧ IsGateway names len ngates g := by
  have hself : gxpManSameCluster names u u len = true := gxpManSameCluster_iff.2 rfl
  let p : ℕ → Prop := fun k => gxpManSameCluster names u k len = true
  have hex : ∃ k, p k := ⟨u, hself⟩
  refine ⟨Nat.find hex, Nat.find_le hself, Nat.find_spec hex, ?_⟩
  have hnone : (List.range (Nat.find hex)).filter
      (fun k => gxpManSameCluster names (Nat.find hex) k len) = [] := by
    rw [List.filter_eq_nil_iff]
    intro k hk hsame
    exact Nat.find_min hex (List.mem_range.1 hk)
      (gxpManSameCluster_trans (Nat.find_spec hex) hsame)
  unfold IsGateway
  rw [hnone, List.length_nil]
  omega

/-- **All nodes agree on the gateways.**  Nodes of different clusters are planned exactly when both
are gateways, nodes of one cluster also when the draw has succeeded, always by the node of smaller
index; and when the draws connect every cluster, the plans connect all nodes. -/
theorem gateways_agree (lib : Libc) (below : ℕ → ℚ → Bool) (names : ℕ → String) (n : ℕ) (len : ℤ)
    (hngates : 1 ≤ ngates) (density : ℚ) (seed : ℤ) :
    GatewayPlans names n len ngates (densityDraw lib below names len density seed)
      fun i => gxpManConnectWithGateway lib below names n i len ngates density seed := by
  refine ⟨fun i j hij hj hsame => ?_, fun i j hij hj hsame => ?_, fun i j h => ?_,
    fun hdraws u hu v hv => ?_⟩
  · rw [planWithGateway_iff hngates]
    simp [hij, hj, hsame]
  · rw [planWithGateway_iff hngates]
    simp [hij, hj, hsame]
  · exact ((planWithGateway_iff hngates).1 h).1.1
  · -- successful draws are planned
    have hle : drawGraph n (fun i j => gxpManSameCluster names i j len)
        (densityDraw lib below names len density seed) ≤ planGraph n fun i =>
          gxpManConnectWithGateway lib below names n i len ngates density seed := by
      intro x y hxy
      rw [drawGraph, SimpleGraph.fromRel_adj] at hxy
      rw [planGraph, SimpleGraph.fromRel_adj]
      refine ⟨hxy.1, hxy.2.imp (fun h => ?_) fun h => ?_⟩
      · exact ⟨h.1.1.trans h.1.2, h.1.2, (planWithGateway_iff hngates).2 ⟨h.1, Or.inr h.2⟩⟩
      · exact ⟨h.1.1.trans h.1.2, h.1.2, (planWithGateway_iff hngates).2 ⟨h.1, Or.inr h.2⟩⟩
    have hcluster : ∀ x < n, ∃ g < n, IsGateway names len ngates g ∧
        (planGraph n fun i => gxpManConnectWithGateway lib below names n i len ngates density
          seed).Reachable x g := by
      intro x hx
      obtain ⟨g, hgx, hsame, hgate⟩ := exists_gateway names len hngates x
      exact ⟨g, by omega, hgate, (hdraws x hx g (by omega) hsame).mono hle⟩
    obtain ⟨g, hg, hgate, hug⟩ := hcluster u hu
    obtain ⟨g', hg', hgate', hvg'⟩ := hcluster v hv
    -- two gateways are joined by the one of smaller index
    have hgates : (planGraph n fun i => gxpManConnectWithGateway lib below names n i len ngates
        density seed).Reachable g g' := by
      rcases eq_or_ne g g' with rfl | hne
      · exact SimpleGraph.Reachable.refl _
      · refine SimpleGraph.Adj.reachable ?_
        rw [planGraph, SimpleGraph.fromRel_adj]
        refine ⟨hne, ?_⟩
        rcases Nat.lt_or_gt_of_ne hne with hlt | hlt
        · exact Or.inl ⟨hg, hg', (planWithGateway_iff hngates).2
            ⟨⟨hlt, hg'⟩, Or.inl ⟨hgate, hgate'⟩⟩⟩
        · exact Or.inr ⟨hg', hg, (planWithGateway_iff hngates).2
            ⟨⟨hlt, hg⟩, Or.inl ⟨hgate', hgate⟩⟩⟩
    exact (hug.trans hgates).trans hvg'.symm

/-- Two clusters of two nodes with one gateway each. -/
def clusterNames : ℕ → String
  | 0 => "aa0"
  | 1 => "bb0"
  | 2 => "aa1"
  | _ => "bb1"

theorem gateways_agree_clusters : GatewayPlans clusterNames 4 2 1
    (densityDraw (Libc.insertion fun _ i => i) (fun _ _ => true) clusterNames 2 1 7)
    fun i => gxpManConnectWithGateway (Libc.insertion fun _ i => i) (fun _ _ => true) clusterNames 4
      i 2 1 1 7 :=
  gateways_agree _ _ clusterNames 4 2 (show 1 ≤ (1 : ℤ) by omega) 1 7

end Plans

end DLFree

/-
**The connection schemes: `gxp/gxp.c`.**

Every node makes a plan of the nodes that it connects to, tries all planned connections, and both
ends of a connection that is made register each other in `channel_map`.  Each node plans alone; the
schemes are meant to plan every pair of nodes from one side only.

Main definitions:

* `gxpManConnectAll`, `gxpManConnectRandom`, `gxpManConnectRing`, `gxpManConnectLine`,
  `gxpManConnectWithGateway` — the plans of a node, besides `gxpManConnectLocalityAware`;
* `GxpConnectScheme`, `gxpConnectPlan` — the plan of a node for each of the schemes;
* `NoPairTwice` — what the plans of all nodes should meet.

Main results:

* `NoPairTwice.of_larger` — plans in which the node of smaller index connects have no pair twice;
* `gxpPlans_iff` — **no pair of nodes is connected twice, except in rings of one or two nodes**.
-/

import DLFree.CommInv
import DLFree.GxpRouter
import DLFree.LocalityAware

set_option relaxedAutoImplicit false
set_option autoImplicit false

namespace DLFree

/-! ### The code -/

/-- `strncmp(a, b, n) == 0`, where `n` is converted to an unsigned number of 64 bits. -/
def strncmpEqual (a b : String) (n : ℤ) : Bool :=
  a.toList.take (n % 2 ^ 64).toNat = b.toList.take (n % 2 ^ 64).toNat

/-- `gxp_man_same_cluster`. -/
def gxpManSameCluster (names : ℕ → String) (h0 h1 : ℕ) (len : ℤ) : Bool :=
  strncmpEqual (names h0) (names h1) len

/-- The plan after the `memset`. -/
def emptyPlan : ℕ → GxpConnect := fun _ => GxpConnect.no

/-- The indices of the loops that go over the nodes of larger index. -/
def largerIdxs (n gxpIdx : ℕ) : List ℕ := List.range' (gxpIdx + 1) (n - (gxpIdx + 1))

/-- `gxp_man_connect_all`. -/
def gxpManConnectAll (n gxpIdx : ℕ) : ℕ → GxpConnect :=
  (largerIdxs n gxpIdx).foldl (fun plan idx => Function.update plan idx GxpConnect.yes) emptyPlan

/-- The node `idx` is planned when the next value of `rand` is below the density. -/
def planAtRandom (lib : Libc) (below : ℕ → ℚ → Bool) (density : ℚ)
    (s : RandState × (ℕ → GxpConnect)) (idx : ℕ) : RandState × (ℕ → GxpConnect) :=
  (s.1.next,
    if below (s.1.value lib) density then Function.update s.2 idx GxpConnect.yes else s.2)

/-- `gxp_man_connect_random`. -/
def gxpManConnectRandom (lib : Libc) (below : ℕ → ℚ → Bool) (n gxpIdx : ℕ) (density : ℚ)
    (seed : ℤ) : ℕ → GxpConnect :=
  ((largerIdxs n gxpIdx).foldl (planAtRandom lib below density)
    (srand (seed + gxpIdx), emptyPlan)).2

/-- `gxp_man_connect_ring`. -/
def gxpManConnectRing (n gxpIdx : ℕ) : ℕ → GxpConnect :=
  Function.update emptyPlan ((gxpIdx + 1) % n) GxpConnect.yes

/-- `gxp_man_connect_lipne`, which connects the nodes in a line. -/
def gxpManConnectLine (n gxpIdx : ℕ) : ℕ → GxpConnect :=
  if gxpIdx ≠ n - 1 then Function.update emptyPlan ((gxpIdx + 1) % n) GxpConnect.yes
  else emptyPlan

/-- The loop that counts `gateway` down over the nodes of the same cluster: what is left, and whether
it was left with `gateway == 0`. -/
def gatewayLoop (same : ℕ → Bool) : List ℕ → ℤ → ℤ × Bool
  | [], gateway => (gateway, false)
  | idx :: idxs, gateway =>
      if same idx then
        if gateway - 1 = 0 then (gateway - 1, true) else gatewayLoop same idxs (gateway - 1)
      else gatewayLoop same idxs gateway

/-- `gxp_man_connect_with_gateway`. -/
def gxpManConnectWithGateway (lib : Libc) (below : ℕ → ℚ → Bool) (names : ℕ → String)
    (n gxpIdx : ℕ) (len ngates : ℤ) (density : ℚ) (seed : ℤ) : ℕ → GxpConnect :=
  let same := fun h0 h1 => gxpManSameCluster names h0 h1 len
  let gateway := (gatewayLoop (same gxpIdx) (List.range gxpIdx) ngates).1
  let plan :=
    if gateway ≠ 0 then
      let plan := (largerIdxs n gxpIdx).foldl
        (fun plan idx => Function.update plan idx GxpConnect.yes) emptyPlan
      -- the nodes that are no gateways are taken out again
      (largerIdxs n gxpIdx).foldl
        (fun plan idx =>
          if (gatewayLoop (fun jdx => same jdx idx) (List.range idx) ngates).2 then
            Function.update plan idx GxpConnect.no
          else plan)
        plan
    else emptyPlan
  ((largerIdxs n gxpIdx).foldl
    (fun (s : RandState × (ℕ → GxpConnect)) (idx : ℕ) =>
      if same gxpIdx idx then planAtRandom lib below density s idx else s)
    (srand (seed + gxpIdx), plan)).2

/-- The connection schemes with their arguments; the topology file of the locality-aware scheme is
given by what `xml_topology_traverse` finds in it. -/
inductive GxpConnectScheme
  | all
  | random (density : ℚ) (seed : ℤ)
  | ring
  | line
  | withGateway (len ngates : ℤ) (density : ℚ) (seed : ℤ)
  | localityAware (xmlTraverse : XmlTraverse) (alpha seed : ℤ)

/-- The plan with which a node calls `gxp_man_connect`. -/
def gxpConnectPlan (lib : Libc) (below : ℕ → ℚ → Bool) (gxpHostname : String)
    (scheme : GxpConnectScheme) (man : GxpMan) (rfp : List Line) :
    Except Abort (ℕ → GxpConnect) :=
  match scheme with
  | GxpConnectScheme.all => Except.ok (gxpManConnectAll man.gxpNumExecs man.gxpIdx)
  | GxpConnectScheme.random density seed =>
      Except.ok (gxpManConnectRandom lib below man.gxpNumExecs man.gxpIdx density seed)
  | GxpConnectScheme.ring => Except.ok (gxpManConnectRing man.gxpNumExecs man.gxpIdx)
  | GxpConnectScheme.line => Except.ok (gxpManConnectLine man.gxpNumExecs man.gxpIdx)
  | GxpConnectScheme.withGateway len ngates density seed =>
      Except.ok (gxpManConnectWithGateway lib below man.peerHostnames man.gxpNumExecs man.gxpIdx
        len ngates density seed)
  | GxpConnectScheme.localityAware xmlTraverse alpha seed => do
      let (man, _) ← gxpManConnectLocalityAware lib below xmlTraverse gxpHostname alpha seed man rfp
      Except.ok man.plan

/-! ### What the plans should meet -/

/-- The peers of the connections of a node, when all planned connections are made: those that it
connects to and those that connect to it. -/
def plannedPeers (n : ℕ) (plan : ℕ → ℕ → GxpConnect) (i : ℕ) : List ℕ :=
  (List.range n).filter (fun j => plan i j = GxpConnect.yes) ++
    (List.range n).filter fun j => plan j i = GxpConnect.yes

/-- The registrations of a node, one after the other. -/
def registerChannels {κ : Type} [DecidableEq κ] (man : Ioman κ) (regs : List (ℕ × κ)) :
    Except Abort (Ioman κ) :=
  regs.foldlM (fun (man : Ioman κ) (reg : ℕ × κ) => iomanRegisterChannel man reg.1 reg.2) man

/-- No pair of nodes is connected twice: no node plans itself, and no pair is planned from both
sides.  When any of the planned connections are made, in any order, no registration finds
`channel_map` occupied; and the overlay of any matrix in which only planned pairs have a round-trip
time has no loop and no two connections between the same hosts. -/
structure NoPairTwice (n : ℕ) (plan : ℕ → ℕ → GxpConnect) : Prop where
  self : ∀ i < n, plan i i ≠ GxpConnect.yes
  once : ∀ i < n, ∀ j < n, plan i j = GxpConnect.yes → plan j i ≠ GxpConnect.yes
  registers : ∀ i < n, ∀ (κ : Type) [DecidableEq κ] (man : Ioman κ) (regs : List (ℕ × κ)),
    (∀ pid, man.channelMap pid = none) → (regs.map Prod.snd).Nodup →
    (∀ reg ∈ regs, man.view Channel.peerId reg.2 = some channelPeerUnknown) →
    (regs.map Prod.fst).Subperm (plannedPeers n plan i) →
    registerChannels man regs ≠ Except.error Abort.assertion
  overlay : ∀ (xmlTop : XmlTopology) (names : ℕ → String) (connMat : ℕ → ℕ → ℤ) (g : OverlayGraph),
    (∀ i < n, ∀ j < n, connMat i j ≠ gxpNoRtt → plan i j = GxpConnect.yes) →
    gxpBuildGraph xmlTop names n connMat = Except.ok g → g.Simple n

section Registers

variable {κ : Type} [DecidableEq κ] {man : Ioman κ} {c : κ}

/-- A registration of a fresh channel for a peer that has none does not fail an assertion. -/
theorem iomanRegisterChannel_ne {dstId : ℤ} (hmap : man.channelMap dstId = none)
    (hview : man.view Channel.peerId c = some channelPeerUnknown) :
    iomanRegisterChannel man dstId c ≠ Except.error Abort.assertion := by
  obtain ⟨chan, hchan, hpeer⟩ := Option.map_eq_some_iff.1 hview
  unfold iomanRegisterChannel
  by_cases hrange : 0 ≤ dstId ∧ dstId < man.maxpeers
  · have hcheck : man.checkPeer dstId = Except.ok () := if_pos hrange
    rw [hcheck, ok_bind, hmap, Option.isNone_none, cAssert_true, ok_bind,
      Ioman.get_eq_ok.2 hchan, ok_bind, cAssert_of hpeer, ok_bind]
    nofun
  · have hcheck : man.checkPeer dstId = Except.error Abort.badAccess := if_neg hrange
    rw [hcheck]
    nofun

/-- Registrations of different peers for fresh channels find no entry occupied. -/
theorem registerChannels_ne {regs : List (ℕ × κ)} (hpeers : (regs.map Prod.fst).Nodup)
    (hchans : (regs.map Prod.snd).Nodup) (hfree : ∀ reg ∈ regs, man.channelMap reg.1 = none)
    (hfresh : ∀ reg ∈ regs, man.view Channel.peerId reg.2 = some channelPeerUnknown) :
    registerChannels man regs ≠ Except.error Abort.assertion := by
  induction regs generalizing man with
  | nil => nofun
  | cons reg regs ih =>
      rw [List.map_cons, List.nodup_cons] at hpeers hchans
      have hne := iomanRegisterChannel_ne (hfree reg List.mem_cons_self)
        (hfresh reg List.mem_cons_self)
      unfold registerChannels
      rw [List.foldlM_cons]
      cases hreg : iomanRegisterChannel man reg.1 reg.2 with
      | error a =>
          rw [hreg] at hne
          exact hne
      | ok man₁ =>
          obtain ⟨_, _, _, _, rfl⟩ := iomanRegisterChannel_cases hreg
          refine ih hpeers.2 hchans.2 (fun r hr => ?_) fun r hr => ?_
          · have hpid : (r.1 : ℤ) ≠ reg.1 := fun h =>
              hpeers.1 (Int.natCast_inj.1 h ▸ List.mem_map_of_mem hr)
            show Function.update man.channelMap (reg.1 : ℤ) (some reg.2) r.1 = none
            rw [Function.update_of_ne hpid]
            exact hfree r (List.mem_cons_of_mem _ hr)
          · have hchan : r.2 ≠ reg.2 := fun h => hchans.1 (h ▸ List.mem_map_of_mem hr)
            have hview := hfresh r (List.mem_cons_of_mem _ hr)
            unfold Ioman.view at hview ⊢
            simpa [Ioman.modify, hchan] using hview

end Registers

/-! ### Plans of the nodes of larger index -/

/-- A node plans nodes of larger index only. -/
def PlansLarger (n gxpIdx : ℕ) (plan : ℕ → GxpConnect) : Prop :=
  ∀ j, plan j = GxpConnect.yes → gxpIdx < j ∧ j < n

/-- Plans with no pair from both sides register and connect no pair twice. -/
theorem NoPairTwice.of_once {n : ℕ} {plan : ℕ → ℕ → GxpConnect}
    (hself : ∀ i < n, plan i i ≠ GxpConnect.yes)
    (honce : ∀ i < n, ∀ j < n, plan i j = GxpConnect.yes → plan j i ≠ GxpConnect.yes) :
    NoPairTwice n plan where
  self := hself
  once := honce
  registers i hi κ _ man regs hmap hchans hfresh hsub := by
    have hnodup : (plannedPeers n plan i).Nodup := by
      refine List.nodup_append.2 ⟨List.nodup_range.filter _, List.nodup_range.filter _, ?_⟩
      intro a ha b hb hab
      subst hab
      obtain ⟨hlt, h₁⟩ := List.mem_filter.1 ha
      obtain ⟨_, h₂⟩ := List.mem_filter.1 hb
      exact honce i hi a (List.mem_range.1 hlt) (by simpa using h₁) (by simpa using h₂)
    obtain ⟨l, hperm, hl⟩ := hsub
    exact registerChannels_ne (hperm.nodup_iff.1 (hnodup.sublist hl)) hchans
      (fun reg _ => hmap reg.1) hfresh
  overlay xmlTop names connMat g hplanned hbuild := by
    refine gxpBuildGraph_simple (fun i hi => ?_) (fun i hi j hj hne => ?_) hbuild
    · by_contra hne
      exact hself i hi (hplanned i hi i hi hne)
    · by_contra hne'
      exact honce i hi j hj (hplanned i hi j hj hne) (hplanned j hj i hi hne')

/-- Plans in which the node of smaller index connects have no pair twice. -/
theorem NoPairTwice.of_larger {n : ℕ} {plan : ℕ → ℕ → GxpConnect}
    (h : ∀ i < n, PlansLarger n i (plan i)) : NoPairTwice n plan := by
  refine NoPairTwice.of_once (fun i hi hself => ?_) fun i hi j hj hij hji => ?_
  · exact absurd (h i hi i hself).1 (lt_irrefl i)
  · have h₁ := (h i hi j hij).1
    have h₂ := (h j hj i hji).1
    omega

section Plans

variable {lib : Libc} {below : ℕ → ℚ → Bool} {n gxpIdx : ℕ}

theorem emptyPlan_larger : PlansLarger n gxpIdx emptyPlan := nofun

theorem PlansLarger.update {plan : ℕ → GxpConnect} {idx : ℕ} (h : PlansLarger n gxpIdx plan)
    (hidx : gxpIdx < idx ∧ idx < n) : PlansLarger n gxpIdx (Function.update plan idx GxpConnect.yes)
    := by
  intro j hj
  by_cases hji : j = idx
  · exact hji ▸ hidx
  · exact h j (by simpa [hji] using hj)

theorem mem_largerIdxs {idx : ℕ} (h : idx ∈ largerIdxs n gxpIdx) : gxpIdx < idx ∧ idx < n := by
  have := List.mem_range'_1.1 h
  omega

/-- A loop over the nodes of larger index whose steps plan only the node they are about. -/
theorem foldl_larger {σ : Type} {f : σ → ℕ → σ} {g : σ → ℕ → GxpConnect}
    (hf : ∀ s idx, gxpIdx < idx ∧ idx < n → PlansLarger n gxpIdx (g s) →
      PlansLarger n gxpIdx (g (f s idx)))
    {s : σ} (hs : PlansLarger n gxpIdx (g s)) :
    PlansLarger n gxpIdx (g ((largerIdxs n gxpIdx).foldl f s)) := by
  have hall : ∀ (l : List ℕ), (∀ idx ∈ l, gxpIdx < idx ∧ idx < n) → ∀ s,
      PlansLarger n gxpIdx (g s) → PlansLarger n gxpIdx (g (l.foldl f s)) := by
    intro l
    induction l with
    | nil => exact fun _ _ hs => hs
    | cons idx l ih =>
        intro hl s hs
        exact ih (fun x hx => hl x (List.mem_cons_of_mem _ hx)) _
          (hf s idx (hl idx List.mem_cons_self) hs)
  exact hall _ (fun idx hidx => mem_largerIdxs hidx) s hs

theorem planAll_larger : PlansLarger n gxpIdx (gxpManConnectAll n gxpIdx) :=
  foldl_larger (g := id) (fun _ _ hidx hs => hs.update hidx) emptyPlan_larger

theorem planAtRandom_larger {density : ℚ} {s : RandState × (ℕ → GxpConnect)} {idx : ℕ}
    (hidx : gxpIdx < idx ∧ idx < n) (hs : PlansLarger n gxpIdx s.2) :
    PlansLarger n gxpIdx (planAtRandom lib below density s idx).2 := by
  unfold planAtRandom
  dsimp only
  split
  · exact hs.update hidx
  · exact hs

theorem planRandom_larger {density : ℚ} {seed : ℤ} :
    PlansLarger n gxpIdx (gxpManConnectRandom lib below n gxpIdx density seed) :=
  foldl_larger (g := Prod.snd) (fun _ _ => planAtRandom_larger) emptyPlan_larger

theorem planLine_larger (h : gxpIdx < n) : PlansLarger n gxpIdx (gxpManConnectLine n gxpIdx) := by
  unfold gxpManConnectLine
  split
  · rename_i hne
    have hmod : (gxpIdx + 1) % n = gxpIdx + 1 := Nat.mod_eq_of_lt (by omega)
    exact emptyPlan_larger.update (by omega)
  · exact emptyPlan_larger

theorem planWithGateway_larger {names : ℕ → String} {len ngates : ℤ} {density : ℚ} {seed : ℤ} :
    PlansLarger n gxpIdx
      (gxpManConnectWithGateway lib below names n gxpIdx len ngates density seed) := by
  unfold gxpManConnectWithGateway
  refine foldl_larger (g := Prod.snd) (fun s idx hidx hs => ?_) ?_
  · split
    · exact planAtRandom_larger hidx hs
    · exact hs
  · dsimp only
    split
    · refine foldl_larger (g := id) (fun plan idx _ hs => ?_) planAll_larger
      dsimp only [id]
      split
      · -- taking a node out plans no other
        intro j hj
        by_cases hji : j = idx
        · subst hji
          simp at hj
        · exact hs j (by simpa [hji] using hj)
      · exact hs
    · exact emptyPlan_larger

end Plans

/-! ### All schemes -/

section Schemes

variable {lib : Libc} {below : ℕ → ℚ → Bool} {names : ℕ → String} {n : ℕ}
  {scheme : GxpConnectScheme} {man : ℕ → GxpMan} {rfp : ℕ → List Line} {plan : ℕ → ℕ → GxpConnect}

/-- The nodes of a run: each knows its index, the number of nodes and all hostnames. -/
def GxpNodes (names : ℕ → String) (n : ℕ) (man : ℕ → GxpMan) : Prop :=
  ∀ i < n, (man i).Is n i ∧ ∀ j < n, (man i).peerHostnames j = names j

/-- The streams give the nodes of the locality-aware scheme the requests of all nodes. -/
def StreamsDeliver (lib : Libc) (below : ℕ → ℚ → Bool) (names : ℕ → String) (n : ℕ)
    (rfp : ℕ → List Line) : GxpConnectScheme → Prop
  | GxpConnectScheme.localityAware xmlTraverse alpha seed => ∀ i < n, DeliversRequests n
      (fun j => gxpLocalityRequests lib below xmlTraverse (names j) names n j alpha seed) (rfp i)
  | _ => True

/-- In the locality-aware scheme the node of smaller index connects. -/
theorem planLocality_once {xmlTraverse : XmlTraverse} {alpha seed : ℤ}
    (hman : GxpNodes names n man)
    (hrfp : StreamsDeliver lib below names n rfp
      (GxpConnectScheme.localityAware xmlTraverse alpha seed))
    (hplan : ∀ i < n, gxpConnectPlan lib below (names i)
      (GxpConnectScheme.localityAware xmlTraverse alpha seed) (man i) (rfp i) =
        Except.ok (plan i)) : NoPairTwice n plan := by
  -- every node has passed the assertion and the sorting
  have hsort : ∀ i < n, 0 < alpha ∧ ∃ r idxs,
      localitySort lib xmlTraverse (names i) names n i seed = Except.ok (r, idxs) := by
    intro i hi
    obtain ⟨⟨man', rest⟩, hrun, _⟩ := bind_eq_ok.1 (hplan i hi)
    unfold gxpManConnectLocalityAware at hrun
    obtain ⟨_, halpha, hrun⟩ := bind_eq_ok.1 hrun
    obtain ⟨⟨r, idxs⟩, hsort, _⟩ := bind_eq_ok.1 hrun
    rw [(hman i hi).1.1, (hman i hi).1.2] at hsort
    refine ⟨by simpa using halpha, r, idxs, ?_⟩
    unfold localitySort at hsort ⊢
    rwa [localityDistances_congr (fun _ _ => rfl) fun j hj => ((hman i hi).2 j hj).symm]
  rcases Nat.eq_zero_or_pos n with rfl | hn
  · exact NoPairTwice.of_once (fun i hi => absurd hi (Nat.not_lt_zero i)) fun i hi =>
      absurd hi (Nat.not_lt_zero i)
  have halpha := (hsort 0 hn).1
  obtain ⟨sel, hsel⟩ : ∃ sel, Selections lib below xmlTraverse names n alpha seed sel :=
    selections_of_sort halpha fun i hi => (hsort i hi).2
  have hiff : ∀ i < n, ∀ j < n, plan i j = GxpConnect.yes ↔ i < j ∧ (j ∈ sel i ∨ i ∈ sel j) := by
    intro i hi j hj
    obtain ⟨man', rest, hrun, hiff⟩ := hsel.plan halpha hi (hman i hi).1
      (fun j hj => ((hman i hi).2 j hj).symm) (hrfp i hi)
    have hp := hplan i hi
    unfold gxpConnectPlan at hp
    simp only [hrun, ok_bind, Except.ok.injEq] at hp
    rw [← hp]
    exact hiff j hj
  refine NoPairTwice.of_once (fun i hi h => ?_) fun i hi j hj hij hji => ?_
  · exact absurd ((hiff i hi i hi).1 h).1 (lt_irrefl i)
  · have h₁ := ((hiff i hi j hj).1 hij).1
    have h₂ := ((hiff j hj i hi).1 hji).1
    omega

theorem ring_plans {i : ℕ} (h : gxpManConnectRing n i = plan i) (j : ℕ) :
    plan i j = GxpConnect.yes ↔ j = (i + 1) % n := by
  rw [← h, gxpManConnectRing]
  by_cases hj : j = (i + 1) % n
  · subst hj
    simp
  · simp [hj, emptyPlan]

/-- A ring of at least three nodes plans every pair once. -/
theorem planRing_once (hn : 3 ≤ n) (hplan : ∀ i < n, gxpManConnectRing n i = plan i) :
    NoPairTwice n plan := by
  have hnext : ∀ i < n, (i + 1) % n = i + 1 ∨ (i + 1 = n ∧ (i + 1) % n = 0) := by
    intro i hi
    rcases Nat.lt_or_eq_of_le (Nat.succ_le_of_lt hi) with h | h
    · exact Or.inl (Nat.mod_eq_of_lt h)
    · exact Or.inr ⟨h, by rw [show i + 1 = n from h, Nat.mod_self]⟩
  refine NoPairTwice.of_once (fun i hi h => ?_) fun i hi j hj hij hji => ?_
  · have h₁ := (ring_plans (hplan i hi) i).1 h
    rcases hnext i hi with h₂ | h₂
    · omega
    · omega
  · have h₁ := (ring_plans (hplan i hi) j).1 hij
    have h₂ := (ring_plans (hplan j hj) i).1 hji
    rcases hnext i hi with h₃ | h₃
    · rcases hnext j hj with h₄ | h₄
      · omega
      · omega
    · rcases hnext j hj with h₄ | h₄
      · omega
      · omega

/-- **No pair of nodes is connected twice, except in rings of one or two nodes.** -/
theorem gxpPlans_iff (hn : 1 ≤ n) (hman : GxpNodes names n man)
    (hrfp : StreamsDeliver lib below names n rfp scheme)
    (hplan : ∀ i < n, gxpConnectPlan lib below (names i) scheme (man i) (rfp i) =
      Except.ok (plan i)) :
    NoPairTwice n plan ↔ ¬ (scheme = GxpConnectScheme.ring ∧ n ≤ 2) := by
  have hidx : ∀ i < n, (man i).gxpIdx = i := fun i hi => (hman i hi).1.2
  have hnum : ∀ i < n, (man i).gxpNumExecs = n := fun i hi => (hman i hi).1.1
  cases scheme with
  | all =>
      refine iff_of_true (NoPairTwice.of_larger fun i hi => ?_) nofun
      rw [← Except.ok.inj (hplan i hi), hidx i hi, hnum i hi]
      exact planAll_larger
  | random density seed =>
      refine iff_of_true (NoPairTwice.of_larger fun i hi => ?_) nofun
      rw [← Except.ok.inj (hplan i hi), hidx i hi, hnum i hi]
      exact planRandom_larger
  | ring =>
      have hring : ∀ i < n, gxpManConnectRing n i = plan i := by
        intro i hi
        rw [← Except.ok.inj (hplan i hi), hidx i hi, hnum i hi]
      constructor
      · -- with one node the next node is the node itself, with two nodes both plan the other one
        rintro h ⟨_, hle⟩
        rcases (show n = 1 ∨ n = 2 by omega) with rfl | rfl
        · exact h.self 0 (by omega) ((ring_plans (hring 0 (by omega)) 0).2 rfl)
        · exact h.once 0 (by omega) 1 (by omega) ((ring_plans (hring 0 (by omega)) 1).2 rfl)
            ((ring_plans (hring 1 (by omega)) 0).2 rfl)
      · intro h
        have hlarge : ¬ n ≤ 2 := fun hle => h ⟨rfl, hle⟩
        exact planRing_once (by omega) hring
  | line =>
      refine iff_of_true (NoPairTwice.of_larger fun i hi => ?_) nofun
      rw [← Except.ok.inj (hplan i hi), hidx i hi, hnum i hi]
      exact planLine_larger hi
  | withGateway len ngates density seed =>
      refine iff_of_true (NoPairTwice.of_larger fun i hi => ?_) nofun
      rw [← Except.ok.inj (hplan i hi), hidx i hi, hnum i hi]
      exact planWithGateway_larger
  | localityAware xmlTraverse alpha seed =>
      exact iff_of_true (planLocality_once hman hrfp hplan) nofun

/-- The node of a run in which nothing has been exchanged but the hostnames. -/
def plainMan (n i : ℕ) : GxpMan :=
  ⟨i, n, pairNames, fun _ => ("", 0), fun _ _ => 0, fun _ => GxpConnect.no, fun _ => 0⟩

theorem gxpPlans_iff_ring : NoPairTwice 4 (gxpManConnectRing 4) ↔
    ¬ (GxpConnectScheme.ring = GxpConnectScheme.ring ∧ 4 ≤ 2) :=
  @gxpPlans_iff (Libc.insertion fun _ _ => 0) (fun _ _ => false) pairNames 4
    GxpConnectScheme.ring (plainMan 4) (fun _ => []) (gxpManConnectRing 4) (by omega)
    (fun _ _ => ⟨⟨rfl, rfl⟩, fun _ _ => rfl⟩) trivial fun _ _ => rfl

/-- In a ring of two nodes both nodes plan the other one. -/
theorem ring_of_two : gxpManConnectRing 2 0 1 = GxpConnect.yes ∧
    gxpManConnectRing 2 1 0 = GxpConnect.yes ∧ ¬ NoPairTwice 2 (gxpManConnectRing 2) :=
  ⟨rfl, rfl, fun h => h.once 0 (by omega) 1 (by omega) rfl rfl⟩

end Schemes

end DLFree

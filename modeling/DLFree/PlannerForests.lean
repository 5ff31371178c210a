/-
**Which planners give the same levels to all sources.**

Every call of `rtable_planner_run` takes the connections in the order in which the call before has
left them.  A shuffle moves them on, and `qsort` may leave connections with equal keys in any order,
so the calls start from different orders.  They still agree when the order does not matter: when the
connections split into numbered forests, and each connection is blocked in all smaller forests by
connections with strictly higher priority.

Otherwise there is a C library with which two calls disagree.  Its `rand` exchanges the first
connection with another one, and its `qsort` puts any connection first among those with its key, in
every other call; so each connection is at some time as early as it can be.

Main definitions:

* `PlannerForests` — the connections split into such forests;
* `Libc.picking` — a C library with a given `qsort`, where that sorts.

Main results:

* `PlannerForests.stable` — then one numbering belongs to the orders of all calls;
* `exists_early` — a library that puts a connection as early as it can be;
* `rtableSimulatorRun_forests_iff` — **the tables of all sources fit together, for every seed and
  every C library, exactly when the connections split into such forests**;
* `plannerForests_random` — for `ORDERED_RANDOM` that is an overlay without a cycle;
* `plannerStable_of_fixes` — with a stable `qsort` the types that sort always agree.
-/

import DLFree.Planner
import DLFree.RouterPriority

set_option relaxedAutoImplicit false
set_option autoImplicit false

namespace DLFree

open ForestLayers LinkGraph

/-! ### Forests that no order changes -/

/-- The connections split into numbered forests: the ends of a connection are joined in every forest
with a smaller number by connections that come before it in whatever way ties are broken. -/
def PlannerForests (g : OverlayGraph) (rttype : GxpRoutingType) : Prop :=
  ∀ type, rttype.ordered = some type → ∃ lev : OverlayEdge → ℕ,
    (∀ k, (graph ((g.conns.filter fun x => lev x = k).map OverlayEdge.ends)).IsAcyclic) ∧
    ∀ e ∈ g.conns, ∀ k < lev e, ∃ pre ⊆ g.conns,
      (∀ x ∈ pre, lev x = k ∧ ¬ ComesBefore g type e x) ∧
      (graph (pre.map OverlayEdge.ends)).Reachable e.n0 e.n1

section Forests

variable {g : OverlayGraph} {n : ℕ} {rttype : GxpRoutingType} {type : OrderedLinkRouterType}

theorem comesBefore_refl (g : OverlayGraph) (type : OrderedLinkRouterType) (e : OverlayEdge) :
    ComesBefore g type e e := by
  cases type with
  | random => trivial
  | band => exact le_refl e.width
  | hops => exact le_refl e.len
  | hub => exact le_refl (hubDegree g e)

theorem comesBefore_total (g : OverlayGraph) (type : OrderedLinkRouterType) (x e : OverlayEdge) :
    ComesBefore g type x e ∨ ComesBefore g type e x := by
  cases type with
  | random => exact Or.inl trivial
  | band => exact le_total e.width x.width
  | hops => exact le_total x.len e.len
  | hub => exact le_total (hubDegree g x) (hubDegree g e)

theorem ComesBefore.trans {g : OverlayGraph} {x y z : OverlayEdge} (hxy : ComesBefore g type x y)
    (hyz : ComesBefore g type y z) : ComesBefore g type x z := by
  cases type with
  | random => trivial
  | band => exact le_trans (show z.width ≤ y.width from hyz) hxy
  | hops => exact le_trans (show x.len ≤ y.len from hxy) hyz
  | hub => exact le_trans (show hubDegree g x ≤ hubDegree g y from hxy) hyz

/-- In every sorted order of the connections the forests are those of the source. -/
theorem compatible_of_forests {lev : OverlayEdge → ℕ}
    (hforest : ∀ k, (graph ((g.conns.filter fun x => lev x = k).map OverlayEdge.ends)).IsAcyclic)
    (hblocked : ∀ e ∈ g.conns, ∀ k < lev e, ∃ pre ⊆ g.conns,
      (∀ x ∈ pre, lev x = k ∧ ¬ ComesBefore g type e x) ∧
      (graph (pre.map OverlayEdge.ends)).Reachable e.n0 e.n1)
    {es : List OverlayEdge} (hperm : es.Perm g.conns) (hsorted : es.Pairwise (ComesBefore g type)) :
    Compatible OverlayEdge.ends lev es where
  forest k := by
    rw [graph_perm ((hperm.filter _).map _)]
    exact hforest k
  blocked pre e post hes k hk := by
    have he : e ∈ g.conns := hperm.subset (by rw [hes]; simp)
    obtain ⟨before, hsub, hbefore, hreach⟩ := hblocked e he k hk
    refine hreach.mono (graph_mono (List.map_subset _ fun x hx => ?_))
    -- what has to come before the connection has come before it
    obtain ⟨hlev, hstrict⟩ := hbefore x hx
    have hmem : x ∈ pre ++ e :: post := hes ▸ hperm.symm.subset (hsub hx)
    rw [hes, List.pairwise_append, List.pairwise_cons] at hsorted
    rcases List.mem_append.1 hmem with hpre | hpost
    · exact List.mem_filter.2 ⟨hpre, by simpa using hlev⟩
    · rcases List.mem_cons.1 hpost with rfl | hpost
      · exact absurd (comesBefore_refl g type x) hstrict
      · exact absurd (hsorted.2.1.1 x hpost) hstrict

/-- A call starts from the order that the call before has left. -/
theorem plannerConns_succ (lib : Libc) (hord : rttype.ordered = some type) (seed : ℤ) (i : ℕ) :
    plannerConns lib g rttype seed (i + 1) =
      spanningTreeOrder lib { g with conns := plannerConns lib g rttype seed i } type seed := by
  simp only [plannerConns, hord]

/-- The order of a call is sorted. -/
theorem plannerConns_sorted (lib : Libc) (hord : rttype.ordered = some type) (seed : ℤ) (i : ℕ) :
    (plannerConns lib g rttype seed (i + 1)).Pairwise (ComesBefore g type) := by
  have hsorted := spanningTreeOrder_sorted lib (plannerGraph lib g rttype seed i) type seed
  rw [plannerConns_succ lib hord]
  cases type with
  | random => exact hsorted
  | band => exact hsorted
  | hops => exact hsorted
  | hub => exact hsorted

/-- **Then one numbering belongs to the orders of all calls.** -/
theorem PlannerForests.stable (h : PlannerForests g rttype) (lib : Libc) (n : ℕ) (seed : ℤ) :
    PlannerStable lib g n rttype seed := by
  intro type hord
  obtain ⟨lev, hforest, hblocked⟩ := h type hord
  exact ⟨lev, fun i _ => compatible_of_forests hforest hblocked
    (plannerConns_perm lib g rttype seed (i + 1)) (plannerConns_sorted lib hord seed i)⟩

/-! ### Libraries that change the order -/

/-- A C library whose `qsort` returns what `pick` chooses, where that is sorted. -/
noncomputable def Libc.picking (rand : ℤ → ℕ → ℕ)
    (pick : {α : Type} → (α → α → ℤ) → List α → List α) : Libc := by
  classical
  exact
  { rand := rand
    qsort := fun {α} cmp l =>
      if (pick cmp l).Perm l ∧ (TotalCmp cmp → (pick cmp l).Pairwise fun a b => cmp a b ≤ 0) then
        pick cmp l
      else (Libc.insertion rand).qsort cmp l
    qsort_perm := fun {α} cmp l => by
      split
      · rename_i h
        exact h.1
      · exact (Libc.insertion rand).qsort_perm cmp l
    qsort_sorted := fun {α} cmp l hcmp => by
      split
      · rename_i h
        exact h.2 hcmp
      · exact (Libc.insertion rand).qsort_sorted cmp l hcmp }

theorem Libc.picking_qsort {rand : ℤ → ℕ → ℕ}
    {pick : {α : Type} → (α → α → ℤ) → List α → List α} {α : Type} {cmp : α → α → ℤ} {l : List α}
    (hperm : (pick cmp l).Perm l) (hsorted : (pick cmp l).Pairwise fun a b => cmp a b ≤ 0) :
    (Libc.picking rand pick).qsort cmp l = pick cmp l := by
  classical
  exact if_pos ⟨hperm, fun _ => hsorted⟩

/-- The order `first` for the connections in the order `base`, and `base` for any other order. -/
noncomputable def swapOrders (base first : List OverlayEdge) {α : Type} (_ : α → α → ℤ)
    (l : List α) : List α := by
  classical
  exact if h : α = OverlayEdge then
      cast (congrArg List h.symm) (if cast (congrArg List h) l = base then first else base)
    else l

theorem swapOrders_eq {base first : List OverlayEdge} {cmp : OverlayEdge → OverlayEdge → ℤ}
    (l : List OverlayEdge) [Decidable (l = base)] :
    swapOrders base first cmp l = if l = base then first else base := by
  rw [swapOrders, dif_pos rfl, cast_eq, cast_eq]
  congr

/-- The two orders of such a library take turns. -/
theorem swapOrders_turns {base first : List OverlayEdge} (conns : List OverlayEdge)
    [Decidable (conns = base)] (cmp : OverlayEdge → OverlayEdge → ℤ) (hne : base ≠ first) :
    (swapOrders base first cmp conns = base ∧
        swapOrders base first cmp (swapOrders base first cmp conns) = first) ∨
      (swapOrders base first cmp conns = first ∧
        swapOrders base first cmp (swapOrders base first cmp conns) = base) := by
  classical
  by_cases h : conns = base
  · refine Or.inr ⟨by rw [swapOrders_eq, if_pos h], ?_⟩
    rw [swapOrders_eq conns, if_pos h, swapOrders_eq, if_neg hne.symm]
  · refine Or.inl ⟨by rw [swapOrders_eq, if_neg h], ?_⟩
    rw [swapOrders_eq conns, if_neg h, swapOrders_eq, if_pos rfl]

/-! ### A connection as early as it can be -/

/-- The comparator of a type that sorts. -/
theorem exists_comparator (g : OverlayGraph) (hrandom : type ≠ OrderedLinkRouterType.random) :
    ∃ cmp : OverlayEdge → OverlayEdge → ℤ, (∀ a b, cmp a b ≤ 0 ↔ ComesBefore g type a b) ∧
      ∀ (lib : Libc) (seed : ℤ) (conns : List OverlayEdge),
        spanningTreeOrder lib { g with conns := conns } type seed = lib.qsort cmp conns := by
  cases type with
  | random => exact absurd rfl hrandom
  | band =>
      exact ⟨overlayEdgeSortByWidth, fun _ _ => overlayEdgeSortByWidth_le, fun _ _ _ => rfl⟩
  | hops =>
      exact ⟨overlayEdgeSortByLength, fun _ _ => overlayEdgeSortByLength_le, fun _ _ _ => rfl⟩
  | hub =>
      exact ⟨overlayEdgeSortByDegree g, fun _ _ => overlayEdgeSortByDegree_le, fun _ _ _ => rfl⟩

/-- In a sorted list a connection can be moved before all others that may come after it. -/
theorem exists_first {base : List OverlayEdge} (hsorted : base.Pairwise (ComesBefore g type))
    {e : OverlayEdge} (he : e ∈ base) :
    ∃ pre post, (pre ++ e :: post).Perm base ∧ (pre ++ e :: post).Pairwise (ComesBefore g type) ∧
      ∀ x ∈ pre, ¬ ComesBefore g type e x := by
  classical
  have hmem : e ∈ base.filter fun x => ComesBefore g type e x :=
    List.mem_filter.2 ⟨he, by simpa using comesBefore_refl g type e⟩
  have hpre : ∀ x ∈ base.filter (fun x => ¬ ComesBefore g type e x), ¬ ComesBefore g type e x :=
    fun x hx => by simpa using (List.mem_filter.1 hx).2
  have hpost : ∀ x ∈ (base.filter fun x => ComesBefore g type e x).erase e,
      ComesBefore g type e x :=
    fun x hx => by simpa using (List.mem_filter.1 (List.mem_of_mem_erase hx)).2
  have hto : ∀ x, ¬ ComesBefore g type e x → ComesBefore g type x e := fun x hx =>
    (comesBefore_total g type x e).resolve_right hx
  refine ⟨base.filter fun x => ¬ ComesBefore g type e x,
    (base.filter fun x => ComesBefore g type e x).erase e, ?_, ?_, hpre⟩
  · refine ((List.perm_cons_erase hmem).symm.append_left _).trans ?_
    refine List.perm_append_comm.trans ?_
    simpa using List.filter_append_perm (fun x => decide (ComesBefore g type e x)) base
  · rw [List.pairwise_append, List.pairwise_cons]
    refine ⟨hsorted.filter _, ⟨hpost, (hsorted.filter _).sublist List.erase_sublist⟩, ?_⟩
    intro x hx y hy
    rcases List.mem_cons.1 hy with rfl | hy
    · exact hto x (hpre x hx)
    · exact (hto x (hpre x hx)).trans (hpost y hy)

theorem listSwap_self {α : Type} (v : List α) (i : ℕ) : listSwap v i i = v := by
  rw [listSwap]
  split
  · rename_i a b ha hb
    obtain ⟨hi, rfl⟩ := List.getElem?_eq_some_iff.1 ha
    rw [hb, Option.some.injEq] at ha
    subst ha
    rw [List.set_set, List.set_getElem_self]
  · rfl

/-- A shuffle that exchanges the first element with the one at `p`. -/
theorem vectorShuffle_exchange {α : Type} (qsortLib : (ℤ → ℕ → ℕ) → Libc)
    (hrand : ∀ rand, (qsortLib rand).rand = rand) {p : ℕ} {v : List α} (hp : p < v.length) :
    vectorShuffle (qsortLib fun _ i => if i = 0 then p else i) 0 v = listSwap v 0 p := by
  obtain ⟨m, hm⟩ : ∃ m, v.length = m + 1 := ⟨v.length - 1, by omega⟩
  have hstay : ∀ (is : List ℕ) (w : List α), (∀ i ∈ is, i < v.length ∧ i ≠ 0) →
      is.foldl (fun w i => listSwap w i ((if i = 0 then p else i) % v.length)) w = w := by
    intro is
    induction is with
    | nil => exact fun _ _ => rfl
    | cons i is ih =>
        intro w his
        obtain ⟨hlt, hne⟩ := his i List.mem_cons_self
        rw [List.foldl_cons, if_neg hne, Nat.mod_eq_of_lt hlt, listSwap_self]
        exact ih w fun j hj => his j (List.mem_cons_of_mem _ hj)
  rw [vectorShuffle, hrand, hm, List.range_succ_eq_map, List.foldl_cons, if_pos rfl, ← hm,
    Nat.mod_eq_of_lt hp]
  refine hstay _ _ fun i hi => ?_
  obtain ⟨j, hj, rfl⟩ := List.mem_map.1 hi
  have := List.mem_range.1 hj
  omega

/-- Exchanging two elements twice changes nothing, and the first time one of them comes first. -/
theorem listSwap_first {α : Type} {v : List α} {p : ℕ} {e : α} (he : v[p]? = some e) :
    (∃ post, listSwap v 0 p = e :: post) ∧ listSwap (listSwap v 0 p) 0 p = v := by
  cases v with
  | nil => cases he
  | cons a v =>
      cases p with
      | zero =>
          rw [List.getElem?_cons_zero, Option.some.injEq] at he
          subst he
          rw [listSwap_self, listSwap_self]
          exact ⟨⟨v, rfl⟩, rfl⟩
      | succ p =>
          rw [List.getElem?_cons_succ] at he
          obtain ⟨hp, rfl⟩ := List.getElem?_eq_some_iff.1 he
          have hswap : listSwap (a :: v) 0 (p + 1) = v[p] :: v.set p a := by
            simp only [listSwap, List.getElem?_cons_zero, List.getElem?_cons_succ, he,
              List.set_cons_zero, List.set_cons_succ]
          have hnext : (v.set p a)[p]? = some a := List.getElem?_set_self hp
          refine ⟨⟨_, hswap⟩, ?_⟩
          rw [hswap]
          simp only [listSwap, List.getElem?_cons_zero, List.getElem?_cons_succ, hnext,
            List.set_cons_zero, List.set_cons_succ, List.set_set, List.set_getElem_self]

/-- The order in which a C library leaves the connections that is compared with the others: sorted,
or as they are. -/
def baseOrder (g : OverlayGraph) (type : OrderedLinkRouterType) : List OverlayEdge :=
  spanningTreeOrder (Libc.insertion fun _ i => if i = 0 then 0 else i) g type 0

/-- The two orders are among those of the first two calls. -/
def TwoOrders (lib : Libc) (g : OverlayGraph) (rttype : GxpRoutingType)
    (base first : List OverlayEdge) : Prop :=
  ∀ es, es = base ∨ es = first → ∃ i < 2, plannerConns lib g rttype 0 (i + 1) = es

/-- A shuffle can exchange a connection with the first one, and exchange them back in the next
call. -/
theorem exists_early_random (hord : rttype.ordered = some OrderedLinkRouterType.random)
    {e : OverlayEdge} (he : e ∈ g.conns) :
    ∃ lib post, TwoOrders lib g rttype (baseOrder g OrderedLinkRouterType.random) (e :: post) := by
  obtain ⟨p, hp⟩ := List.mem_iff_getElem?.1 he
  have hlt : p < g.conns.length := (List.getElem?_eq_some_iff.1 hp).1
  obtain ⟨⟨post, hfirst⟩, hback⟩ := listSwap_first hp
  have hbase : baseOrder g OrderedLinkRouterType.random = g.conns := by
    have hshuffle := vectorShuffle_exchange Libc.insertion (fun _ => rfl) (Nat.zero_lt_of_lt hlt)
    exact hshuffle.trans (listSwap_self _ _)
  refine ⟨Libc.insertion fun _ i => if i = 0 then p else i, post, ?_⟩
  have hone : plannerConns (Libc.insertion fun _ i => if i = 0 then p else i) g rttype 0 1 =
      e :: post := by
    rw [plannerConns_succ _ hord, ← hfirst]
    exact vectorShuffle_exchange Libc.insertion (fun _ => rfl) hlt
  have htwo : plannerConns (Libc.insertion fun _ i => if i = 0 then p else i) g rttype 0 2 =
      g.conns := by
    rw [plannerConns_succ _ hord, hone, ← hback, hfirst]
    refine vectorShuffle_exchange Libc.insertion (fun _ => rfl) ?_
    rw [← hfirst, (listSwap_perm _ _ _).length_eq]
    exact hlt
  rintro es (rfl | rfl)
  · exact ⟨1, Nat.one_lt_two, htwo.trans hbase.symm⟩
  · exact ⟨0, Nat.two_pos, hone⟩

/-- A sort that has two sorted orders to choose from can take turns. -/
theorem exists_turns (hord : rttype.ordered = some type)
    (hrandom : type ≠ OrderedLinkRouterType.random) {first : List OverlayEdge}
    (hperm : first.Perm g.conns) (hsorted : first.Pairwise (ComesBefore g type)) :
    ∃ lib, TwoOrders lib g rttype (baseOrder g type) first := by
  obtain ⟨cmp, hcmp, hqsort⟩ := exists_comparator g hrandom
  have hbase : (baseOrder g type).Perm g.conns := spanningTreeOrder_perm _ g type 0
  have hbaseSorted : (baseOrder g type).Pairwise (ComesBefore g type) :=
    spanningTreeOrder_sorted _ g type 0
  classical
  have hlib : ∀ conns : List OverlayEdge, conns.Perm g.conns →
      (Libc.picking (fun _ i => i) (swapOrders (baseOrder g type) first)).qsort cmp conns =
        swapOrders (baseOrder g type) first cmp conns := by
    intro conns hconns
    refine Libc.picking_qsort ?_ ?_
    · rw [swapOrders_eq]
      split
      · exact hperm.trans hconns.symm
      · exact hbase.trans hconns.symm
    · rw [swapOrders_eq]
      split
      · exact hsorted.imp fun h => (hcmp _ _).2 h
      · exact hbaseSorted.imp fun h => (hcmp _ _).2 h
  refine ⟨Libc.picking (fun _ i => i) (swapOrders (baseOrder g type) first), ?_⟩
  have hone := plannerConns_succ (g := g)
    (Libc.picking (fun _ i => i) (swapOrders (baseOrder g type) first)) hord 0 0
  have htwo := plannerConns_succ (g := g)
    (Libc.picking (fun _ i => i) (swapOrders (baseOrder g type) first)) hord 0 1
  rw [hqsort, hlib _ (plannerConns_perm _ g rttype 0 _)] at hone htwo
  rw [hone] at htwo
  by_cases hne : baseOrder g type = first
  · -- there is only one order
    have hall : swapOrders (baseOrder g type) first cmp g.conns = baseOrder g type := by
      rw [swapOrders_eq, ← hne, ite_self]
    rintro es (rfl | rfl)
    · exact ⟨0, Nat.two_pos, hone.trans hall⟩
    · exact ⟨0, Nat.two_pos, (hone.trans hall).trans hne⟩
  · rcases swapOrders_turns g.conns cmp hne with ⟨h₁, h₂⟩ | ⟨h₁, h₂⟩
    · rintro es (rfl | rfl)
      · exact ⟨0, Nat.two_pos, hone.trans h₁⟩
      · exact ⟨1, Nat.one_lt_two, htwo.trans h₂⟩
    · rintro es (rfl | rfl)
      · exact ⟨1, Nat.one_lt_two, htwo.trans h₂⟩
      · exact ⟨0, Nat.two_pos, hone.trans h₁⟩

/-- **A library that puts a connection as early as it can be**, in one of the first two calls. -/
theorem exists_early (hord : rttype.ordered = some type) {e : OverlayEdge} (he : e ∈ g.conns) :
    ∃ lib pre post, (∀ x ∈ pre, ¬ ComesBefore g type e x) ∧
      TwoOrders lib g rttype (baseOrder g type) (pre ++ e :: post) := by
  by_cases hrandom : type = OrderedLinkRouterType.random
  · subst hrandom
    obtain ⟨lib, post, horders⟩ := exists_early_random hord he
    exact ⟨lib, [], post, by simp, horders⟩
  · have hperm : (baseOrder g type).Perm g.conns := spanningTreeOrder_perm _ g type 0
    obtain ⟨pre, post, hfirst, hsorted, hpre⟩ :=
      exists_first (spanningTreeOrder_sorted _ g type 0) (hperm.symm.subset he)
    obtain ⟨lib, horders⟩ := exists_turns hord hrandom (hfirst.trans hperm) hsorted
    exact ⟨lib, pre, post, hpre, horders⟩

/-! ### Exactly when the calls agree -/

/-- The tables of all sources fit together: all calls give the connections the same levels, and the
union of the tables has an acyclic dependency graph. -/
def TablesFit (calls : List (List RouterGraphLink × OverlayRtable)) : Prop :=
  CallsAgree calls ∧ ChannelDependency.Acyclic (ChannelDependency.Dep (simRoutes calls))

/-- **When the orders of all libraries allow a numbering, the connections split into forests that no
order changes.** -/
theorem plannerForests_of_stable (hg : g.Simple n) (hn : 2 ≤ n)
    (h : ∀ lib, PlannerStable lib g n rttype 0) : PlannerForests g rttype := by
  intro type hord
  obtain ⟨asg, levels, hlayers, -⟩ :=
    routerGraphMakeSpanningTrees_spec (Libc.insertion fun _ i => if i = 0 then 0 else i) hg.proper
      type 0
  have hbase : Layers OverlayEdge.ends (baseOrder g type) 0 asg := hlayers
  have hperm : (baseOrder g type).Perm g.conns := spanningTreeOrder_perm _ g type 0
  have hsimple : Simple OverlayEdge.ends (baseOrder g type) := (hg.of_perm hperm).simple
  -- every connection has a library under which it is early, and all of them have the same levels
  have hearly : ∀ e ∈ g.conns, ∃ lev : OverlayEdge → ℕ,
      Compatible OverlayEdge.ends lev (baseOrder g type) ∧
      ∃ pre post, (∀ x ∈ pre, ¬ ComesBefore g type e x) ∧ pre ⊆ g.conns ∧
        Compatible OverlayEdge.ends lev (pre ++ e :: post) := by
    intro e he
    obtain ⟨lib, pre, post, hpre, horders⟩ := exists_early hord he
    obtain ⟨lev, hlev⟩ := h lib type hord
    obtain ⟨i, hi, hibase⟩ := horders _ (Or.inl rfl)
    obtain ⟨j, hj, hjfirst⟩ := horders _ (Or.inr rfl)
    have hsub : (pre ++ e :: post).Perm g.conns :=
      hjfirst ▸ plannerConns_perm lib g rttype 0 (j + 1)
    exact ⟨lev, hibase ▸ hlev i (by omega), pre, post, hpre,
      fun x hx => hsub.subset (List.mem_append_left _ hx), hjfirst ▸ hlev j (by omega)⟩
  obtain ⟨lev, hlev⟩ : ∃ lev : OverlayEdge → ℕ,
      Compatible OverlayEdge.ends lev (baseOrder g type) := by
    obtain ⟨lev, hlev⟩ := h (Libc.insertion fun _ i => if i = 0 then 0 else i) type hord
    have hfirst := hlev 0 (by omega)
    rw [plannerConns_succ _ hord] at hfirst
    exact ⟨lev, hfirst⟩
  have hsame : ∀ lev', Compatible OverlayEdge.ends lev' (baseOrder g type) →
      ∀ x ∈ g.conns, lev' x = lev x := by
    intro lev' hlev' x hx
    obtain ⟨p, hp, rfl⟩ := List.mem_map.1 ((hbase.perm.trans hperm).symm.subset hx)
    rw [(hbase.compatible_iff hsimple).1 hlev' p hp, (hbase.compatible_iff hsimple).1 hlev p hp]
  refine ⟨lev, fun k => ?_, fun e he k hk => ?_⟩
  · rw [← graph_perm ((hperm.filter _).map _)]
    exact hlev.forest k
  · obtain ⟨lev', hbase', pre, post, hpre, hsub, hfirst⟩ := hearly e he
    rw [← hsame lev' hbase' e he] at hk
    refine ⟨pre.filter fun x => lev' x = k, fun x hx => hsub (List.mem_filter.1 hx).1, fun x hx => ?_,
      hfirst.blocked pre e post rfl k hk⟩
    obtain ⟨hmem, hlevel⟩ := List.mem_filter.1 hx
    rw [decide_eq_true_eq] at hlevel
    exact ⟨(hsame lev' hbase' x (hsub hmem)).symm.trans hlevel, hpre x hmem⟩

/-- With fewer than two hosts there is no connection. -/
theorem plannerForests_of_lt (hg : g.Simple n) (hn : n < 2) : PlannerForests g rttype := by
  have hnone : g.conns = [] := by
    refine List.eq_nil_iff_forall_not_mem.2 fun e he => ?_
    have hlt := hg.lt e he
    have hne := hg.ne he
    omega
  refine fun type _ => ⟨fun _ => 0, fun k => ?_, fun e he => ?_⟩
  · rw [hnone]
    exact isAcyclic_nil
  · rw [hnone] at he
    cases he

/-- **The tables of all sources fit together, for every seed and every C library, exactly when the
connections split into forests that no order changes.** -/
theorem rtableSimulatorRun_forests_iff (hg : g.Simple n) (hconn : g.Connected n)
    (htype : rttype ≠ GxpRoutingType.deadlock)
    (hreturns : ∀ lib seed, ∃ calls,
      rtableSimulatorRun lib rttype seed g (List.range n) = Except.ok calls) :
    (∀ lib seed calls, rtableSimulatorRun lib rttype seed g (List.range n) = Except.ok calls →
      TablesFit calls) ↔ PlannerForests g rttype := by
  constructor
  · intro hfit
    rcases lt_or_ge n 2 with hn | hn
    · exact plannerForests_of_lt hg hn
    · refine plannerForests_of_stable hg hn fun lib => ?_
      obtain ⟨calls, hcalls⟩ := hreturns lib 0
      exact (rtableSimulatorRun_agree_iff hg hconn htype hcalls).1 (hfit lib 0 calls hcalls)
  · intro hforests lib seed calls hcalls
    exact (rtableSimulatorRun_agree_iff hg hconn htype hcalls).2 (hforests.stable lib n seed)

/-- With a `qsort` that leaves sorted connections as they are, all types that sort are stable. -/
theorem plannerStable_of_fixes {lib : Libc} (hg : g.Simple n) (seed : ℤ)
    (hfixes : ∀ (cmp : OverlayEdge → OverlayEdge → ℤ) (es : List OverlayEdge),
      es.Pairwise (fun a b => cmp a b ≤ 0) → lib.qsort cmp es = es)
    (hrandom : rttype ≠ GxpRoutingType.orderedRandom) : PlannerStable lib g n rttype seed := by
  intro type hord
  have htype : type ≠ OrderedLinkRouterType.random := by
    rintro rfl
    cases rttype <;> first | exact hrandom rfl | cases hord
  obtain ⟨cmp, hcmp, hqsort⟩ := exists_comparator g htype
  -- the first call sorts, and the others leave its order
  have hsame : ∀ i, plannerConns lib g rttype seed (i + 1) = spanningTreeOrder lib g type seed := by
    intro i
    induction i with
    | zero => exact plannerConns_succ lib hord seed 0
    | succ i ih =>
        have hsorted := spanningTreeOrder_sorted lib g type seed
        rw [plannerConns_succ lib hord, ih, hqsort]
        exact hfixes cmp _ (hsorted.imp fun h => (hcmp _ _).2 h)
  obtain ⟨asg, levels, hlayers, -⟩ := routerGraphMakeSpanningTrees_spec lib hg.proper type seed
  have hsimple : Simple OverlayEdge.ends (spanningTreeOrder lib g type seed) :=
    (hg.of_perm (spanningTreeOrder_perm lib g type seed)).simple
  obtain ⟨lev, hlev⟩ := hlayers.exists_numbering hsimple
  refine ⟨lev, fun i _ => ?_⟩
  rw [hsame]
  exact (hlayers.compatible_iff hsimple).2 hlev

/-- **For `ORDERED_RANDOM` the overlay must not have a cycle.** -/
theorem plannerForests_random (hg : g.Simple n) :
    PlannerForests g GxpRoutingType.orderedRandom ↔
      (graph (g.conns.map OverlayEdge.ends)).IsAcyclic := by
  constructor
  · intro h
    obtain ⟨lev, hforest, hblocked⟩ := h OrderedLinkRouterType.random rfl
    -- nothing comes before a connection in all orders
    have hzero : ∀ e ∈ g.conns, lev e = 0 := by
      intro e he
      by_contra hne
      obtain ⟨pre, -, hpre, hreach⟩ := hblocked e he 0 (Nat.pos_of_ne_zero hne)
      have hnil : pre = [] :=
        List.eq_nil_iff_forall_not_mem.2 fun x hx => (hpre x hx).2 trivial
      rw [hnil, List.map_nil, graph_nil, SimpleGraph.reachable_bot] at hreach
      exact hg.ne he hreach
    have hclass := hforest 0
    rwa [List.filter_eq_self.2 fun e he => by simpa using hzero e he] at hclass
  · intro hacyclic type hord
    refine ⟨fun _ => 0, fun k => ?_, fun e _ k hk => absurd hk (Nat.not_lt_zero k)⟩
    have hsub : (g.conns.filter fun _ => decide (0 = k)) ⊆ g.conns := fun x hx =>
      (List.mem_filter.1 hx).1
    exact hacyclic.anti (graph_mono (List.map_subset _ hsub))

end Forests

/-! ### A triangle -/

theorem gxpAddNodes_simple (n : ℕ) (peerHostnames : ℕ → String) :
    (gxpAddNodes n peerHostnames).Simple n := by
  obtain ⟨hhosts, hconns, hnode⟩ := gxpAddNodes_spec n peerHostnames
  refine ⟨hhosts, by simp [hconns], ?_, fun v e => by simp [hconns, hnode]⟩
  rw [hconns]
  exact ⟨by simp, List.Pairwise.nil⟩

/-- Three hosts, each connected to the two others, by connections of three widths. -/
def bandTriangle : OverlayGraph :=
  overlayGraphInsertConn (overlayGraphInsertConn (overlayGraphInsertConn
    (gxpAddNodes 3 toString) ⟨0, 1, 1, 3⟩) ⟨1, 2, 1, 2⟩) ⟨2, 0, 1, 1⟩

theorem bandTriangle_simple : bandTriangle.Simple 3 :=
  (((gxpAddNodes_simple 3 toString).insertConn (by decide) (by decide) (by decide)).insertConn
    (by decide) (by decide) (by decide)).insertConn (by decide) (by decide) (by decide)

theorem bandTriangle_connected : bandTriangle.Connected 3 := by
  have hall : ∀ u < 3, ∀ v < 3, u = v ∨ bandTriangle.Linked u v := by decide
  intro u hu v hv
  rcases hall u hu v hv with rfl | he
  · exact SimpleGraph.Reachable.refl _
  · exact SimpleGraph.Adj.reachable (bandTriangle_simple.links_adj.2 he)

/-- The two wider connections form the first forest, and the narrowest one the second. -/
theorem bandTriangle_forests : PlannerForests bandTriangle GxpRoutingType.orderedBand := by
  intro type hord
  cases hord
  have hpath : (graph [((0 : ℕ), (1 : ℕ)), (1, 2)]).IsAcyclic := by
    refine isAcyclic_append (isAcyclic_append isAcyclic_nil ?_) ?_
    · rw [graph_nil, SimpleGraph.reachable_bot]
      exact Nat.zero_ne_one
    · -- no edge leaves the first two hosts
      intro hreach
      have hmem := mem_of_reachable (S := {v | v < 2}) (fun u v _ hadj => ?_) Nat.one_lt_two hreach
      · exact absurd hmem (lt_irrefl 2)
      · rw [adj_iff] at hadj
        simp only [List.nil_append, List.mem_singleton, Prod.mk.injEq] at hadj
        show v < 2
        omega
  have hedge : (graph [((2 : ℕ), (0 : ℕ))]).IsAcyclic := by
    refine isAcyclic_append isAcyclic_nil ?_
    rw [graph_nil, SimpleGraph.reachable_bot]
    exact two_ne_zero
  refine ⟨fun e => if e.width = 1 then 1 else 0, fun k => ?_, ?_⟩
  · match k with
    | 0 => exact hpath
    | 1 => exact hedge
    | k + 2 =>
        have hnone : bandTriangle.conns.filter
            (fun x => decide ((if x.width = 1 then 1 else 0) = k + 2)) = [] := by
          refine List.filter_eq_nil_iff.2 fun x _ => ?_
          split <;> simp
        rw [hnone]
        exact isAcyclic_nil
  · intro e he k hk
    have hnarrow : e.width = 1 := by
      by_contra hne
      simp [hne] at hk
    obtain rfl : k = 0 := by simpa [hnarrow] using hk
    obtain rfl : e = ⟨2, 0, 1, 1⟩ := by
      revert e
      decide
    refine ⟨[⟨0, 1, 1, 3⟩, ⟨1, 2, 1, 2⟩], by decide, ?_, ?_⟩
    · intro x hx
      refine ⟨by revert x; decide, ?_⟩
      show ¬ x.width ≤ 1
      revert x
      decide
    · have h₁ : (graph [((0 : ℕ), (1 : ℕ)), (1, 2)]).Adj 2 1 := adj_iff.2 (by decide)
      have h₀ : (graph [((0 : ℕ), (1 : ℕ)), (1, 2)]).Adj 1 0 := adj_iff.2 (by decide)
      exact h₁.reachable.trans h₀.reachable

theorem rtableSimulatorRun_forests_triangle :
    PlannerForests bandTriangle GxpRoutingType.orderedBand ∧ ∀ lib seed calls,
      rtableSimulatorRun lib GxpRoutingType.orderedBand seed bandTriangle (List.range 3) =
        Except.ok calls → TablesFit calls := by
  have hpos : ∀ e ∈ bandTriangle.conns, 0 < e.width ∧ 0 < e.len := by decide
  have htotal : bandTriangle.totalLen < maxDijkstraDist := by decide +kernel
  have htype : GxpRoutingType.orderedBand ≠ GxpRoutingType.deadlock := nofun
  refine ⟨bandTriangle_forests, (rtableSimulatorRun_forests_iff bandTriangle_simple
    bandTriangle_connected htype fun lib seed => ?_).2 bandTriangle_forests⟩
  exact rtableSimulatorRun_ok bandTriangle_simple bandTriangle_connected
    (fun e he => (hpos e he).1) (fun e he => (hpos e he).2) htotal
    fun src hsrc => List.mem_range.1 hsrc

end DLFree

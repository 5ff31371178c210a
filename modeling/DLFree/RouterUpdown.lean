/-
**Up/down routing: the breadth-first and the depth-first trees of `graph/router.c`.**

Both searches number the hosts in the order of discovery.  Every link gets an upper end: the host
of smaller depth, or of smaller number at equal depth, for the breadth-first tree, and the host of
smaller number for the depth-first tree.  A link is at level 0 upwards and at level 1 downwards.

A level holds no cycle because its links all lead one way in the order of the upper ends, and the
routes are complete because every host has a parent above it.

Main definitions:

* `updownAssignIds`, `dfsTraverse`, `updownDfsAssignIds`, `routerGraphMakeUpdownTree` — the
  functions of the source;
* `Oriented` — every link leads up at level 0 and down at level 1, in some order.

Main results:

* `Oriented.deadlockFree`, `complete_of_parents` — what an orientation provides;
* `updownAssignIds_spec`, `updownDfsAssignIds_spec` — **both searches orient the links**, and
  every host has a parent.
-/

import DLFree.Discovery
import DLFree.Router

set_option relaxedAutoImplicit false
set_option autoImplicit false

namespace DLFree

open Discovery

/-! ### The code -/

/-- The other end of a connection. -/
def OverlayEdge.other (conn : OverlayEdge) (node : ℕ) : ℕ :=
  if conn.n0 = node then conn.n1 else conn.n0

/-- The arrays `assignids` and `depths` and the counter `idc`. -/
structure UpdownIds where
  assignids : ℕ → ℤ
  depths : ℕ → ℤ
  idc : ℤ

/-- One connection of `node` in the search of `updown_assign_ids`. -/
def updownVisit (node : ℕ) (st : UpdownIds × List ℕ) (conn : OverlayEdge) : UpdownIds × List ℕ :=
  let (ids, nodeQueue) := st
  let child := conn.other node
  if ids.assignids child ≠ -1 then st
  else
    ({ assignids := Function.update ids.assignids child ids.idc
       depths := Function.update ids.depths child (ids.depths node + 1)
       idc := ids.idc + 1 }, nodeQueue ++ [child])

/-- The breadth-first search of `updown_assign_ids`. -/
def updownSearch (graph : OverlayGraph) : ℕ → List ℕ → UpdownIds → Except Abort UpdownIds
  | _, [], ids => Except.ok ids
  | 0, _ :: _, _ => Except.error Abort.diverges
  | fuel + 1, node :: nodeQueue, ids =>
      let (ids, nodeQueue) := (graph.nodeConns node).foldl (updownVisit node) (ids, nodeQueue)
      updownSearch graph fuel nodeQueue ids

/-- The link whose upper end is `n0`. -/
def linkUpN0 (conn : OverlayEdge) : RouterGraphLink where
  conn := conn
  up := some conn.n0
  down := some conn.n1
  level0 := 1
  level1 := 0

/-- The link whose upper end is `n1`. -/
def linkUpN1 (conn : OverlayEdge) : RouterGraphLink where
  conn := conn
  up := some conn.n1
  down := some conn.n0
  level0 := 0
  level1 := 1

/-- The link that `updown_assign_ids` makes of a connection. -/
def updownLink (ids : UpdownIds) (conn : OverlayEdge) : RouterGraphLink :=
  if ids.depths conn.n0 < ids.depths conn.n1 then linkUpN0 conn
  else if ids.depths conn.n0 > ids.depths conn.n1 then linkUpN1 conn
  else if ids.assignids conn.n0 < ids.assignids conn.n1 then linkUpN0 conn
  else linkUpN1 conn

/-- `updown_assign_ids`. -/
def updownAssignIds (graph : OverlayGraph) (root nnodes : ℕ) :
    Except Abort (List RouterGraphLink) := do
  let init : UpdownIds :=
    { assignids := Function.update (fun _ => -1) root 0, depths := fun _ => 0, idc := 1 }
  let ids ← updownSearch graph nnodes [root] init
  cAssert ((List.range nnodes).all fun i => ids.assignids i ≠ -1)
  Except.ok (graph.conns.map (updownLink ids))

/-- `dfs_traverse`; the state is the array `visited` and the counter `idc`. -/
def dfsTraverse (lib : Libc) (graph : OverlayGraph) :
    ℕ → ℕ → (ℕ → ℤ) × ℤ → Except Abort ((ℕ → ℤ) × ℤ)
  | 0, _, _ => Except.error Abort.diverges
  | fuel + 1, node, (visited, idc) =>
      let conns := lib.qsort overlayEdgeSortByLength (graph.nodeConns node)
      conns.foldlM (fun st conn =>
        let peer := conn.other node
        if st.1 peer ≠ -1 then Except.ok st else dfsTraverse lib graph fuel peer st)
        (Function.update visited node idc, idc + 1)

/-- The link that `updown_dfs_assign_ids` makes of a connection. -/
def updownDfsLink (visited : ℕ → ℤ) (conn : OverlayEdge) : RouterGraphLink :=
  if visited conn.n0 < visited conn.n1 then linkUpN0 conn
  else if visited conn.n0 > visited conn.n1 then linkUpN1 conn
  else routerGraphLinkCreate conn

/-- `updown_dfs_assign_ids`. -/
def updownDfsAssignIds (lib : Libc) (graph : OverlayGraph) (root nnodes : ℕ) :
    Except Abort (List RouterGraphLink) := do
  let (visited, _) ← dfsTraverse lib graph nnodes root (fun _ => -1, 0)
  Except.ok (graph.conns.map (updownDfsLink visited))

/-- `enum updown_router_type`. -/
inductive UpdownRouterType
  | bfs
  | dfs
  deriving DecidableEq, Repr

/-- `updown_choose_root_node`, after `srand(seed)`. -/
def updownChooseRootNode (lib : Libc) (hosts : List OverlayNode) (seed : ℤ) :
    Except Abort OverlayNode :=
  match hosts[lib.rand seed 0 % hosts.length]? with
  | some root => Except.ok root
  | none => Except.error Abort.badAccess

/-- `router_graph_make_updown_tree`. -/
def routerGraphMakeUpdownTree (lib : Libc) (graph : OverlayGraph) (type : UpdownRouterType)
    (seed : ℤ) : Except Abort (List RouterGraphLink) := do
  let root ← updownChooseRootNode lib graph.hosts seed
  match type with
  | UpdownRouterType.bfs => updownAssignIds graph root.pid graph.hosts.length
  | UpdownRouterType.dfs => updownDfsAssignIds lib graph root.pid graph.hosts.length

/-! ### Oriented links -/

/-- Every link leads up at level 0 and down at level 1, where `rank` grows downwards. -/
structure Oriented {β : Type} [LinearOrder β] (links : List RouterGraphLink) (rank : ℕ → β) :
    Prop where
  level : ∀ u v k, LinkLevel links u v k → k = -1 ∨ k = 0 ∨ k = 1
  up : ∀ u v, LinkLevel links u v 0 → rank v < rank u
  down : ∀ u v, LinkLevel links u v 1 → rank u < rank v

/-- **Oriented links are deadlock-free.** -/
theorem Oriented.deadlockFree {β : Type} [LinearOrder β] {links : List RouterGraphLink}
    {rank : ℕ → β} (h : Oriented links rank) : LevelsDeadlockFree links := by
  intro k hk
  by_cases h0 : k = 0
  · subst h0
    refine ChannelDependency.acyclic_of_lt (β := βᵒᵈ) (fun a => OrderDual.toDual (rank a.2)) ?_
    rintro a b ⟨hab, _, _, hb⟩
    rw [OrderDual.toDual_lt_toDual, hab]
    exact h.up _ _ hb
  · refine ChannelDependency.acyclic_of_lt (fun a => rank a.2) ?_
    rintro a b ⟨hab, _, _, hb⟩
    obtain hk' | hk' | rfl := h.level _ _ _ hb
    · omega
    · exact absurd hk' h0
    · rw [hab]
      exact h.down _ _ hb

theorem Legal.up {links : List RouterGraphLink} {u v : ℕ} (h : LinkLevel links v u 0) :
    Legal links 2 (v, 0) (u, 0) := ⟨Nat.zero_lt_two, 0, h, le_rfl, le_rfl⟩

theorem Legal.down {links : List RouterGraphLink} {u v l : ℕ} (hl : l ≤ 1)
    (h : LinkLevel links u v 1) : Legal links 2 (u, l) (v, 1) :=
  ⟨Nat.one_lt_two, 1, h, Int.ofNat_le.2 hl, le_rfl⟩

/-- **Routes over a common root**: it is enough that every host has a parent above it. -/
theorem complete_of_parents {links : List RouterGraphLink} {n : ℕ} (root : ℕ) (m : ℕ → ℕ)
    (hparent : ∀ v < n, v ≠ root →
      ∃ u < n, m u < m v ∧ LinkLevel links v u 0 ∧ LinkLevel links u v 1) :
    LevelsComplete links n 2 := by
  have hup : ∀ k v, m v ≤ k → v < n → Relation.ReflTransGen (Legal links 2) (v, 0) (root, 0) := by
    intro k
    induction k with
    | zero =>
        intro v hm hv
        by_cases hr : v = root
        · exact hr ▸ Relation.ReflTransGen.refl
        · obtain ⟨u, _, hlt, _⟩ := hparent v hv hr
          omega
    | succ k ih =>
        intro v hm hv
        by_cases hr : v = root
        · exact hr ▸ Relation.ReflTransGen.refl
        · obtain ⟨u, hu, hlt, hvu, _⟩ := hparent v hv hr
          exact Relation.ReflTransGen.head (Legal.up hvu) (ih u (by omega) hu)
  have hdown : ∀ k v, m v ≤ k → v < n →
      v = root ∨ Relation.ReflTransGen (Legal links 2) (root, 0) (v, 1) := by
    intro k
    induction k with
    | zero =>
        intro v hm hv
        by_cases hr : v = root
        · exact Or.inl hr
        · obtain ⟨u, _, hlt, _⟩ := hparent v hv hr
          omega
    | succ k ih =>
        intro v hm hv
        by_cases hr : v = root
        · exact Or.inl hr
        · obtain ⟨u, hu, hlt, _, huv⟩ := hparent v hv hr
          refine Or.inr ?_
          rcases ih u (by omega) hu with rfl | hroute
          · exact Relation.ReflTransGen.single (Legal.down zero_le_one huv)
          · exact hroute.tail (Legal.down le_rfl huv)
  intro src hsrc dst hdst _
  have h₁ := hup (m src) src le_rfl hsrc
  rcases hdown (m dst) dst le_rfl hdst with rfl | h₂
  · exact ⟨0, h₁⟩
  · exact ⟨1, h₁.trans h₂⟩

/-! ### The breadth-first search -/

section Bfs

variable {g : OverlayGraph} {n root : ℕ}

theorem OverlayGraph.Simple.adj_other (hg : g.Simple n) {u : ℕ} {conn : OverlayEdge}
    (hc : conn ∈ g.nodeConns u) : g.links.Adj u (conn.other u) := by
  obtain ⟨hmem, hends⟩ := (hg.nodeConns u conn).1 hc
  rw [hg.links_adj]
  refine ⟨conn, hmem, ?_⟩
  rw [OverlayEdge.other]
  rcases hends with h | h
  · rw [if_pos h]
    exact Or.inl ⟨h, rfl⟩
  · have hne : conn.n0 ≠ u := fun h' => hg.ne hmem (h'.trans h.symm)
    rw [if_neg hne]
    exact Or.inr ⟨rfl, h⟩

theorem OverlayGraph.Simple.exists_conn (hg : g.Simple n) {u v : ℕ} (h : g.links.Adj u v) :
    ∃ conn ∈ g.nodeConns u, conn.other u = v := by
  obtain ⟨e, he, ⟨h0, h1⟩ | ⟨h0, h1⟩⟩ := hg.links_adj.1 h
  · exact ⟨e, (hg.nodeConns u e).2 ⟨he, Or.inl h0⟩, by rw [OverlayEdge.other, if_pos h0, h1]⟩
  · have hne : e.n0 ≠ u := fun h' => hg.ne he (h'.trans h1.symm)
    exact ⟨e, (hg.nodeConns u e).2 ⟨he, Or.inr h1⟩, by rw [OverlayEdge.other, if_neg hne, h0]⟩

/-- The discovered hosts are among the `n` hosts. -/
theorem found_length_le (hg : g.Simple n) (hroot : root < n) {vs : List ℕ} {es : List (ℕ × ℕ)}
    (hf : Found g.links root vs es) : vs.length ≤ n := by
  have hlt : ∀ v ∈ vs, v < n :=
    hf.subset (S := {v | v < n}) hroot fun u v _ hadj => (hg.adj_lt hadj).2
  have hsub : vs ⊆ List.range n := fun v hv => List.mem_range.2 (hlt v hv)
  simpa using (hf.nodup.subperm hsub).length_le

/-- An array holds the number of every discovered host and -1 elsewhere. -/
def Numbers (vs : List ℕ) (a : ℕ → ℤ) : Prop :=
  ∀ v, a v = if v ∈ vs then (vs.idxOf v : ℤ) else -1

theorem Numbers.ne_iff {vs : List ℕ} {a : ℕ → ℤ} (h : Numbers vs a) (v : ℕ) :
    a v ≠ -1 ↔ v ∈ vs := by
  rw [h v]
  split
  · exact iff_of_true (by omega) ‹_›
  · exact iff_of_false (by simp) ‹_›

theorem Numbers.update {vs : List ℕ} {a : ℕ → ℤ} (h : Numbers vs a) {v : ℕ} (hv : v ∉ vs) :
    Numbers (vs ++ [v]) (Function.update a v vs.length) := by
  intro x
  by_cases hx : x = v
  · subst hx
    simp [List.idxOf_append_of_notMem hv]
  · rw [Function.update_of_ne hx, h x]
    by_cases hmem : x ∈ vs
    · simp [hmem, List.idxOf_append_of_mem hmem]
    · simp [hmem, hx]

theorem Numbers.inj {vs : List ℕ} {a : ℕ → ℤ} (h : Numbers vs a) {u v : ℕ} (hu : u ∈ vs)
    (huv : a u = a v) : u = v := by
  have hv : v ∈ vs := (h.ne_iff v).1 (huv ▸ (h.ne_iff u).2 hu)
  rw [h u, h v, if_pos hu, if_pos hv, Nat.cast_inj] at huv
  exact (List.idxOf_inj hu).1 huv

/-- What holds at every point of the search; the hosts in `pending` still have to be looked at. -/
structure UpdownInv (g : OverlayGraph) (root : ℕ) (ids : UpdownIds) (pending vs : List ℕ)
    (es : List (ℕ × ℕ)) : Prop where
  found : Found g.links root vs es
  numbers : Numbers vs ids.assignids
  idc : ids.idc = vs.length
  depth : ∀ e ∈ es, ids.depths e.2 = ids.depths e.1 + 1
  waiting : ∀ v ∈ pending, v ∈ vs
  closed : ∀ u ∈ vs, u ∉ pending → ∀ v, g.links.Adj u v → v ∈ vs

theorem updownVisit_spec (hg : g.Simple n) (hroot : root < n) {ids : UpdownIds} {node : ℕ}
    {nodeQueue vs : List ℕ} {es : List (ℕ × ℕ)}
    (h : UpdownInv g root ids (node :: nodeQueue) vs es) {conn : OverlayEdge}
    (hc : conn ∈ g.nodeConns node) :
    ∃ vs' es', UpdownInv g root (updownVisit node (ids, nodeQueue) conn).1
        (node :: (updownVisit node (ids, nodeQueue) conn).2) vs' es' ∧
      (∀ v ∈ vs, v ∈ vs') ∧ conn.other node ∈ vs' ∧
      (updownVisit node (ids, nodeQueue) conn).2.length + (n - vs'.length) ≤
        nodeQueue.length + (n - vs.length) := by
  have hnode : node ∈ vs := h.waiting node List.mem_cons_self
  by_cases hchild : conn.other node ∈ vs
  · have hvisit : updownVisit node (ids, nodeQueue) conn = (ids, nodeQueue) := by
      simp only [updownVisit]
      rw [if_pos ((h.numbers.ne_iff _).2 hchild)]
    rw [hvisit]
    exact ⟨vs, es, h, fun _ hv => hv, hchild, le_rfl⟩
  · have hvisit : updownVisit node (ids, nodeQueue) conn =
        ({ assignids := Function.update ids.assignids (conn.other node) ids.idc
           depths := Function.update ids.depths (conn.other node) (ids.depths node + 1)
           idc := ids.idc + 1 }, nodeQueue ++ [conn.other node]) := by
      simp only [updownVisit]
      rw [if_neg (mt (h.numbers.ne_iff _).1 hchild)]
    rw [hvisit]
    have hfound := h.found.step hnode hchild (hg.adj_other hc)
    have hlen := found_length_le hg hroot hfound
    refine ⟨vs ++ [conn.other node], es ++ [(node, conn.other node)], ?_, ?_, ?_, ?_⟩
    · refine ⟨hfound, ?_, ?_, ?_, ?_, ?_⟩
      · rw [h.idc]
        exact h.numbers.update hchild
      · simp [h.idc]
      · have hne : ∀ v ∈ vs, v ≠ conn.other node := fun v hv he => hchild (he ▸ hv)
        intro e he
        rcases List.mem_append.1 he with he | he
        · obtain ⟨h₁, h₂, _⟩ := h.found.ends e he
          simp only
          rw [Function.update_of_ne (hne _ h₂), Function.update_of_ne (hne _ h₁)]
          exact h.depth e he
        · rw [List.mem_singleton] at he
          subst he
          simp only
          rw [Function.update_self, Function.update_of_ne (hne _ hnode)]
      · intro v hv
        simp only [List.mem_cons, List.mem_append, List.not_mem_nil, or_false] at hv ⊢
        rcases hv with rfl | hv | rfl
        · exact Or.inl hnode
        · exact Or.inl (h.waiting v (List.mem_cons_of_mem _ hv))
        · exact Or.inr rfl
      · intro u hu hpend v hadj
        simp only [List.mem_cons, List.mem_append, List.not_mem_nil, or_false, not_or] at hu hpend ⊢
        rcases hu with hu | hu
        · exact Or.inl (h.closed u hu (by simp [hpend.1, hpend.2.1]) v hadj)
        · exact absurd hu hpend.2.2
    · exact fun v hv => List.mem_append_left _ hv
    · simp
    · simp only [List.length_append, List.length_singleton] at hlen ⊢
      omega

theorem updownVisits_spec (hg : g.Simple n) (hroot : root < n) {node : ℕ}
    {conns : List OverlayEdge} (hconns : conns ⊆ g.nodeConns node) {ids : UpdownIds}
    {nodeQueue vs : List ℕ} {es : List (ℕ × ℕ)}
    (h : UpdownInv g root ids (node :: nodeQueue) vs es) :
    ∃ vs' es', UpdownInv g root (conns.foldl (updownVisit node) (ids, nodeQueue)).1
        (node :: (conns.foldl (updownVisit node) (ids, nodeQueue)).2) vs' es' ∧
      (∀ v ∈ vs, v ∈ vs') ∧ (∀ conn ∈ conns, conn.other node ∈ vs') ∧
      (conns.foldl (updownVisit node) (ids, nodeQueue)).2.length + (n - vs'.length) ≤
        nodeQueue.length + (n - vs.length) := by
  induction conns generalizing ids nodeQueue vs es with
  | nil => exact ⟨vs, es, h, fun _ hv => hv, by simp, le_rfl⟩
  | cons conn conns ih =>
      obtain ⟨vs₁, es₁, h₁, hsub₁, hmem₁, hlen₁⟩ :=
        updownVisit_spec hg hroot h (hconns List.mem_cons_self)
      obtain ⟨vs₂, es₂, h₂, hsub₂, hmem₂, hlen₂⟩ :=
        ih (fun x hx => hconns (List.mem_cons_of_mem _ hx)) h₁
      refine ⟨vs₂, es₂, h₂, fun v hv => hsub₂ v (hsub₁ v hv), ?_, hlen₂.trans hlen₁⟩
      intro x hx
      rcases List.mem_cons.1 hx with rfl | hx
      · exact hsub₂ _ hmem₁
      · exact hmem₂ x hx

/-- The search ends with every reachable host numbered. -/
theorem updownSearch_spec (hg : g.Simple n) (hroot : root < n) (fuel : ℕ) {ids : UpdownIds}
    {nodeQueue vs : List ℕ} {es : List (ℕ × ℕ)} (h : UpdownInv g root ids nodeQueue vs es)
    (hfuel : nodeQueue.length + (n - vs.length) ≤ fuel) :
    ∃ ids' vs' es', updownSearch g fuel nodeQueue ids = Except.ok ids' ∧
      UpdownInv g root ids' [] vs' es' := by
  induction fuel generalizing ids nodeQueue vs es with
  | zero =>
      obtain rfl := List.length_eq_zero_iff.1 (by omega : nodeQueue.length = 0)
      exact ⟨ids, vs, es, rfl, h⟩
  | succ fuel ih =>
      cases nodeQueue with
      | nil => exact ⟨ids, vs, es, rfl, h⟩
      | cons node nodeQueue =>
          obtain ⟨vs₁, es₁, h₁, _, hmem, hlen⟩ :=
            updownVisits_spec hg hroot (List.Subset.refl _) h
          rw [List.length_cons] at hfuel
          refine @ih _ _ vs₁ es₁ ⟨h₁.found, h₁.numbers, h₁.idc, h₁.depth, ?_, ?_⟩ (by omega)
          · exact fun v hv => h₁.waiting v (List.mem_cons_of_mem _ hv)
          · intro u hu hpend v hadj
            by_cases hun : u = node
            · subst hun
              obtain ⟨conn, hc, rfl⟩ := hg.exists_conn hadj
              exact hmem conn hc
            · exact h₁.closed u hu (by simp [hun, hpend]) v hadj

end Bfs

/-! ### The links of a search -/

section Links

variable {β : Type} [LinearOrder β] {rank : ℕ → β} {f : OverlayEdge → RouterGraphLink}

/-- `f` makes the end of smaller rank the upper end of a connection. -/
def Orients (f : OverlayEdge → RouterGraphLink) (rank : ℕ → β) (e : OverlayEdge) : Prop :=
  (f e = linkUpN0 e ∧ rank e.n0 < rank e.n1) ∨ (f e = linkUpN1 e ∧ rank e.n1 < rank e.n0)

theorem oriented_map {conns : List OverlayEdge} (h : ∀ e ∈ conns, Orients f rank e) :
    Oriented (conns.map f) rank := by
  have key : ∀ u v k, LinkLevel (conns.map f) u v k →
      (k = 0 ∧ rank v < rank u) ∨ (k = 1 ∧ rank u < rank v) := by
    rintro u v k ⟨link, hl, hlevel⟩
    obtain ⟨e, he, rfl⟩ := List.mem_map.1 hl
    rcases h e he with ⟨hf, hlt⟩ | ⟨hf, hlt⟩ <;> rw [hf] at hlevel <;>
      rcases hlevel with ⟨rfl, rfl, rfl⟩ | ⟨rfl, rfl, rfl⟩
    · exact Or.inr ⟨rfl, hlt⟩
    · exact Or.inl ⟨rfl, hlt⟩
    · exact Or.inl ⟨rfl, hlt⟩
    · exact Or.inr ⟨rfl, hlt⟩
  refine ⟨fun u v k hk => ?_, fun u v hk => ?_, fun u v hk => ?_⟩
  · rcases key u v k hk with ⟨h', _⟩ | ⟨h', _⟩
    · exact Or.inr (Or.inl h')
    · exact Or.inr (Or.inr h')
  · rcases key u v 0 hk with ⟨_, h'⟩ | ⟨h', _⟩
    · exact h'
    · exact absurd h' (by decide)
  · rcases key u v 1 hk with ⟨h', _⟩ | ⟨_, h'⟩
    · exact absurd h' (by decide)
    · exact h'

/-- The link between a host and one of smaller rank leads up to the latter. -/
theorem Orients.linkLevel {conns : List OverlayEdge} {e : OverlayEdge} (he : e ∈ conns)
    (h : Orients f rank e) {u v : ℕ} (hends : (e.n0 = u ∧ e.n1 = v) ∨ (e.n0 = v ∧ e.n1 = u))
    (huv : rank u < rank v) : LinkLevel (conns.map f) v u 0 ∧ LinkLevel (conns.map f) u v 1 := by
  have hmem : f e ∈ conns.map f := List.mem_map_of_mem he
  rcases h with ⟨hf, hlt⟩ | ⟨hf, hlt⟩ <;> rw [hf] at hmem <;>
    rcases hends with ⟨rfl, rfl⟩ | ⟨rfl, rfl⟩
  · exact ⟨⟨_, hmem, Or.inr ⟨rfl, rfl, rfl⟩⟩, ⟨_, hmem, Or.inl ⟨rfl, rfl, rfl⟩⟩⟩
  · exact absurd (hlt.trans huv) (lt_irrefl _)
  · exact absurd (hlt.trans huv) (lt_irrefl _)
  · exact ⟨⟨_, hmem, Or.inl ⟨rfl, rfl, rfl⟩⟩, ⟨_, hmem, Or.inr ⟨rfl, rfl, rfl⟩⟩⟩

/-- **A search whose parents have smaller rank gives deadlock-free and complete levels.** -/
theorem levels_of_search (rank : ℕ → β) {g : OverlayGraph} {n root : ℕ} (hg : g.Simple n)
    (hconn : g.Connected n) (hroot : root < n) {vs : List ℕ} {es : List (ℕ × ℕ)}
    (hfound : Found g.links root vs es)
    (hclosed : ∀ u ∈ vs, ∀ v, g.links.Adj u v → v ∈ vs)
    (horients : ∀ e ∈ g.conns, Orients f rank e) (hparent : ∀ e ∈ es, rank e.1 < rank e.2) :
    LevelsDeadlockFree (g.conns.map f) ∧ LevelsComplete (g.conns.map f) n 2 := by
  refine ⟨(oriented_map horients).deadlockFree, ?_⟩
  refine complete_of_parents root (fun v => vs.idxOf v) fun v hv hne => ?_
  have hmem : v ∈ vs := hfound.mem_of_closed hclosed (hconn root hroot v hv)
  rcases hfound.parent v hmem with he | ⟨u, hu⟩
  · exact absurd he hne
  · have hlt : vs.idxOf u < vs.idxOf v := hfound.idxOf_lt _ hu
    obtain ⟨_, _, hadj⟩ := hfound.ends _ hu
    obtain ⟨e, he, hends⟩ := hg.links_adj.1 hadj
    exact ⟨u, (hg.adj_lt hadj).1, hlt, (horients e he).linkLevel he hends (hparent _ hu)⟩

end Links

/-- **`updown_assign_ids` gives deadlock-free and complete levels.** -/
theorem updownAssignIds_spec {g : OverlayGraph} {n root : ℕ} (hg : g.Simple n)
    (hconn : g.Connected n) (hroot : root < n) :
    ∃ f : OverlayEdge → RouterGraphLink, (∀ e, (f e).conn = e) ∧
      (∀ e ∈ g.conns, f e = linkUpN0 e ∨ f e = linkUpN1 e) ∧
      updownAssignIds g root n = Except.ok (g.conns.map f) ∧
      LevelsDeadlockFree (g.conns.map f) ∧ LevelsComplete (g.conns.map f) n 2 := by
  have hinit : UpdownInv g root
      { assignids := Function.update (fun _ => -1) root 0, depths := fun _ => 0, idc := 1 }
      [root] [root] [] := by
    refine ⟨Found.root, ?_, rfl, by simp, by simp, ?_⟩
    · intro v
      by_cases hv : v = root
      · subst hv; simp
      · simp [hv]
    · intro u hu hpend
      exact absurd hu hpend
  obtain ⟨ids, vs, es, hrun, h⟩ := updownSearch_spec hg hroot n hinit (by simp; omega)
  have hclosed : ∀ u ∈ vs, ∀ v, g.links.Adj u v → v ∈ vs := fun u hu v hadj =>
    h.closed u hu List.not_mem_nil v hadj
  have hall : ∀ v < n, v ∈ vs := fun v hv =>
    h.found.mem_of_closed hclosed (hconn root hroot v hv)
  have hassert : (List.range n).all (fun i => ids.assignids i ≠ -1) = true := by
    rw [List.all_eq_true]
    intro i hi
    rw [decide_eq_true_iff]
    exact (h.numbers.ne_iff i).2 (hall i (List.mem_range.1 hi))
  refine ⟨updownLink ids, fun e => ?_, fun e _ => ?_, ?_, ?_⟩
  · rw [updownLink]
    split_ifs <;> rfl
  · rw [updownLink]
    split_ifs
    · exact Or.inl rfl
    · exact Or.inr rfl
    · exact Or.inl rfl
    · exact Or.inr rfl
  · simp only [updownAssignIds, hrun, bind, Except.bind, hassert, cAssert_true]
  · -- the order is by depth first and by number second
    refine levels_of_search (fun v => toLex (ids.depths v, ids.assignids v)) hg hconn hroot
      h.found hclosed (fun e he => ?_) fun e he => ?_
    · obtain ⟨h0, h1⟩ := hg.lt e he
      have hne : ids.assignids e.n0 ≠ ids.assignids e.n1 := fun heq =>
        hg.ne he (h.numbers.inj (hall _ h0) heq)
      simp only [Orients, Prod.Lex.toLex_lt_toLex, updownLink]
      rcases lt_trichotomy (ids.depths e.n0) (ids.depths e.n1) with hd | hd | hd
      · rw [if_pos hd]
        exact Or.inl ⟨rfl, Or.inl hd⟩
      · rw [if_neg hd.not_lt, if_neg hd.not_gt]
        rcases lt_or_gt_of_ne hne with hid | hid
        · rw [if_pos hid]
          exact Or.inl ⟨rfl, Or.inr ⟨hd, hid⟩⟩
        · rw [if_neg hid.not_gt]
          exact Or.inr ⟨rfl, Or.inr ⟨hd.symm, hid⟩⟩
      · rw [if_neg hd.not_gt, if_pos hd]
        exact Or.inr ⟨rfl, Or.inl hd⟩
    · rw [Prod.Lex.toLex_lt_toLex]
      left
      have := h.depth e he
      simp only
      omega

/-! ### The depth-first search -/

/-- The state of `dfs_traverse` when the hosts `vs` are discovered. -/
structure DfsInv (vs : List ℕ) (st : (ℕ → ℤ) × ℤ) : Prop where
  numbers : Numbers vs st.1
  idc : st.2 = vs.length

theorem DfsInv.mark {vs : List ℕ} {st : (ℕ → ℤ) × ℤ} (h : DfsInv vs st) {v : ℕ} (hv : v ∉ vs) :
    DfsInv (vs ++ [v]) (Function.update st.1 v st.2, st.2 + 1) := by
  refine ⟨?_, by simp [h.idc]⟩
  rw [h.idc]
  exact h.numbers.update hv

section Dfs

variable {g : OverlayGraph} {n root : ℕ}

/-- What a call of `dfs_traverse`, or a part of it, adds to the discovered hosts: nothing is lost,
and no edge leaves the new hosts. -/
structure DfsGrows (g : OverlayGraph) (root : ℕ) (vs vs' : List ℕ) (es' : List (ℕ × ℕ))
    (st' : (ℕ → ℤ) × ℤ) : Prop where
  found : Found g.links root vs' es'
  inv : DfsInv vs' st'
  sub : ∀ v ∈ vs, v ∈ vs'
  closed : ∀ u ∈ vs', u ∉ vs → ∀ v, g.links.Adj u v → v ∈ vs'

theorem dfsTraverse_spec (lib : Libc) (hg : g.Simple n) (hroot : root < n) (fuel : ℕ) {node : ℕ}
    {st : (ℕ → ℤ) × ℤ} {vs : List ℕ} {es : List (ℕ × ℕ)} (hinv : DfsInv vs st)
    (hnode : node ∉ vs) (hfound : Found g.links root (vs ++ [node]) es)
    (hfuel : n - vs.length ≤ fuel) :
    ∃ st' vs' es', dfsTraverse lib g fuel node st = Except.ok st' ∧ node ∈ vs' ∧
      DfsGrows g root vs vs' es' st' := by
  induction fuel generalizing node st vs es with
  | zero =>
      have := found_length_le hg hroot hfound
      rw [List.length_append, List.length_singleton] at this
      omega
  | succ fuel ih =>
      have hlen₀ := found_length_le hg hroot hfound
      rw [List.length_append, List.length_singleton] at hlen₀
      -- the loop over the connections of `node`, once `node` is discovered
      have loop : ∀ (conns : List OverlayEdge), conns ⊆ g.nodeConns node →
          ∀ (ws : List ℕ) (fs : List (ℕ × ℕ)) (st : (ℕ → ℤ) × ℤ),
            DfsGrows g root (vs ++ [node]) ws fs st →
            ∃ st' ws' fs', conns.foldlM (fun st conn =>
                let peer := conn.other node
                if st.1 peer ≠ -1 then Except.ok st else dfsTraverse lib g fuel peer st) st =
                  Except.ok st' ∧
              DfsGrows g root (vs ++ [node]) ws' fs' st' ∧ (∀ v ∈ ws, v ∈ ws') ∧
              ∀ conn ∈ conns, conn.other node ∈ ws' := by
        intro conns
        induction conns with
        | nil => exact fun _ ws fs st h => ⟨st, ws, fs, rfl, h, fun _ hv => hv, by simp⟩
        | cons conn conns ihc =>
            intro hconns ws fs st h
            have hsub : conns ⊆ g.nodeConns node := fun x hx => hconns (List.mem_cons_of_mem _ hx)
            have hadj := hg.adj_other (hconns List.mem_cons_self)
            have hnodews : node ∈ ws := h.sub node (by simp)
            rw [List.foldlM_cons]
            by_cases hpeer : conn.other node ∈ ws
            · have hne := (h.inv.numbers.ne_iff _).2 hpeer
              obtain ⟨st', ws', fs', hrun, h', hws, hmem⟩ := ihc hsub ws fs st h
              refine ⟨st', ws', fs', ?_, h', hws, ?_⟩
              · simp only [if_pos hne, bind, Except.bind]
                exact hrun
              · intro x hx
                rcases List.mem_cons.1 hx with rfl | hx
                · exact hws _ hpeer
                · exact hmem x hx
            · have hne := mt (h.inv.numbers.ne_iff _).1 hpeer
              have hle : (vs ++ [node]).length ≤ ws.length :=
                (hfound.nodup.subperm fun v hv => h.sub v hv).length_le
              rw [List.length_append, List.length_singleton] at hle
              obtain ⟨st₁, ws₁, fs₁, hrun₁, hpeer₁, h₁⟩ :=
                ih h.inv hpeer (h.found.step hnodews hpeer hadj) (by omega)
              have hgrow : DfsGrows g root (vs ++ [node]) ws₁ fs₁ st₁ := by
                refine ⟨h₁.found, h₁.inv, fun v hv => h₁.sub v (h.sub v hv), ?_⟩
                intro u hu hnu v hadj'
                by_cases huw : u ∈ ws
                · exact h₁.sub v (h.closed u huw hnu v hadj')
                · exact h₁.closed u hu huw v hadj'
              obtain ⟨st', ws', fs', hrun, h', hws, hmem⟩ := ihc hsub ws₁ fs₁ st₁ hgrow
              refine ⟨st', ws', fs', ?_, h', fun v hv => hws v (h₁.sub v hv), ?_⟩
              · simp only [if_neg hne, hrun₁, bind, Except.bind]
                exact hrun
              · intro x hx
                rcases List.mem_cons.1 hx with rfl | hx
                · exact hws _ hpeer₁
                · exact hmem x hx
      have hperm := lib.qsort_perm overlayEdgeSortByLength (g.nodeConns node)
      obtain ⟨st', ws', fs', hrun, h', _, hmem⟩ := loop _ hperm.subset (vs ++ [node]) es _
        ⟨hfound, hinv.mark hnode, fun _ hv => hv, fun u hu hnu => absurd hu hnu⟩
      refine ⟨st', ws', fs', hrun, h'.sub node (by simp), h'.found, h'.inv,
        fun v hv => h'.sub v (List.mem_append_left _ hv), ?_⟩
      intro u hu hnu v hadj
      by_cases hun : u = node
      · subst hun
        obtain ⟨conn, hc, rfl⟩ := hg.exists_conn hadj
        exact hmem conn (hperm.symm.subset hc)
      · exact h'.closed u hu (by simp [hun, hnu]) v hadj

end Dfs

/-- **`updown_dfs_assign_ids` gives deadlock-free and complete levels.** -/
theorem updownDfsAssignIds_spec (lib : Libc) {g : OverlayGraph} {n root : ℕ} (hg : g.Simple n)
    (hconn : g.Connected n) (hroot : root < n) :
    ∃ f : OverlayEdge → RouterGraphLink, (∀ e, (f e).conn = e) ∧
      (∀ e ∈ g.conns, f e = linkUpN0 e ∨ f e = linkUpN1 e) ∧
      updownDfsAssignIds lib g root n = Except.ok (g.conns.map f) ∧
      LevelsDeadlockFree (g.conns.map f) ∧ LevelsComplete (g.conns.map f) n 2 := by
  obtain ⟨⟨visited, idc⟩, vs, es, hrun, _, h⟩ :=
    dfsTraverse_spec lib hg hroot n (show DfsInv [] (fun _ => -1, 0) from ⟨fun v => by simp, rfl⟩)
      List.not_mem_nil Found.root (by simp)
  have hclosed : ∀ u ∈ vs, ∀ v, g.links.Adj u v → v ∈ vs := fun u hu v hadj =>
    h.closed u hu List.not_mem_nil v hadj
  have hall : ∀ v < n, v ∈ vs := fun v hv =>
    h.found.mem_of_closed hclosed (hconn root hroot v hv)
  have hnum : Numbers vs visited := h.inv.numbers
  have horients : ∀ e ∈ g.conns, Orients (updownDfsLink visited) visited e := by
    intro e he
    obtain ⟨h0, h1⟩ := hg.lt e he
    have hne : visited e.n0 ≠ visited e.n1 := fun heq => hg.ne he (hnum.inj (hall _ h0) heq)
    simp only [Orients, updownDfsLink]
    rcases lt_or_gt_of_ne hne with hlt | hlt
    · rw [if_pos hlt]
      exact Or.inl ⟨rfl, hlt⟩
    · rw [if_neg hlt.not_gt, if_pos hlt]
      exact Or.inr ⟨rfl, hlt⟩
  refine ⟨updownDfsLink visited, fun e => ?_, fun e he => ?_, ?_, ?_⟩
  · rw [updownDfsLink]
    split_ifs <;> rfl
  · exact (horients e he).imp And.left And.left
  · simp only [updownDfsAssignIds, hrun, bind, Except.bind]
  · refine levels_of_search visited hg hconn hroot h.found hclosed horients fun e he => ?_
    · obtain ⟨h1, h2, _⟩ := h.found.ends e he
      have hlt := h.found.idxOf_lt e he
      rw [hnum e.1, hnum e.2, if_pos h1, if_pos h2]
      exact_mod_cast hlt

/-- **Every link that `router_graph_make_updown_tree` returns leads up at one end and down at the
other.** -/
theorem routerGraphMakeUpdownTree_oriented {lib : Libc} {g : OverlayGraph} {n : ℕ}
    (hg : g.Simple n) (hconn : g.Connected n) {type : UpdownRouterType} {seed : ℤ}
    {links : List RouterGraphLink}
    (hrun : routerGraphMakeUpdownTree lib g type seed = Except.ok links) :
    ∀ link ∈ links, ∃ e, link = linkUpN0 e ∨ link = linkUpN1 e := by
  obtain ⟨root, hroot, hrun⟩ := bind_eq_ok.1 hrun
  have hpid : root.pid < n := by
    rw [updownChooseRootNode] at hroot
    split at hroot
    next host hhost =>
      cases hroot
      have hmem := List.mem_map_of_mem (f := OverlayNode.pid) (List.mem_of_getElem? hhost)
      rw [hg.hosts] at hmem
      exact List.mem_range.1 hmem
    next => cases hroot
  rw [hg.length_hosts] at hrun
  have hmap : ∀ f : OverlayEdge → RouterGraphLink,
      (∀ e ∈ g.conns, f e = linkUpN0 e ∨ f e = linkUpN1 e) →
      ∀ link ∈ g.conns.map f, ∃ e, link = linkUpN0 e ∨ link = linkUpN1 e := by
    intro f hf link hlink
    obtain ⟨e, he, rfl⟩ := List.mem_map.1 hlink
    exact ⟨e, hf e he⟩
  cases type with
  | bfs =>
      have hrun : updownAssignIds g root.pid n = Except.ok links := hrun
      obtain ⟨f, -, hf, hrun', -⟩ := updownAssignIds_spec hg hconn hpid
      rw [hrun, Except.ok.injEq] at hrun'
      exact hrun' ▸ hmap f hf
  | dfs =>
      have hrun : updownDfsAssignIds lib g root.pid n = Except.ok links := hrun
      obtain ⟨f, -, hf, hrun', -⟩ := updownDfsAssignIds_spec lib hg hconn hpid
      rw [hrun, Except.ok.injEq] at hrun'
      exact hrun' ▸ hmap f hf

end DLFree

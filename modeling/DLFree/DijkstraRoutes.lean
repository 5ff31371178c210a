/-
**The routes that leveled Dijkstra finds.**

The invariant of the search says that the states extracted so far are the closest ones, that a
state is no farther when its level is higher, and that every state that has been reached knows an
extracted predecessor from which it is one link away.  At the end the walk from a destination back
to the source follows the predecessors.  Its distance falls at every step, so it ends at the
source; and because a higher level of a host is never farther, it never visits a host twice.

A state next to a reached state is reached too: its route visits no host twice, so it is shorter
than all connections together.  Hence the search finds a route whenever a legal one exists.

Main definitions:

* `DijkstraInv` — what holds before and after every extraction;
* `BackPath` — the walk from a state back to the source;
* `RoutesOk` — what the table of a source has to satisfy.

Main results:

* `DijkstraInv.extract` — one extraction with its relaxations keeps the invariant;
* `BackPath.nodup`, `BackPath.levels` — **routes are simple and their levels never decrease**;
* `leveledDijkstraRun_spec` — **the table has a route to every host**.
-/

import DLFree.Dijkstra
import Mathlib.Data.Finset.Prod

set_option relaxedAutoImplicit false
set_option autoImplicit false

namespace DLFree

open LeveledDijkstra

/-! ### The invariant of the search -/

/-- What holds before and after every extraction of `compute`. -/
structure DijkstraInv (links : List RouterGraphLink) (n numLevels src : ℕ)
    (dijk : LeveledDijkstra) : Prop where
  net : dijk.Net links n numLevels
  src_dist : ∀ l < numLevels, dijk.dist src l = 0
  src_prev : ∀ l, dijk.prev src l = none
  nonneg : ∀ v l, 0 ≤ dijk.dist v l
  back : ∀ v < n, ∀ l < numLevels, dijk.dist v l < maxDijkstraDist → v = src ∨
    ∃ u l', dijk.prev v l = some u ∧ dijk.prevLevel v l = some l' ∧ u < n ∧ l' < numLevels ∧
      dijk.reached u l' = true ∧ (l' : ℤ) ≤ dijk.levels u v ∧ dijk.levels u v ≤ l ∧
      dijk.dist v l = dijk.dist u l' + dijk.metrics u v
  frontier : ∀ u l' v l, dijk.reached u l' = true → v < n → l < numLevels →
    dijk.reached v l = false → dijk.dist u l' ≤ dijk.dist v l
  antitone : ∀ v l l', l ≤ l' → l' < numLevels → dijk.dist v l' ≤ dijk.dist v l
  relaxed : ∀ u l' v l, dijk.reached u l' = true → v < n → l < numLevels →
    (l' : ℤ) ≤ dijk.levels u v → dijk.levels u v ≤ l →
    dijk.dist v l ≤ dijk.dist u l' + dijk.metrics u v
  near : ∀ u l, dijk.reached u l = true →
    u < n ∧ l < numLevels ∧ dijk.dist u l < maxDijkstraDist

section Inv

variable {links : List RouterGraphLink} {n numLevels src : ℕ} {dijk : LeveledDijkstra}

theorem LeveledDijkstra.Net.metric_pos (h : dijk.Net links n numLevels)
    (hlen : ∀ link ∈ links, 0 < link.conn.len) {u v : ℕ} (hk : 0 ≤ dijk.levels u v) :
    0 < dijk.metrics u v := by
  obtain ⟨link, hl, hm, _⟩ := h.exists_link hk
  rw [hm]
  exact hlen link hl

/-- No link leads from a host to itself. -/
theorem LeveledDijkstra.Net.self_neg (h : dijk.Net links n numLevels)
    (hloop : ∀ link ∈ links, link.conn.n0 ≠ link.conn.n1) (u : ℕ) : dijk.levels u u < 0 := by
  by_contra hge
  obtain ⟨link, hl, _, ⟨h0, h1⟩ | ⟨h0, h1⟩⟩ := h.exists_link (not_lt.1 hge)
  · exact hloop link hl (h0.trans h1.symm)
  · exact hloop link hl (h0.trans h1.symm)

theorem dijkstraInv_init (src : ℕ) (hnet : dijk.Net links n numLevels) (hfresh : dijk.Fresh) :
    DijkstraInv links n numLevels src
      { dijk with dist := fun p l => if p = src ∧ l < dijk.numLevels then 0 else dijk.dist p l } := by
  have hmax : (0 : ℚ) ≤ maxDijkstraDist := by
    norm_num [maxDijkstraDist]
  have hunreached : ∀ u l, ¬ dijk.reached u l = true := fun u l hr => by
    rw [hfresh.reached] at hr
    cases hr
  refine ⟨⟨hnet.numNodes, hnet.numLevels, hnet.level0, hnet.level1, hnet.metric, hnet.width,
      hnet.absent⟩,
    fun l hl => ?_, fun l => hfresh.prev _ _, fun v l => ?_, fun v hv l hl hd => ?_,
    fun u l' v l hr => absurd hr (hunreached u l'), fun v l l' hll hl' => ?_,
    fun u l' v l hr => absurd hr (hunreached u l'), fun u l hr => absurd hr (hunreached u l)⟩
  · simp [hnet.numLevels, hl]
  · dsimp only
    split
    · exact le_rfl
    · rw [hfresh.dist]
      exact hmax
  · by_cases hvs : v = src
    · exact Or.inl hvs
    · simp only [hvs, false_and, if_false, hfresh.dist] at hd
      exact absurd hd (lt_irrefl _)
  · have hl : l < dijk.numLevels := hnet.numLevels ▸ hll.trans_lt hl'
    have hl'' : l' < dijk.numLevels := hnet.numLevels ▸ hl'
    simp only [hl, hl'', and_true, hfresh.dist]
    exact le_rfl

/-- The state `(u, level)` has been extracted, as one of the nearest that were left. -/
structure Extracted (n numLevels : ℕ) (dijk dijk' : LeveledDijkstra) (u level : ℕ) : Prop where
  eq : dijk' = { dijk with reached := setAt dijk.reached u level true }
  node : u < n
  lvl : level < numLevels
  new : dijk.reached u level = false
  near : dijk.dist u level < maxDijkstraDist
  least : ∀ v < n, ∀ l < numLevels, dijk.reached v l = false → dijk.dist u level ≤ dijk.dist v l

theorem DijkstraInv.extracted (h : DijkstraInv links n numLevels src dijk)
    {dijk' : LeveledDijkstra} {u level : ℕ}
    (hex : extractMinNode dijk = some ((u, level), dijk')) :
    Extracted n numLevels dijk dijk' u level := by
  obtain ⟨heq, hun, hln, hnew, hmax, hmin⟩ := extractMinNode_some hex
  rw [h.net.numNodes] at hun hmin
  rw [h.net.numLevels] at hln hmin
  exact ⟨heq, hun, hln, hnew, hmax, hmin⟩

section Extract

variable {dijk' : LeveledDijkstra} {u level : ℕ}

theorem Extracted.reached_iff (hx : Extracted n numLevels dijk dijk' u level) (v l : ℕ) :
    dijk'.reached v l = true ↔ (v = u ∧ l = level) ∨ dijk.reached v l = true := by
  rw [hx.eq]
  by_cases hvl : v = u ∧ l = level
  · simp [setAt, hvl]
  · simp [setAt, hvl]

theorem Extracted.net (hx : Extracted n numLevels dijk dijk' u level)
    (h : dijk.Net links n numLevels) : dijk'.Net links n numLevels := by
  rw [hx.eq]
  exact ⟨h.numNodes, h.numLevels, h.level0, h.level1, h.metric, h.width, h.absent⟩

/-- Everything extracted so far is at most as far as the extracted state. -/
theorem DijkstraInv.dist_le (h : DijkstraInv links n numLevels src dijk)
    (hx : Extracted n numLevels dijk dijk' u level) {v l : ℕ} (hr : dijk'.reached v l = true) :
    dijk.dist v l ≤ dijk.dist u level := by
  rcases (hx.reached_iff v l).1 hr with ⟨rfl, rfl⟩ | hr
  · exact le_rfl
  · exact h.frontier v l u level hr hx.node hx.lvl hx.new

/-- The states that get a new distance. -/
theorem DijkstraInv.improves_iff (h : DijkstraInv links n numLevels src dijk)
    (hx : Extracted n numLevels dijk dijk' u level) (v l : ℕ) :
    dijk'.improves u level (dijk'.targets u level) v l = true ↔
      (v < n ∧ l < numLevels ∧ (level : ℤ) ≤ dijk.levels u v ∧ dijk.levels u v ≤ l) ∧
        dijk.dist u level + dijk.metrics u v < dijk.dist v l := by
  have hnet := hx.net h.net
  rw [improves, Bool.and_eq_true, targets, decide_eq_true_eq, decide_eq_true_eq, hnet.numNodes,
    hnet.numLevels, hx.eq]

theorem Extracted.relaxed_dist (hx : Extracted n numLevels dijk dijk' u level) (v l : ℕ) :
    (dijk'.relaxed u level).dist v l =
      if dijk'.improves u level (dijk'.targets u level) v l = true then
        dijk.dist u level + dijk.metrics u v
      else dijk.dist v l := by
  rw [hx.eq]
  rfl

theorem DijkstraInv.relaxed_le (h : DijkstraInv links n numLevels src dijk)
    (hx : Extracted n numLevels dijk dijk' u level) (v l : ℕ) :
    (dijk'.relaxed u level).dist v l ≤ dijk.dist v l := by
  rw [hx.relaxed_dist]
  split
  · rename_i hi
    exact ((h.improves_iff hx v l).1 hi).2.le
  · exact le_rfl

/-- The links that are relaxed have positive lengths. -/
theorem DijkstraInv.improves_pos (h : DijkstraInv links n numLevels src dijk)
    (hlen : ∀ link ∈ links, 0 < link.conn.len) (hx : Extracted n numLevels dijk dijk' u level)
    {v l : ℕ} (hi : dijk'.improves u level (dijk'.targets u level) v l = true) :
    0 < dijk.metrics u v := by
  obtain ⟨⟨_, _, hlv, _⟩, _⟩ := (h.improves_iff hx v l).1 hi
  exact h.net.metric_pos hlen (by omega)

/-- A state that has been extracted keeps its distance. -/
theorem DijkstraInv.improves_new (h : DijkstraInv links n numLevels src dijk)
    (hlen : ∀ link ∈ links, 0 < link.conn.len) (hx : Extracted n numLevels dijk dijk' u level)
    {v l : ℕ} (hi : dijk'.improves u level (dijk'.targets u level) v l = true) :
    dijk'.reached v l = false := by
  by_contra hr
  have hle := h.dist_le hx (v := v) (l := l) (by simpa using hr)
  have hpos := h.improves_pos hlen hx hi
  have hlt := ((h.improves_iff hx v l).1 hi).2
  linarith

theorem DijkstraInv.relaxed_keep (h : DijkstraInv links n numLevels src dijk)
    (hlen : ∀ link ∈ links, 0 < link.conn.len) (hx : Extracted n numLevels dijk dijk' u level)
    {v l : ℕ} (hr : dijk'.reached v l = true) :
    (dijk'.relaxed u level).dist v l = dijk.dist v l := by
  rw [hx.relaxed_dist, if_neg]
  intro hi
  rw [h.improves_new hlen hx hi] at hr
  cases hr

theorem DijkstraInv.improves_src (h : DijkstraInv links n numLevels src dijk)
    (hlen : ∀ link ∈ links, 0 < link.conn.len) (hx : Extracted n numLevels dijk dijk' u level)
    (l : ℕ) : ¬ dijk'.improves u level (dijk'.targets u level) src l = true := by
  intro hi
  obtain ⟨⟨_, hl, _⟩, hlt⟩ := (h.improves_iff hx src l).1 hi
  have hsrc := h.src_dist l hl
  have hpos := h.improves_pos hlen hx hi
  have hnonneg := h.nonneg u level
  linarith

/-- The way back from a state leads through the extracted one, or is what it was. -/
theorem DijkstraInv.extract_back (h : DijkstraInv links n numLevels src dijk)
    (hlen : ∀ link ∈ links, 0 < link.conn.len) (hx : Extracted n numLevels dijk dijk' u level)
    {v l : ℕ} (hv : v < n) (hl : l < numLevels)
    (hd : (dijk'.relaxed u level).dist v l < maxDijkstraDist) : v = src ∨
      ∃ x k, (dijk'.relaxed u level).prev v l = some x ∧
        (dijk'.relaxed u level).prevLevel v l = some k ∧ x < n ∧ k < numLevels ∧
        dijk'.reached x k = true ∧ (k : ℤ) ≤ dijk.levels x v ∧ dijk.levels x v ≤ l ∧
        (dijk'.relaxed u level).dist v l =
          (dijk'.relaxed u level).dist x k + dijk.metrics x v := by
  have hureach : dijk'.reached u level = true := (hx.reached_iff u level).2 (Or.inl ⟨rfl, rfl⟩)
  by_cases hi : dijk'.improves u level (dijk'.targets u level) v l = true
  · obtain ⟨⟨_, _, hlv, hvl⟩, _⟩ := (h.improves_iff hx v l).1 hi
    refine Or.inr ⟨u, level, ?_, ?_, hx.node, hx.lvl, hureach, hlv, hvl, ?_⟩
    · change (if _ then _ else _) = _
      rw [if_pos hi]
    · change (if _ then _ else _) = _
      rw [if_pos hi]
    · rw [h.relaxed_keep hlen hx hureach, hx.relaxed_dist, if_pos hi]
  · rw [hx.relaxed_dist, if_neg hi] at hd
    rcases h.back v hv l hl hd with hvs | ⟨x, k, hp, hpl, hxn, hk, hr, hlv, hvl, hdv⟩
    · exact Or.inl hvs
    · have hr' : dijk'.reached x k = true := (hx.reached_iff x k).2 (Or.inr hr)
      refine Or.inr ⟨x, k, ?_, ?_, hxn, hk, hr', hlv, hvl, ?_⟩
      · change (if _ then _ else dijk'.prev v l) = _
        rw [if_neg hi, hx.eq]
        exact hp
      · change (if _ then _ else dijk'.prevLevel v l) = _
        rw [if_neg hi, hx.eq]
        exact hpl
      · rw [h.relaxed_keep hlen hx hr', hx.relaxed_dist, if_neg hi]
        exact hdv

/-- No state that is left is nearer than one that has been extracted. -/
theorem DijkstraInv.extract_frontier (h : DijkstraInv links n numLevels src dijk)
    (hlen : ∀ link ∈ links, 0 < link.conn.len) (hx : Extracted n numLevels dijk dijk' u level)
    {x k v l : ℕ} (hr : dijk'.reached x k = true) (hv : v < n) (hl : l < numLevels)
    (hr' : dijk'.reached v l = false) :
    (dijk'.relaxed u level).dist x k ≤ (dijk'.relaxed u level).dist v l := by
  have hr₀ : dijk.reached v l = false := by
    by_contra hc
    rw [(hx.reached_iff v l).2 (Or.inr (by simpa using hc))] at hr'
    cases hr'
  rw [h.relaxed_keep hlen hx hr, hx.relaxed_dist]
  refine (h.dist_le hx hr).trans ?_
  split
  · rename_i hi
    have hpos := h.improves_pos hlen hx hi
    linarith
  · exact hx.least v hv l hl hr₀

/-- A higher level is not farther. -/
theorem DijkstraInv.extract_antitone (h : DijkstraInv links n numLevels src dijk)
    (hx : Extracted n numLevels dijk dijk' u level) {v l l' : ℕ} (hll : l ≤ l')
    (hl' : l' < numLevels) :
    (dijk'.relaxed u level).dist v l' ≤ (dijk'.relaxed u level).dist v l := by
  by_cases hi : dijk'.improves u level (dijk'.targets u level) v l = true
  · obtain ⟨⟨hv, _, hlv, hvl⟩, _⟩ := (h.improves_iff hx v l).1 hi
    rw [hx.relaxed_dist v l, if_pos hi, hx.relaxed_dist v l']
    split
    · exact le_rfl
    · rename_i hi'
      exact not_lt.1 fun hlt => hi' ((h.improves_iff hx v l').2
        ⟨⟨hv, hl', hlv, hvl.trans (Int.ofNat_le.2 hll)⟩, hlt⟩)
  · rw [hx.relaxed_dist v l, if_neg hi]
    exact (h.relaxed_le hx v l').trans (h.antitone v l l' hll hl')

/-- The links of the states that have been extracted are relaxed. -/
theorem DijkstraInv.extract_relaxed (h : DijkstraInv links n numLevels src dijk)
    (hlen : ∀ link ∈ links, 0 < link.conn.len) (hx : Extracted n numLevels dijk dijk' u level)
    {x k v l : ℕ} (hr : dijk'.reached x k = true) (hv : v < n) (hl : l < numLevels)
    (hxl : (k : ℤ) ≤ dijk.levels x v) (hlv : dijk.levels x v ≤ l) :
    (dijk'.relaxed u level).dist v l ≤
      (dijk'.relaxed u level).dist x k + dijk.metrics x v := by
  rw [h.relaxed_keep hlen hx hr]
  rcases (hx.reached_iff x k).1 hr with ⟨rfl, rfl⟩ | hr
  · rw [hx.relaxed_dist]
    split
    · exact le_rfl
    · rename_i hi
      exact not_lt.1 fun hlt => hi ((h.improves_iff hx v l).2 ⟨⟨hv, hl, hxl, hlv⟩, hlt⟩)
  · exact (h.relaxed_le hx v l).trans (h.relaxed x k v l hr hv hl hxl hlv)

end Extract

/-- **One extraction with its relaxations keeps the invariant**, and no assertion fails. -/
theorem DijkstraInv.extract (h : DijkstraInv links n numLevels src dijk)
    (hlen : ∀ link ∈ links, 0 < link.conn.len)
    (hloop : ∀ link ∈ links, link.conn.n0 ≠ link.conn.n1) {dijk' : LeveledDijkstra} {u level : ℕ}
    (hex : extractMinNode dijk = some ((u, level), dijk')) :
    dijkstraRelax u level dijk' = Except.ok (dijk'.relaxed u level) ∧
      DijkstraInv links n numLevels src (dijk'.relaxed u level) := by
  have hx := h.extracted hex
  have hnet := hx.net h.net
  have hlevels : (dijk'.relaxed u level).levels = dijk.levels := by
    rw [hx.eq]
    rfl
  have hmetrics : (dijk'.relaxed u level).metrics = dijk.metrics := by
    rw [hx.eq]
    rfl
  refine ⟨dijkstraRelax_eq (hnet.self_neg hloop u) fun v l ht hlt => h.improves_new hlen hx ?_,
    ⟨hnet.numNodes, hnet.numLevels, hnet.level0, hnet.level1, hnet.metric, hnet.width,
      hnet.absent⟩, fun l hl => ?_, fun l => ?_, fun v l => ?_, fun v hv l hl hd => ?_,
    fun x k v l hr hv hl hr' => h.extract_frontier hlen hx hr hv hl hr',
    fun v l l' hll hl' => h.extract_antitone hx hll hl',
    fun x k v l hr hv hl hxl hlv => ?_, fun x k hr => ?_⟩
  · rw [improves, ht, Bool.true_and, decide_eq_true hlt]
  · rw [hx.relaxed_dist, if_neg (h.improves_src hlen hx l)]
    exact h.src_dist l hl
  · change (if dijk'.improves u level (dijk'.targets u level) src l = true then some u
      else dijk'.prev src l) = none
    rw [if_neg (h.improves_src hlen hx l), hx.eq]
    exact h.src_prev l
  · rw [hx.relaxed_dist]
    split
    · rename_i hi
      have hpos := h.improves_pos hlen hx hi
      have hnonneg := h.nonneg u level
      linarith
    · exact h.nonneg v l
  · rw [hlevels, hmetrics]
    exact h.extract_back hlen hx hv hl hd
  · rw [hlevels] at hxl hlv
    rw [hmetrics]
    exact h.extract_relaxed hlen hx hr hv hl hxl hlv
  · have hr : dijk'.reached x k = true := hr
    rw [h.relaxed_keep hlen hx hr]
    rcases (hx.reached_iff x k).1 hr with ⟨rfl, rfl⟩ | hr
    · exact ⟨hx.node, hx.lvl, hx.near⟩
    · exact h.near x k hr

/-- The states that have not been extracted. -/
def unreachedCount (n numLevels : ℕ) (dijk : LeveledDijkstra) : ℕ :=
  ((Finset.range n ×ˢ Finset.range numLevels).filter fun pl =>
    dijk.reached pl.1 pl.2 = false).card

/-- The search ends with the invariant and nothing left within reach. -/
theorem dijkstraLoop_spec (hlen : ∀ link ∈ links, 0 < link.conn.len)
    (hloop : ∀ link ∈ links, link.conn.n0 ≠ link.conn.n1) (fuel : ℕ)
    (h : DijkstraInv links n numLevels src dijk) (hfuel : unreachedCount n numLevels dijk ≤ fuel) :
    ∃ dijk', dijkstraLoop fuel dijk = Except.ok dijk' ∧ DijkstraInv links n numLevels src dijk' ∧
      extractMinNode dijk' = none := by
  induction fuel generalizing dijk with
  | zero =>
      cases hex : extractMinNode dijk with
      | none => exact ⟨dijk, by rw [dijkstraLoop, hex], h, hex⟩
      | some r =>
          obtain ⟨⟨u, level⟩, dijk'⟩ := r
          obtain ⟨_, hu, hl, hr, _, _⟩ := extractMinNode_some hex
          rw [h.net.numNodes] at hu
          rw [h.net.numLevels] at hl
          have hmem : (u, level) ∈ (Finset.range n ×ˢ Finset.range numLevels).filter fun pl =>
              dijk.reached pl.1 pl.2 = false := by
            simp [hu, hl, hr]
          have := Finset.card_pos.2 ⟨_, hmem⟩
          rw [unreachedCount] at hfuel
          omega
  | succ fuel ih =>
      cases hex : extractMinNode dijk with
      | none => exact ⟨dijk, by rw [dijkstraLoop, hex], h, hex⟩
      | some r =>
          obtain ⟨⟨u, level⟩, dijk'⟩ := r
          obtain ⟨hd, hu, hl, hr, _, _⟩ := extractMinNode_some hex
          obtain ⟨hrelax, h'⟩ := h.extract hlen hloop hex
          rw [h.net.numNodes] at hu
          rw [h.net.numLevels] at hl
          have hreached : (dijk'.relaxed u level).reached = setAt dijk.reached u level true := by
            rw [hd]
            rfl
          have hlt : unreachedCount n numLevels (dijk'.relaxed u level) <
              unreachedCount n numLevels dijk := by
            refine Finset.card_lt_card (Finset.ssubset_iff_of_subset ?_ |>.2 ⟨(u, level), ?_, ?_⟩)
            · intro pl hpl
              rw [Finset.mem_filter, hreached] at hpl
              refine Finset.mem_filter.2 ⟨hpl.1, ?_⟩
              have := hpl.2
              simp only [setAt] at this
              split at this
              · cases this
              · exact this
            · simp [hu, hl, hr]
            · rw [Finset.mem_filter, hreached]
              simp [setAt]
          obtain ⟨dijk'', hrun, hinv, hend⟩ := ih h' (by omega)
          refine ⟨dijk'', ?_, hinv, hend⟩
          rw [dijkstraLoop, hex]
          simp only [hrelax, bind, Except.bind, hrun]

/-- **`compute` ends**, and every state within reach has been extracted. -/
theorem dijkstraCompute_spec (src : ℕ) (hlen : ∀ link ∈ links, 0 < link.conn.len)
    (hloop : ∀ link ∈ links, link.conn.n0 ≠ link.conn.n1) (hnet : dijk.Net links n numLevels)
    (hfresh : dijk.Fresh) :
    ∃ dijk', dijkstraCompute dijk src = Except.ok dijk' ∧
      DijkstraInv links n numLevels src dijk' ∧
      ∀ v < n, ∀ l < numLevels, dijk'.dist v l < maxDijkstraDist → dijk'.reached v l = true := by
  have hinit := dijkstraInv_init src hnet hfresh
  obtain ⟨dijk', hrun, hinv, hend⟩ := dijkstraLoop_spec hlen hloop
    (dijk.numNodes * dijk.numLevels) hinit (by
      rw [hnet.numNodes, hnet.numLevels, unreachedCount]
      refine (Finset.card_filter_le _ _).trans ?_
      simp)
  refine ⟨dijk', hrun, hinv, fun v hv l hl hd => ?_⟩
  by_contra hr
  have hge := extractMinNode_none hend (hinv.net.numNodes ▸ hv) (hinv.net.numLevels ▸ hl)
    (by simpa using hr)
  exact absurd hd (not_lt.2 hge)

/-! ### Walking back -/

/-- The walk from a state back to the source over the predecessors. -/
inductive BackPath (n numLevels src : ℕ) (dijk : LeveledDijkstra) : ℕ → ℕ → List ℕ → Prop
  | source {l : ℕ} : l < numLevels → BackPath n numLevels src dijk src l [src]
  | step {v l u l' : ℕ} {p : List ℕ} : v < n → l < numLevels → dijk.prev v l = some u →
      dijk.prevLevel v l = some l' → (l' : ℤ) ≤ dijk.levels u v → dijk.levels u v ≤ l →
      dijk.dist v l = dijk.dist u l' + dijk.metrics u v → BackPath n numLevels src dijk u l' p →
      BackPath n numLevels src dijk v l (v :: p)

/-- The states closer than `x`. -/
def closerCount (n numLevels : ℕ) (dijk : LeveledDijkstra) (x : ℚ) : ℕ :=
  ((Finset.range n ×ˢ Finset.range numLevels).filter fun pl => dijk.dist pl.1 pl.2 < x).card

/-- Every state within reach has a walk back, with at most as many steps as there are closer
states. -/
theorem DijkstraInv.exists_backPath (h : DijkstraInv links n numLevels src dijk)
    (hlen : ∀ link ∈ links, 0 < link.conn.len) {k v l : ℕ} (hv : v < n) (hl : l < numLevels)
    (hd : dijk.dist v l < maxDijkstraDist)
    (hk : closerCount n numLevels dijk (dijk.dist v l) ≤ k) :
    ∃ p, BackPath n numLevels src dijk v l p ∧ p.length ≤ k + 1 := by
  induction k generalizing v l with
  | zero =>
      rcases h.back v hv l hl hd with rfl | ⟨u, l', _, _, hu, hl', _, hlv, _, hdv⟩
      · exact ⟨[v], BackPath.source hl, le_rfl⟩
      · have hpos := h.net.metric_pos hlen (u := u) (v := v) (by omega)
        have hmem : (u, l') ∈ (Finset.range n ×ˢ Finset.range numLevels).filter fun pl =>
            dijk.dist pl.1 pl.2 < dijk.dist v l := by
          simp only [Finset.mem_filter, Finset.mem_product, Finset.mem_range]
          exact ⟨⟨hu, hl'⟩, by linarith⟩
        have := Finset.card_pos.2 ⟨_, hmem⟩
        rw [closerCount] at hk
        omega
  | succ k ih =>
      rcases h.back v hv l hl hd with rfl | ⟨u, l', hp, hpl, hu, hl', _, hlv, hvl, hdv⟩
      · exact ⟨[v], BackPath.source hl, by simp⟩
      · have hpos := h.net.metric_pos hlen (u := u) (v := v) (by omega)
        have hlt : dijk.dist u l' < dijk.dist v l := by linarith
        have hcard : closerCount n numLevels dijk (dijk.dist u l') <
            closerCount n numLevels dijk (dijk.dist v l) := by
          refine Finset.card_lt_card (Finset.ssubset_iff_of_subset ?_ |>.2 ⟨(u, l'), ?_, ?_⟩)
          · intro pl hpl
            rw [Finset.mem_filter] at hpl ⊢
            exact ⟨hpl.1, hpl.2.trans hlt⟩
          · simp only [Finset.mem_filter, Finset.mem_product, Finset.mem_range]
            exact ⟨⟨hu, hl'⟩, hlt⟩
          · simp
        obtain ⟨p, hp', hlen'⟩ := ih hu hl' (hlt.trans hd) (by omega)
        exact ⟨v :: p, BackPath.step hv hl hp hpl hlv hvl hdv hp', by simpa using hlen'⟩

variable {v l : ℕ} {p : List ℕ}

/-- `calc_rt` follows the walk. -/
theorem BackPath.walkBack (hp : BackPath n numLevels src dijk v l p)
    (hsrc : ∀ l, dijk.prev src l = none) (fuel : ℕ) (hfuel : p.length ≤ fuel) (minWidth : ℚ)
    (nodeStack : List ℕ) :
    ∃ w, DLFree.walkBack dijk fuel v l minWidth nodeStack = Except.ok (nodeStack ++ p, w) := by
  induction hp generalizing fuel minWidth nodeStack with
  | source _ =>
      cases fuel with
      | zero => simp at hfuel
      | succ fuel => exact ⟨minWidth, by simp [DLFree.walkBack, hsrc]⟩
  | @step v l u l' p _ _ hprev hprevLevel _ _ _ _ ih =>
      cases fuel with
      | zero => simp at hfuel
      | succ fuel =>
          obtain ⟨w, hw⟩ := ih fuel (by simpa using hfuel)
            (if minWidth < dijk.width u v then minWidth else dijk.width u v) (nodeStack ++ [v])
          refine ⟨w, ?_⟩
          simp only [DLFree.walkBack, hprev, hprevLevel, hw]
          simp

theorem BackPath.head (hp : BackPath n numLevels src dijk v l p) : ∃ q, p = v :: q := by
  cases hp with
  | source _ => exact ⟨[], rfl⟩
  | step => exact ⟨_, rfl⟩

theorem BackPath.getLast (hp : BackPath n numLevels src dijk v l p) : p.getLast? = some src := by
  induction hp with
  | source _ => rfl
  | step _ _ _ _ _ _ _ hp ih =>
      obtain ⟨q, rfl⟩ := hp.head
      rw [List.getLast?_cons_cons]
      exact ih

/-- Every host on a walk is no farther, at a level no higher. -/
theorem BackPath.mem (h : DijkstraInv links n numLevels src dijk)
    (hlen : ∀ link ∈ links, 0 < link.conn.len) (hp : BackPath n numLevels src dijk v l p) :
    ∀ x ∈ p, ∃ k ≤ l, dijk.dist x k ≤ dijk.dist v l := by
  induction hp with
  | source hl =>
      intro x hx
      rw [List.mem_singleton] at hx
      subst hx
      exact ⟨_, le_rfl, le_rfl⟩
  | @step v l u l' p _ _ _ _ hlv hvl hdv _ ih =>
      have hpos := h.net.metric_pos hlen (u := u) (v := v) (by omega)
      intro x hx
      rcases List.mem_cons.1 hx with rfl | hx
      · exact ⟨l, le_rfl, le_rfl⟩
      · obtain ⟨k, hk, hd⟩ := ih x hx
        exact ⟨k, by omega, by linarith⟩

/-- **A walk back visits no host twice**: a host that comes again would be closer at a level that
is no higher. -/
theorem BackPath.nodup (h : DijkstraInv links n numLevels src dijk)
    (hlen : ∀ link ∈ links, 0 < link.conn.len) (hp : BackPath n numLevels src dijk v l p) :
    p.Nodup := by
  induction hp with
  | source _ => exact List.nodup_singleton _
  | @step v l u l' p _ hl _ _ hlv hvl hdv hp ih =>
      refine List.nodup_cons.2 ⟨fun hmem => ?_, ih⟩
      have hpos := h.net.metric_pos hlen (u := u) (v := v) (by omega)
      obtain ⟨k, hk, hd⟩ := hp.mem h hlen v hmem
      have hanti := h.antitone v k l (by omega) hl
      linarith

/-- **Along a walk back the levels never increase.** -/
theorem BackPath.levels (hp : BackPath n numLevels src dijk v l p) :
    (∀ a b, [b, a] <:+: p → 0 ≤ dijk.levels a b) ∧
      ∀ a b c, [c, b, a] <:+: p → dijk.levels a b ≤ dijk.levels b c := by
  induction hp with
  | source _ =>
      refine ⟨fun a b hab => ?_, fun a b c habc => ?_⟩
      · have := hab.length_le
        simp at this
      · have := habc.length_le
        simp at this
  | @step v l u l' p _ _ _ _ hlv hvl hdv hp ih =>
      obtain ⟨q, rfl⟩ := hp.head
      refine ⟨fun a b hab => ?_, fun a b c habc => ?_⟩
      · rcases List.infix_cons_iff.1 hab with hpre | hin
        · simp only [List.cons_prefix_cons, List.nil_prefix, and_true] at hpre
          obtain ⟨rfl, rfl⟩ := hpre
          omega
        · exact ih.1 a b hin
      · rcases List.infix_cons_iff.1 habc with hpre | hin
        · rw [List.cons_prefix_cons, List.cons_prefix_cons] at hpre
          obtain ⟨rfl, rfl, hpre⟩ := hpre
          cases hp with
          | source _ => simp at hpre
          | step _ _ _ _ _ hub _ hp' =>
              obtain ⟨q', rfl⟩ := hp'.head
              rw [List.cons_prefix_cons] at hpre
              obtain ⟨rfl, _⟩ := hpre
              omega
        · exact ih.2 a b c hin

/-! ### What is within reach -/

variable {g : OverlayGraph}

/-- The distance of a state is at most the length of the connections among the hosts of its
walk. -/
theorem BackPath.dist_le (h : DijkstraInv links n numLevels src dijk)
    (hconns : ∀ link ∈ links, link.conn ∈ g.conns) (hpos : ∀ e ∈ g.conns, 0 < e.len)
    (hp : BackPath n numLevels src dijk v l p) : dijk.dist v l ≤ g.lenIn p := by
  have hlen : ∀ link ∈ links, 0 < link.conn.len := fun link hl => hpos _ (hconns link hl)
  induction hp with
  | @source l hl =>
      rw [h.src_dist l hl]
      refine List.sum_nonneg fun x hx => ?_
      obtain ⟨e, he, rfl⟩ := List.mem_map.1 hx
      split
      · exact (hpos e he).le
      · exact le_rfl
  | @step v l u l' p hv hl hprev hpl hlv hvl hdv hp ih =>
      have hnodup := (BackPath.step hv hl hprev hpl hlv hvl hdv hp).nodup h hlen
      obtain ⟨link, hmem, hm, hends⟩ := h.net.exists_link (u := u) (v := v) (by omega)
      obtain ⟨q, rfl⟩ := hp.head
      have hcons := OverlayGraph.lenIn_cons hpos (List.nodup_cons.1 hnodup).1 (hconns link hmem)
        (hends.elim (fun h => Or.inr ⟨h.2, by simp [h.1]⟩) fun h => Or.inl ⟨h.1, by simp [h.2]⟩)
      rw [hdv, hm]
      linarith

/-- **A state one legal step from a state within reach is within reach.** -/
theorem DijkstraInv.dist_lt (h : DijkstraInv links n numLevels src dijk)
    (hdone : ∀ v < n, ∀ l < numLevels, dijk.dist v l < maxDijkstraDist → dijk.reached v l = true)
    (hconns : ∀ link ∈ links, link.conn ∈ g.conns) (hpos : ∀ e ∈ g.conns, 0 < e.len)
    (htotal : g.totalLen < maxDijkstraDist) {u l' v l : ℕ} (hu : u < n) (hl' : l' < numLevels)
    (hd : dijk.dist u l' < maxDijkstraDist) (hv : v < n) (hl : l < numLevels)
    (hlv : (l' : ℤ) ≤ dijk.levels u v) (hvl : dijk.levels u v ≤ l) :
    dijk.dist v l < maxDijkstraDist := by
  have hlen : ∀ link ∈ links, 0 < link.conn.len := fun link hl => hpos _ (hconns link hl)
  obtain ⟨p, hp, _⟩ := h.exists_backPath hlen hu hl' hd le_rfl
  by_cases hmem : v ∈ p
  · obtain ⟨k, hk, hdk⟩ := hp.mem h hlen v hmem
    exact ((h.antitone v k l (by omega) hl).trans hdk).trans_lt hd
  · obtain ⟨link, hlink, hm, hends⟩ := h.net.exists_link (u := u) (v := v) (by omega)
    have hrelax := h.relaxed u l' v l (hdone u hu l' hl' hd) hv hl hlv hvl
    have hle := hp.dist_le h hconns hpos
    obtain ⟨q, rfl⟩ := hp.head
    have hcons := OverlayGraph.lenIn_cons hpos hmem (hconns link hlink)
      (hends.elim (fun h => Or.inr ⟨h.2, by simp [h.1]⟩) fun h => Or.inl ⟨h.1, by simp [h.2]⟩)
    have htot := OverlayGraph.lenIn_le hpos (v :: u :: q)
    rw [hm] at hrelax
    linarith

/-- Where a legal route leads is within reach. -/
theorem DijkstraInv.reach_of_legal (h : DijkstraInv links n numLevels src dijk)
    (hdone : ∀ v < n, ∀ l < numLevels, dijk.dist v l < maxDijkstraDist → dijk.reached v l = true)
    (hconns : ∀ link ∈ links, link.conn ∈ g.conns) (hg : g.Simple n)
    (hpos : ∀ e ∈ g.conns, 0 < e.len) (htotal : g.totalLen < maxDijkstraDist) (hsrc : src < n)
    {b : ℕ × ℕ} (hb : Relation.ReflTransGen (Legal links numLevels) (src, 0) b) :
    b = (src, 0) ∨ (b.1 < n ∧ b.2 < numLevels ∧ dijk.dist b.1 b.2 < maxDijkstraDist) := by
  induction hb with
  | refl => exact Or.inl rfl
  | @tail a b _ hab ih =>
      obtain ⟨hbl, k, hk, hak, hkb⟩ := hab
      have hlevel := h.net.levels_of hk
      have hbn : b.1 < n := by
        obtain ⟨link, hl, ⟨_, h1, _⟩ | ⟨_, h0, _⟩⟩ := hk
        · exact h1 ▸ (hg.lt _ (hconns link hl)).2
        · exact h0 ▸ (hg.lt _ (hconns link hl)).1
      have ha : a.1 < n ∧ a.2 < numLevels ∧ dijk.dist a.1 a.2 < maxDijkstraDist := by
        rcases ih with rfl | ih
        · have hpos : 0 < numLevels := (Nat.zero_le _).trans_lt hbl
          refine ⟨hsrc, hpos, ?_⟩
          rw [h.src_dist 0 hpos]
          norm_num [maxDijkstraDist]
        · exact ih
      exact Or.inr ⟨hbn, hbl, h.dist_lt hdone hconns hpos htotal ha.1 ha.2.1 ha.2.2 hbn hbl
        (hlevel ▸ hak) (hlevel ▸ hkb)⟩

/-- `calc_rt` chooses a level at which the destination is within reach, when there is one. -/
theorem closestLevel_spec {dst : ℕ} (hnum : dijk.numLevels = numLevels)
    (hd : ∃ l < numLevels, dijk.dist dst l < maxDijkstraDist) :
    ∃ level < numLevels, closestLevel dijk dst = (dijk.dist dst level, some level) ∧
      dijk.dist dst level < maxDijkstraDist := by
  have key : ∀ (ls : List ℕ), (∀ l ∈ ls, l < numLevels) → ∀ best : ℚ × Option ℕ,
      ((∃ level < numLevels, best = (dijk.dist dst level, some level) ∧
          dijk.dist dst level < maxDijkstraDist) ∨
        (best = (maxDijkstraDist, none) ∧ ∃ l ∈ ls, dijk.dist dst l < maxDijkstraDist)) →
      ∃ level < numLevels, ls.foldl (closestStep dijk dst) best =
        (dijk.dist dst level, some level) ∧ dijk.dist dst level < maxDijkstraDist := by
    intro ls
    induction ls with
    | nil =>
        rintro _ best (hbest | ⟨_, l, hl, _⟩)
        · exact hbest
        · cases hl
    | cons l ls ih =>
        intro hls best hbest
        refine ih (fun x hx => hls x (List.mem_cons_of_mem _ hx)) _ ?_
        have hl := hls l List.mem_cons_self
        rw [closestStep]
        rcases hbest with ⟨level, hlevel, rfl, hlt⟩ | ⟨rfl, x, hx, hxd⟩
        · split
          · rename_i hc
            exact Or.inl ⟨l, hl, rfl, hc.trans hlt⟩
          · exact Or.inl ⟨level, hlevel, rfl, hlt⟩
        · split
          · rename_i hc
            exact Or.inl ⟨l, hl, rfl, hc⟩
          · rename_i hc
            rcases List.mem_cons.1 hx with rfl | hx
            · exact absurd hxd hc
            · exact Or.inr ⟨rfl, x, hx, hxd⟩
  obtain ⟨l, hl, hlt⟩ := hd
  refine key _ (fun x hx => ?_) _ (Or.inr ⟨rfl, l, ?_, hlt⟩)
  · simpa [hnum] using hx
  · simpa [hnum] using hl

/-- Without such a level it finds none. -/
theorem closestLevel_none {dst : ℕ} (hnum : dijk.numLevels = numLevels)
    (hd : ¬ ∃ l < numLevels, dijk.dist dst l < maxDijkstraDist) :
    closestLevel dijk dst = (maxDijkstraDist, none) := by
  have key : ∀ (ls : List ℕ), (∀ l ∈ ls, l < numLevels) →
      ls.foldl (closestStep dijk dst) (maxDijkstraDist, none) = (maxDijkstraDist, none) := by
    intro ls
    induction ls with
    | nil => exact fun _ => rfl
    | cons l ls ih =>
        intro hls
        have hl : ¬ dijk.dist dst l < maxDijkstraDist := fun h =>
          hd ⟨l, hls l List.mem_cons_self, h⟩
        rw [List.foldl_cons, closestStep, if_neg hl]
        exact ih fun x hx => hls x (List.mem_cons_of_mem _ hx)
  exact key _ fun x hx => by simpa [hnum] using hx

end Inv

/-! ### The table -/

/-- A route over links whose levels never decrease, which visits no host twice. -/
structure Route (links : List RouterGraphLink) (src dst : ℕ) (p : List ℕ) : Prop where
  head : p.head? = some src
  last : p.getLast? = some dst
  nodup : p.Nodup
  link : ∀ a b, [a, b] <:+: p → ∃ k, 0 ≤ k ∧ LinkLevel links a b k
  level : ∀ a b c, [a, b, c] <:+: p →
    ∃ j k, 0 ≤ j ∧ j ≤ k ∧ LinkLevel links a b j ∧ LinkLevel links b c k

/-- A table of `src` with a route to each of the `n` hosts. -/
structure RoutesOk (links : List RouterGraphLink) (n src : ℕ) (rt : OverlayRtable) : Prop where
  srcpid : rt.srcpid = src
  size : rt.entries.length = n
  own : ∀ entry, rt.entries[src]? = some entry → entry = none
  entry : ∀ dst < n, dst ≠ src → ∃ entry p, rt.entries[dst]? = some (some entry) ∧
    entry.dstPid = dst ∧ entry.path = p.map Int.ofNat ∧ Route links src dst p

section Table

variable {links : List RouterGraphLink} {n numLevels src : ℕ} {dijk : LeveledDijkstra}

theorem BackPath.route (h : DijkstraInv links n numLevels src dijk)
    (hlen : ∀ link ∈ links, 0 < link.conn.len) {dst l : ℕ} {p : List ℕ}
    (hp : BackPath n numLevels src dijk dst l p) : Route links src dst p.reverse := by
  obtain ⟨hpair, htriple⟩ := hp.levels
  obtain ⟨q, rfl⟩ := hp.head
  have hrev : ∀ s, s <:+: (dst :: q).reverse → s.reverse <:+: dst :: q := fun s hs => by
    rw [← List.reverse_reverse (dst :: q)]
    exact List.reverse_infix.2 hs
  refine ⟨?_, ?_, List.nodup_reverse.2 (hp.nodup h hlen), fun a b hab => ?_, fun a b c habc => ?_⟩
  · rw [List.head?_reverse]
    exact hp.getLast
  · rw [List.getLast?_reverse]
    rfl
  · have h0 := hpair a b (hrev _ hab)
    exact ⟨_, h0, h.net.levels_eq h0⟩
  · have hab : [a, b] <:+: (dst :: q).reverse :=
      (List.infix_append [] [a, b] [c]).trans habc
    have hbc : [b, c] <:+: (dst :: q).reverse :=
      (List.infix_append [a] [b, c] []).trans habc
    have h0 := hpair a b (hrev _ hab)
    have h1 := hpair b c (hrev _ hbc)
    exact ⟨_, _, h0, htriple a b c (hrev _ habc), h.net.levels_eq h0, h.net.levels_eq h1⟩

/-- The loop of `calc_rt` over the first `k` destinations stores one entry for each. -/
theorem dijkstraCalcRt_prefix {f : ℕ → OverlayRtableEntry} {k : ℕ} (hk : k ≤ n)
    (hf : ∀ dst < k, dst ≠ src →
      calcRtEntry dijk dst = Except.ok (f dst) ∧ (f dst).dstPid = dst) :
    (List.range k).foldlM
      (fun rt dst =>
        if dst = src then Except.ok rt
        else do
          let rentry ← calcRtEntry dijk dst
          overlayRtableAddEntry rt rentry)
      (overlayRtableCreate src n) =
        Except.ok ⟨src, (List.range n).map fun i => if i < k ∧ i ≠ src then some (f i) else none⟩ := by
  induction k with
  | zero => simp [overlayRtableCreate, List.map_const', pure, Except.pure]
  | succ k ih =>
      rw [List.range_succ, List.foldlM_append,
        ih (by omega) fun dst hdst => hf dst (Nat.lt_succ_of_lt hdst)]
      simp only [bind, Except.bind, List.foldlM_cons, List.foldlM_nil, pure, Except.pure]
      by_cases hks : k = src
      · rw [if_pos hks]
        simp only [Except.ok.injEq, OverlayRtable.mk.injEq, true_and]
        refine List.map_congr_left fun i _ => ?_
        by_cases hi : i = k
        · simp [hi, hks]
        · have : i < k ↔ i < k + 1 := by omega
          simp [this]
      · obtain ⟨hrun, hdst⟩ := hf k (Nat.lt_succ_self k) hks
        rw [if_neg hks, hrun]
        have hneg : ¬ ((k : ℕ) : ℤ) < 0 := by omega
        have hget : ((List.range n).map fun i => if i < k ∧ i ≠ src then some (f i) else none)[k]? =
            some none := by
          rw [List.getElem?_map, List.getElem?_range (by omega)]
          simp
        simp only [overlayRtableAddEntry, hdst, if_neg hneg, Int.toNat_natCast]
        rw [hget]
        simp only [Except.ok.injEq, OverlayRtable.mk.injEq, true_and]
        refine List.ext_getElem? fun i => ?_
        rw [List.getElem?_set]
        by_cases hik : k = i
        · subst hik
          have hkn : k < n := by omega
          simp [hkn, hks]
        · rw [if_neg hik, List.getElem?_map, List.getElem?_map]
          cases hi : (List.range n)[i]? with
          | none => rfl
          | some j =>
              obtain ⟨_, rfl⟩ := List.getElem?_eq_some_iff.1 hi
              have hiff : i < k ↔ i < k + 1 := by omega
              simp only [List.getElem_range, Option.map_some, hiff]

/-- The loop of `calc_rt` stores one entry for each destination. -/
theorem dijkstraCalcRt_eq (hnum : dijk.numNodes = n) {f : ℕ → OverlayRtableEntry}
    (hf : ∀ dst < n, dst ≠ src →
      calcRtEntry dijk dst = Except.ok (f dst) ∧ (f dst).dstPid = dst) :
    dijkstraCalcRt dijk src =
      Except.ok ⟨src, (List.range n).map fun i => if i = src then none else some (f i)⟩ := by
  have hall := dijkstraCalcRt_prefix le_rfl hf
  rw [← hnum] at hall ⊢
  rw [dijkstraCalcRt, hall]
  simp only [Except.ok.injEq, OverlayRtable.mk.injEq, true_and]
  refine List.map_congr_left fun i hi => ?_
  by_cases his : i = src
  · simp [his]
  · simp [his, List.mem_range.1 hi]

/-- The first destination without an entry ends the loop. -/
theorem dijkstraCalcRt_error (hnum : dijk.numNodes = n) {f : ℕ → OverlayRtableEntry} {dst : ℕ}
    (hdst : dst < n) (hne : dst ≠ src) {e : Abort} (herr : calcRtEntry dijk dst = Except.error e)
    (hf : ∀ i < dst, i ≠ src → calcRtEntry dijk i = Except.ok (f i) ∧ (f i).dstPid = i) :
    dijkstraCalcRt dijk src = Except.error e := by
  have hsplit : List.range n =
      List.range dst ++ dst :: (List.range (n - dst - 1)).map (dst + 1 + ·) := by
    have hn : n = dst + (1 + (n - dst - 1)) := by omega
    conv_lhs => rw [hn, List.range_add, List.range_add]
    simp [Function.comp_def, Nat.add_assoc]
  rw [dijkstraCalcRt, hnum, hsplit, List.foldlM_append, dijkstraCalcRt_prefix hdst.le hf]
  simp only [bind, Except.bind, List.foldlM_cons, if_neg hne, herr]

/-- The entry for a destination within reach holds a route. -/
theorem DijkstraInv.calcRtEntry (h : DijkstraInv links n numLevels src dijk)
    (hlen : ∀ link ∈ links, 0 < link.conn.len) {dst level : ℕ} (hdst : dst < n)
    (hlevel : level < numLevels) (hlt : dijk.dist dst level < maxDijkstraDist)
    (hclosest : closestLevel dijk dst = (dijk.dist dst level, some level)) :
    ∃ entry p, calcRtEntry dijk dst = Except.ok entry ∧ entry.dstPid = dst ∧
      entry.path = p.map Int.ofNat ∧ Route links src dst p := by
  have hcount : closerCount n numLevels dijk (dijk.dist dst level) ≤ n * numLevels := by
    refine (Finset.card_filter_le _ _).trans ?_
    simp
  obtain ⟨p, hp, hplen⟩ := h.exists_backPath hlen hdst hlevel hlt hcount
  obtain ⟨w, hw⟩ := hp.walkBack h.src_prev (dijk.numNodes * dijk.numLevels + 1)
    (by rw [h.net.numNodes, h.net.numLevels]; exact hplen) maxDijkstraWidth []
  refine ⟨⟨dst, p.reverse.map Int.ofNat, truncToInt (dijk.dist dst level), truncToInt w⟩,
    p.reverse, ?_, rfl, rfl, hp.route h hlen⟩
  simp only [DLFree.calcRtEntry, hclosest, hw, bind, Except.bind, List.nil_append]

/-- Every entry of a table that `calc_rt` returns was made for another host. -/
theorem dijkstraCalcRt_mem {rt : OverlayRtable} (h : dijkstraCalcRt dijk src = Except.ok rt)
    {entry : OverlayRtableEntry} (he : some entry ∈ rt.entries) :
    ∃ dst < dijk.numNodes, calcRtEntry dijk dst = Except.ok entry := by
  have key : ∀ (dsts : List ℕ) (rt₀ rt : OverlayRtable), dsts.foldlM
      (fun rt dst =>
        if dst = src then Except.ok rt
        else do
          let rentry ← calcRtEntry dijk dst
          overlayRtableAddEntry rt rentry) rt₀ = Except.ok rt →
      some entry ∈ rt.entries → some entry ∈ rt₀.entries ∨
        ∃ dst ∈ dsts, calcRtEntry dijk dst = Except.ok entry := by
    intro dsts
    induction dsts with
    | nil =>
        intro rt₀ rt hrun hmem
        simp only [List.foldlM_nil, pure, Except.pure, Except.ok.injEq] at hrun
        subst hrun
        exact Or.inl hmem
    | cons dst dsts ih =>
        intro rt₀ rt hrun hmem
        rw [List.foldlM_cons] at hrun
        obtain ⟨rt₁, hstep, hrun⟩ := bind_eq_ok.1 hrun
        rcases ih rt₁ rt hrun hmem with hmem | ⟨x, hx, hentry⟩
        · by_cases hsrc : dst = src
          · rw [if_pos hsrc, Except.ok.injEq] at hstep
            subst hstep
            exact Or.inl hmem
          · rw [if_neg hsrc] at hstep
            obtain ⟨rentry, hentry, hadd⟩ := bind_eq_ok.1 hstep
            have hset : rt₁.entries = rt₀.entries.set rentry.dstPid.toNat (some rentry) := by
              unfold overlayRtableAddEntry at hadd
              split at hadd
              · cases hadd
              · split at hadd
                · cases hadd
                · cases hadd
                · simp only [Except.ok.injEq] at hadd
                  rw [← hadd]
            rw [hset] at hmem
            rcases List.mem_or_eq_of_mem_set hmem with hmem | heq
            · exact Or.inl hmem
            · simp only [Option.some.injEq] at heq
              subst heq
              exact Or.inr ⟨dst, List.mem_cons_self, hentry⟩
        · exact Or.inr ⟨x, List.mem_cons_of_mem _ hx, hentry⟩
  rcases key _ _ _ h he with hmem | ⟨dst, hdst, hentry⟩
  · simp [overlayRtableCreate] at hmem
  · exact ⟨dst, List.mem_range.1 hdst, hentry⟩

variable {g : OverlayGraph}

/-- The links of a simple graph join different pairs of hosts. -/
theorem simple_of_conns (hg : g.Simple n)
    (hlinks : (links.map RouterGraphLink.conn).Perm g.conns) :
    ForestLayers.Simple (fun link : RouterGraphLink => link.conn.ends) links := by
  refine ⟨fun link hl => hg.ne (hlinks.subset (List.mem_map_of_mem hl)), ?_⟩
  exact List.pairwise_map.1
    ((hlinks.pairwise_iff fun h => OverlayGraph.samePair_symm h).2 hg.simple.pair)

/-- **Leveled Dijkstra finds a route to every host** when the levels are complete: the routes are
simple, follow connections and never go down in level. -/
theorem leveledDijkstraRun_spec {nodes : List OverlayNode} (hnodes : nodes.length = n)
    (hg : g.Simple n) (hlinks : (links.map RouterGraphLink.conn).Perm g.conns)
    (hwidth : ∀ e ∈ g.conns, 0 < e.width) (hpos : ∀ e ∈ g.conns, 0 < e.len)
    (htotal : g.totalLen < maxDijkstraDist) (hcomplete : LevelsComplete links n numLevels)
    (hsrc : src < n) :
    ∃ rt, leveledDijkstraRun (leveledDijkstraCreate nodes numLevels) links src = Except.ok rt ∧
      RoutesOk links n src rt := by
  have hconns : ∀ link ∈ links, link.conn ∈ g.conns := fun link hl =>
    hlinks.subset (List.mem_map_of_mem hl)
  have hlen : ∀ link ∈ links, 0 < link.conn.len := fun link hl => hpos _ (hconns link hl)
  have hloop : ∀ link ∈ links, link.conn.n0 ≠ link.conn.n1 := fun link hl => hg.ne (hconns link hl)
  have hsimple := simple_of_conns hg hlinks
  obtain ⟨dijk₀, hsetup, hnet, hfresh⟩ := dijkstraSetup_ok nodes numLevels
    (fun link hl => ⟨hwidth _ (hconns link hl), hlen link hl⟩) hsimple
  rw [hnodes] at hnet
  obtain ⟨dijk, hcompute, hinv, hdone⟩ := dijkstraCompute_spec src hlen hloop hnet hfresh
  -- the entry of every destination
  have hentry : ∀ dst < n, dst ≠ src → ∃ entry p, calcRtEntry dijk dst = Except.ok entry ∧
      entry.dstPid = dst ∧ entry.path = p.map Int.ofNat ∧ Route links src dst p := by
    intro dst hdst hne
    obtain ⟨l, hl⟩ := hcomplete src hsrc dst hdst hne.symm
    have hreach : ∃ l < numLevels, dijk.dist dst l < maxDijkstraDist := by
      rcases hinv.reach_of_legal hdone hconns hg hpos htotal hsrc hl with he | ⟨_, h₁, h₂⟩
      · exact absurd (congrArg Prod.fst he) hne
      · exact ⟨l, h₁, h₂⟩
    obtain ⟨level, hlevel, hclosest, hlt⟩ := closestLevel_spec hinv.net.numLevels hreach
    exact hinv.calcRtEntry hlen hdst hlevel hlt hclosest
  choose! f p hf hdst hpath hroute using hentry
  refine ⟨⟨src, (List.range n).map fun i => if i = src then none else some (f i)⟩, ?_, rfl,
    by simp, ?_, ?_⟩
  · simp only [leveledDijkstraRun, hsetup, hcompute, bind, Except.bind]
    exact dijkstraCalcRt_eq hinv.net.numNodes fun dst h₁ h₂ => ⟨hf dst h₁ h₂, hdst dst h₁ h₂⟩
  · intro entry he
    rw [List.getElem?_map, List.getElem?_range hsrc] at he
    simpa using he.symm
  · intro dst h₁ h₂
    refine ⟨f dst, p dst, ?_, hdst dst h₁ h₂, hpath dst h₁ h₂, hroute dst h₁ h₂⟩
    rw [List.getElem?_map, List.getElem?_range h₁]
    simp [h₂]

/-- Every path of a table that is returned is a route, also when the levels are not complete. -/
theorem leveledDijkstraRun_route {nodes : List OverlayNode} (hnodes : nodes.length = n)
    (hg : g.Simple n) (hlinks : (links.map RouterGraphLink.conn).Perm g.conns) {rt : OverlayRtable}
    (hrun : leveledDijkstraRun (leveledDijkstraCreate nodes numLevels) links src = Except.ok rt)
    {entry : OverlayRtableEntry} (he : some entry ∈ rt.entries) :
    ∃ dst p, Route links src dst p ∧ entry.path = p.map Int.ofNat := by
  have hpos : ∀ link ∈ links, 0 < link.conn.width ∧ 0 < link.conn.len := by
    by_contra hbad
    simp only [leveledDijkstraRun, dijkstraSetup_error _ hbad, bind, Except.bind] at hrun
    cases hrun
  have hlen : ∀ link ∈ links, 0 < link.conn.len := fun link hl => (hpos link hl).2
  have hloop : ∀ link ∈ links, link.conn.n0 ≠ link.conn.n1 := fun link hl =>
    hg.ne (hlinks.subset (List.mem_map_of_mem hl))
  obtain ⟨dijk₀, hsetup, hnet, hfresh⟩ := dijkstraSetup_ok nodes numLevels
    hpos (simple_of_conns hg hlinks)
  rw [hnodes] at hnet
  obtain ⟨dijk, hcompute, hinv, _⟩ := dijkstraCompute_spec src hlen hloop hnet hfresh
  simp only [leveledDijkstraRun, hsetup, hcompute, bind, Except.bind] at hrun
  obtain ⟨dst, hdst, hentry⟩ := dijkstraCalcRt_mem hrun he
  rw [hinv.net.numNodes] at hdst
  have hreach : ∃ l < numLevels, dijk.dist dst l < maxDijkstraDist := by
    by_contra hno
    rw [calcRtEntry, closestLevel_none hinv.net.numLevels hno] at hentry
    cases hentry
  obtain ⟨level, hlevel, hclosest, hlt⟩ := closestLevel_spec hinv.net.numLevels hreach
  obtain ⟨entry', p, hentry', _, hpath, hroute⟩ := hinv.calcRtEntry hlen hdst hlevel hlt hclosest
  obtain rfl : entry = entry' := by
    rw [hentry] at hentry'
    simpa using hentry'
  exact ⟨dst, p, hroute, hpath⟩

end Table

end DLFree

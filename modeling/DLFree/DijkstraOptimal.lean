/-
**Leveled Dijkstra is optimal.**

A leveled walk starts at the source and follows links whose levels never decrease.  The distance
of a state is a lower bound for the length of every such walk that ends in it, because each link of
the walk has been relaxed from an extracted state; and the walk back from the state is such a walk
of exactly this length.  The width that `calc_rt` collects on the way is the smallest one of the
links of the walk.

`calc_rt` ends the process at the first host that it cannot reach, so a table is returned only when
every host other than the source is within reach.

Main definitions:

* `LeveledWalk` — the walks among which the search looks for a shortest one;
* `LevelsOk` — links with levels, lengths and widths as the search expects them;
* `LevelAssignment` — such links with widths below `MAX_DIJKSTRA_WIDTH`;
* `WalkEntry`, `ShortestEntry` — the entry of a destination that holds a shortest leveled walk.

Main results:

* `DijkstraInv.dist_le_walk` — **no leveled walk is shorter than the distance of its state**;
* `BackPath.leveledWalk` — the walk back is a leveled walk of this length;
* `leveledDijkstraRun_optimal` — **the entries of the table are shortest leveled walks**.
-/

import DLFree.DijkstraRoutes

set_option relaxedAutoImplicit false
set_option autoImplicit false

namespace DLFree

/-! ### Leveled walks -/

/-- The link leads from `u` to `v` and has the level `k` in this direction. -/
def RouterGraphLink.Leads (link : RouterGraphLink) (u v : ℕ) (k : ℤ) : Prop :=
  (link.conn.n0 = u ∧ link.conn.n1 = v ∧ link.level0 = k) ∨
    (link.conn.n1 = u ∧ link.conn.n0 = v ∧ link.level1 = k)

/-- A walk from `src` over links whose levels never decrease: where it ends, the level of its last
link, its hosts and its links. -/
inductive LeveledWalk (links : List RouterGraphLink) (src : ℕ) :
    ℕ → ℤ → List ℕ → List RouterGraphLink → Prop
  | source : LeveledWalk links src src 0 [src] []
  | step {u v : ℕ} {j k : ℤ} {p : List ℕ} {es : List RouterGraphLink} {link : RouterGraphLink} :
      LeveledWalk links src u j p es → link ∈ links → link.Leads u v k → j ≤ k →
      LeveledWalk links src v k (p ++ [v]) (es ++ [link])

/-- The length of a list of links. -/
def walkLen (es : List RouterGraphLink) : ℚ := (es.map fun link => link.conn.len).sum

/-- The smallest width among the links, as `calc_rt` collects it from the last link to the first. -/
def walkWidth (es : List RouterGraphLink) (minWidth : ℚ) : ℚ :=
  es.foldr (fun link w => if w < link.conn.width then w else link.conn.width) minWidth

theorem walkLen_append (es : List RouterGraphLink) (link : RouterGraphLink) :
    walkLen (es ++ [link]) = walkLen es + link.conn.len := by
  simp [walkLen]

theorem walkWidth_append (es : List RouterGraphLink) (link : RouterGraphLink) (minWidth : ℚ) :
    walkWidth (es ++ [link]) minWidth =
      walkWidth es (if minWidth < link.conn.width then minWidth else link.conn.width) := by
  rw [walkWidth, List.foldr_append]
  rfl

/-- `src` has a leveled walk to `dst` that is short enough for the search. -/
def WithinReach (links : List RouterGraphLink) (src dst : ℕ) : Prop :=
  ∃ k p es, LeveledWalk links src dst k p es ∧ walkLen es < maxDijkstraDist

/-- Links as the search expects them: at most one for a pair of hosts, levels in range in both
directions, positive lengths and widths. -/
structure LevelsOk (links : List RouterGraphLink) (n numLevels : ℕ) : Prop where
  simple : ForestLayers.Simple (fun link : RouterGraphLink => link.conn.ends) links
  lt : ∀ link ∈ links, link.conn.n0 < n ∧ link.conn.n1 < n
  level0 : ∀ link ∈ links, 0 ≤ link.level0 ∧ link.level0 < numLevels
  level1 : ∀ link ∈ links, 0 ≤ link.level1 ∧ link.level1 < numLevels
  len : ∀ link ∈ links, 0 < link.conn.len
  width : ∀ link ∈ links, 0 < link.conn.width

/-- Links as the search expects them, all of them narrower than `MAX_DIJKSTRA_WIDTH`. -/
structure LevelAssignment (links : List RouterGraphLink) (n numLevels : ℕ) : Prop where
  simple : ForestLayers.Simple (fun link : RouterGraphLink => link.conn.ends) links
  lt : ∀ link ∈ links, link.conn.n0 < n ∧ link.conn.n1 < n
  level0 : ∀ link ∈ links, 0 ≤ link.level0 ∧ link.level0 < numLevels
  level1 : ∀ link ∈ links, 0 ≤ link.level1 ∧ link.level1 < numLevels
  len : ∀ link ∈ links, 0 < link.conn.len
  width : ∀ link ∈ links, 0 < link.conn.width ∧ link.conn.width < maxDijkstraWidth

theorem LevelAssignment.levelsOk {links : List RouterGraphLink} {n numLevels : ℕ}
    (h : LevelAssignment links n numLevels) : LevelsOk links n numLevels :=
  ⟨h.simple, h.lt, h.level0, h.level1, h.len, fun link hlink => (h.width link hlink).1⟩

/-- The entry holds a leveled walk to `dst` of minimal length, with the hosts `p` and the links `es`.
Its width is that of the narrowest link, or `MAX_DIJKSTRA_WIDTH` when all links are wider. -/
structure WalkEntry (links : List RouterGraphLink) (src dst : ℕ) (entry : OverlayRtableEntry)
    (p : List ℕ) (es : List RouterGraphLink) : Prop where
  walk : ∃ k, LeveledWalk links src dst k p es
  least : ∀ k' p' es', LeveledWalk links src dst k' p' es' → walkLen es ≤ walkLen es'
  nodup : p.Nodup
  dstPid : entry.dstPid = dst
  path : entry.path = p.map Int.ofNat
  metric : entry.metric = truncToInt (walkLen es)
  width : entry.width = truncToInt (walkWidth es maxDijkstraWidth)

/-- The entry holds a leveled walk to `dst` of minimal length, the integer part of this length and
that of the smallest width of its links. -/
def ShortestEntry (links : List RouterGraphLink) (src dst : ℕ) (entry : OverlayRtableEntry) :
    Prop :=
  ∃ k p es, LeveledWalk links src dst k p es ∧
    (∀ k' p' es', LeveledWalk links src dst k' p' es' → walkLen es ≤ walkLen es') ∧
    entry.dstPid = dst ∧ entry.path = p.map Int.ofNat ∧ entry.metric = ⌊walkLen es⌋ ∧
    ∃ link ∈ es, entry.width = ⌊link.conn.width⌋ ∧
      ∀ other ∈ es, link.conn.width ≤ other.conn.width

section Walks

variable {links : List RouterGraphLink} {n numLevels src v : ℕ} {k : ℤ} {p : List ℕ}
  {es : List RouterGraphLink}

theorem LeveledWalk.mem (h : LeveledWalk links src v k p es) : ∀ link ∈ es, link ∈ links := by
  induction h with
  | source => simp
  | step _ hlink _ _ ih =>
      intro x hx
      rcases List.mem_append.1 hx with hx | hx
      · exact ih x hx
      · rw [List.mem_singleton.1 hx]
        exact hlink

theorem LeveledWalk.ne_nil (h : LeveledWalk links src v k p es) (hne : v ≠ src) : es ≠ [] := by
  cases h with
  | source => exact absurd rfl hne
  | step => exact List.concat_ne_nil _ _

theorem LevelsOk.level (h : LevelsOk links n numLevels) {link : RouterGraphLink}
    (hlink : link ∈ links) {u : ℕ} (hleads : link.Leads u v k) :
    u < n ∧ v < n ∧ 0 ≤ k ∧ k < numLevels := by
  obtain ⟨h0, h1⟩ := h.lt link hlink
  rcases hleads with ⟨rfl, rfl, rfl⟩ | ⟨rfl, rfl, rfl⟩
  · exact ⟨h0, h1, h.level0 link hlink⟩
  · exact ⟨h1, h0, h.level1 link hlink⟩

theorem LeveledWalk.lt (h : LeveledWalk links src v k p es)
    (hlinks : LevelsOk links n numLevels) (hsrc : src < n) : v < n := by
  cases h with
  | source => exact hsrc
  | step _ hlink hleads _ => exact (hlinks.level hlink hleads).2.1

theorem LeveledWalk.level_nonneg (h : LeveledWalk links src v k p es)
    (hlinks : LevelsOk links n numLevels) : 0 ≤ k := by
  cases h with
  | source => exact le_rfl
  | step _ hlink hleads _ => exact (hlinks.level hlink hleads).2.2.1

/-! ### The smallest width -/

theorem walkWidth_le (es : List RouterGraphLink) (minWidth : ℚ) :
    walkWidth es minWidth ≤ minWidth ∧ ∀ link ∈ es, walkWidth es minWidth ≤ link.conn.width := by
  induction es with
  | nil => exact ⟨le_rfl, by simp⟩
  | cons link es ih =>
      have hstep : walkWidth (link :: es) minWidth ≤ walkWidth es minWidth ∧
          walkWidth (link :: es) minWidth ≤ link.conn.width := by
        simp only [walkWidth, List.foldr_cons]
        split
        · rename_i hlt
          exact ⟨le_rfl, hlt.le⟩
        · rename_i hge
          exact ⟨not_lt.1 hge, le_rfl⟩
      refine ⟨hstep.1.trans ih.1, fun x hx => ?_⟩
      rcases List.mem_cons.1 hx with rfl | hx
      · exact hstep.2
      · exact hstep.1.trans (ih.2 x hx)

theorem walkWidth_mem (es : List RouterGraphLink) (minWidth : ℚ) :
    walkWidth es minWidth = minWidth ∨ ∃ link ∈ es, walkWidth es minWidth = link.conn.width := by
  induction es with
  | nil => exact Or.inl rfl
  | cons link es ih =>
      have hcons : walkWidth (link :: es) minWidth = walkWidth es minWidth ∨
          walkWidth (link :: es) minWidth = link.conn.width := by
        simp only [walkWidth, List.foldr_cons]
        split
        · exact Or.inl rfl
        · exact Or.inr rfl
      rcases hcons with hcons | hcons
      · rcases ih with ih | ⟨x, hx, ih⟩
        · exact Or.inl (hcons.trans ih)
        · exact Or.inr ⟨x, List.mem_cons_of_mem _ hx, hcons.trans ih⟩
      · exact Or.inr ⟨link, List.mem_cons_self, hcons⟩

/-- Below the initial value the width is that of the narrowest link. -/
theorem exists_walkWidth (hne : es ≠ []) {minWidth : ℚ}
    (hlt : ∀ link ∈ es, link.conn.width < minWidth) :
    ∃ link ∈ es, walkWidth es minWidth = link.conn.width ∧
      ∀ other ∈ es, link.conn.width ≤ other.conn.width := by
  have hle := (walkWidth_le es minWidth).2
  rcases walkWidth_mem es minWidth with heq | ⟨link, hlink, heq⟩
  · obtain ⟨link, hlink⟩ := List.exists_mem_of_ne_nil _ hne
    have := hle link hlink
    rw [heq] at this
    exact absurd this (not_le.2 (hlt link hlink))
  · exact ⟨link, hlink, heq, fun other hother => heq ▸ hle other hother⟩

/-! ### Distances are minimal -/

variable {dijk : LeveledDijkstra}

theorem LeveledDijkstra.Net.of_leads (h : dijk.Net links n numLevels) {link : RouterGraphLink}
    (hlink : link ∈ links) {u : ℕ} (hleads : link.Leads u v k) :
    dijk.levels u v = k ∧ dijk.metrics u v = link.conn.len ∧
      dijk.width u v = link.conn.width := by
  rcases hleads with ⟨rfl, rfl, rfl⟩ | ⟨rfl, rfl, rfl⟩
  · exact ⟨h.level0 link hlink, (h.metric link hlink).1, (h.width link hlink).1⟩
  · exact ⟨h.level1 link hlink, (h.metric link hlink).2, (h.width link hlink).2⟩

theorem LeveledDijkstra.Net.exists_leads (h : dijk.Net links n numLevels) {u : ℕ}
    (hk : 0 ≤ dijk.levels u v) : ∃ link ∈ links, link.Leads u v (dijk.levels u v) :=
  h.levels_eq hk

/-- **No leveled walk is shorter than the distance of a state it leads to.** -/
theorem DijkstraInv.dist_le_walk (h : DijkstraInv links n numLevels src dijk)
    (hdone : ∀ v < n, ∀ l < numLevels, dijk.dist v l < maxDijkstraDist → dijk.reached v l = true)
    (hlinks : LevelsOk links n numLevels)
    (hwalk : LeveledWalk links src v k p es) (hshort : walkLen es < maxDijkstraDist) {l : ℕ}
    (hkl : k ≤ l) (hl : l < numLevels) : dijk.dist v l ≤ walkLen es := by
  induction hwalk generalizing l with
  | source =>
      rw [h.src_dist l hl]
      exact le_rfl
  | @step u v j k p es link hwalk hlink hleads hjk ih =>
      obtain ⟨hlevel, hmetric, _⟩ := h.net.of_leads hlink hleads
      obtain ⟨hu, hv, _, hk⟩ := hlinks.level hlink hleads
      have hlen := hlinks.len link hlink
      rw [walkLen_append] at hshort ⊢
      have hj := hwalk.level_nonneg hlinks
      lift j to ℕ using hj
      -- the walk so far ends in a state within reach, which was extracted and relaxed this link
      have hprev := ih (by linarith) le_rfl (by omega)
      have hreached := hdone u hu j (by omega) (by linarith)
      have hrelaxed := h.relaxed u j v l hreached hv hl (hlevel ▸ hjk) (hlevel ▸ hkl)
      rw [hmetric] at hrelaxed
      linarith

/-- **The walk back is a leveled walk whose length is the distance**, and `calc_rt` collects the
smallest width along it. -/
theorem BackPath.leveledWalk (h : DijkstraInv links n numLevels src dijk) {l : ℕ}
    (hp : BackPath n numLevels src dijk v l p) :
    ∃ k es, LeveledWalk links src v k p.reverse es ∧ k ≤ l ∧ walkLen es = dijk.dist v l ∧
      ∀ fuel, p.length ≤ fuel → ∀ minWidth nodeStack,
        DLFree.walkBack dijk fuel v l minWidth nodeStack =
          Except.ok (nodeStack ++ p, walkWidth es minWidth) := by
  induction hp with
  | @source l hl =>
      refine ⟨0, [], LeveledWalk.source, Int.natCast_nonneg _, (h.src_dist l hl).symm, ?_⟩
      intro fuel hfuel minWidth nodeStack
      cases fuel with
      | zero => simp at hfuel
      | succ fuel => simp [DLFree.walkBack, h.src_prev, walkWidth]
  | @step v l u l' p _ _ hprev hprevLevel hlv hvl hdv _ ih =>
      obtain ⟨k, es, hwalk, hk, hlen, hback⟩ := ih
      have h0 : 0 ≤ dijk.levels u v := (Int.natCast_nonneg l').trans hlv
      obtain ⟨link, hlink, hleads⟩ := h.net.exists_leads h0
      obtain ⟨_, hmetric, hwidth⟩ := h.net.of_leads hlink hleads
      refine ⟨dijk.levels u v, es ++ [link], ?_, hvl, ?_, ?_⟩
      · rw [List.reverse_cons]
        exact LeveledWalk.step hwalk hlink hleads (hk.trans hlv)
      · rw [walkLen_append, hlen, hdv, hmetric]
      · intro fuel hfuel minWidth nodeStack
        cases fuel with
        | zero => simp at hfuel
        | succ fuel =>
            have hrest := hback fuel (by simpa using hfuel)
              (if minWidth < dijk.width u v then minWidth else dijk.width u v) (nodeStack ++ [v])
            simp only [DLFree.walkBack, hprev, hprevLevel, hrest]
            rw [walkWidth_append, hwidth, List.append_assoc, List.singleton_append]

/-- The level that `calc_rt` chooses has the smallest distance. -/
theorem closestLevel_le {dst : ℕ} (hnum : dijk.numLevels = numLevels) :
    ∀ l < numLevels, (closestLevel dijk dst).1 ≤ dijk.dist dst l := by
  have key : ∀ (ls : List ℕ) (best : ℚ × Option ℕ),
      (ls.foldl (closestStep dijk dst) best).1 ≤ best.1 ∧
        ∀ l ∈ ls, (ls.foldl (closestStep dijk dst) best).1 ≤ dijk.dist dst l := by
    intro ls
    induction ls with
    | nil => exact fun best => ⟨le_rfl, by simp⟩
    | cons l ls ih =>
        intro best
        have hstep : (closestStep dijk dst best l).1 ≤ best.1 ∧
            (closestStep dijk dst best l).1 ≤ dijk.dist dst l := by
          unfold closestStep
          split
          · rename_i hlt
            exact ⟨hlt.le, le_rfl⟩
          · rename_i hge
            exact ⟨le_rfl, not_lt.1 hge⟩
        obtain ⟨hbest, hall⟩ := ih (closestStep dijk dst best l)
        refine ⟨hbest.trans hstep.1, fun x hx => ?_⟩
        rcases List.mem_cons.1 hx with rfl | hx
        · exact hbest.trans hstep.2
        · exact hall x hx
  intro l hl
  exact (key _ _).2 l (by simpa [hnum] using hl)

/-! ### The entries -/

theorem truncToInt_of_nonneg {q : ℚ} (h : 0 ≤ q) : truncToInt q = ⌊q⌋ := if_pos h

/-- A destination within reach gets a shortest leveled walk. -/
theorem DijkstraInv.walkEntry (h : DijkstraInv links n numLevels src dijk)
    (hdone : ∀ v < n, ∀ l < numLevels, dijk.dist v l < maxDijkstraDist → dijk.reached v l = true)
    (hlinks : LevelsOk links n numLevels) (hsrc : src < n) {dst : ℕ} (hne : dst ≠ src)
    (hreach : WithinReach links src dst) :
    ∃ entry p es, DLFree.calcRtEntry dijk dst = Except.ok entry ∧
      WalkEntry links src dst entry p es := by
  -- every walk that is short enough ends in a state whose distance is at most its length
  have hbound : ∀ k p es, LeveledWalk links src dst k p es → walkLen es < maxDijkstraDist →
      ∃ l < numLevels, dijk.dist dst l ≤ walkLen es := by
    intro k p es hwalk hshort
    have hk := hwalk.level_nonneg hlinks
    have hklt : k < numLevels := by
      cases hwalk with
      | source => exact absurd rfl hne
      | step _ hlink hleads _ => exact (hlinks.level hlink hleads).2.2.2
    lift k to ℕ using hk
    exact ⟨k, by omega, h.dist_le_walk hdone hlinks hwalk hshort le_rfl (by omega)⟩
  obtain ⟨k₀, p₀, es₀, hwalk₀, hshort₀⟩ := hreach
  obtain ⟨l₀, hl₀, hd₀⟩ := hbound k₀ p₀ es₀ hwalk₀ hshort₀
  have hdst := hwalk₀.lt hlinks hsrc
  obtain ⟨level, hlevel, hclosest, hlt⟩ :=
    closestLevel_spec h.net.numLevels ⟨l₀, hl₀, hd₀.trans_lt hshort₀⟩
  have hmin : ∀ l < numLevels, dijk.dist dst level ≤ dijk.dist dst l := by
    have hle : ∀ l < numLevels, (closestLevel dijk dst).1 ≤ dijk.dist dst l :=
      closestLevel_le h.net.numLevels
    rwa [hclosest] at hle
  have hcount : closerCount n numLevels dijk (dijk.dist dst level) ≤ n * numLevels := by
    refine (Finset.card_filter_le _ _).trans ?_
    simp
  obtain ⟨p, hp, hplen⟩ := h.exists_backPath hlinks.len hdst hlevel hlt hcount
  obtain ⟨k, es, hwalk, _, hlen, hback⟩ := hp.leveledWalk h
  have hw := hback (dijk.numNodes * dijk.numLevels + 1)
    (by rw [h.net.numNodes, h.net.numLevels]; exact hplen) maxDijkstraWidth []
  refine ⟨⟨dst, p.reverse.map Int.ofNat, truncToInt (dijk.dist dst level),
    truncToInt (walkWidth es maxDijkstraWidth)⟩, p.reverse, es, ?_,
    ⟨⟨k, hwalk⟩, ?_, List.nodup_reverse.2 (hp.nodup h hlinks.len), rfl, rfl, by rw [hlen], rfl⟩⟩
  · simp only [DLFree.calcRtEntry, hclosest, hw, bind, Except.bind, List.nil_append]
  · intro k' p' es' hwalk'
    rw [hlen]
    rcases lt_or_ge (walkLen es') maxDijkstraDist with hshort | hlong
    · obtain ⟨l, hl, hd⟩ := hbound k' p' es' hwalk' hshort
      exact (hmin l hl).trans hd
    · exact hlt.le.trans hlong

/-- Below `MAX_DIJKSTRA_WIDTH` the entry has the width of the narrowest link. -/
theorem WalkEntry.shortest (hlinks : LevelAssignment links n numLevels) {dst : ℕ} (hne : dst ≠ src)
    {entry : OverlayRtableEntry} (h : WalkEntry links src dst entry p es) :
    ShortestEntry links src dst entry := by
  obtain ⟨k, hwalk⟩ := h.walk
  have hwidths : ∀ link ∈ es, link.conn.width < maxDijkstraWidth := fun link hlink =>
    (hlinks.width link (hwalk.mem link hlink)).2
  have hlen : 0 ≤ walkLen es := by
    refine List.sum_nonneg fun x hx => ?_
    obtain ⟨link, hlink, rfl⟩ := List.mem_map.1 hx
    exact (hlinks.len link (hwalk.mem link hlink)).le
  obtain ⟨link, hlink, hwidth, hnarrow⟩ := exists_walkWidth (hwalk.ne_nil hne) hwidths
  refine ⟨k, p, es, hwalk, h.least, h.dstPid, h.path, ?_, link, hlink, ?_, hnarrow⟩
  · rw [h.metric, truncToInt_of_nonneg hlen]
  · rw [h.width, hwidth, truncToInt_of_nonneg (hlinks.width link (hwalk.mem link hlink)).1.le]

/-- A destination that is not within reach gets no entry. -/
theorem DijkstraInv.calcRtEntry_error (h : DijkstraInv links n numLevels src dijk)
    (hlinks : LevelsOk links n numLevels) {dst : ℕ} (hdst : dst < n)
    (hfar : ¬ WithinReach links src dst) :
    DLFree.calcRtEntry dijk dst = Except.error Abort.unreachable := by
  have hnone : ¬ ∃ l < numLevels, dijk.dist dst l < maxDijkstraDist := by
    rintro ⟨l, hl, hlt⟩
    obtain ⟨p, hp, _⟩ := h.exists_backPath hlinks.len hdst hl hlt le_rfl
    obtain ⟨k, es, hwalk, _, hlen, _⟩ := hp.leveledWalk h
    exact hfar ⟨k, p.reverse, es, hwalk, hlen ▸ hlt⟩
  simp only [DLFree.calcRtEntry, closestLevel_none h.net.numLevels hnone]

/-! ### The table -/

/-- What is left of a run after `setup` and `compute`. -/
theorem leveledDijkstraRun_compute {nodes : List OverlayNode}
    (hlinks : LevelsOk links nodes.length numLevels) (src : ℕ) :
    ∃ dijk, leveledDijkstraRun (leveledDijkstraCreate nodes numLevels) links src =
        dijkstraCalcRt dijk src ∧ DijkstraInv links nodes.length numLevels src dijk ∧
      ∀ v < nodes.length, ∀ l < numLevels, dijk.dist v l < maxDijkstraDist →
        dijk.reached v l = true := by
  obtain ⟨dijk₀, hsetup, hnet, hfresh⟩ := dijkstraSetup_ok nodes numLevels
    (fun link hl => ⟨hlinks.width link hl, hlinks.len link hl⟩) hlinks.simple
  obtain ⟨dijk, hcompute, hinv, hdone⟩ :=
    dijkstraCompute_spec src hlinks.len hlinks.simple.loop hnet hfresh
  refine ⟨dijk, ?_, hinv, hdone⟩
  simp only [leveledDijkstraRun, hsetup, hcompute, bind, Except.bind]

/-- With all other hosts within reach the run returns. -/
theorem leveledDijkstraRun_walks {nodes : List OverlayNode}
    (hlinks : LevelsOk links nodes.length numLevels) (hsrc : src < nodes.length)
    (hall : ∀ dst < nodes.length, dst ≠ src → WithinReach links src dst) :
    ∃ f : ℕ → OverlayRtableEntry, leveledDijkstraRun (leveledDijkstraCreate nodes numLevels) links
        src = Except.ok ⟨src, (List.range nodes.length).map fun i =>
          if i = src then none else some (f i)⟩ ∧
      ∀ dst < nodes.length, dst ≠ src → ∃ p es, WalkEntry links src dst (f dst) p es := by
  obtain ⟨dijk, hrun, hinv, hdone⟩ := leveledDijkstraRun_compute hlinks src
  have hentry := fun dst hlt hne =>
    hinv.walkEntry hdone hlinks hsrc hne (hall dst hlt hne)
  choose! f p es hf hwalk using hentry
  exact ⟨f, hrun.trans (dijkstraCalcRt_eq hinv.net.numNodes fun dst hlt hne =>
    ⟨hf dst hlt hne, (hwalk dst hlt hne).dstPid⟩), fun dst hlt hne => ⟨_, _, hwalk dst hlt hne⟩⟩

/-- With all other hosts within reach the entries are shortest leveled walks. -/
theorem leveledDijkstraRun_shortest {nodes : List OverlayNode}
    (hlinks : LevelAssignment links nodes.length numLevels) (hsrc : src < nodes.length)
    (hall : ∀ dst < nodes.length, dst ≠ src → WithinReach links src dst) :
    ∃ rt, leveledDijkstraRun (leveledDijkstraCreate nodes numLevels) links src = Except.ok rt ∧
      ∀ dst < nodes.length, dst ≠ src → ∃ entry, rt.entries[dst]? = some (some entry) ∧
        ShortestEntry links src dst entry := by
  obtain ⟨f, hrun, hwalk⟩ := leveledDijkstraRun_walks hlinks.levelsOk hsrc hall
  refine ⟨_, hrun, fun dst hlt hne => ?_⟩
  obtain ⟨p, es, hentry⟩ := hwalk dst hlt hne
  refine ⟨f dst, ?_, hentry.shortest hlinks hne⟩
  rw [List.getElem?_map, List.getElem?_range hlt]
  simp [hne]

/-- A host that is not within reach ends the process. -/
theorem leveledDijkstraRun_exits {nodes : List OverlayNode}
    (hlinks : LevelsOk links nodes.length numLevels) (hsrc : src < nodes.length)
    (hex : ∃ dst, dst < nodes.length ∧ dst ≠ src ∧ ¬ WithinReach links src dst) :
    leveledDijkstraRun (leveledDijkstraCreate nodes numLevels) links src =
      Except.error Abort.unreachable := by
  obtain ⟨dijk, hrun, hinv, hdone⟩ := leveledDijkstraRun_compute hlinks src
  have hentry := fun dst (hne : dst ≠ src) hreach =>
    hinv.walkEntry hdone hlinks hsrc hne hreach
  choose! f p es hf hwalk using hentry
  -- the first host that is not within reach
  classical
  obtain ⟨hlt, hne, hfar⟩ := Nat.find_spec hex
  have hbefore : ∀ i < Nat.find hex, i ≠ src →
      calcRtEntry dijk i = Except.ok (f i) ∧ (f i).dstPid = i := by
    intro i hi hine
    have hreach : WithinReach links src i := by
      by_contra hno
      exact Nat.find_min hex hi ⟨hi.trans hlt, hine, hno⟩
    exact ⟨hf i hine hreach, (hwalk i hine hreach).dstPid⟩
  exact hrun.trans (dijkstraCalcRt_error hinv.net.numNodes hlt hne
    (hinv.calcRtEntry_error hlinks hlt hfar) hbefore)

end Walks

/-! ### Two small networks -/

/-- A link of length 1 with the given level in both directions. -/
def unitLink (n0 n1 : ℕ) (level : ℤ) : RouterGraphLink :=
  ⟨⟨n0, n1, 1, 2⟩, none, none, level, level⟩

/-- Three hosts in a row; the levels rise from the first to the last. -/
def rowLinks : List RouterGraphLink := [unitLink 0 1 0, unitLink 1 2 1]

theorem rowLinks_levels : LevelAssignment rowLinks 3 2 where
  simple := ⟨by decide, by unfold ForestLayers.SamePair; decide⟩
  lt := by decide
  level0 := by decide
  level1 := by decide
  len := by decide
  width := by
    intro link hlink
    rcases List.mem_pair.1 hlink with rfl | rfl <;> norm_num [unitLink, maxDijkstraWidth]

theorem rowLinks_leads_up {v : ℕ} (h : v < 2) :
    unitLink v (v + 1) v ∈ rowLinks ∧ (unitLink v (v + 1) v).Leads v (v + 1) v := by
  obtain rfl | rfl : v = 0 ∨ v = 1 := by omega
  · exact ⟨List.mem_cons_self, Or.inl ⟨rfl, rfl, rfl⟩⟩
  · exact ⟨List.mem_cons_of_mem _ List.mem_cons_self, Or.inl ⟨rfl, rfl, rfl⟩⟩

/-- Every host is within reach of the first one. -/
theorem rowLinks_reach : ∀ dst < 3, dst ≠ 0 → WithinReach rowLinks 0 dst := by
  have hone := LeveledWalk.step LeveledWalk.source (rowLinks_leads_up Nat.two_pos).1
    (rowLinks_leads_up Nat.two_pos).2 (le_refl 0)
  have htwo := LeveledWalk.step hone (rowLinks_leads_up Nat.one_lt_two).1
    (rowLinks_leads_up Nat.one_lt_two).2 Int.one_nonneg
  intro dst hdst hne
  obtain rfl | rfl : dst = 1 ∨ dst = 2 := by omega
  · exact ⟨_, _, _, hone, by norm_num [walkLen, unitLink, maxDijkstraDist]⟩
  · exact ⟨_, _, _, htwo, by norm_num [walkLen, unitLink, maxDijkstraDist]⟩

/-- From the last host the levels allow one step only. -/
theorem rowLinks_from_two {v : ℕ} {k : ℤ} {p : List ℕ} {es : List RouterGraphLink}
    (h : LeveledWalk rowLinks 2 v k p es) : v = 2 ∨ v = 1 ∧ k = 1 := by
  induction h with
  | source => exact Or.inl rfl
  | step _ hlink hleads hjk ih =>
      rcases List.mem_pair.1 hlink with rfl | rfl <;>
        simp only [RouterGraphLink.Leads, unitLink] at hleads <;> omega

/-- Three hosts. -/
def threeHosts : List OverlayNode := [⟨0, "a"⟩, ⟨1, "b"⟩, ⟨2, "c"⟩]

/-- **The entries that `leveled_dijkstra_run` returns are shortest leveled walks.**  It returns
when every other host is within reach; otherwise it ends the process at the first one that is not.
The assertion that an extracted state is not relaxed never fails. -/
theorem leveledDijkstraRun_optimal {nodes : List OverlayNode} {numLevels src : ℕ}
    {links : List RouterGraphLink} (hlinks : LevelAssignment links nodes.length numLevels)
    (hsrc : src < nodes.length) :
    ((∀ dst < nodes.length, dst ≠ src → WithinReach links src dst) →
      ∃ rt, leveledDijkstraRun (leveledDijkstraCreate nodes numLevels) links src = Except.ok rt ∧
        ∀ dst < nodes.length, dst ≠ src → ∃ entry, rt.entries[dst]? = some (some entry) ∧
          ShortestEntry links src dst entry) ∧
    ((∃ dst, dst < nodes.length ∧ dst ≠ src ∧ ¬ WithinReach links src dst) →
      leveledDijkstraRun (leveledDijkstraCreate nodes numLevels) links src =
        Except.error Abort.unreachable) :=
  ⟨leveledDijkstraRun_shortest hlinks hsrc, leveledDijkstraRun_exits hlinks.levelsOk hsrc⟩

theorem leveledDijkstraRun_optimal_row :
    ∃ rt, leveledDijkstraRun (leveledDijkstraCreate threeHosts 2) rowLinks 0 = Except.ok rt ∧
      ∀ dst < threeHosts.length, dst ≠ 0 → ∃ entry, rt.entries[dst]? = some (some entry) ∧
        ShortestEntry rowLinks 0 dst entry :=
  (leveledDijkstraRun_optimal rowLinks_levels (by decide : 0 < threeHosts.length)).1 rowLinks_reach

/-- From the last host of the row the middle one is within reach and the first one is not, so the
run ends without a table. -/
theorem leveledDijkstraRun_row_exits :
    LevelAssignment rowLinks threeHosts.length 2 ∧ WithinReach rowLinks 2 1 ∧
      leveledDijkstraRun (leveledDijkstraCreate threeHosts 2) rowLinks 2 =
        Except.error Abort.unreachable := by
  have hstep : LeveledWalk rowLinks 2 1 1 [2, 1] [unitLink 1 2 1] :=
    LeveledWalk.step LeveledWalk.source (List.mem_cons_of_mem _ List.mem_cons_self)
      (Or.inr ⟨rfl, rfl, rfl⟩) Int.one_nonneg
  refine ⟨rowLinks_levels, ⟨1, [2, 1], _, hstep, ?_⟩, ?_⟩
  · norm_num [walkLen, unitLink, maxDijkstraDist]
  · refine leveledDijkstraRun_exits rowLinks_levels.levelsOk (by decide) ⟨0, by decide, by decide, ?_⟩
    rintro ⟨k, p, es, hwalk, _⟩
    have := rowLinks_from_two hwalk
    omega

end DLFree

/-
**The statistics of a simulated run.**

The tables that `rtable_simulator_run` computes over a topology tree give the statistics what they
rely on: an entry is at most as wide as the direct path between its ends, its route runs over at
least as many edges of the tree, and it visits no host twice.  So all indices of the statistics are
in range, as long as the widths of the topology are positive `int`s: `print_band_histo` converts a
width to `int` because the entries store their widths that way.

Main definitions:

* `RunStats` — what holds of the tables of a run, and that the statistics return.

Main results:

* `statTables_of_calls` — the tables of a run have what the statistics rely on;
* `rtableSimulatorRun_stats` — **no statistic leaves its arrays**;
* `rtableSimulatorRun_stats_wide` — a width that is not an `int`.
-/

import DLFree.PlannerEntries
import DLFree.RtableStat

set_option relaxedAutoImplicit false
set_option autoImplicit false

namespace DLFree

open ExceptEnds TreePaths

section Stats

variable {lib : Libc} {top : XmlTop} {g : OverlayGraph} {n : ℕ} {rttype : GxpRoutingType}
  {seed : ℤ}

/-- The hosts of an overlay and the direct paths between them. -/
theorem OverlayOn.statNet (h : OverlayOn top g n) (htop : top.Tree) :
    StatNet top g n (top.hostDist g) (hostWidth top g) where
  host i hi := by
    obtain ⟨node, _, hhost⟩ := h.host htop hi
    rw [overlayHostName, hhost]
    rfl
  traverse i hi j hj := by
    obtain ⟨d, hd⟩ := h.exists_path htop hi hj
    refine ⟨_, h.traverse_eq htop hi hj hd 0 0, ?_, (h.hostWidth_eq htop hi hj hd).symm⟩
    rw [SimpleGraph.Walk.length_support, length_eq_dist htop.acyclic hd]
    rfl

/-- An entry of the search has what the statistics rely on. -/
theorem WalkEntry.statEntry (h : OverlayOn top g n) (htop : top.Tree)
    (hpos : ∀ e ∈ g.conns, 0 < e.width ∧ 0 < e.len) {links : List RouterGraphLink}
    (hconns : ∀ link ∈ links, link.conn ∈ g.conns) {src dst : ℕ} (hsrc : src < n) (hdst : dst < n)
    {entry : OverlayRtableEntry} {p : List ℕ} {es : List RouterGraphLink}
    (hentry : WalkEntry links src dst entry p es) :
    StatEntry n (top.hostDist g) (hostWidth top g) src dst entry p := by
  obtain ⟨k, hwalk⟩ := hentry.walk
  obtain ⟨d, hd⟩ := h.exists_path htop hsrc hdst
  refine ⟨hentry.path, ?_, hentry.nodup, ?_, ⟨?_, ?_⟩, hentry.dist_le h htop hconns⟩
  · obtain ⟨p', rfl⟩ := hwalk.last
    exact List.concat_ne_nil _ _
  · exact hwalk.path_lt (fun link hl => h.simple.lt _ (hconns link hl)) hsrc
  · have hwidth : 0 ≤ walkWidth es maxDijkstraWidth := by
      rcases walkWidth_mem es maxDijkstraWidth with hw | ⟨link, hlink, hw⟩
      · rw [hw]
        norm_num [maxDijkstraWidth]
      · rw [hw]
        exact (hpos _ (hconns link (hwalk.mem link hlink))).1.le
    rw [hentry.width, truncToInt, if_pos hwidth]
    exact Int.floor_nonneg.2 hwidth
  · rw [h.hostWidth_eq htop hsrc hdst hd]
    exact hentry.width_le h htop hconns hd

/-- The entries of a call are shortest leveled walks. -/
theorem CallTable.walkEntry {src : ℕ} {call : List RouterGraphLink × OverlayRtable}
    (h : CallTable g n src call) {x : ℕ × ℕ × OverlayRtableEntry}
    (hx : x ∈ tableEntries call.2.srcpid.toNat call.2) :
    x.1 = src ∧ x.2.1 < n ∧ x.2.1 ≠ src ∧ ∃ p es, WalkEntry call.1 src x.2.1 x.2.2 p es := by
  obtain ⟨hsrc, hne, hget⟩ := mem_tableEntries.1 hx
  rw [h.table.srcpid, Int.toNat_natCast] at hsrc hne
  have hdst : x.2.1 < n := by
    have := (List.getElem?_eq_some_iff.1 hget).1
    rwa [h.table.size] at this
  obtain ⟨entry, p, es, hget', hwalk⟩ := h.table.entry x.2.1 hdst hne
  rw [hget, Option.some.injEq, Option.some.injEq] at hget'
  exact ⟨hsrc, hdst, hne, p, es, hget' ▸ hwalk⟩

/-- Every entry of the tables is that of a call. -/
theorem exists_callTable {srcs : List ℕ} (hsrcs : ∀ src ∈ srcs, src < n)
    {calls : List (List RouterGraphLink × OverlayRtable)}
    (hcalls : List.Forall₂ (CallTable g n) srcs calls) :
    ∀ call ∈ calls, ∃ src < n, CallTable g n src call := by
  intro call hcall
  obtain ⟨i, hi, rfl⟩ := List.getElem_of_mem hcall
  have hi' : i < srcs.length := hcalls.length_eq ▸ hi
  exact ⟨srcs[i], hsrcs _ (List.getElem_mem hi'), hcalls.get hi' hi⟩

theorem exists_walkEntry {srcs : List ℕ} (hsrcs : ∀ src ∈ srcs, src < n)
    {calls : List (List RouterGraphLink × OverlayRtable)}
    (hcalls : List.Forall₂ (CallTable g n) srcs calls) {x : ℕ × ℕ × OverlayRtableEntry}
    (hx : x ∈ statEntries (calls.map Prod.snd)) :
    x.1 < n ∧ x.2.1 < n ∧ x.1 ≠ x.2.1 ∧ ∃ call, CallTable g n x.1 call ∧
      ∃ p es, WalkEntry call.1 x.1 x.2.1 x.2.2 p es := by
  obtain ⟨rt, hrt, hx⟩ := List.mem_flatMap.1 hx
  obtain ⟨call, hmem, rfl⟩ := List.mem_map.1 hrt
  obtain ⟨src, hsrc, htable⟩ := exists_callTable hsrcs hcalls call hmem
  obtain ⟨hxsrc, hdst, hne, hwalk⟩ := htable.walkEntry hx
  rw [hxsrc]
  exact ⟨hsrc, hdst, Ne.symm hne, call, htable, hwalk⟩

/-- **The tables of the calls have what the statistics rely on.** -/
theorem statTables_of_calls (h : OverlayOn top g n) (htop : top.Tree)
    (hpos : ∀ e ∈ g.conns, 0 < e.width ∧ 0 < e.len) {srcs : List ℕ} (hsrcs : ∀ src ∈ srcs, src < n)
    {calls : List (List RouterGraphLink × OverlayRtable)}
    (hcalls : List.Forall₂ (CallTable g n) srcs calls) :
    StatTables n (top.hostDist g) (hostWidth top g) (calls.map Prod.snd) := by
  refine ⟨fun rt hrt => ?_, fun x hx => ?_⟩
  · obtain ⟨call, hmem, rfl⟩ := List.mem_map.1 hrt
    obtain ⟨src, hsrc, htable⟩ := exists_callTable hsrcs hcalls call hmem
    refine ⟨htable.table.size, src, hsrc, htable.table.srcpid, fun dst hdst hne => ?_⟩
    exact (htable.table.entry dst hdst hne).imp fun _ ⟨_, _, hget, _⟩ => hget
  · obtain ⟨hsrc, hdst, hne, call, htable, p, es, hwalk⟩ := exists_walkEntry hsrcs hcalls hx
    refine ⟨hsrc, hdst, hne, p, hwalk.statEntry h htop hpos (fun link hl => ?_) hsrc hdst⟩
    exact htable.conns.subset (List.mem_map_of_mem hl)

/-! ### The run -/

/-- What holds of the tables of a run: the bounds of the entries, and what the statistics return.
The histogram of the widths needs widths that fit into an `int`, and a number of bins that a `float`
does not make larger. -/
structure RunStats (top : XmlTop) (g : OverlayGraph) (n : ℕ) (rtVec : List OverlayRtable) :
    Prop where
  tables : rtVec.length = n
  entry : ∀ x ∈ statEntries rtVec, 0 ≤ x.2.2.width ∧
    x.2.2.width ≤ truncToInt (hostWidth top g x.1 x.2.1) ∧ x.2.2.hops ≤ n - 1 ∧
    ∃ p, x.2.2.path = p.map Int.ofNat ∧ top.hostDist g x.1 x.2.1 ≤ hopSum (top.hostDist g) p
  hops : (∃ r, overlayRtableStatsCalcHops rtVec n = Except.ok r ∧ r.1.maxhops < n) ∨
    (n = 0 ∧ overlayRtableStatsCalcHops rtVec n = Except.error Abort.assertion)
  band : (∀ i < n, ∀ j < n, i ≠ j → hostWidth top g i j < 2 ^ 31) → ∀ nbins < 2 ^ 31,
    floatRound (nbins : ℕ) ≤ nbins →
    ∃ r, overlayRtableStatsPrintBandHisto rtVec n top g nbins = Except.ok r ∧
      0 ≤ r.1.min ∧ r.1.max ≤ 1
  nodeHotspot : ∃ r, overlayRtableStatsCalcNodeHotspot rtVec n = Except.ok r
  edgeHotspot : ∃ r, overlayRtableStatsCalcEdgeHotspot rtVec n = Except.ok r
  roundabout : ∃ r, overlayRtableStatsCalcRoundabout rtVec n top g = Except.ok r ∧
    ∀ q, 0 ≤ r.1.usage q

/-- Widths of at least 1 that fit into an `int`. -/
theorem widthsOk_of_bounds {width : ℕ → ℕ → ℚ} (hone : ∀ i < n, ∀ j < n, i ≠ j → 1 ≤ width i j)
    (hint : ∀ i < n, ∀ j < n, i ≠ j → width i j < 2 ^ 31) : WidthsOk n width := by
  intro i hi j hj hij
  have hle := hone i hi j hj hij
  refine ⟨one_le_truncToInt hle, ?_⟩
  rw [truncToInt, if_pos (by linarith)]
  exact Int.floor_lt.2 (by exact_mod_cast hint i hi j hj hij)

/-- The statistics over such tables. -/
theorem runStats_of_tables (h : OverlayOn top g n) (htop : top.Tree)
    (hwidth : ∀ i < n, ∀ j < n, i ≠ j → 1 ≤ hostWidth top g i j)
    {rtVec : List OverlayRtable} (hlen : rtVec.length = n)
    (htables : StatTables n (top.hostDist g) (hostWidth top g) rtVec) : RunStats top g n rtVec where
  tables := hlen
  entry x hx := by
    obtain ⟨_, _, _, p, hp⟩ := htables.entry x hx
    have hhops := hp.hops
    exact ⟨hp.width.1, hp.width.2, by omega, p, hp.path, hp.dist⟩
  hops := by
    rcases Nat.eq_zero_or_pos n with rfl | hn
    · rw [List.length_eq_zero_iff] at hlen
      subst hlen
      exact Or.inr ⟨rfl, rfl⟩
    · obtain ⟨r, hr, _, hlt⟩ := (overlayRtableStatsCalcHops_ends htables hn).exists_ok
      exact Or.inl ⟨r, hr, hlt⟩
  band hint nbins hbins hround :=
    (overlayRtableStatsPrintBandHisto_ends htables (h.statNet htop) (widthsOk_of_bounds hwidth hint)
      hbins hround).exists_ok
  nodeHotspot :=
    (overlayRtableStatsCalcNodeHotspot_ends htables).exists_ok.imp fun _ hr => hr.1
  edgeHotspot :=
    (overlayRtableStatsCalcEdgeHotspot_ends htables).exists_ok.imp fun _ hr => hr.1
  roundabout := by
    obtain ⟨r, hr, hok⟩ :=
      (overlayRtableStatsCalcRoundabout_ends htables (h.statNet htop)).exists_ok
    exact ⟨r, hr, fun q => (hok q).1⟩

/-- The tables of a run that has returned. -/
theorem statTables_of_run (h : OverlayOn top g n) (htop : top.Tree)
    {calls : List (List RouterGraphLink × OverlayRtable)}
    (hrun : rtableSimulatorRun lib rttype seed g (List.range n) = Except.ok calls) :
    calls.length = n ∧ StatTables n (top.hostDist g) (hostWidth top g) (calls.map Prod.snd) := by
  have hsrcs : ∀ src ∈ List.range n, src < n := fun src hsrc => List.mem_range.1 hsrc
  have hpos := rtableSimulatorRun_pos h.simple h.connected hrun
  have hcalls := rtableSimulatorRun_tables h.simple h.connected hpos hsrcs hrun
  refine ⟨?_, statTables_of_calls h htop hpos hsrcs hcalls⟩
  rw [← hcalls.length_eq, List.length_range]

/-- **No statistic of a run leaves its arrays**, over any topology tree whose hosts have widths of
at least 1 between them and any connected simple overlay on its hosts. -/
theorem rtableSimulatorRun_stats (htop : top.Built) (h : OverlayOn top g n)
    (hwidth : ∀ i < n, ∀ j < n, i ≠ j → 1 ≤ hostWidth top g i j)
    {calls : List (List RouterGraphLink × OverlayRtable)}
    (hrun : rtableSimulatorRun lib rttype seed g (List.range n) = Except.ok calls) :
    RunStats top g n (calls.map Prod.snd) := by
  obtain ⟨hlen, htables⟩ := statTables_of_run h htop.tree hrun
  refine runStats_of_tables h htop.tree hwidth ?_ htables
  rw [List.length_map, hlen]

end Stats

/-- The connection of the two hosts. -/
theorem pairGraph_pos {width : ℚ} (hwidth : 0 < width) :
    ∀ e ∈ (pairGraph width).conns, 0 < e.width ∧ 0 < e.len := by
  intro e he
  rw [mem_pairGraph_conns.1 he]
  exact ⟨hwidth, two_pos⟩

/-- A run over the two hosts. -/
theorem pairGraph_run (lib : Libc) (rttype : GxpRoutingType) (seed : ℤ) (width : ℚ)
    (hwidth : 0 < width) :
    ∃ calls, rtableSimulatorRun lib rttype seed (pairGraph width) (List.range 2) =
      Except.ok calls := by
  refine rtableSimulatorRun_ok (pairGraph_simple width) (pairGraph_connected width)
    (fun e he => (pairGraph_pos hwidth e he).1) (fun e he => (pairGraph_pos hwidth e he).2) ?_
    fun src hsrc => List.mem_range.1 hsrc
  have htotal : (pairGraph width).totalLen = 2 := add_zero 2
  rw [htotal]
  norm_num [maxDijkstraDist]

theorem rtableSimulatorRun_stats_pair :
    ∃ calls, rtableSimulatorRun (Libc.insertion fun _ _ => 0) GxpRoutingType.updownBfs 0
        (pairGraph 100) (List.range 2) = Except.ok calls ∧
      RunStats (pairTop 100) (pairGraph 100) 2 (calls.map Prod.snd) := by
  have hfind : xmlTopFind (pairTop 100) "a" "b" = some (2, 100) := by decide +kernel
  have hle : (100 : ℚ) ≤ fltMax := by norm_num [fltMax]
  obtain ⟨calls, hcalls⟩ := pairGraph_run (Libc.insertion fun _ _ => 0) GxpRoutingType.updownBfs 0
    100 (by norm_num)
  refine ⟨calls, hcalls, rtableSimulatorRun_stats (pairTop_built hle) (pairGraph_on hfind) ?_
    hcalls⟩
  intro i hi j hj hij
  rw [pairGraph_width hle hfind hi hj hij]
  norm_num

/-- **A width that is not an `int`**: the histogram of the widths has no bin for the entries of two
hosts whose width is `3e9`. -/
theorem rtableSimulatorRun_stats_wide :
    (pairTop 3000000000).Built ∧ OverlayOn (pairTop 3000000000) (pairGraph 3000000000) 2 ∧
      (∀ i < 2, ∀ j < 2, i ≠ j →
        1 ≤ hostWidth (pairTop 3000000000) (pairGraph 3000000000) i j) ∧
      ∃ calls, rtableSimulatorRun (Libc.insertion fun _ _ => 0) GxpRoutingType.updownBfs 0
          (pairGraph 3000000000) (List.range 2) = Except.ok calls ∧
        overlayRtableStatsPrintBandHisto (calls.map Prod.snd) 2 (pairTop 3000000000)
          (pairGraph 3000000000) 100 = Except.error Abort.badAccess := by
  have hfind : xmlTopFind (pairTop 3000000000) "a" "b" = some (2, 3000000000) := by decide +kernel
  have hle : (3000000000 : ℚ) ≤ fltMax := by norm_num [fltMax]
  have hwidth : ∀ i < 2, ∀ j < 2, i ≠ j →
      hostWidth (pairTop 3000000000) (pairGraph 3000000000) i j = 3000000000 := fun i hi j hj hij =>
    pairGraph_width hle hfind hi hj hij
  have hon := pairGraph_on hfind
  have htree := (pairTop_built hle).tree
  refine ⟨pairTop_built hle, hon, fun i hi j hj hij => ?_, ?_⟩
  · rw [hwidth i hi j hj hij]
    norm_num
  obtain ⟨calls, hcalls⟩ := pairGraph_run (Libc.insertion fun _ _ => 0) GxpRoutingType.updownBfs 0
    3000000000 (by norm_num)
  obtain ⟨hlen, htables⟩ := statTables_of_run hon htree hcalls
  refine ⟨calls, hcalls, overlayRtableStatsPrintBandHisto_wide htables (hon.statNet htree) ?_ ?_ _⟩
  · refine htables.ne_nil Nat.one_lt_two (List.ne_nil_of_length_pos ?_)
    rw [List.length_map]
    omega
  · intro x hx
    obtain ⟨hsrc, hdst, hne, _⟩ := htables.entry x hx
    rw [hwidth _ hsrc _ hdst hne, truncToInt, if_pos (by norm_num)]
    norm_num

end DLFree

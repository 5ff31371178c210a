/-
**The statistics of the simulator: `sim/rtable_stat.c`.**

Each statistic goes through all entries of all tables and counts something: hops, the ratio of the
width of an entry to the width of the topology between its ends, how often a host or a connection is
used, and how many edges of the topology a route needs more than the direct path.  The counters
become indices of histograms, and nothing checks these indices; here every access is checked, so a
statistic returns only when all of its indices are in range.

Counters are exact numbers, and ratios are `float`s: both widths, their quotient, the number of bins,
its product with the ratio and the sum of the ratios are rounded as the source rounds them.  A
`float` that does not fit into an `int` is not converted, and neither is the quotient of a division by
zero.

Main definitions:

* `forEntries` — the loop over the entries that all statistics share;
* `overlayRtableStatsCalcHops`, `overlayRtableStatsPrintBandHisto`, `overlayRtableStatsCalcBand`,
  `overlayRtableStatsCalcNodeHotspot`, `overlayRtableStatsCalcEdgeHotspot`,
  `overlayRtableStatsCalcRoundabout` — the functions of the source;
* `StatTables` — tables whose entries have paths of hosts, widths and hops in their bounds;
* `StatNet` — hosts whose names the topology knows.

Main results:

* `forEntries_ends` — the rule for the loop over the entries;
* `overlayRtableStatsCalcHops_ends`, `overlayRtableStatsPrintBandHisto_ends`,
  `overlayRtableStatsCalcBand_ends`, `overlayRtableStatsCalcNodeHotspot_ends`,
  `overlayRtableStatsCalcEdgeHotspot_ends`, `overlayRtableStatsCalcRoundabout_ends` — **no index of
  a statistic is out of range**.
-/

import DLFree.Dijkstra
import DLFree.ExceptEnds
import DLFree.TopologyOverlay

set_option relaxedAutoImplicit false
set_option autoImplicit false

namespace DLFree

open ExceptEnds

/-! ### Arrays, conversions and the loop over the entries -/

/-- `(int)q`, which is not defined for a number that an `int` cannot hold. -/
def floatToInt (q : ℚ) : Except Abort ℤ :=
  if -2 ^ 31 ≤ truncToInt q ∧ truncToInt q < 2 ^ 31 then Except.ok (truncToInt q)
  else Except.error Abort.badAccess

/-- `rt_entry -> path[idx]`. -/
def entryPathAt (rtEntry : OverlayRtableEntry) (idx : ℕ) : Except Abort ℤ :=
  match rtEntry.path[idx]? with
  | none => Except.error Abort.badAccess
  | some pid => Except.ok pid

/-- The loop over the entries of one table; `f` gets the source, the destination and the entry. -/
def forRtable {σ : Type} (f : ℤ → ℕ → OverlayRtableEntry → σ → Except Abort σ) (s : σ)
    (rt : OverlayRtable) : Except Abort σ :=
  (List.range rt.entries.length).foldlM
    (fun (s : σ) (dstpid : ℕ) =>
      if (dstpid : ℤ) = rt.srcpid then Except.ok s
      else do
        match ← overlayRtableGetEntry rt dstpid with
        | none => Except.error Abort.badAccess
        | some rtEntry => f rt.srcpid dstpid rtEntry s)
    s

/-- The loop over all tables. -/
def forEntries {σ : Type} (f : ℤ → ℕ → OverlayRtableEntry → σ → Except Abort σ)
    (rtVec : List OverlayRtable) (s : σ) : Except Abort σ :=
  rtVec.foldlM (forRtable f) s

/-- The loop that fills `peer_names`. -/
def statPeerNames (graph : OverlayGraph) (nnodes : ℕ) : Except Abort (ℕ → Option String) :=
  (List.range nnodes).foldlM
    (fun (peerNames : ℕ → Option String) (i : ℕ) => do
      let node ← overlayHost graph i
      let pid ← arrayIndex nnodes node.pid
      Except.ok (Function.update peerNames pid (some node.name)))
    (fun _ => none)

/-- `peer_names[pid]`. -/
def statPeerName (peerNames : ℕ → Option String) (nnodes : ℕ) (pid : ℤ) : Except Abort String := do
  let pid ← arrayIndex nnodes pid
  match peerNames pid with
  | none => Except.error Abort.badAccess
  | some name => Except.ok name

/-- The call of `xml_topology_traverse` for two hosts, with an empty vector. -/
def statTraverse (top : XmlTop) (peerNames : ℕ → Option String) (nnodes : ℕ) (srcpid dstpid : ℤ) :
    Except Abort XmlOut := do
  let src ← statPeerName peerNames nnodes srcpid
  let dst ← statPeerName peerNames nnodes dstpid
  let (found, out) ← xmlTopologyTraverse top src dst ⟨[], 0, 0⟩
  cAssert found
  Except.ok out

/-- The pairs of a double loop over all hosts. -/
def hostPairs (nnodes : ℕ) : List (ℕ × ℕ) :=
  (List.range nnodes).flatMap fun i => (List.range nnodes).map fun j => (i, j)

/-! ### Hops -/

/-- What `overlay_rtable_stats_calc_hops` keeps. -/
structure HopsStat where
  histo : ℕ → ℕ
  maxhops : ℤ
  sum : ℤ
  count : ℕ

/-- One entry in `overlay_rtable_stats_calc_hops`. -/
def calcHopsEntry (nnodes : ℕ) (_ : ℤ) (_ : ℕ) (rtEntry : OverlayRtableEntry) (s : HopsStat) :
    Except Abort HopsStat := do
  let hops ← arrayIndex nnodes rtEntry.hops
  Except.ok
    { histo := Function.update s.histo hops (s.histo hops + 1)
      maxhops := max s.maxhops rtEntry.hops
      sum := s.sum + rtEntry.hops
      count := s.count + 1 }

/-- `overlay_rtable_stats_calc_hops`, with the lines of the histogram that it prints. -/
def overlayRtableStatsCalcHops (rtVec : List OverlayRtable) (nnodes : ℕ) :
    Except Abort (HopsStat × List ℕ) := do
  let s ← forEntries (calcHopsEntry nnodes) rtVec ⟨fun _ => 0, 0, 0, 0⟩
  cAssert (s.maxhops < nnodes)
  let lines ← (List.range' 1 s.maxhops.toNat).mapM fun (i : ℕ) => do
    let i ← arrayIndex nnodes i
    Except.ok (s.histo i)
  Except.ok (s, lines)

/-! ### Widths -/

/-- `(float)entry_width / width`, for two `int`s of which the second one is not zero. -/
def floatRatio (entryWidth width : ℤ) : ℚ := floatRound (floatRound entryWidth / floatRound width)

/-- What `overlay_rtable_stats_print_band_histo` keeps. -/
structure BandStat where
  histo : ℕ → ℕ
  max : ℚ
  min : ℚ
  sum : ℚ
  count : ℕ

/-- One entry in `overlay_rtable_stats_print_band_histo`. -/
def printBandEntry (top : XmlTop) (peerNames : ℕ → Option String) (nnodes nbins : ℕ) (srcpid : ℤ)
    (dstpid : ℕ) (rtEntry : OverlayRtableEntry) (s : BandStat) : Except Abort BandStat := do
  let out ← statTraverse top peerNames nnodes srcpid dstpid
  let width ← floatToInt out.width
  if width = 0 then Except.error Abort.badAccess
  else do
    let ratio := floatRatio rtEntry.width width
    let idx ← floatToInt (floatRound (ratio * floatRound nbins))
    let idx ← arrayIndex (nbins + 1) idx
    Except.ok
      { histo := Function.update s.histo idx (s.histo idx + 1)
        max := Max.max s.max ratio
        min := Min.min s.min ratio
        sum := floatAdd s.sum ratio
        count := s.count + 1 }

/-- `overlay_rtable_stats_print_band_histo`, with the lines of the histogram that it prints. -/
def overlayRtableStatsPrintBandHisto (rtVec : List OverlayRtable) (nnodes : ℕ) (top : XmlTop)
    (graph : OverlayGraph) (nbins : ℕ) : Except Abort (BandStat × List ℕ) := do
  let peerNames ← statPeerNames graph nnodes
  let s ← forEntries (printBandEntry top peerNames nnodes nbins) rtVec ⟨fun _ => 0, 0, 1, 0, 0⟩
  Except.ok (s, (List.range (nbins + 1)).map s.histo)

/-- `ratio < 0.5` for the ratio of two `int`s as `float`s, which is infinite or not a number when
the second one is zero. -/
def ratioBad (entryWidth width : ℤ) : Bool :=
  if width = 0 then entryWidth < 0 else floatRatio entryWidth width < 1 / 2

/-- One entry in `overlay_rtable_stats_calc_band`; the names on the path of the entry are printed
when its ratio is bad. -/
def calcBandEntry (top : XmlTop) (peerNames : ℕ → Option String) (nnodes : ℕ) (srcpid : ℤ)
    (dstpid : ℕ) (rtEntry : OverlayRtableEntry) (connReq : ℕ → ℕ → Bool) :
    Except Abort (ℕ → ℕ → Bool) := do
  let out ← statTraverse top peerNames nnodes srcpid dstpid
  let width ← floatToInt out.width
  if ratioBad rtEntry.width width then do
    let _ ← rtEntry.path.mapM (statPeerName peerNames nnodes)
    let src ← arrayIndex nnodes srcpid
    let dst ← arrayIndex nnodes dstpid
    Except.ok (setAt (setAt connReq src dst true) dst src true)
  else Except.ok connReq

/-- `overlay_rtable_stats_calc_band`: the pairs for which a connection is requested. -/
def overlayRtableStatsCalcBand (rtVec : List OverlayRtable) (nnodes : ℕ) (top : XmlTop)
    (graph : OverlayGraph) : Except Abort (ℕ → ℕ → Bool) := do
  let peerNames ← statPeerNames graph nnodes
  forEntries (calcBandEntry top peerNames nnodes) rtVec fun _ _ => false

/-! ### Hotspots and roundabouts -/

/-- What the other statistics keep: the values, the largest and the smallest one. -/
structure UsageStat (ι : Type) where
  usage : ι → ℤ
  max : ℤ
  min : ℤ

/-- `max` and `min` as they are initialised. -/
def usageInit (ι : Type) : UsageStat ι := ⟨fun _ => 0, 0, 2 ^ 31 - 1⟩

/-- The value of `i` becomes `c`. -/
def usageSet {ι : Type} [DecidableEq ι] (s : UsageStat ι) (i : ι) (c : ℤ) : UsageStat ι :=
  ⟨Function.update s.usage i c, Max.max s.max c, Min.min s.min c⟩

/-- The histogram of the values in bins of the size `bin`; the source divides as `Int.tdiv`. -/
def binUsage (bin max : ℤ) (values : List ℤ) : Except Abort (List ℕ) := do
  let nbin := (max.tdiv bin + 1).toNat
  let histo ← values.foldlM
    (fun (histo : ℕ → ℕ) (c : ℤ) => do
      let i ← arrayIndex nbin (c.tdiv bin)
      Except.ok (Function.update histo i (histo i + 1)))
    (fun _ => 0)
  Except.ok ((List.range nbin).map histo)

/-- One entry in `overlay_rtable_stats_calc_node_hotspot`: the hosts that forward. -/
def nodeHotspotEntry (nnodes : ℕ) (_ : ℤ) (_ : ℕ) (rtEntry : OverlayRtableEntry)
    (s : UsageStat ℕ) : Except Abort (UsageStat ℕ) :=
  (List.range' 1 (rtEntry.hops - 1).toNat).foldlM
    (fun (s : UsageStat ℕ) (idx : ℕ) => do
      let pid ← entryPathAt rtEntry idx
      let i ← arrayIndex nnodes pid
      Except.ok (usageSet s i (s.usage i + 1)))
    s

/-- `overlay_rtable_stats_calc_node_hotspot`, with the histogram that it prints. -/
def overlayRtableStatsCalcNodeHotspot (rtVec : List OverlayRtable) (nnodes : ℕ) :
    Except Abort (UsageStat ℕ × List ℕ) := do
  let s ← forEntries (nodeHotspotEntry nnodes) rtVec (usageInit ℕ)
  let histo ← binUsage 100 s.max ((List.range nnodes).map s.usage)
  Except.ok (s, histo)

/-- One entry in `overlay_rtable_stats_calc_edge_hotspot`: the steps of the path. -/
def edgeHotspotEntry (nnodes : ℕ) (_ : ℤ) (_ : ℕ) (rtEntry : OverlayRtableEntry)
    (s : UsageStat (ℕ × ℕ)) : Except Abort (UsageStat (ℕ × ℕ)) :=
  (List.range rtEntry.hops.toNat).foldlM
    (fun (s : UsageStat (ℕ × ℕ)) (idx : ℕ) => do
      let u ← entryPathAt rtEntry idx
      let v ← entryPathAt rtEntry (idx + 1)
      let i ← arrayIndex nnodes u
      let j ← arrayIndex nnodes v
      Except.ok (usageSet s (i, j) (s.usage (i, j) + 1)))
    s

/-- `overlay_rtable_stats_calc_edge_hotspot`, with the histogram that it prints. -/
def overlayRtableStatsCalcEdgeHotspot (rtVec : List OverlayRtable) (nnodes : ℕ) :
    Except Abort (UsageStat (ℕ × ℕ) × List ℕ) := do
  let s ← forEntries (edgeHotspotEntry nnodes) rtVec (usageInit (ℕ × ℕ))
  let histo ← binUsage 1 s.max (((hostPairs nnodes).map s.usage).filter (0 < ·))
  Except.ok (s, histo)

/-- The loop that fills `real_paths`; the elements on the diagonal stay null pointers. -/
def statRealPaths (top : XmlTop) (peerNames : ℕ → Option String) (nnodes : ℕ) :
    Except Abort (ℕ → ℕ → Option (List ℕ)) :=
  (hostPairs nnodes).foldlM
    (fun (realPaths : ℕ → ℕ → Option (List ℕ)) (p : ℕ × ℕ) =>
      if p.1 = p.2 then Except.ok realPaths
      else do
        let out ← statTraverse top peerNames nnodes p.1 p.2
        Except.ok (setAt realPaths p.1 p.2 (some out.path)))
    (fun _ _ => none)

/-- The number of edges of `real_paths[u][v]`. -/
def realHops (realPaths : ℕ → ℕ → Option (List ℕ)) (nnodes : ℕ) (u v : ℤ) : Except Abort ℤ := do
  let u ← arrayIndex nnodes u
  let v ← arrayIndex nnodes v
  match realPaths u v with
  | none => Except.error Abort.badAccess
  | some path => Except.ok (path.length - 1)

/-- One entry in `overlay_rtable_stats_calc_roundabout`. -/
def roundaboutEntry (realPaths : ℕ → ℕ → Option (List ℕ)) (nnodes : ℕ) (srcpid : ℤ) (dstpid : ℕ)
    (rtEntry : OverlayRtableEntry) (s : UsageStat (ℕ × ℕ)) : Except Abort (UsageStat (ℕ × ℕ)) := do
  let hops ← (List.range rtEntry.hops.toNat).foldlM
    (fun (hops : ℤ) (j : ℕ) => do
      let u ← entryPathAt rtEntry j
      let v ← entryPathAt rtEntry (j + 1)
      let real ← realHops realPaths nnodes u v
      Except.ok (hops + real))
    0
  let direct ← realHops realPaths nnodes srcpid dstpid
  let src ← arrayIndex nnodes srcpid
  let dst ← arrayIndex nnodes dstpid
  Except.ok (usageSet s (src, dst) (hops - direct))

/-- `overlay_rtable_stats_calc_roundabout`, with the histogram that it prints. -/
def overlayRtableStatsCalcRoundabout (rtVec : List OverlayRtable) (nnodes : ℕ) (top : XmlTop)
    (graph : OverlayGraph) : Except Abort (UsageStat (ℕ × ℕ) × List ℕ) := do
  let peerNames ← statPeerNames graph nnodes
  let realPaths ← statRealPaths top peerNames nnodes
  let s ← forEntries (roundaboutEntry realPaths nnodes) rtVec (usageInit (ℕ × ℕ))
  let histo ← binUsage 1 s.max ((hostPairs nnodes).map s.usage)
  Except.ok (s, histo)

/-! ### The entries one after another -/

/-- The entries of the table of `src`, with their ends. -/
def tableEntries (src : ℕ) (rt : OverlayRtable) : List (ℕ × ℕ × OverlayRtableEntry) :=
  (List.range rt.entries.length).filterMap fun dst =>
    if dst = src then none else rt.entries[dst]?.join.map fun rtEntry => (src, dst, rtEntry)

/-- The entries of all tables. -/
def statEntries (rtVec : List OverlayRtable) : List (ℕ × ℕ × OverlayRtableEntry) :=
  rtVec.flatMap fun rt => tableEntries rt.srcpid.toNat rt

theorem mem_tableEntries {src : ℕ} {rt : OverlayRtable} {x : ℕ × ℕ × OverlayRtableEntry} :
    x ∈ tableEntries src rt ↔ x.1 = src ∧ x.2.1 ≠ src ∧ rt.entries[x.2.1]? = some (some x.2.2) := by
  obtain ⟨src', dst, rtEntry⟩ := x
  rw [tableEntries, List.mem_filterMap]
  constructor
  · rintro ⟨dst', _, h⟩
    by_cases hsrc : dst' = src
    · rw [if_pos hsrc] at h
      cases h
    · rw [if_neg hsrc, Option.map_eq_some_iff] at h
      obtain ⟨rtEntry', hget, heq⟩ := h
      cases heq
      exact ⟨rfl, hsrc, Option.join_eq_some_iff.1 hget⟩
  · rintro ⟨rfl, hne, hget⟩
    refine ⟨dst, List.mem_range.2 (List.getElem?_eq_some_iff.1 hget).1, ?_⟩
    rw [if_neg hne, hget]
    rfl

theorem mem_statEntries {rtVec : List OverlayRtable} {rt : OverlayRtable} (hrt : rt ∈ rtVec)
    {src dst : ℕ} {rtEntry : OverlayRtableEntry} (hsrc : rt.srcpid = src) (hne : dst ≠ src)
    (hget : rt.entries[dst]? = some (some rtEntry)) : (src, dst, rtEntry) ∈ statEntries rtVec := by
  refine List.mem_flatMap.2 ⟨rt, hrt, mem_tableEntries.2 ⟨?_, ?_, hget⟩⟩ <;>
    rw [hsrc, Int.toNat_natCast]
  exact hne

/-- A table with an entry for every other host. -/
structure StatTable (n : ℕ) (rt : OverlayRtable) : Prop where
  size : rt.entries.length = n
  source : ∃ src < n, rt.srcpid = src ∧
    ∀ dst < n, dst ≠ src → ∃ rtEntry, rt.entries[dst]? = some (some rtEntry)

/-- The loop over a table visits its entries. -/
theorem forRtable_eq {n : ℕ} {rt : OverlayRtable} (h : StatTable n rt) {σ : Type}
    (f : ℤ → ℕ → OverlayRtableEntry → σ → Except Abort σ) (s : σ) :
    forRtable f s rt = (tableEntries rt.srcpid.toNat rt).foldlM
      (fun (s : σ) (x : ℕ × ℕ × OverlayRtableEntry) => f x.1 x.2.1 x.2.2 s) s := by
  obtain ⟨src, _, hsrc, hentry⟩ := h.source
  rw [forRtable, tableEntries, List.foldlM_filterMap, hsrc, Int.toNat_natCast]
  refine foldlM_congr (fun dst hdst s => ?_) s
  rw [h.size] at hdst
  by_cases hds : dst = src
  · subst hds
    simp only [if_true]
    rfl
  · have hcast : ¬ (dst : ℤ) = src := by omega
    have hpos : ¬ (dst : ℤ) < 0 := by omega
    obtain ⟨rtEntry, hget⟩ := hentry dst (List.mem_range.1 hdst) hds
    simp only [if_neg hcast, if_neg hds, overlayRtableGetEntry, if_neg hpos, Int.toNat_natCast,
      hget, ok_bind, Option.join_some, Option.map_some]

/-- **The loop over all tables visits all entries.** -/
theorem forEntries_eq {n : ℕ} {rtVec : List OverlayRtable} (h : ∀ rt ∈ rtVec, StatTable n rt)
    {σ : Type} (f : ℤ → ℕ → OverlayRtableEntry → σ → Except Abort σ) (s : σ) :
    forEntries f rtVec s = (statEntries rtVec).foldlM
      (fun (s : σ) (x : ℕ × ℕ × OverlayRtableEntry) => f x.1 x.2.1 x.2.2 s) s := by
  induction rtVec generalizing s with
  | nil => rfl
  | cons rt rtVec ih =>
      have hrest : ∀ s, forEntries f rtVec s = _ := fun s =>
        ih (fun x hx => h x (List.mem_cons_of_mem _ hx)) s
      simp only [forEntries] at hrest
      rw [forEntries, List.foldlM_cons, forRtable_eq (h rt List.mem_cons_self), statEntries,
        List.flatMap_cons, List.foldlM_append]
      exact congrArg _ (funext hrest)

/-! ### What the statistics rely on -/

section Stat

variable {n : ℕ} {dist : ℕ → ℕ → ℕ} {width : ℕ → ℕ → ℚ} {src dst : ℕ}
  {rtEntry : OverlayRtableEntry} {p : List ℕ} {rtVec : List OverlayRtable}

/-- The entry has a path of hosts, none of them twice.  It is at most as wide as the topology, and
its path runs over at least as many edges of the topology as the direct one. -/
structure StatEntry (n : ℕ) (dist : ℕ → ℕ → ℕ) (width : ℕ → ℕ → ℚ) (src dst : ℕ)
    (rtEntry : OverlayRtableEntry) (p : List ℕ) : Prop where
  path : rtEntry.path = p.map Int.ofNat
  ne : p ≠ []
  nodup : p.Nodup
  lt : ∀ x ∈ p, x < n
  width : 0 ≤ rtEntry.width ∧ rtEntry.width ≤ truncToInt (width src dst)
  dist : dist src dst ≤ hopSum dist p

/-- Tables with such entries. -/
structure StatTables (n : ℕ) (dist : ℕ → ℕ → ℕ) (width : ℕ → ℕ → ℚ) (rtVec : List OverlayRtable) :
    Prop where
  table : ∀ rt ∈ rtVec, StatTable n rt
  entry : ∀ x ∈ statEntries rtVec, x.1 < n ∧ x.2.1 < n ∧ x.1 ≠ x.2.1 ∧
    ∃ p, StatEntry n dist width x.1 x.2.1 x.2.2 p

/-- A table of two hosts or more has an entry. -/
theorem StatTables.ne_nil (h : StatTables n dist width rtVec) (hn : 1 < n) (hne : rtVec ≠ []) :
    statEntries rtVec ≠ [] := by
  obtain ⟨rt, hrt⟩ := List.exists_mem_of_ne_nil _ hne
  obtain ⟨src, _, hsrc, hentry⟩ := (h.table rt hrt).source
  obtain ⟨dst, hdst, hds⟩ : ∃ dst < n, dst ≠ src := by
    by_cases h0 : src = 0
    · exact ⟨1, hn, by omega⟩
    · exact ⟨0, by omega, fun he => h0 he.symm⟩
  obtain ⟨rtEntry, hget⟩ := hentry dst hdst hds
  exact List.ne_nil_of_mem (mem_statEntries hrt hsrc hds hget)

/-- **The rule for the loop over the entries.** -/
theorem forEntries_ends (h : StatTables n dist width rtVec) {E : Abort → Prop} {σ : Type}
    {I : σ → Prop} {f : ℤ → ℕ → OverlayRtableEntry → σ → Except Abort σ}
    (hf : ∀ src < n, ∀ dst < n, src ≠ dst → ∀ rtEntry p, StatEntry n dist width src dst rtEntry p →
      ∀ s, I s → Ends E I (f src dst rtEntry s)) {s : σ} (hs : I s) :
    Ends E I (forEntries f rtVec s) := by
  rw [forEntries_eq h.table]
  refine Ends.foldlM (fun x hx s hs => ?_) hs
  obtain ⟨hsrc, hdst, hne, p, hp⟩ := h.entry x hx
  exact hf x.1 hsrc x.2.1 hdst hne x.2.2 p hp s hs

theorem StatEntry.hops (h : StatEntry n dist width src dst rtEntry p) :
    rtEntry.hops = ((p.length - 1 : ℕ) : ℤ) ∧ p.length - 1 < n := by
  have hpos := List.length_pos_of_ne_nil h.ne
  have hle : p.length ≤ n := by
    have hsub := h.nodup.subperm fun x hx => List.mem_range.2 (h.lt x hx)
    simpa using hsub.length_le
  have hlen : rtEntry.path.length = p.length := by rw [h.path, List.length_map]
  rw [OverlayRtableEntry.hops, hlen]
  omega

theorem getD_of_lt {p : List ℕ} {j : ℕ} (hj : j < p.length) : p.getD j 0 = p[j] := by
  rw [List.getD_eq_getElem?_getD, List.getElem?_eq_getElem hj, Option.getD_some]

/-- The hosts on the path. -/
theorem StatEntry.pathAt (h : StatEntry n dist width src dst rtEntry p) {j : ℕ}
    (hj : j < p.length) :
    entryPathAt rtEntry j = Except.ok (p.getD j 0 : ℤ) ∧ p.getD j 0 < n := by
  rw [getD_of_lt hj]
  refine ⟨?_, h.lt _ (List.getElem_mem hj)⟩
  rw [entryPathAt, h.path, List.getElem?_map, List.getElem?_eq_getElem hj]
  rfl

theorem mem_hostPairs {q : ℕ × ℕ} : q ∈ hostPairs n ↔ q.1 < n ∧ q.2 < n := by
  obtain ⟨i, j⟩ := q
  simp only [hostPairs, List.mem_flatMap, List.mem_map, List.mem_range, Prod.mk.injEq]
  constructor
  · rintro ⟨i', hi, j', hj, rfl, rfl⟩
    exact ⟨hi, hj⟩
  · rintro ⟨hi, hj⟩
    exact ⟨i, hi, j, hj, rfl, rfl⟩

/-- The hosts of the graph are nodes of the topology, which finds a path with the given number of
edges and the given width between any two of them. -/
structure StatNet (top : XmlTop) (graph : OverlayGraph) (n : ℕ) (dist : ℕ → ℕ → ℕ)
    (width : ℕ → ℕ → ℚ) : Prop where
  host : ∀ i < n, graph.hosts[i]? = some ⟨i, overlayHostName graph i⟩
  traverse : ∀ i < n, ∀ j < n, ∃ out, xmlTopologyTraverse top (overlayHostName graph i)
    (overlayHostName graph j) ⟨[], 0, 0⟩ = Except.ok (true, out) ∧
      out.path.length = dist i j + 1 ∧ out.width = width i j

variable {top : XmlTop} {graph : OverlayGraph}

/-- The names of all hosts are entered. -/
theorem statPeerNames_ends (h : StatNet top graph n dist width) {E : Abort → Prop} :
    Ends E (fun peerNames : ℕ → Option String =>
      ∀ i < n, peerNames i = some (overlayHostName graph i)) (statPeerNames graph n) := by
  have hloop : Ends E (fun peerNames : ℕ → Option String =>
      ∀ i ∈ List.range n, peerNames i = some (overlayHostName graph i))
      (statPeerNames graph n) := by
    refine Ends.foldlM_steps (I := fun (pre : List ℕ) (peerNames : ℕ → Option String) =>
      ∀ i ∈ pre, peerNames i = some (overlayHostName graph i)) ?_ (by simp)
    intro pre i peerNames hpre hI
    have hi : i < n := List.mem_range.1 (hpre.subset (by simp))
    rw [overlayHost, h.host i hi, ok_bind, arrayIndex_of_lt hi, ok_bind, ends_ok]
    intro j hj
    by_cases hji : j = i
    · rw [hji, Function.update_self]
    · rw [Function.update_of_ne hji]
      rcases List.mem_append.1 hj with hj | hj
      · exact hI j hj
      · exact absurd (List.mem_singleton.1 hj) hji
  exact hloop.imp fun _ hnames i hi => hnames i (List.mem_range.2 hi)

/-- The call of the traversal for two hosts. -/
theorem statTraverse_eq (h : StatNet top graph n dist width) {peerNames : ℕ → Option String}
    (hnames : ∀ i < n, peerNames i = some (overlayHostName graph i)) {i j : ℕ} (hi : i < n)
    (hj : j < n) : ∃ out, statTraverse top peerNames n i j = Except.ok out ∧
      out.path.length = dist i j + 1 ∧ out.width = width i j := by
  obtain ⟨out, hrun, hlen, hwidth⟩ := h.traverse i hi j hj
  refine ⟨out, ?_, hlen, hwidth⟩
  simp only [statTraverse, statPeerName, arrayIndex_of_lt hi, arrayIndex_of_lt hj, ok_bind,
    hnames i hi, hnames j hj, hrun, cAssert_true]

/-! ### Hops -/

/-- **The number of hops is in range**, and so are the lines that are printed. -/
theorem overlayRtableStatsCalcHops_ends (h : StatTables n dist width rtVec) (hn : 0 < n)
    {E : Abort → Prop} :
    Ends E (fun r : HopsStat × List ℕ => 0 ≤ r.1.maxhops ∧ r.1.maxhops < n)
      (overlayRtableStatsCalcHops rtVec n) := by
  have hloop : Ends E (fun s : HopsStat => 0 ≤ s.maxhops ∧ s.maxhops < n)
      (forEntries (calcHopsEntry n) rtVec ⟨fun _ => 0, 0, 0, 0⟩) := by
    refine forEntries_ends h (fun src _ dst _ _ rtEntry p hp s hs => ?_) (by simpa using hn)
    obtain ⟨hhops, hlt⟩ := hp.hops
    rw [calcHopsEntry, hhops, arrayIndex_of_lt hlt, ok_bind, ends_ok]
    exact ⟨le_max_of_le_left hs.1, max_lt hs.2 (by omega)⟩
  refine hloop.bind fun s hs => ?_
  rw [cAssert_of hs.2, ok_bind]
  refine (Ends.mapM (Q := fun _ => True) fun i hi => ?_).bind fun _ _ => hs
  rw [List.mem_range'_1] at hi
  rw [arrayIndex_of_lt (by omega), ok_bind]
  trivial

/-! ### Widths -/

theorem floatToInt_of_range {q : ℚ} (h0 : 0 ≤ truncToInt q) (hlt : truncToInt q < 2 ^ 31) :
    floatToInt q = Except.ok (truncToInt q) :=
  if_pos ⟨by omega, hlt⟩

theorem one_le_truncToInt {q : ℚ} (h : 1 ≤ q) : 1 ≤ truncToInt q := by
  rw [truncToInt, if_pos (by linarith)]
  exact Int.le_floor.2 (by exact_mod_cast h)

/-- The widths between different hosts are positive `int`s. -/
def WidthsOk (n : ℕ) (width : ℕ → ℕ → ℚ) : Prop :=
  ∀ i < n, ∀ j < n, i ≠ j → 1 ≤ truncToInt (width i j) ∧ truncToInt (width i j) < 2 ^ 31

/-- The ratio of a width to one that is at least as large. -/
theorem floatRatio_range {entryWidth width : ℤ} (h0 : 0 ≤ entryWidth) (hle : entryWidth ≤ width)
    (hpos : 1 ≤ width) : 0 ≤ floatRatio entryWidth width ∧ floatRatio entryWidth width ≤ 1 := by
  have hwidth : 0 < floatRound width := zero_lt_one.trans_le (one_le_floatRound hpos)
  have hentry : 0 ≤ floatRound entryWidth := floatRound_nonneg (by exact_mod_cast h0)
  refine ⟨floatRound_nonneg (div_nonneg hentry hwidth.le), ?_⟩
  have hquot : floatRound entryWidth / floatRound width ≤ 1 :=
    (div_le_one hwidth).2 (floatRound_mono (by exact_mod_cast hle))
  exact (floatRound_mono hquot).trans_eq floatRound_one

theorem floatRatio_self {width : ℤ} (hpos : 1 ≤ width) : floatRatio width width = 1 := by
  have hne : floatRound width ≠ 0 := (zero_lt_one.trans_le (one_le_floatRound hpos)).ne'
  rw [floatRatio, div_self hne, floatRound_one]

theorem floatRatio_mono {entryWidth entryWidth' width : ℤ} (h : entryWidth ≤ entryWidth')
    (hpos : 1 ≤ width) : floatRatio entryWidth width ≤ floatRatio entryWidth' width := by
  have hwidth : 0 < floatRound width := zero_lt_one.trans_le (one_le_floatRound hpos)
  have hentry : floatRound entryWidth ≤ floatRound entryWidth' :=
    floatRound_mono (by exact_mod_cast h)
  exact floatRound_mono (div_le_div_of_nonneg_right hentry hwidth.le)

/-- The ratio of an entry lies between 0 and 1. -/
theorem StatEntry.ratio (h : StatEntry n dist width src dst rtEntry p)
    (hwidth : 1 ≤ truncToInt (width src dst)) :
    0 ≤ floatRatio rtEntry.width (truncToInt (width src dst)) ∧
      floatRatio rtEntry.width (truncToInt (width src dst)) ≤ 1 :=
  floatRatio_range h.width.1 h.width.2 hwidth

/-- **The bin of a ratio between 0 and 1 is in range**, when the number of bins is not rounded up. -/
theorem ratio_bin {ratio : ℚ} {nbins : ℕ} (hratio : 0 ≤ ratio ∧ ratio ≤ 1)
    (hbins : nbins < 2 ^ 31) (hround : floatRound nbins ≤ nbins) :
    ∃ i ≤ nbins, floatToInt (floatRound (ratio * floatRound nbins)) = Except.ok (i : ℤ) := by
  have hnonneg : 0 ≤ floatRound nbins := floatRound_nonneg (Nat.cast_nonneg _)
  have h0 : 0 ≤ floatRound (ratio * floatRound nbins) :=
    floatRound_nonneg (mul_nonneg hratio.1 hnonneg)
  have hle : floatRound (ratio * floatRound nbins) ≤ nbins := by
    have hprod : ratio * floatRound nbins ≤ nbins :=
      (mul_le_of_le_one_left hnonneg hratio.2).trans hround
    exact (floatRound_mono hprod).trans hround
  have htrunc : 0 ≤ truncToInt (floatRound (ratio * floatRound nbins)) ∧
      truncToInt (floatRound (ratio * floatRound nbins)) ≤ nbins := by
    rw [truncToInt, if_pos h0]
    exact ⟨Int.floor_nonneg.2 h0, (Int.floor_le_floor hle).trans_eq (Int.floor_natCast nbins)⟩
  obtain ⟨i, hi⟩ := Int.eq_ofNat_of_zero_le htrunc.1
  refine ⟨i, by omega, ?_⟩
  rw [floatToInt_of_range htrunc.1 (by omega), hi]

/-- **The ratios are between 0 and 1**, and their bins are in range. -/
theorem overlayRtableStatsPrintBandHisto_ends (h : StatTables n dist width rtVec)
    (hnet : StatNet top graph n dist width) (hwidth : WidthsOk n width) {nbins : ℕ}
    (hbins : nbins < 2 ^ 31) (hround : floatRound nbins ≤ nbins) {E : Abort → Prop} :
    Ends E (fun r : BandStat × List ℕ => 0 ≤ r.1.min ∧ r.1.max ≤ 1)
      (overlayRtableStatsPrintBandHisto rtVec n top graph nbins) := by
  refine (statPeerNames_ends hnet).bind fun peerNames hnames => ?_
  refine Ends.bind (P := fun s : BandStat => 0 ≤ s.min ∧ s.max ≤ 1)
    (forEntries_ends h (fun src hsrc dst hdst hne rtEntry p hp s hs => ?_) (by norm_num))
    fun s hs => hs
  obtain ⟨out, hrun, _, hout⟩ := statTraverse_eq hnet hnames hsrc hdst
  obtain ⟨hone, hint⟩ := hwidth src hsrc dst hdst hne
  have hratio := hp.ratio hone
  obtain ⟨i, hi, hidx⟩ := ratio_bin hratio hbins hround
  rw [printBandEntry, hrun, ok_bind, hout, floatToInt_of_range (by omega) hint, ok_bind,
    if_neg (by omega)]
  dsimp only
  rw [hidx, ok_bind, arrayIndex_of_lt (by omega), ok_bind, ends_ok]
  exact ⟨le_min hs.1 hratio.1, max_le hs.2 hratio.2⟩

/-- A width that is not an `int` is not converted. -/
theorem overlayRtableStatsPrintBandHisto_wide (h : StatTables n dist width rtVec)
    (hnet : StatNet top graph n dist width) (hne : statEntries rtVec ≠ [])
    (hwide : ∀ x ∈ statEntries rtVec, 2 ^ 31 ≤ truncToInt (width x.1 x.2.1)) (nbins : ℕ) :
    overlayRtableStatsPrintBandHisto rtVec n top graph nbins = Except.error Abort.badAccess := by
  obtain ⟨peerNames, hpeer, hnames⟩ := (statPeerNames_ends hnet).exists_ok
  rw [overlayRtableStatsPrintBandHisto, hpeer, ok_bind, forEntries_eq h.table]
  -- the first entry is the last one that is looked at
  obtain ⟨x, rest, hx⟩ := List.exists_cons_of_ne_nil hne
  have hmem : x ∈ statEntries rtVec := hx ▸ List.mem_cons_self
  obtain ⟨hsrc, hdst, _, _⟩ := h.entry x hmem
  obtain ⟨out, hrun, _, hout⟩ := statTraverse_eq hnet hnames hsrc hdst
  have hconv : floatToInt out.width = Except.error Abort.badAccess := by
    rw [hout]
    exact if_neg fun hin => absurd (hwide x hmem) (not_le.2 hin.2)
  rw [hx, List.foldlM_cons, printBandEntry, hrun, ok_bind, hconv]
  rfl

/-- **When the histogram is printed, all widths fit into an `int`.** -/
theorem overlayRtableStatsPrintBandHisto_int (h : StatTables n dist width rtVec)
    (hnet : StatNet top graph n dist width) {nbins : ℕ} {r : BandStat × List ℕ}
    (hrun : overlayRtableStatsPrintBandHisto rtVec n top graph nbins = Except.ok r) :
    ∀ x ∈ statEntries rtVec, truncToInt (width x.1 x.2.1) < 2 ^ 31 := by
  intro x hx
  obtain ⟨peerNames, hpeer, hrun⟩ := bind_eq_ok.1 hrun
  have hnames := (statPeerNames_ends (E := fun _ => False) hnet).of_ok hpeer
  obtain ⟨last, hloop, _⟩ := bind_eq_ok.1 hrun
  rw [forEntries_eq h.table] at hloop
  obtain ⟨s, s', hentry⟩ := foldlM_step hx hloop
  obtain ⟨hsrc, hdst, _, _⟩ := h.entry x hx
  obtain ⟨out, htraverse, _, hout⟩ := statTraverse_eq hnet hnames hsrc hdst
  rw [printBandEntry, htraverse, ok_bind] at hentry
  obtain ⟨int, hint, _⟩ := bind_eq_ok.1 hentry
  rw [floatToInt, hout] at hint
  split at hint
  · rename_i hrange
    exact hrange.2
  · cases hint

/-- The entries ask for a connection between `i` and `j`: one of them has less than half the width
that the topology has between its ends. -/
def Requests (width : ℕ → ℕ → ℚ) (entries : List (ℕ × ℕ × OverlayRtableEntry)) (i j : ℕ) : Prop :=
  ∃ x ∈ entries, ratioBad x.2.2.width (truncToInt (width x.1 x.2.1)) = true ∧
    ((x.1 = i ∧ x.2.1 = j) ∨ (x.1 = j ∧ x.2.1 = i))

/-- One entry more. -/
theorem requests_append {entries : List (ℕ × ℕ × OverlayRtableEntry)} {i j : ℕ} :
    Requests width (entries ++ [(src, dst, rtEntry)]) i j ↔ Requests width entries i j ∨
      (ratioBad rtEntry.width (truncToInt (width src dst)) = true ∧
        ((src = i ∧ dst = j) ∨ (src = j ∧ dst = i))) := by
  constructor
  · rintro ⟨x, hx, h⟩
    rcases List.mem_append.1 hx with hx | hx
    · exact Or.inl ⟨x, hx, h⟩
    · rw [List.mem_singleton] at hx
      subst hx
      exact Or.inr h
  · rintro (⟨x, hx, h⟩ | h)
    · exact ⟨x, List.mem_append_left _ hx, h⟩
    · exact ⟨(src, dst, rtEntry), List.mem_append_right _ List.mem_cons_self, h⟩

theorem setAt_true {a : ℕ → ℕ → Bool} {u v i j : ℕ} :
    setAt (setAt a u v true) v u true i j = true ↔
      a i j = true ∨ ((u = i ∧ v = j) ∨ (u = j ∧ v = i)) := by
  by_cases h : i = v ∧ j = u
  · simp [setAt, h]
  · by_cases h' : i = u ∧ j = v
    · simp [setAt, h']
    · have h₁ : ¬ (u = j ∧ v = i) := fun hu => h ⟨hu.2.symm, hu.1.symm⟩
      have h₂ : ¬ (u = i ∧ v = j) := fun hu => h' ⟨hu.1.symm, hu.2.symm⟩
      simp only [setAt, if_neg h, if_neg h', h₁, h₂, or_false]

/-- **A connection is requested for exactly the pairs with a bad entry.** -/
theorem overlayRtableStatsCalcBand_ends (h : StatTables n dist width rtVec)
    (hnet : StatNet top graph n dist width) (hwidth : WidthsOk n width) {E : Abort → Prop} :
    Ends E (fun connReq : ℕ → ℕ → Bool =>
        ∀ i j, connReq i j = true ↔ Requests width (statEntries rtVec) i j)
      (overlayRtableStatsCalcBand rtVec n top graph) := by
  refine (statPeerNames_ends hnet).bind fun peerNames hnames => ?_
  rw [forEntries_eq h.table]
  refine Ends.foldlM_steps (I := fun (pre : List (ℕ × ℕ × OverlayRtableEntry))
    (connReq : ℕ → ℕ → Bool) => ∀ i j, connReq i j = true ↔ Requests width pre i j) ?_ ?_
  · rintro pre ⟨src, dst, rtEntry⟩ connReq hpre hI
    obtain ⟨hsrc, hdst, hne, p, hp⟩ :=
      h.entry _ (hpre.subset (List.mem_append_right pre List.mem_cons_self))
    obtain ⟨out, hrun, _, hout⟩ := statTraverse_eq hnet hnames hsrc hdst
    obtain ⟨hone, hint⟩ := hwidth src hsrc dst hdst hne
    rw [calcBandEntry, hrun, ok_bind, hout, floatToInt_of_range (by omega) hint, ok_bind]
    by_cases hbad : ratioBad rtEntry.width (truncToInt (width src dst)) = true
    · -- the names of the hosts on the path are printed
      have hprint : Ends E (fun _ : List String => True)
          (rtEntry.path.mapM (statPeerName peerNames n)) := by
        refine (Ends.mapM (Q := fun _ => True) fun pid hpid => ?_).imp fun _ _ => trivial
        rw [hp.path] at hpid
        obtain ⟨x, hx, rfl⟩ := List.mem_map.1 hpid
        have hlt := hp.lt x hx
        rw [statPeerName, Int.ofNat_eq_natCast, arrayIndex_of_lt hlt, ok_bind, hnames x hlt]
        trivial
      rw [if_pos hbad]
      refine hprint.bind fun _ _ => ?_
      rw [arrayIndex_of_lt hsrc, ok_bind, arrayIndex_of_lt hdst, ok_bind, ends_ok]
      intro i j
      rw [setAt_true, requests_append, hI, and_iff_right hbad]
    · rw [if_neg hbad, ends_ok]
      intro i j
      rw [requests_append, hI]
      exact ⟨Or.inl, fun hor => hor.resolve_right fun hand => hbad hand.1⟩
  · intro i j
    refine ⟨fun hfalse => absurd hfalse Bool.false_ne_true, ?_⟩
    rintro ⟨x, hx, _⟩
    cases hx

/-! ### Hotspots and roundabouts -/

/-- No value is negative, and `max` is an upper bound. -/
def UsageStat.Ok {ι : Type} (s : UsageStat ι) : Prop := ∀ i, 0 ≤ s.usage i ∧ s.usage i ≤ s.max

theorem usageInit_ok (ι : Type) : (usageInit ι).Ok := fun _ => ⟨le_rfl, le_rfl⟩

theorem usageSet_ok {ι : Type} [DecidableEq ι] {s : UsageStat ι} (hs : s.Ok) (i : ι) {c : ℤ}
    (hc : 0 ≤ c) : (usageSet s i c).Ok := by
  intro j
  by_cases hj : j = i
  · subst hj
    simp only [usageSet, Function.update_self]
    exact ⟨hc, le_max_right _ _⟩
  · simp only [usageSet, Function.update_of_ne hj]
    exact ⟨(hs j).1, le_max_of_le_left (hs j).2⟩

/-- **The bins of values up to `max` are in range.** -/
theorem binUsage_ends {bin max : ℤ} {values : List ℤ} (hbin : 0 < bin)
    (hvalues : ∀ c ∈ values, 0 ≤ c ∧ c ≤ max) {E : Abort → Prop} :
    Ends E (fun _ => True) (binUsage bin max values) := by
  refine Ends.bind (P := fun _ => True) (Ends.foldlM (fun c hc histo _ => ?_) trivial)
    fun _ _ => trivial
  obtain ⟨h0, hle⟩ := hvalues c hc
  have hdiv : c.tdiv bin ≤ max.tdiv bin := by
    rw [Int.tdiv_eq_ediv_of_nonneg h0, Int.tdiv_eq_ediv_of_nonneg (h0.trans hle)]
    exact Int.ediv_le_ediv hbin hle
  have hpos : 0 ≤ c.tdiv bin := Int.tdiv_nonneg h0 hbin.le
  rw [arrayIndex, if_pos ⟨hpos, by omega⟩]
  trivial

/-- **The hosts that forward are in range**, and so are the bins. -/
theorem overlayRtableStatsCalcNodeHotspot_ends (h : StatTables n dist width rtVec)
    {E : Abort → Prop} :
    Ends E (fun r : UsageStat ℕ × List ℕ => r.1.Ok)
      (overlayRtableStatsCalcNodeHotspot rtVec n) := by
  have hloop : Ends E UsageStat.Ok (forEntries (nodeHotspotEntry n) rtVec (usageInit ℕ)) := by
    refine forEntries_ends h (fun src _ dst _ _ rtEntry p hp s hs => ?_) (usageInit_ok ℕ)
    refine Ends.foldlM (fun idx hidx s hs => ?_) hs
    rw [List.mem_range'_1, hp.hops.1] at hidx
    obtain ⟨hget, hlt⟩ := hp.pathAt (j := idx) (by omega)
    rw [hget, ok_bind, arrayIndex_of_lt hlt, ok_bind, ends_ok]
    exact usageSet_ok hs _ (by linarith [(hs (p.getD idx 0)).1])
  refine hloop.bind fun s hs => ?_
  refine Ends.bind (binUsage_ends (by norm_num) fun c hc => ?_) fun _ _ => hs
  obtain ⟨i, _, rfl⟩ := List.mem_map.1 hc
  exact hs i

/-- **The steps of the paths are in range**, and so are the bins. -/
theorem overlayRtableStatsCalcEdgeHotspot_ends (h : StatTables n dist width rtVec)
    {E : Abort → Prop} :
    Ends E (fun r : UsageStat (ℕ × ℕ) × List ℕ => r.1.Ok)
      (overlayRtableStatsCalcEdgeHotspot rtVec n) := by
  have hloop : Ends E UsageStat.Ok
      (forEntries (edgeHotspotEntry n) rtVec (usageInit (ℕ × ℕ))) := by
    refine forEntries_ends h (fun src _ dst _ _ rtEntry p hp s hs => ?_) (usageInit_ok _)
    refine Ends.foldlM (fun idx hidx s hs => ?_) hs
    rw [List.mem_range, hp.hops.1] at hidx
    obtain ⟨hget, hlt⟩ := hp.pathAt (j := idx) (by omega)
    obtain ⟨hget', hlt'⟩ := hp.pathAt (j := idx + 1) (by omega)
    rw [hget, ok_bind, hget', ok_bind, arrayIndex_of_lt hlt, ok_bind, arrayIndex_of_lt hlt',
      ok_bind, ends_ok]
    exact usageSet_ok hs _ (by linarith [(hs (p.getD idx 0, p.getD (idx + 1) 0)).1])
  refine hloop.bind fun s hs => ?_
  refine Ends.bind (binUsage_ends (by norm_num) fun c hc => ?_) fun _ _ => hs
  obtain ⟨q, _, rfl⟩ := List.mem_map.1 (List.mem_filter.1 hc).1
  exact hs q

/-- The paths of the topology between different hosts are entered. -/
def RealPathsOk (n : ℕ) (dist : ℕ → ℕ → ℕ) (realPaths : ℕ → ℕ → Option (List ℕ)) : Prop :=
  ∀ q ∈ hostPairs n, q.1 ≠ q.2 →
    ∃ path, realPaths q.1 q.2 = some path ∧ path.length = dist q.1 q.2 + 1

theorem statRealPaths_ends (hnet : StatNet top graph n dist width)
    {peerNames : ℕ → Option String}
    (hnames : ∀ i < n, peerNames i = some (overlayHostName graph i)) {E : Abort → Prop} :
    Ends E (RealPathsOk n dist) (statRealPaths top peerNames n) := by
  refine Ends.foldlM_steps (I := fun (pre : List (ℕ × ℕ)) (realPaths : ℕ → ℕ → Option (List ℕ)) =>
    ∀ q ∈ pre, q.1 ≠ q.2 →
      ∃ path, realPaths q.1 q.2 = some path ∧ path.length = dist q.1 q.2 + 1) ?_ (by simp)
  rintro pre ⟨i, j⟩ realPaths hpre hI
  obtain ⟨hi, hj⟩ := mem_hostPairs.1 (hpre.subset (by simp : (i, j) ∈ pre ++ [(i, j)]))
  by_cases hij : i = j
  · rw [if_pos hij, ends_ok]
    intro q hq hne
    rcases List.mem_append.1 hq with hq | hq
    · exact hI q hq hne
    · rw [List.mem_singleton] at hq
      subst hq
      exact absurd hij hne
  · obtain ⟨out, hrun, hlen, _⟩ := statTraverse_eq hnet hnames hi hj
    rw [if_neg hij, hrun, ok_bind, ends_ok]
    intro q hq hne
    by_cases hqij : q = (i, j)
    · subst hqij
      exact ⟨out.path, by simp [setAt], hlen⟩
    · have hkeep : setAt realPaths i j (some out.path) q.1 q.2 = realPaths q.1 q.2 :=
        if_neg fun heq => hqij (Prod.ext heq.1 heq.2)
      rw [hkeep]
      rcases List.mem_append.1 hq with hq | hq
      · exact hI q hq hne
      · exact absurd (List.mem_singleton.1 hq) hqij

theorem realHops_eq {realPaths : ℕ → ℕ → Option (List ℕ)} (h : RealPathsOk n dist realPaths)
    {i j : ℕ} (hi : i < n) (hj : j < n) (hij : i ≠ j) :
    realHops realPaths n i j = Except.ok (dist i j : ℤ) := by
  obtain ⟨path, hpath, hlen⟩ := h (i, j) (mem_hostPairs.2 ⟨hi, hj⟩) hij
  rw [realHops, arrayIndex_of_lt hi, ok_bind, arrayIndex_of_lt hj, ok_bind]
  simp only [hpath, hlen, Nat.cast_add, Nat.cast_one, add_sub_cancel_right]

/-- The edges of the topology along the path of an entry. -/
theorem roundaboutHops_ends {realPaths : ℕ → ℕ → Option (List ℕ)}
    (hpaths : RealPathsOk n dist realPaths) (hp : StatEntry n dist width src dst rtEntry p)
    {E : Abort → Prop} :
    Ends E (fun hops : ℤ => hops = hopSum dist p)
      ((List.range rtEntry.hops.toNat).foldlM
        (fun (hops : ℤ) (j : ℕ) => do
          let u ← entryPathAt rtEntry j
          let v ← entryPathAt rtEntry (j + 1)
          let real ← realHops realPaths n u v
          Except.ok (hops + real)) 0) := by
  rw [hp.hops.1, Int.toNat_natCast]
  refine Ends.foldlM_steps (I := fun (pre : List ℕ) (hops : ℤ) =>
    hops = ((pre.map fun j => dist (p.getD j 0) (p.getD (j + 1) 0)).sum : ℕ)) ?_ rfl
  intro pre j hops hpre hI
  have hj : j < p.length - 1 := List.mem_range.1 (hpre.subset (by simp))
  obtain ⟨hget, hlt⟩ := hp.pathAt (j := j) (by omega)
  obtain ⟨hget', hlt'⟩ := hp.pathAt (j := j + 1) (by omega)
  have hne : p.getD j 0 ≠ p.getD (j + 1) 0 := by
    rw [getD_of_lt (by omega), getD_of_lt (by omega), Ne, List.Nodup.getElem_inj_iff hp.nodup]
    omega
  rw [hget, ok_bind, hget', ok_bind, realHops_eq hpaths hlt hlt' hne, ok_bind, ends_ok, hI,
    List.map_append, List.sum_append, List.map_singleton, List.sum_singleton, Nat.cast_add]

/-- **No route has fewer edges of the topology than the direct path**, so the bins are in range. -/
theorem overlayRtableStatsCalcRoundabout_ends (h : StatTables n dist width rtVec)
    (hnet : StatNet top graph n dist width) {E : Abort → Prop} :
    Ends E (fun r : UsageStat (ℕ × ℕ) × List ℕ => r.1.Ok)
      (overlayRtableStatsCalcRoundabout rtVec n top graph) := by
  refine (statPeerNames_ends hnet).bind fun peerNames hnames => ?_
  refine (statRealPaths_ends hnet hnames).bind fun realPaths hpaths => ?_
  have hloop : Ends E UsageStat.Ok
      (forEntries (roundaboutEntry realPaths n) rtVec (usageInit (ℕ × ℕ))) := by
    refine forEntries_ends h (fun src hsrc dst hdst hne rtEntry p hp s hs => ?_) (usageInit_ok _)
    refine (roundaboutHops_ends hpaths hp).bind fun hops hhops => ?_
    rw [realHops_eq hpaths hsrc hdst hne, ok_bind, arrayIndex_of_lt hsrc, ok_bind,
      arrayIndex_of_lt hdst, ok_bind, ends_ok]
    have hdist : (dist src dst : ℤ) ≤ hopSum dist p := by exact_mod_cast hp.dist
    exact usageSet_ok hs _ (by omega)
  refine hloop.bind fun s hs => ?_
  refine Ends.bind (binUsage_ends (by norm_num) fun c hc => ?_) fun _ _ => hs
  obtain ⟨q, _, rfl⟩ := List.mem_map.1 hc
  exact hs q

end Stat

end DLFree

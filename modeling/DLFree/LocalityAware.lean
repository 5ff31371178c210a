/-
**The locality-aware overlay: `gxp/gxp.c` and `graph/overlay.c`.**

Every host sorts the other hosts by their distance in the topology, cuts them into buckets of
doubling size and selects about `alpha` of each bucket at random.  The nodes of a GXP run do this
each for itself: a node connects to the selected nodes of larger index, and asks those of smaller
index to connect back.  The simulation does it for one host after the other and enters the
selected pairs into a symmetric matrix.  Both files have the same text for the sorting and the
selection.

Lengths are exact numbers, and the comparison of `(float)rand() / RAND_MAX` with a bound is a
parameter.  An `int` that holds `lim` has room for it: `lim` stays below twice the number of hosts.

Main definitions:

* `XmlTraverse` — what `xml_topology_traverse` leaves behind;
* `localitySort`, `bucketLoop` — the sorting and the selection;
* `gxpManConnectLocalityAware`, `gxpLocalityRequests` — a node of a GXP run;
* `overlayGraphSimulateLocalityAware` — the simulation.

Main results:

* `locality_selected` — both programs act on the same selected hosts;
* `locality_overlay_eq` — **the simulated overlay is the one that the nodes plan**.
-/

import DLFree.GxpCollectives
import DLFree.Overlay

set_option relaxedAutoImplicit false
set_option autoImplicit false

namespace DLFree

/-! ### The code that both files share -/

/-- What `xml_topology_traverse` leaves behind for two hosts: whether it has found the second one,
and what is in `*len` and `*width`.  It does not return when it does not know the first one. -/
abbrev XmlTraverse := String → String → Option (Bool × ℚ × ℚ)

/-- What it has found. -/
def xmlFound (xmlTraverse : XmlTraverse) : XmlTopology := fun src dst =>
  match xmlTraverse src dst with
  | some (true, len, width) => some (len, width)
  | _ => none

section Code

variable (lib : Libc) (below : ℕ → ℚ → Bool)

/-- `shuffle_array(a + i, n)`. -/
def shuffleArray (i n : ℕ) (r : RandState) (a : List ℕ) : RandState × List ℕ :=
  (List.range n).foldl
    (fun (s : RandState × List ℕ) (k : ℕ) =>
      (s.1.next, listSwap s.2 (i + k) (i + s.1.value lib % n)))
    (r, a)

/-- One comparison of the bubble sort. -/
def bubbleStep (kv : List ℚ × List ℕ) (j : ℕ) : List ℚ × List ℕ :=
  match kv.1[j]?, kv.1[j + 1]? with
  | some x, some y => if x > y then (listSwap kv.1 j (j + 1), listSwap kv.2 j (j + 1)) else kv
  | _, _ => kv

/-- The first loop of `shuffle_and_sort_pairs`. -/
def shufflePairs (n : ℕ) (r : RandState) (kv : List ℚ × List ℕ) :
    RandState × (List ℚ × List ℕ) :=
  (List.range n).foldl
    (fun (s : RandState × (List ℚ × List ℕ)) (i : ℕ) =>
      let j := s.1.value lib % n
      (s.1.next, (listSwap s.2.1 i j, listSwap s.2.2 i j)))
    (r, kv)

/-- `shuffle_and_sort_pairs`. -/
def shuffleAndSortPairs (n : ℕ) (r : RandState) (kv : List ℚ × List ℕ) :
    RandState × (List ℚ × List ℕ) :=
  let (r, kv) := shufflePairs lib n r kv
  (r, (List.range n).foldl
    (fun (kv : List ℚ × List ℕ) (_ : ℕ) => (List.range (n - 1)).foldl bubbleStep kv) kv)

/-- The loop that fills `dist` and `idxs` for the host `idx`. -/
def localityDistances (xmlTraverse : XmlTraverse) (name : String) (names : ℕ → String) (n idx : ℕ) :
    Except Abort (List ℚ × List ℕ) :=
  ((List.range n).filter (· ≠ idx)).foldlM
    (fun (kv : List ℚ × List ℕ) (dst : ℕ) =>
      match xmlTraverse name (names dst) with
      | none => Except.error Abort.assertion
      | some (_, len, _) => Except.ok (kv.1 ++ [len], kv.2 ++ [dst]))
    ([], [])

/-- The other hosts in the order of their distances, and where `rand` stands then. -/
def localitySort (xmlTraverse : XmlTraverse) (name : String) (names : ℕ → String) (n idx : ℕ)
    (seed : ℤ) : Except Abort (RandState × List ℕ) := do
  let kv ← localityDistances xmlTraverse name names n idx
  let (r, kv) := shuffleAndSortPairs lib (n - 1) (srand (seed + idx)) kv
  Except.ok (r, kv.2)

section Select

variable {σ : Type} (act : σ → ℕ → σ)

/-- The loop over a bucket `[i, j)`; `act` is what is done with a selected host. -/
def selectLoop (alpha lim i j : ℕ) (idxs : List ℕ) :
    List ℕ → RandState → σ → RandState × σ
  | [], r, s => (r, s)
  | k :: ks, r, s =>
      if lim = j - i ∧ k ≥ i + alpha then (r, s)
      else if lim = j - i then selectLoop alpha lim i j idxs ks r (act s (idxs.getD k 0))
      else if below (r.value lib) (alpha / lim) then
        selectLoop alpha lim i j idxs ks r.next (act s (idxs.getD k 0))
      else selectLoop alpha lim i j idxs ks r.next s

/-- The loop over the buckets, with the number of rounds it may take. -/
def bucketLoop (npeers alpha : ℕ) : ℕ → ℕ → ℕ → RandState → List ℕ → σ → Except Abort σ
  | 0, i, _, _, _, s => if i < npeers then Except.error Abort.diverges else Except.ok s
  | fuel + 1, i, lim, r, idxs, s =>
      if i < npeers then
        let j := min (i + lim) npeers
        let (r, idxs) := shuffleArray lib i (j - i) r idxs
        let (r, s) := selectLoop lib below act alpha lim i j idxs (List.range' i (j - i)) r s
        bucketLoop npeers alpha fuel j (lim * 2) r idxs s
      else Except.ok s

/-- The selection among the sorted hosts. -/
def localitySelect (n : ℕ) (alpha : ℤ) (r : RandState) (idxs : List ℕ) (s : σ) : Except Abort σ :=
  bucketLoop lib below act (n - 1) alpha.toNat (n - 1) 0 alpha.toNat r idxs s

end Select

/-! ### A node of a GXP run -/

/-- A selected node of larger index is planned; one of smaller index is asked to connect back. -/
def gxpSelect (gxpIdx : ℕ) (s : (ℕ → GxpConnect) × List ℕ) (idx : ℕ) :
    (ℕ → GxpConnect) × List ℕ :=
  if idx > gxpIdx then (Function.update s.1 idx GxpConnect.yes, s.2) else (s.1, s.2 ++ [idx])

/-- The connect-back requests that the node `gxpIdx` prints. -/
def gxpLocalityRequests (xmlTraverse : XmlTraverse) (gxpHostname : String)
    (peerHostnames : ℕ → String) (n gxpIdx : ℕ) (alpha seed : ℤ) : Except Abort (List ℕ) := do
  let (r, idxs) ← localitySort lib xmlTraverse gxpHostname peerHostnames n gxpIdx seed
  let (_, requests) ← localitySelect lib below (gxpSelect gxpIdx) n alpha r idxs
    (fun _ => GxpConnect.no, [])
  Except.ok requests

/-- `gxp_man_connect_locality_aware` up to the call of `gxp_man_connect`, with the lines that the
node reads.  It has printed the line of `gxp_man_sync` before it reads the lines of all nodes, and
its requests before it reads the requests. -/
def gxpManConnectLocalityAware (xmlTraverse : XmlTraverse) (gxpHostname : String) (alpha seed : ℤ)
    (man : GxpMan) (rfp : List Line) : Except Abort (GxpMan × List Line) := do
  cAssert (0 < alpha)
  let (r, idxs) ← localitySort lib xmlTraverse gxpHostname man.peerHostnames man.gxpNumExecs
    man.gxpIdx seed
  let (man, rfp) ← gxpRead GxpCollective.sync rfp man 0
  let (plan, _) ← localitySelect lib below (gxpSelect man.gxpIdx) man.gxpNumExecs alpha r idxs
    (fun _ => GxpConnect.no, [])
  gxpRead GxpCollective.requests rfp { man with plan } 0

/-! ### The simulation -/

/-- `strncmp(name, pre, strlen(pre)) == 0`. -/
def nameStarts (pre name : String) : Bool := pre.toList.isPrefixOf name.toList

/-- The names of `XML_SWITCH_NAME_PREFIX` and `XML_ROOT_NAME_PREFIX` do not belong to hosts. -/
def isHostName (name : String) : Bool := !nameStarts "SW" name && !nameStarts "ROOT" name

/-- `overlay_graph_simulate_add_nodes`; `xmlNodes` are the names of the nodes of the topology. -/
def overlayGraphSimulateAddNodes (graph : OverlayGraph) (xmlNodes : List String) : OverlayGraph :=
  (xmlNodes.foldl
    (fun (s : OverlayGraph × ℕ) (name : String) =>
      if isHostName name then (overlayGraphAddNode s.1 s.2 name, s.2 + 1) else s)
    (graph, 0)).1

/-- `overlay_graph_add_conn`. -/
def overlayGraphAddConn (xmlTop : XmlTopology) (graph : OverlayGraph) (src dst : OverlayNode) :
    Except Abort OverlayGraph := do
  let e ← overlayGraphMakeConn xmlTop src dst
  Except.ok (overlayGraphInsertConn graph e)

/-- Both entries of the matrix of a selected pair are set. -/
def simulateSelect (srcIdx : ℕ) (connPlan : ℕ → ℕ → Bool) (dstIdx : ℕ) : ℕ → ℕ → Bool :=
  fun a b => connPlan a b || decide (a = srcIdx ∧ b = dstIdx) || decide (a = dstIdx ∧ b = srcIdx)

/-- An element of `hosts`. -/
def overlayHost (graph : OverlayGraph) (i : ℕ) : Except Abort OverlayNode :=
  match graph.hosts[i]? with
  | none => Except.error Abort.badAccess
  | some node => Except.ok node

/-- The name of an element of `hosts`. -/
def overlayHostName (graph : OverlayGraph) (i : ℕ) : String :=
  (graph.hosts[i]?.map OverlayNode.name).getD ""

/-- The loop over the sources, which fills `conn_plan`. -/
def simulateConnPlan (xmlTraverse : XmlTraverse) (graph : OverlayGraph) (alpha seed : ℤ) :
    Except Abort (ℕ → ℕ → Bool) :=
  (List.range graph.hosts.length).foldlM
    (fun (connPlan : ℕ → ℕ → Bool) (srcIdx : ℕ) => do
      let (r, idxs) ← localitySort lib xmlTraverse (overlayHostName graph srcIdx)
        (overlayHostName graph) graph.hosts.length srcIdx seed
      localitySelect lib below (simulateSelect srcIdx) graph.hosts.length alpha r idxs connPlan)
    (fun _ _ => false)

/-- The pairs of the loop that connects. -/
def upperPairs (n : ℕ) : List (ℕ × ℕ) :=
  (List.range n).flatMap fun src => (List.range' (src + 1) (n - (src + 1))).map fun dst => (src, dst)

/-- The loop that connects the planned pairs. -/
def simulateConnect (xmlTop : XmlTopology) (connPlan : ℕ → ℕ → Bool) (pairs : List (ℕ × ℕ))
    (graph : OverlayGraph) : Except Abort OverlayGraph :=
  pairs.foldlM
    (fun (graph : OverlayGraph) (p : ℕ × ℕ) =>
      if connPlan p.1 p.2 then do
        let src ← overlayHost graph p.1
        let dst ← overlayHost graph p.2
        overlayGraphAddConn xmlTop graph src dst
      else Except.ok graph)
    graph

/-- `overlay_graph_simulate_locality_aware` on an empty graph.  Left out: without any host the
allocation of `npeers = -1` distances ends the process. -/
def overlayGraphSimulateLocalityAware (xmlTraverse : XmlTraverse) (xmlNodes : List String)
    (alpha seed : ℤ) : Except Abort OverlayGraph := do
  cAssert (0 < alpha)
  let graph := overlayGraphSimulateAddNodes overlayGraphCreate xmlNodes
  let connPlan ← simulateConnPlan lib below xmlTraverse graph alpha seed
  simulateConnect (xmlFound xmlTraverse) connPlan (upperPairs graph.hosts.length) graph

/-! ### The shared code -/

theorem shuffleArray_perm (i n : ℕ) (r : RandState) (a : List ℕ) :
    (shuffleArray lib i n r a).2.Perm a := by
  unfold shuffleArray
  generalize List.range n = ks
  induction ks generalizing r a with
  | nil => exact List.Perm.refl _
  | cons k ks ih => exact (ih _ _).trans (listSwap_perm _ _ _)

theorem bubbleStep_perm (kv : List ℚ × List ℕ) (j : ℕ) : (bubbleStep kv j).2.Perm kv.2 := by
  unfold bubbleStep
  split
  · split
    · exact listSwap_perm _ _ _
    · exact List.Perm.refl _
  · exact List.Perm.refl _

theorem foldl_perm {α : Type} {f : List ℚ × List ℕ → α → List ℚ × List ℕ}
    (hf : ∀ kv x, (f kv x).2.Perm kv.2) (l : List α) (kv : List ℚ × List ℕ) :
    (l.foldl f kv).2.Perm kv.2 := by
  induction l generalizing kv with
  | nil => exact List.Perm.refl _
  | cons x l ih => exact (ih _).trans (hf kv x)

theorem shufflePairs_perm (n : ℕ) (r : RandState) (kv : List ℚ × List ℕ) :
    (shufflePairs lib n r kv).2.2.Perm kv.2 := by
  unfold shufflePairs
  generalize List.range n = is
  induction is generalizing r kv with
  | nil => exact List.Perm.refl _
  | cons i is ih => exact (ih _ _).trans (listSwap_perm _ _ _)

/-- Sorting rearranges the indices, whatever `rand` returns. -/
theorem shuffleAndSortPairs_perm (n : ℕ) (r : RandState) (kv : List ℚ × List ℕ) :
    (shuffleAndSortPairs lib n r kv).2.2.Perm kv.2 := by
  unfold shuffleAndSortPairs
  refine (foldl_perm (fun kv _ => ?_) _ _).trans (shufflePairs_perm lib n r kv)
  exact foldl_perm bubbleStep_perm _ _

/-- What a loop over a bucket selects does not depend on what is done with it. -/
theorem selectLoop_spec (alpha lim i j : ℕ) (idxs ks : List ℕ) (r : RandState) :
    ∃ (r' : RandState) (sel : List ℕ), (∀ x ∈ sel, ∃ k ∈ ks, x = idxs.getD k 0) ∧
      ∀ (σ : Type) (act : σ → ℕ → σ) (s : σ),
      selectLoop lib below act alpha lim i j idxs ks r s = (r', sel.foldl act s) := by
  induction ks generalizing r with
  | nil => exact ⟨r, [], by simp, fun _ _ _ => rfl⟩
  | cons k ks ih =>
      by_cases hbreak : lim = j - i ∧ k ≥ i + alpha
      · exact ⟨r, [], by simp, fun σ act s => by rw [selectLoop, if_pos hbreak]; rfl⟩
      · have hsel : ∀ (r₁ : RandState), ∃ (r' : RandState) (sel : List ℕ),
            (∀ x ∈ sel, ∃ k' ∈ k :: ks, x = idxs.getD k' 0) ∧
            ∀ (σ : Type) (act : σ → ℕ → σ) (s : σ),
              selectLoop lib below act alpha lim i j idxs ks r₁ (act s (idxs.getD k 0)) =
                (r', sel.foldl act s) := by
          intro r₁
          obtain ⟨r', sel, hmem, hrun⟩ := ih r₁
          refine ⟨r', idxs.getD k 0 :: sel, fun x hx => ?_, fun σ act s => hrun σ act _⟩
          rcases List.mem_cons.1 hx with rfl | hx
          · exact ⟨k, List.mem_cons_self, rfl⟩
          · obtain ⟨k', hk', hx'⟩ := hmem x hx
            exact ⟨k', List.mem_cons_of_mem _ hk', hx'⟩
        by_cases hlim : lim = j - i
        · obtain ⟨r', sel, hmem, hrun⟩ := hsel r
          exact ⟨r', sel, hmem, fun σ act s => by
            rw [selectLoop, if_neg hbreak, if_pos hlim]; exact hrun σ act s⟩
        · by_cases hbelow : below (r.value lib) (alpha / lim) = true
          · obtain ⟨r', sel, hmem, hrun⟩ := hsel r.next
            exact ⟨r', sel, hmem, fun σ act s => by
              rw [selectLoop, if_neg hbreak, if_neg hlim, if_pos hbelow]; exact hrun σ act s⟩
          · obtain ⟨r', sel, hmem, hrun⟩ := ih r.next
            refine ⟨r', sel, fun x hx => ?_, fun σ act s => ?_⟩
            · obtain ⟨k', hk', hx'⟩ := hmem x hx
              exact ⟨k', List.mem_cons_of_mem _ hk', hx'⟩
            · rw [selectLoop, if_neg hbreak, if_neg hlim, if_neg hbelow]
              exact hrun σ act s

/-- The loop over the buckets ends, and what it selects does not depend on what is done with it. -/
theorem bucketLoop_spec {npeers fuel i lim : ℕ} (alpha : ℕ) {idxs : List ℕ} (hlim : 0 < lim)
    (hfuel : npeers ≤ i + fuel) (hlen : idxs.length = npeers) (r : RandState) :
    ∃ sel : List ℕ, (∀ x ∈ sel, x ∈ idxs) ∧ ∀ (σ : Type) (act : σ → ℕ → σ) (s : σ),
      bucketLoop lib below act npeers alpha fuel i lim r idxs s = Except.ok (sel.foldl act s) := by
  induction fuel generalizing i lim r idxs with
  | zero => exact ⟨[], by simp, fun σ act s => by rw [bucketLoop, if_neg (by omega)]; rfl⟩
  | succ fuel ih =>
      by_cases hi : i < npeers
      · have hperm := shuffleArray_perm lib i (min (i + lim) npeers - i) r idxs
        have hlen' := hperm.length_eq.trans hlen
        obtain ⟨r₁, sel₁, hmem₁, hrun₁⟩ := selectLoop_spec lib below alpha lim i
          (min (i + lim) npeers) (shuffleArray lib i (min (i + lim) npeers - i) r idxs).2
          (List.range' i (min (i + lim) npeers - i))
          (shuffleArray lib i (min (i + lim) npeers - i) r idxs).1
        obtain ⟨sel₂, hmem₂, hrun₂⟩ := ih (show 0 < lim * 2 by omega)
          (show npeers ≤ min (i + lim) npeers + fuel by omega) hlen' r₁
        refine ⟨sel₁ ++ sel₂, fun x hx => ?_, fun σ act s => ?_⟩
        · rcases List.mem_append.1 hx with hx | hx
          · obtain ⟨k, hk, rfl⟩ := hmem₁ x hx
            have hk' := List.mem_range'_1.1 hk
            have hlt : k < (shuffleArray lib i (min (i + lim) npeers - i) r idxs).2.length := by
              omega
            rw [List.getD_eq_getElem?_getD, List.getElem?_eq_getElem hlt, Option.getD_some]
            exact hperm.subset (List.getElem_mem hlt)
          · exact hperm.subset (hmem₂ x hx)
        · rw [bucketLoop, if_pos hi]
          simp only [hrun₁]
          rw [hrun₂, List.foldl_append]
      · exact ⟨[], by simp, fun σ act s => by rw [bucketLoop, if_neg hi]; rfl⟩

/-- Two runs of `xml_topology_traverse` find the same length, or both do not return. -/
def SameLen (xmlTraverse xmlTraverse' : XmlTraverse) : Prop :=
  ∀ src dst, (xmlTraverse src dst).map (fun t => t.2.1) = (xmlTraverse' src dst).map fun t => t.2.1

section Distances

variable {xmlTraverse xmlTraverse' : XmlTraverse} {name : String} {names names' : ℕ → String}
  {n idx : ℕ}

/-- One round of the loop over the other hosts. -/
def addDistance (xmlTraverse : XmlTraverse) (name : String) (names : ℕ → String)
    (kv : List ℚ × List ℕ) (dst : ℕ) : Except Abort (List ℚ × List ℕ) :=
  match xmlTraverse name (names dst) with
  | none => Except.error Abort.assertion
  | some (_, len, _) => Except.ok (kv.1 ++ [len], kv.2 ++ [dst])

/-- The distances depend on the lengths only. -/
theorem localityDistances_congr (hlen : SameLen xmlTraverse xmlTraverse')
    (hnames : ∀ i < n, names i = names' i) :
    localityDistances xmlTraverse name names n idx =
      localityDistances xmlTraverse' name names' n idx := by
  have hall : ∀ (l : List ℕ), (∀ dst ∈ l, dst < n) → ∀ kv,
      l.foldlM (addDistance xmlTraverse name names) kv =
        l.foldlM (addDistance xmlTraverse' name names') kv := by
    intro l
    induction l with
    | nil => exact fun _ _ => rfl
    | cons dst l ih =>
        intro hl kv
        have hstep : addDistance xmlTraverse name names kv dst =
            addDistance xmlTraverse' name names' kv dst := by
          have h := hlen name (names dst)
          unfold addDistance
          rw [← hnames dst (hl dst List.mem_cons_self)]
          cases h₁ : xmlTraverse name (names dst) with
          | none =>
              cases h₂ : xmlTraverse' name (names dst) with
              | none => rfl
              | some t => rw [h₁, h₂] at h; cases h
          | some t =>
              cases h₂ : xmlTraverse' name (names dst) with
              | none => rw [h₁, h₂] at h; cases h
              | some t' =>
                  rw [h₁, h₂] at h
                  have h' : t.2.1 = t'.2.1 := Option.some.inj h
                  simp only [h']
        rw [List.foldlM_cons, List.foldlM_cons, hstep]
        exact bind_congr fun kv' => ih (fun x hx => hl x (List.mem_cons_of_mem _ hx)) kv'
  exact hall _ (fun dst hdst => List.mem_range.1 (List.mem_filter.1 hdst).1) _

theorem localityDistances_ok
    (hfound : ∀ dst < n, dst ≠ idx → (xmlTraverse name (names dst)).isSome) :
    ∃ kv, localityDistances xmlTraverse name names n idx = Except.ok kv := by
  have hstep : ∀ dst ∈ (List.range n).filter (· ≠ idx), ∀ kv,
      ∃ kv', addDistance xmlTraverse name names kv dst = Except.ok kv' := by
    intro dst hdst kv
    obtain ⟨hlt, hne⟩ := List.mem_filter.1 hdst
    obtain ⟨t, ht⟩ := Option.isSome_iff_exists.1
      (hfound dst (List.mem_range.1 hlt) (by simpa using hne))
    exact ⟨_, by rw [addDistance, ht]⟩
  exact foldlM_ok hstep _

/-- The indices are those of the other hosts. -/
theorem localityDistances_snd {kv : List ℚ × List ℕ}
    (h : localityDistances xmlTraverse name names n idx = Except.ok kv) :
    kv.2 = (List.range n).filter (· ≠ idx) := by
  have hall : ∀ (l : List ℕ) (kv₀ kv : List ℚ × List ℕ),
      l.foldlM (addDistance xmlTraverse name names) kv₀ = Except.ok kv → kv.2 = kv₀.2 ++ l := by
    intro l
    induction l with
    | nil =>
        intro kv₀ kv h
        cases h
        simp
    | cons dst l ih =>
        intro kv₀ kv h
        rw [List.foldlM_cons] at h
        obtain ⟨kv₁, h₁, h⟩ := bind_eq_ok.1 h
        unfold addDistance at h₁
        split at h₁
        · cases h₁
        · cases h₁
          rw [ih _ _ h, List.append_assoc, List.singleton_append]
  simpa using hall _ _ _ h

theorem length_others (hidx : idx < n) : ((List.range n).filter (· ≠ idx)).length = n - 1 := by
  have herase := List.nodup_range.erase_eq_filter (l := List.range n) idx
  have hlen := List.length_erase_of_mem (List.mem_range.2 hidx)
  rw [herase, List.length_range] at hlen
  rw [← hlen]
  exact congrArg List.length (List.filter_congr fun x _ => by by_cases h : x = idx <;> simp [h])

/-- **Both programs act on the same selected hosts**: what is selected does not depend on what is
done with it. -/
theorem locality_selected {alpha : ℤ} (halpha : 0 < alpha) {seed : ℤ} (hidx : idx < n)
    {r : RandState} {idxs : List ℕ}
    (hsort : localitySort lib xmlTraverse name names n idx seed = Except.ok (r, idxs)) :
    ∃ sel : List ℕ, (∀ x ∈ sel, x < n ∧ x ≠ idx) ∧ ∀ (σ : Type) (act : σ → ℕ → σ) (s : σ),
      localitySelect lib below act n alpha r idxs s = Except.ok (sel.foldl act s) := by
  obtain ⟨kv, hkv, hsort⟩ := bind_eq_ok.1 hsort
  cases hsort
  have hidxs := localityDistances_snd hkv
  have hperm := shuffleAndSortPairs_perm lib (n - 1) (srand (seed + idx)) kv
  have hlen : (shuffleAndSortPairs lib (n - 1) (srand (seed + idx)) kv).2.2.length = n - 1 := by
    rw [hperm.length_eq, hidxs, length_others hidx]
  obtain ⟨sel, hsel, hrun⟩ := bucketLoop_spec lib below alpha.toNat (show 0 < alpha.toNat by omega)
    (show n - 1 ≤ 0 + (n - 1) by omega) hlen
    (shuffleAndSortPairs lib (n - 1) (srand (seed + idx)) kv).1
  refine ⟨sel, fun x hx => ?_, hrun⟩
  have hmem := hperm.subset (hsel x hx)
  rw [hidxs] at hmem
  simpa using hmem

end Distances

/-! ### What a node plans -/

/-- The other hosts are found, and the names of the hosts are those of the topology. -/
def AllFound (xmlTraverse : XmlTraverse) (names : ℕ → String) (n : ℕ) : Prop :=
  ∀ i < n, ∀ j < n, j ≠ i → ∃ len width, xmlTraverse (names i) (names j) = some (true, len, width)

theorem AllFound.isSome {xmlTraverse : XmlTraverse} {names : ℕ → String} {n i : ℕ}
    (h : AllFound xmlTraverse names n) (hi : i < n) :
    ∀ j < n, j ≠ i → (xmlTraverse (names i) (names j)).isSome := by
  intro j hj hne
  obtain ⟨len, width, h⟩ := h i hi j hj hne
  rw [h, Option.isSome_some]

theorem gxpSelect_fst (gxpIdx : ℕ) (sel : List ℕ) (s : (ℕ → GxpConnect) × List ℕ) (j : ℕ) :
    (sel.foldl (gxpSelect gxpIdx) s).1 j = GxpConnect.yes ↔
      s.1 j = GxpConnect.yes ∨ (j ∈ sel ∧ gxpIdx < j) := by
  induction sel generalizing s with
  | nil => simp
  | cons x sel ih =>
      rw [List.foldl_cons, ih]
      unfold gxpSelect
      split
      · rename_i hx
        by_cases hj : j = x
        · subst hj
          simp [show gxpIdx < j from hx]
        · simp [hj]
      · rename_i hx
        by_cases hj : j = x
        · subst hj
          simp [show ¬ gxpIdx < j from hx]
        · simp [hj]

theorem gxpSelect_snd (gxpIdx : ℕ) (sel : List ℕ) (s : (ℕ → GxpConnect) × List ℕ) (j : ℕ) :
    j ∈ (sel.foldl (gxpSelect gxpIdx) s).2 ↔ j ∈ s.2 ∨ (j ∈ sel ∧ j ≤ gxpIdx) := by
  induction sel generalizing s with
  | nil => simp
  | cons x sel ih =>
      rw [List.foldl_cons, ih]
      unfold gxpSelect
      split
      · rename_i hx
        by_cases hj : j = x
        · subst hj
          simp [show ¬ j ≤ gxpIdx from not_le.2 hx]
        · simp [hj]
      · rename_i hx
        by_cases hj : j = x
        · subst hj
          simp [show j ≤ gxpIdx from not_lt.1 hx]
        · simp [hj]

/-- The lines of all nodes in some order that keeps the order of each of them. -/
def GxpMerge (n : ℕ) (w : ℕ → List Line) (l : List Line) : Prop :=
  ∃ got : List (Collective.Post (Fin n) Line), got.map Collective.Post.line = l ∧
    (∀ p ∈ got, p.round = 0) ∧ ∀ j : Fin n, Collective.linesOf j 0 got = w j

/-- A node reads the lines that all nodes print in an operation, and then what follows. -/
theorem gxpRead_merge {n gxpIdx : ℕ} (op : GxpCollective) (prints : ℕ → GxpPrint)
    {l : List Line} (hop : ∀ j < n, (prints j).op = op)
    (hl : GxpMerge n (fun j => gxpLines n j (prints j)) l)
    {man : GxpMan} (hman : man.Is n gxpIdx) (rest : List Line) :
    ∃ man', gxpRead op (l ++ rest) man 0 = Except.ok (man', rest) ∧ man'.Is n gxpIdx ∧
      Collected n prints man man' := by
  obtain ⟨got, rfl, hround, hlines⟩ := hl
  exact gxpRead_round hround hop hlines hman rest

theorem gxpScan_sync {line : Line} {man man' : GxpMan}
    (h : gxpScan GxpCollective.sync man line = Except.ok man') : man' = man := by
  unfold gxpScan at h
  split at h <;> simp_all [bind_eq_ok]

/-- `gxp_man_sync` changes nothing of a node. -/
theorem gxpRead_sync {rfp rest : List Line} {man man' : GxpMan} {i : ℕ}
    (h : gxpRead GxpCollective.sync rfp man i = Except.ok (man', rest)) : man' = man := by
  induction rfp generalizing man i with
  | nil =>
      rw [gxpRead] at h
      split at h
      · cases h
      · cases h; rfl
  | cons line rfp ih =>
      rw [gxpRead] at h
      split at h
      · obtain ⟨man₁, h₁, h⟩ := bind_eq_ok.1 h
        rw [ih h, gxpScan_sync h₁]
      · cases h; rfl

/-- What the stream gives a node in `gxp_man_connect_locality_aware`: the lines of `gxp_man_sync` of
all nodes, then the requests and end markers of all nodes, then what they print later. -/
def DeliversRequests (n : ℕ) (requests : ℕ → Except Abort (List ℕ)) (rfp : List Line) : Prop :=
  ∀ idxs : ℕ → List ℕ, (∀ j < n, requests j = Except.ok (idxs j)) →
    ∃ syncs lines rest, rfp = syncs ++ (lines ++ rest) ∧
      GxpMerge n (fun j => gxpLines n j GxpPrint.sync) syncs ∧
      GxpMerge n (fun j => gxpLines n j (GxpPrint.requests (idxs j))) lines

/-- The selections of all nodes: `sel i` are the hosts that `i` selects, whatever is done with
them. -/
structure Selections (xmlTraverse : XmlTraverse) (names : ℕ → String) (n : ℕ) (alpha seed : ℤ)
    (sel : ℕ → List ℕ) : Prop where
  mem : ∀ i < n, ∀ x ∈ sel i, x < n ∧ x ≠ i
  run : ∀ i < n, ∃ r idxs,
    localitySort lib xmlTraverse (names i) names n i seed = Except.ok (r, idxs) ∧
    ∀ (σ : Type) (act : σ → ℕ → σ) (s : σ),
      localitySelect lib below act n alpha r idxs s = Except.ok ((sel i).foldl act s)

section Both

variable {lib below} {xmlTraverse xmlTraverse' : XmlTraverse} {names : ℕ → String} {n : ℕ}
  {alpha seed : ℤ} {sel : ℕ → List ℕ}

theorem selections_of_sort (halpha : 0 < alpha) (hsort : ∀ i < n, ∃ r idxs,
      localitySort lib xmlTraverse (names i) names n i seed = Except.ok (r, idxs)) :
    ∃ sel, Selections lib below xmlTraverse names n alpha seed sel := by
  choose! r idxs hsort using hsort
  have h := fun i (hi : i < n) => locality_selected lib below halpha hi (hsort i hi)
  choose! sel hsel hrun using h
  exact ⟨sel, hsel, fun i hi => ⟨r i, idxs i, hsort i hi, hrun i hi⟩⟩

theorem selections_exist (halpha : 0 < alpha) (seed : ℤ) (hfound : AllFound xmlTraverse names n) :
    ∃ sel, Selections lib below xmlTraverse names n alpha seed sel := by
  refine selections_of_sort halpha fun i hi => ?_
  obtain ⟨kv, hkv⟩ := localityDistances_ok (hfound.isSome hi)
  exact ⟨_, _, by rw [localitySort, hkv, ok_bind]⟩

/-- Only the lengths and the names of the hosts matter. -/
theorem Selections.congr (h : Selections lib below xmlTraverse names n alpha seed sel)
    (hlen : SameLen xmlTraverse xmlTraverse') {names' : ℕ → String}
    (hnames : ∀ i < n, names i = names' i) :
    Selections lib below xmlTraverse' names' n alpha seed sel where
  mem := h.mem
  run i hi := by
    obtain ⟨r, idxs, hsort, hrun⟩ := h.run i hi
    refine ⟨r, idxs, ?_, hrun⟩
    unfold localitySort at hsort ⊢
    rw [← hnames i hi, ← localityDistances_congr hlen hnames]
    exact hsort

theorem Selections.requests (h : Selections lib below xmlTraverse names n alpha seed sel) {i : ℕ}
    (hi : i < n) :
    gxpLocalityRequests lib below xmlTraverse (names i) names n i alpha seed =
      Except.ok ((sel i).foldl (gxpSelect i) (fun _ => GxpConnect.no, [])).2 := by
  obtain ⟨r, idxs, hsort, hrun⟩ := h.run i hi
  unfold gxpLocalityRequests
  rw [hsort, ok_bind]
  simp only [hrun, ok_bind]

/-- **A node plans the nodes of larger index that it has selected or that have selected it.** -/
theorem Selections.plan (h : Selections lib below xmlTraverse names n alpha seed sel)
    (halpha : 0 < alpha) {i : ℕ} (hi : i < n) {man : GxpMan} (hman : man.Is n i)
    (hnames : ∀ j < n, names j = man.peerHostnames j) {rfp : List Line}
    (hrfp : DeliversRequests n (fun j =>
      gxpLocalityRequests lib below xmlTraverse (names j) names n j alpha seed) rfp) :
    ∃ man' rest, gxpManConnectLocalityAware lib below xmlTraverse (names i) alpha seed man rfp =
        Except.ok (man', rest) ∧
      ∀ j < n, man'.plan j = GxpConnect.yes ↔ i < j ∧ (j ∈ sel i ∨ i ∈ sel j) := by
  obtain ⟨syncs, lines, rest, rfl, hsyncs, hlines⟩ := hrfp _ fun j hj => h.requests hj
  obtain ⟨man₁, hread₁, _, _⟩ := gxpRead_merge GxpCollective.sync (fun _ => GxpPrint.sync)
    (fun _ _ => rfl) hsyncs hman (lines ++ rest)
  obtain rfl := gxpRead_sync hread₁
  obtain ⟨r, idxs, hsort, hrun⟩ := (h.congr (fun _ _ => rfl) hnames).run i hi
  have hplanned : GxpMan.Is n i { man₁ with
      plan := ((sel i).foldl (gxpSelect i) (fun _ => GxpConnect.no, [])).1 } := hman
  obtain ⟨man', hread, _, hcollected⟩ := gxpRead_merge GxpCollective.requests
    (fun j => GxpPrint.requests ((sel j).foldl (gxpSelect j) (fun _ => GxpConnect.no, [])).2)
    (fun _ _ => rfl) hlines hplanned rest
  refine ⟨man', rest, ?_, fun j hj => ?_⟩
  · unfold gxpManConnectLocalityAware
    rw [cAssert_of halpha, ok_bind, hman.1, hman.2, hnames i hi, hsort, ok_bind]
    simp only [hread₁, ok_bind, hman.1, hman.2, hrun]
    simpa only [hman.1, hman.2] using hread
  · have hj' := hcollected j hj
    simp only [hman.2] at hj'
    rw [hj']
    have hreq := gxpSelect_snd j (sel j) (fun _ => GxpConnect.no, []) i
    have hplan := gxpSelect_fst i (sel i) (fun _ => GxpConnect.no, []) j
    simp only [List.not_mem_nil, false_or, reduceCtorEq] at hreq hplan
    have hne : ∀ x ∈ sel j, x ≠ j := fun x hx => (h.mem j hj x hx).2
    split
    · rename_i hmem
      obtain ⟨hsel, hle⟩ := hreq.1 hmem
      have := hne i hsel
      exact ⟨fun _ => ⟨by omega, Or.inr hsel⟩, fun _ => rfl⟩
    · rename_i hmem
      rw [hplan]
      constructor
      · exact fun h' => ⟨h'.2, Or.inl h'.1⟩
      · rintro ⟨hlt, h' | h'⟩
        · exact ⟨h', hlt⟩
        · exact absurd (hreq.2 ⟨h', hlt.le⟩) hmem

/-! ### What the simulation connects -/

theorem simulateSelect_fold (srcIdx : ℕ) (sel : List ℕ) (connPlan : ℕ → ℕ → Bool) (a b : ℕ) :
    sel.foldl (simulateSelect srcIdx) connPlan a b = true ↔
      connPlan a b = true ∨ (a = srcIdx ∧ b ∈ sel) ∨ (b = srcIdx ∧ a ∈ sel) := by
  induction sel generalizing connPlan with
  | nil => simp
  | cons x sel ih =>
      rw [List.foldl_cons, ih]
      simp only [simulateSelect, Bool.or_eq_true, decide_eq_true_eq, List.mem_cons]
      tauto

theorem addNode_names (graph : OverlayGraph) (c : ℕ) (xmlNodes : List String)
    (hpid : graph.hosts.map OverlayNode.pid = List.range c) :
    ∃ g : OverlayGraph,
      (xmlNodes.foldl (fun (s : OverlayGraph × ℕ) (name : String) =>
        if isHostName name then (overlayGraphAddNode s.1 s.2 name, s.2 + 1) else s) (graph, c)).1 =
          g ∧
      g.hosts.map OverlayNode.pid = List.range g.hosts.length ∧
      g.hosts.map OverlayNode.name =
        graph.hosts.map OverlayNode.name ++ xmlNodes.filter isHostName ∧
      g.conns = graph.conns ∧ g.nodeConns = graph.nodeConns := by
  induction xmlNodes generalizing graph c with
  | nil =>
      have hlen := congrArg List.length hpid
      simp only [List.length_map, List.length_range] at hlen
      exact ⟨graph, rfl, by rw [hlen, hpid], by simp, rfl, rfl⟩
  | cons name xmlNodes ih =>
      by_cases hname : isHostName name = true
      · obtain ⟨g, hg, h₁, h₂, h₃, h₄⟩ := ih (overlayGraphAddNode graph c name) (c + 1)
          (by simp [overlayGraphAddNode, hpid, List.range_succ])
        refine ⟨g, ?_, h₁, ?_, h₃, h₄⟩
        · rw [List.foldl_cons, if_pos hname]
          exact hg
        · rw [h₂]
          simp [overlayGraphAddNode, hname]
      · obtain ⟨g, hg, h₁, h₂, h₃, h₄⟩ := ih graph c hpid
        refine ⟨g, ?_, h₁, ?_, h₃, h₄⟩
        · rw [List.foldl_cons, if_neg hname]
          exact hg
        · rw [h₂]
          simp [hname]

/-- The hosts that the simulator creates are the nodes with the name of a host, in order. -/
theorem overlayGraphSimulateAddNodes_hosts (xmlNodes : List String) :
    (overlayGraphSimulateAddNodes overlayGraphCreate xmlNodes).hosts =
      (xmlNodes.filter isHostName).mapIdx OverlayNode.mk := by
  obtain ⟨g, hg, hpid, hname, _, _⟩ := addNode_names overlayGraphCreate 0 xmlNodes rfl
  have hg' : overlayGraphSimulateAddNodes overlayGraphCreate xmlNodes = g := hg
  have hname' : g.hosts.map OverlayNode.name = xmlNodes.filter isHostName := hname
  rw [hg', ← hname']
  refine List.ext_getElem (by simp) fun i hi hi' => ?_
  have hpid' : g.hosts[i].pid = i := by
    have := List.getElem_of_eq hpid (i := i) (by simpa using hi)
    simpa using this
  rw [List.getElem_mapIdx, List.getElem_map]
  exact congrArg (fun pid => OverlayNode.mk pid g.hosts[i].name) hpid'

theorem map_name_mapIdx (hostnames : List String) :
    (hostnames.mapIdx OverlayNode.mk).map OverlayNode.name = hostnames :=
  List.ext_getElem (by simp) fun i _ _ => by rw [List.getElem_map, List.getElem_mapIdx]

/-- A graph whose hosts are `0..n-1` with the given names. -/
structure HostsOk (graph : OverlayGraph) (names : ℕ → String) (n : ℕ) : Prop where
  length : graph.hosts.length = n
  host : ∀ i < n, graph.hosts[i]? = some ⟨i, names i⟩

theorem HostsOk.name {graph : OverlayGraph} (h : HostsOk graph names n) {i : ℕ} (hi : i < n) :
    overlayHostName graph i = names i := by
  rw [overlayHostName, h.host i hi]
  rfl

/-- The hosts of the simulation are the nodes of the topology that are neither switches nor roots. -/
theorem simulateAddNodes_spec {xmlNodes : List String}
    (hnames : xmlNodes.filter isHostName = (List.range n).map names) :
    HostsOk (overlayGraphSimulateAddNodes overlayGraphCreate xmlNodes) names n ∧
      (overlayGraphSimulateAddNodes overlayGraphCreate xmlNodes).conns = [] := by
  obtain ⟨g, hg, hpid, hname, hconns, _⟩ := addNode_names overlayGraphCreate 0 xmlNodes rfl
  have hg' : overlayGraphSimulateAddNodes overlayGraphCreate xmlNodes = g := hg
  rw [hg']
  rw [hnames] at hname
  have hlen : g.hosts.length = n := by
    have := congrArg List.length hname
    simpa [overlayGraphCreate] using this
  refine ⟨⟨hlen, fun i hi => ?_⟩, hconns⟩
  have hi' : i < g.hosts.length := by omega
  have h₁ : (g.hosts.map OverlayNode.pid)[i]? = some i := by
    rw [hpid, List.getElem?_range hi']
  have h₂ : (g.hosts.map OverlayNode.name)[i]? = some (names i) := by
    rw [hname]
    simp [overlayGraphCreate, hi]
  rw [List.getElem?_map, List.getElem?_eq_getElem hi', Option.map_some, Option.some.injEq] at h₁ h₂
  rw [List.getElem?_eq_getElem hi']
  cases hnode : g.hosts[i] with
  | mk pid name =>
      rw [hnode] at h₁ h₂
      rw [show pid = i from h₁, show name = names i from h₂]

/-- After the loop over the sources the matrix holds the selected pairs. -/
theorem simulateConnPlan_spec (h : Selections lib below xmlTraverse names n alpha seed sel)
    {graph : OverlayGraph} (hhosts : HostsOk graph names n) :
    ∃ connPlan, simulateConnPlan lib below xmlTraverse graph alpha seed = Except.ok connPlan ∧
      ∀ a b, connPlan a b = true ↔ (a < n ∧ b ∈ sel a) ∨ (b < n ∧ a ∈ sel b) := by
  have h' := h.congr (fun _ _ => rfl) fun i hi => (hhosts.name hi).symm
  have hall : ∀ k ≤ n, ∃ connPlan,
      (List.range k).foldlM (fun (connPlan : ℕ → ℕ → Bool) (srcIdx : ℕ) => do
        let (r, idxs) ← localitySort lib xmlTraverse (overlayHostName graph srcIdx)
          (overlayHostName graph) n srcIdx seed
        localitySelect lib below (simulateSelect srcIdx) n alpha r idxs connPlan)
        (fun _ _ => false) = Except.ok connPlan ∧
      ∀ a b, connPlan a b = true ↔ (a < k ∧ b ∈ sel a) ∨ (b < k ∧ a ∈ sel b) := by
    intro k
    induction k with
    | zero => exact fun _ => ⟨_, rfl, by simp⟩
    | succ k ih =>
        intro hk
        obtain ⟨connPlan, hrun, hplan⟩ := ih (by omega)
        obtain ⟨r, idxs, hsort, hsel⟩ := h'.run k (by omega)
        refine ⟨(sel k).foldl (simulateSelect k) connPlan, ?_, fun a b => ?_⟩
        · rw [List.range_succ, List.foldlM_append, hrun, ok_bind]
          simp only [List.foldlM_cons, List.foldlM_nil, hsort, ok_bind, hsel]
          rfl
        · rw [simulateSelect_fold, hplan]
          constructor
          · rintro ((⟨h₁, h₂⟩ | ⟨h₁, h₂⟩) | ⟨rfl, h₂⟩ | ⟨rfl, h₂⟩)
            · exact Or.inl ⟨by omega, h₂⟩
            · exact Or.inr ⟨by omega, h₂⟩
            · exact Or.inl ⟨by omega, h₂⟩
            · exact Or.inr ⟨by omega, h₂⟩
          · rintro (⟨h₁, h₂⟩ | ⟨h₁, h₂⟩)
            · rcases Nat.lt_or_eq_of_le (Nat.le_of_lt_succ h₁) with h₁ | rfl
              · exact Or.inl (Or.inl ⟨h₁, h₂⟩)
              · exact Or.inr (Or.inl ⟨rfl, h₂⟩)
            · rcases Nat.lt_or_eq_of_le (Nat.le_of_lt_succ h₁) with h₁ | rfl
              · exact Or.inl (Or.inr ⟨h₁, h₂⟩)
              · exact Or.inr (Or.inr ⟨rfl, h₂⟩)
  unfold simulateConnPlan
  rw [hhosts.length]
  exact hall n le_rfl

/-- The loop that connects adds one connection for every planned pair. -/
theorem simulateConnect_spec {xmlTop : XmlTopology} (connPlan : ℕ → ℕ → Bool)
    {pairs : List (ℕ × ℕ)}
    (hpairs : ∀ p ∈ pairs, p.1 < n ∧ p.2 < n ∧ ∃ lw, xmlTop (names p.1) (names p.2) = some lw)
    {graph : OverlayGraph} (hhosts : HostsOk graph names n) :
    ∃ g, simulateConnect xmlTop connPlan pairs graph = Except.ok g ∧
      g.conns.map OverlayEdge.ends =
        graph.conns.map OverlayEdge.ends ++ pairs.filter fun p => connPlan p.1 p.2 := by
  induction pairs generalizing graph with
  | nil => exact ⟨graph, rfl, by simp⟩
  | cons p pairs ih =>
      have hrest := fun q hq => hpairs q (List.mem_cons_of_mem _ hq)
      unfold simulateConnect
      rw [List.foldlM_cons]
      by_cases hp : connPlan p.1 p.2 = true
      · obtain ⟨h₁, h₂, lw, hlw⟩ := hpairs p List.mem_cons_self
        have hadd : overlayGraphAddConn xmlTop graph ⟨p.1, names p.1⟩ ⟨p.2, names p.2⟩ =
            Except.ok (overlayGraphInsertConn graph ⟨p.1, p.2, lw.1, lw.2⟩) := by
          simp only [overlayGraphAddConn, overlayGraphMakeConn, hlw, ok_bind]
        have hhosts' : HostsOk (overlayGraphInsertConn graph ⟨p.1, p.2, lw.1, lw.2⟩) names n :=
          ⟨hhosts.length, hhosts.host⟩
        obtain ⟨g, hg, hends⟩ := ih hrest hhosts'
        refine ⟨g, ?_, ?_⟩
        · rw [if_pos hp]
          simp only [overlayHost, hhosts.host _ h₁, hhosts.host _ h₂, ok_bind, hadd]
          exact hg
        · rw [hends, List.filter_cons, if_pos hp]
          simp [overlayGraphInsertConn, OverlayEdge.ends]
      · obtain ⟨g, hg, hends⟩ := ih hrest hhosts
        refine ⟨g, ?_, ?_⟩
        · rw [if_neg hp]
          exact hg
        · rw [hends, List.filter_cons, if_neg hp]

theorem mem_upperPairs {a b : ℕ} : (a, b) ∈ upperPairs n ↔ a < b ∧ b < n := by
  simp only [upperPairs, List.mem_flatMap, List.mem_range, List.mem_map, List.mem_range'_1,
    Prod.mk.injEq]
  constructor
  · rintro ⟨src, hsrc, dst, hdst, rfl, rfl⟩
    omega
  · rintro ⟨h₁, h₂⟩
    exact ⟨a, by omega, b, by omega, rfl, rfl⟩

theorem nodup_upperPairs : (upperPairs n).Nodup := by
  refine List.nodup_flatMap.2 ⟨fun i _ => ?_, ?_⟩
  · exact (List.nodup_range').map fun a b hab => (Prod.mk.inj hab).2
  · refine List.nodup_range.imp fun {i j} hij => ?_
    intro p hi hj
    obtain ⟨a, _, rfl⟩ := List.mem_map.1 hi
    obtain ⟨b, _, hb⟩ := List.mem_map.1 hj
    exact hij (Prod.mk.inj hb).1.symm

/-- **The simulated locality-aware overlay is the one that the nodes plan.**  Whatever order the
stream gives the requests and end markers, every node returns from
`gxp_man_connect_locality_aware` with a plan, the simulation returns with an overlay, and the plan
of `i` contains `j` exactly when `i < j` and the overlay joins `i` and `j`, which it does once. -/
theorem locality_overlay_eq (halpha : 0 < alpha) (hlen : SameLen xmlTraverse xmlTraverse')
    {xmlNodes : List String} (hnames : xmlNodes.filter isHostName = (List.range n).map names)
    (hfound : AllFound xmlTraverse' names n) {man : ℕ → GxpMan} {rfp : ℕ → List Line}
    (hman : ∀ i < n, (man i).Is n i ∧ ∀ j < n, (man i).peerHostnames j = names j)
    (hrfp : ∀ i < n, DeliversRequests n (fun j =>
      gxpLocalityRequests lib below xmlTraverse (names j) names n j alpha seed) (rfp i)) :
    ∃ (man' : ℕ → GxpMan) (g : OverlayGraph),
      (∀ i < n, ∃ rest, gxpManConnectLocalityAware lib below xmlTraverse (names i) alpha seed
        (man i) (rfp i) = Except.ok (man' i, rest)) ∧
      overlayGraphSimulateLocalityAware lib below xmlTraverse' xmlNodes alpha seed =
        Except.ok g ∧
      (∀ i < n, ∀ j < n, (man' i).plan j = GxpConnect.yes ↔
        (i, j) ∈ g.conns.map OverlayEdge.ends) ∧
      (∀ p ∈ g.conns.map OverlayEdge.ends, p.1 < p.2 ∧ p.2 < n) ∧
      (g.conns.map OverlayEdge.ends).Nodup := by
  obtain ⟨sel, hsel'⟩ : ∃ sel, Selections lib below xmlTraverse' names n alpha seed sel :=
    selections_exist halpha seed hfound
  have hsel := hsel'.congr (fun src dst => (hlen src dst).symm) fun _ _ => rfl
  have hplan := fun i (hi : i < n) => hsel.plan halpha hi (hman i hi).1
    (fun j hj => ((hman i hi).2 j hj).symm) (hrfp i hi)
  obtain ⟨hhosts, hconns⟩ := simulateAddNodes_spec hnames
  obtain ⟨connPlan, hconnPlan, hmatrix⟩ := simulateConnPlan_spec hsel' hhosts
  have hpairs : ∀ p ∈ upperPairs n, p.1 < n ∧ p.2 < n ∧
      ∃ lw, xmlFound xmlTraverse' (names p.1) (names p.2) = some lw := by
    intro p hp
    obtain ⟨h₁, h₂⟩ := mem_upperPairs.1 hp
    obtain ⟨len, width, h⟩ := hfound p.1 (by omega) p.2 h₂ (by omega)
    exact ⟨by omega, h₂, (len, width), by rw [xmlFound, h]⟩
  obtain ⟨g, hg, hends⟩ := simulateConnect_spec connPlan hpairs hhosts
  rw [hconns, List.map_nil, List.nil_append] at hends
  have hmem : ∀ a b, (a, b) ∈ g.conns.map OverlayEdge.ends ↔
      (a < b ∧ b < n) ∧ (b ∈ sel a ∨ a ∈ sel b) := by
    intro a b
    rw [hends, List.mem_filter, mem_upperPairs, hmatrix]
    constructor
    · rintro ⟨h, h' | h'⟩
      · exact ⟨h, Or.inl h'.2⟩
      · exact ⟨h, Or.inr h'.2⟩
    · rintro ⟨h, h' | h'⟩
      · exact ⟨h, Or.inl ⟨by omega, h'⟩⟩
      · exact ⟨h, Or.inr ⟨by omega, h'⟩⟩
  have : Nonempty GxpMan := ⟨man 0⟩
  choose! man' rest hrun hiff using hplan
  refine ⟨man', g, fun i hi => ⟨rest i, hrun i hi⟩, ?_, fun i hi j hj => ?_, fun p hp => ?_, ?_⟩
  · unfold overlayGraphSimulateLocalityAware
    rw [cAssert_of halpha, ok_bind]
    simp only [hconnPlan, ok_bind, hhosts.length]
    exact hg
  · rw [hiff i hi j hj, hmem]
    exact ⟨fun h => ⟨⟨h.1, hj⟩, h.2⟩, fun h => ⟨h.1.1, h.2⟩⟩
  · exact ((hmem p.1 p.2).1 hp).1
  · rw [hends]
    exact nodup_upperPairs.filter _

end Both

end Code

/-! ### Two hosts -/

/-- A topology in which all hosts are one apart. -/
def nearTraverse : XmlTraverse := fun _ _ => some (true, 1, 1)

/-- The names of two hosts. -/
def pairNames (i : ℕ) : String := if i = 0 then "a" else "b"

/-- A node of a run of two. -/
def pairMan (i : ℕ) : GxpMan :=
  ⟨i, 2, pairNames, fun _ => ("", 0), fun _ _ => 0, fun _ => GxpConnect.no, fun _ => 0⟩

/-- The stream of the run: the second node asks the first one to connect back. -/
def pairStream : List Line :=
  [[Word.str "GXP_MAN_SYNC"], [Word.str "GXP_MAN_SYNC"]] ++
    ([gxpRequestLine 1 0, gxpEndMarker 0, gxpEndMarker 1] ++ [])

theorem pairStream_delivers : DeliversRequests 2
    (fun j => gxpLocalityRequests (Libc.insertion fun _ _ => 0) (fun _ _ => false) nearTraverse
      (pairNames j) pairNames 2 j 1 7) pairStream := by
  intro idxs h
  have h0 : idxs 0 = [] := (Except.ok.inj (h 0 (by omega))).symm
  have h1 : idxs 1 = [0] := (Except.ok.inj (h 1 (by omega))).symm
  refine ⟨_, _, _, rfl, ⟨[⟨0, 0, _⟩, ⟨1, 0, _⟩], rfl, by simp, fun j => ?_⟩,
    ⟨[⟨1, 0, _⟩, ⟨0, 0, _⟩, ⟨1, 0, _⟩], rfl, by simp, fun j => ?_⟩⟩
  · fin_cases j <;> rfl
  · fin_cases j
    · simp only [gxpLines, h0]
      rfl
    · simp only [gxpLines, h1]
      rfl

theorem locality_overlay_eq_pair : ∃ (man' : ℕ → GxpMan) (g : OverlayGraph),
    overlayGraphSimulateLocalityAware (Libc.insertion fun _ _ => 0) (fun _ _ => false)
      nearTraverse ["ROOT", "SW:0", "a", "b"] 1 7 = Except.ok g ∧
    ((man' 0).plan 1 = GxpConnect.yes ↔ (0, 1) ∈ g.conns.map OverlayEdge.ends) := by
  obtain ⟨man', g, _, hg, hiff, _⟩ := @locality_overlay_eq (Libc.insertion fun _ _ => 0)
    (fun _ _ => false) nearTraverse nearTraverse pairNames 2 1 7 (by omega) (fun _ _ => rfl)
    ["ROOT", "SW:0", "a", "b"] rfl (fun _ _ _ _ _ => ⟨1, 1, rfl⟩) pairMan (fun _ => pairStream)
    (fun _ _ => ⟨⟨rfl, rfl⟩, fun _ _ => rfl⟩) fun _ _ => pairStream_delivers
  exact ⟨man', g, hg, hiff 0 (by omega) 1 (by omega)⟩

end DLFree

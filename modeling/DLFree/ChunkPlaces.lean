/-
**The places of a chunk.**

A chunk waits in the local queue of its source, is held by a channel that cannot pass it on, is on a
link, or has been delivered.  On its way to its destination it takes the places of the path that the
table of its source has for this destination, one after another.

Main definitions:

* `ChunkPlace` — the places;
* `placesFrom`, `chunkRoute` — the places on a path, and those on the way of a chunk;
* `TablesSimple` — the paths of the tables are simple paths from their source to their destination.

Main results:

* `chunkRoute_nodup` — on a simple path no place is taken twice;
* `chunkRoute_enter`, `chunkRoute_send`, `chunkRoute_arrive`, `chunkRoute_deliver` — **the next
  place**, at the source, where a chunk is held, and at the end of a link;
* `lookup_next` — a lookup finds the next node of the path.
-/

import DLFree.FifoPlaces
import DLFree.Frames

set_option relaxedAutoImplicit false
set_option autoImplicit false

namespace DLFree

open FifoPlaces

/-- A place of a chunk: the local queue of the node `u`; the channel `c` of `u`, which has the whole
chunk in its buffer; the link from `u` to `v`, which is the send queue of `u`, the socket, and what
`v` has read of a chunk that is not complete; or the reassembly of `v`. -/
inductive ChunkPlace
  | localQueue (u : ℤ)
  | currBuff (u : ℤ) (c : Option ℤ)
  | link (u v : ℤ)
  | delivered (v : ℤ)
  deriving DecidableEq

/-- The places of a chunk that follows a path, from the channel `c` of its first node on. -/
def placesFrom : Option ℤ → List ℤ → List ChunkPlace
  | _, [] => []
  | _, [v] => [ChunkPlace.delivered v]
  | c, u :: v :: path =>
      ChunkPlace.currBuff u c :: ChunkPlace.link u v :: placesFrom (some u) (v :: path)

/-- The path of a table to a destination; without an entry it is empty. -/
def tablePath (rt : OverlayRtable) (dst : ℤ) : List ℤ :=
  match overlayRtableGetEntry rt dst with
  | Except.ok (some entry) => entry.path
  | _ => []

/-- The places on the way of a chunk; `tables src` is the table of the node `src`. -/
def chunkRoute (tables : ℤ → OverlayRtable) (f : Frame) : List ChunkPlace :=
  ChunkPlace.localQueue f.info.srcId ::
    placesFrom none (tablePath (tables f.info.srcId) f.info.dstId)

/-- The paths of the tables of the nodes `0, …, n - 1` visit no node twice, and lead from their
source to their destination. -/
def TablesSimple (n : ℕ) (tables : ℤ → OverlayRtable) : Prop :=
  ∀ src : ℤ, 0 ≤ src ∧ src < n → ∀ dst entry,
    overlayRtableGetEntry (tables src) dst = Except.ok (some entry) →
      entry.path.Nodup ∧ entry.path.head? = some src ∧ entry.path.getLast? = some dst

/-! ### Paths -/

section Paths

variable {path : List ℤ} {u v w : ℤ}

/-- A path that visits no node twice leaves a node in one direction. -/
theorem next_unique (h : path.Nodup) (hv : [u, v] <:+: path) (hw : [u, w] <:+: path) : v = w := by
  induction path with
  | nil => cases List.infix_nil.1 hv
  | cons x path ih =>
      obtain ⟨hx, hnodup⟩ := List.nodup_cons.1 h
      rcases List.infix_cons_iff.1 hv with h₁ | h₁ <;> rcases List.infix_cons_iff.1 hw with h₂ | h₂
      · obtain ⟨_, h₁⟩ := List.cons_prefix_cons.1 h₁
        obtain ⟨_, h₂⟩ := List.cons_prefix_cons.1 h₂
        obtain ⟨_, rfl⟩ := h₁
        exact (List.cons_prefix_cons.1 h₂).1.symm
      · obtain ⟨rfl, _⟩ := List.cons_prefix_cons.1 h₁
        exact absurd (h₂.subset List.mem_cons_self) hx
      · obtain ⟨rfl, _⟩ := List.cons_prefix_cons.1 h₂
        exact absurd (h₁.subset List.mem_cons_self) hx
      · exact ih hnodup h₁ h₂

/-- Two steps of a path that meet are consecutive. -/
theorem infix_triple (h : path.Nodup) (huv : [u, v] <:+: path) (hvw : [v, w] <:+: path) :
    [u, v, w] <:+: path := by
  obtain ⟨pre, post, rfl⟩ := huv
  cases post with
  | nil =>
      -- `v` is the last node, so nothing follows it
      rw [List.append_nil] at h hvw
      obtain ⟨a, b, hab⟩ := hvw
      have hlast : v ∈ a ++ [v] := by simp
      have hsplit : (a ++ [v]) ++ (w :: b) = (pre ++ [u]) ++ [v] := by simpa using hab
      have hb : v ∈ w :: b := by
        have := congrArg List.getLast? hsplit
        rw [List.getLast?_append_of_ne_nil _ (List.cons_ne_nil _ _), List.getLast?_concat] at this
        exact List.mem_of_getLast? this
      rw [show pre ++ [u, v] = (pre ++ [u]) ++ [v] by simp, ← hsplit] at h
      exact absurd rfl ((List.nodup_append.1 h).2.2 v hlast v hb)
  | cons x post =>
      have hvx : [v, x] <:+: pre ++ [u, v] ++ x :: post := ⟨pre ++ [u], post, by simp⟩
      obtain rfl := next_unique h hvw hvx
      exact ⟨pre, post, by simp⟩

/-- The last node of a path is followed by none. -/
theorem not_next_of_last (h : path.Nodup) (hlast : path.getLast? = some u) :
    ¬ [u, v] <:+: path := by
  rintro ⟨pre, post, rfl⟩
  obtain ⟨rest, hrest⟩ := List.getLast?_eq_some_iff.1 hlast
  have hsplit : (pre ++ [u]) ++ (v :: post) = rest ++ [u] := by simpa using hrest
  have hmem : u ∈ v :: post := by
    have := congrArg List.getLast? hsplit
    rw [List.getLast?_append_of_ne_nil _ (List.cons_ne_nil _ _), List.getLast?_concat] at this
    exact List.mem_of_getLast? this
  rw [show pre ++ [u, v] ++ post = (pre ++ [u]) ++ (v :: post) by simp] at h
  exact absurd rfl ((List.nodup_append.1 h).2.2 u (by simp) u hmem)

/-- A node that is not the last one is followed by another one. -/
theorem exists_next (hu : u ∈ path) (hlast : path.getLast? ≠ some u) : ∃ v, [u, v] <:+: path := by
  obtain ⟨pre, post, rfl⟩ := List.append_of_mem hu
  cases post with
  | nil => exact absurd List.getLast?_concat hlast
  | cons v post => exact ⟨v, pre, post, by simp⟩

/-- A lookup on a path finds the node that follows. -/
theorem pathNextHop_infix {next : ℤ} (h : pathNextHop u path = next) (hne : next ≠ -1) :
    [u, next] <:+: path := by
  induction path with
  | nil => exact absurd h.symm hne
  | cons x path ih =>
      cases path with
      | nil => exact absurd h.symm hne
      | cons y path =>
          unfold pathNextHop at h
          split at h
          · rename_i hx
            subst hx h
            exact ⟨[], path, rfl⟩
          · exact (ih h).trans (List.suffix_cons _ _).isInfix

/-- **A lookup finds the next node of the path.** -/
theorem lookup_next {rts : ℤ → Option OverlayRtable} {rt : OverlayRtable} {src dst next : ℤ}
    (hrt : rts src = some rt) (h : commNodeLookupRt u rts src dst = Except.ok next)
    (hne : next ≠ -1) : [u, next] <:+: tablePath rt dst := by
  unfold commNodeLookupRt at h
  rw [hrt] at h
  obtain ⟨entry, hentry, h⟩ := bind_eq_ok.1 h
  unfold tablePath
  rw [hentry]
  cases entry with
  | none => cases h
  | some entry => exact pathNextHop_infix (Except.ok.inj h) hne

end Paths

/-! ### The places on a path -/

section Places

variable {path : List ℤ} {u v w : ℤ} {c d : Option ℤ} {tables : ℤ → OverlayRtable} {f : Frame}

theorem link_mem_placesFrom (h : ChunkPlace.link u v ∈ placesFrom c path) : [u, v] <:+: path := by
  induction path generalizing c with
  | nil => cases h
  | cons x path ih =>
      cases path with
      | nil => simp [placesFrom] at h
      | cons y path =>
          simp only [placesFrom, List.mem_cons, reduceCtorEq, ChunkPlace.link.injEq,
            false_or] at h
          rcases h with ⟨rfl, rfl⟩ | h
          · exact ⟨[], path, rfl⟩
          · exact (ih h).trans (List.suffix_cons _ _).isInfix

/-- A chunk is held by the channel that it came in from. -/
theorem currBuff_mem_placesFrom (h : ChunkPlace.currBuff u d ∈ placesFrom c path) :
    (d = c ∧ path.head? = some u) ∨ ∃ w, d = some w ∧ [w, u] <:+: path := by
  induction path generalizing c with
  | nil => cases h
  | cons x path ih =>
      cases path with
      | nil => simp [placesFrom] at h
      | cons y path =>
          simp only [placesFrom, List.mem_cons, reduceCtorEq, ChunkPlace.currBuff.injEq,
            false_or] at h
          rcases h with ⟨rfl, rfl⟩ | h
          · exact Or.inl ⟨rfl, rfl⟩
          · refine Or.inr ?_
            rcases ih h with ⟨rfl, hhead⟩ | ⟨w, rfl, hw⟩
            · obtain rfl := Option.some.inj hhead
              exact ⟨x, rfl, [], path, rfl⟩
            · exact ⟨w, rfl, hw.trans (List.suffix_cons _ _).isInfix⟩

theorem delivered_mem_placesFrom (h : ChunkPlace.delivered v ∈ placesFrom c path) :
    path.getLast? = some v := by
  induction path generalizing c with
  | nil => cases h
  | cons x path ih =>
      cases path with
      | nil => simpa [placesFrom, eq_comm] using h
      | cons y path =>
          simp only [placesFrom, List.mem_cons, reduceCtorEq, false_or] at h
          rw [List.getLast?_cons_cons]
          exact ih h

/-- The places of a path end with the reassembly of its last node. -/
theorem placesFrom_getLast (h : ChunkPlace.delivered v ∈ placesFrom c path) :
    (placesFrom c path).getLast? = some (ChunkPlace.delivered v) := by
  induction path generalizing c with
  | nil => cases h
  | cons x path ih =>
      cases path with
      | nil =>
          rw [placesFrom, List.mem_singleton] at h
          rw [h]
          rfl
      | cons y path =>
          simp only [placesFrom, List.mem_cons, reduceCtorEq, false_or] at h
          have hlast := ih h
          rw [placesFrom, List.getLast?_cons, List.getLast?_cons, hlast]
          rfl

theorem localQueue_not_mem_placesFrom : ChunkPlace.localQueue u ∉ placesFrom c path := by
  induction path generalizing c with
  | nil => exact List.not_mem_nil
  | cons x path ih =>
      cases path with
      | nil => simp [placesFrom]
      | cons y path =>
          simp only [placesFrom, List.mem_cons, reduceCtorEq, false_or]
          exact ih

theorem placesFrom_nodup (h : path.Nodup) : (placesFrom c path).Nodup := by
  induction path generalizing c with
  | nil => exact List.nodup_nil
  | cons x path ih =>
      cases path with
      | nil => exact List.nodup_singleton _
      | cons y path =>
          obtain ⟨hx, hnodup⟩ := List.nodup_cons.1 h
          refine List.nodup_cons.2 ⟨fun hm => ?_, List.nodup_cons.2 ⟨fun hm => hx ?_, ih hnodup⟩⟩
          · rcases List.mem_cons.1 hm with hm | hm
            · cases hm
            rcases currBuff_mem_placesFrom hm with ⟨_, hhead⟩ | ⟨w, _, hw⟩
            · exact hx (List.mem_of_mem_head? hhead)
            · exact hx (hw.subset (by simp))
          · exact (link_mem_placesFrom hm).subset (by simp)

/-- A held chunk goes to the link to the next node. -/
theorem placesFrom_send (h : path.Nodup) (hd : ChunkPlace.currBuff u d ∈ placesFrom c path)
    (huv : [u, v] <:+: path) :
    [ChunkPlace.currBuff u d, ChunkPlace.link u v] <:+: placesFrom c path := by
  induction path generalizing c with
  | nil => cases hd
  | cons x path ih =>
      cases path with
      | nil => simp [placesFrom] at hd
      | cons y path =>
          obtain ⟨hx, hnodup⟩ := List.nodup_cons.1 h
          by_cases hxu : x = u
          · subst hxu
            obtain rfl : y = v := next_unique h ⟨[], path, rfl⟩ huv
            simp only [placesFrom, List.mem_cons, reduceCtorEq, ChunkPlace.currBuff.injEq,
              true_and, false_or] at hd
            rcases hd with rfl | hd
            · exact ⟨[], placesFrom (some x) (y :: path), rfl⟩
            · rcases currBuff_mem_placesFrom hd with ⟨_, hhead⟩ | ⟨w, _, hw⟩
              · exact absurd (List.mem_of_mem_head? hhead) hx
              · exact absurd (hw.subset (by simp)) hx
          · simp only [placesFrom, List.mem_cons, reduceCtorEq, ChunkPlace.currBuff.injEq,
              false_or] at hd
            have hd : ChunkPlace.currBuff u d ∈ placesFrom (some x) (y :: path) :=
              hd.resolve_left fun he => hxu he.1.symm
            have huv : [u, v] <:+: y :: path := by
              rcases List.infix_cons_iff.1 huv with huv | huv
              · exact absurd (List.cons_prefix_cons.1 huv).1.symm hxu
              · exact huv
            exact (ih hnodup hd huv).trans
              ((List.suffix_cons _ _).isInfix.trans (List.suffix_cons _ _).isInfix)

/-- A chunk at the end of a link that is not its last one is held by the next channel. -/
theorem placesFrom_arrive (h : path.Nodup) (hvu : [v, u] <:+: path)
    (hlast : path.getLast? ≠ some u) :
    [ChunkPlace.link v u, ChunkPlace.currBuff u (some v)] <:+: placesFrom c path := by
  induction path generalizing c with
  | nil => cases List.infix_nil.1 hvu
  | cons x path ih =>
      cases path with
      | nil =>
          have := hvu.length_le
          simp at this
      | cons y path =>
          obtain ⟨hx, hnodup⟩ := List.nodup_cons.1 h
          rcases List.infix_cons_iff.1 hvu with h₁ | h₁
          · obtain ⟨rfl, h₂⟩ := List.cons_prefix_cons.1 h₁
            obtain ⟨rfl, _⟩ := List.cons_prefix_cons.1 h₂
            cases path with
            | nil => exact absurd rfl hlast
            | cons z path => exact ⟨[_], _, rfl⟩
          · rw [List.getLast?_cons_cons] at hlast
            exact (ih hnodup h₁ hlast).trans
              ((List.suffix_cons _ _).isInfix.trans (List.suffix_cons _ _).isInfix)

/-- A chunk at the end of its last link is delivered. -/
theorem placesFrom_deliver (h : path.Nodup) (hvu : [v, u] <:+: path)
    (hlast : path.getLast? = some u) :
    [ChunkPlace.link v u, ChunkPlace.delivered u] <:+: placesFrom c path := by
  induction path generalizing c with
  | nil => cases List.infix_nil.1 hvu
  | cons x path ih =>
      cases path with
      | nil =>
          have := hvu.length_le
          simp at this
      | cons y path =>
          obtain ⟨hx, hnodup⟩ := List.nodup_cons.1 h
          rw [List.getLast?_cons_cons] at hlast
          rcases List.infix_cons_iff.1 hvu with h₁ | h₁
          · obtain ⟨rfl, h₂⟩ := List.cons_prefix_cons.1 h₁
            obtain ⟨rfl, _⟩ := List.cons_prefix_cons.1 h₂
            cases path with
            | nil => exact ⟨[_], [], rfl⟩
            | cons z path =>
                exact absurd ⟨[], path, rfl⟩ (not_next_of_last (v := z) hnodup hlast)
          · exact (ih hnodup h₁ hlast).trans
              ((List.suffix_cons _ _).isInfix.trans (List.suffix_cons _ _).isInfix)

/-! ### The way of a chunk -/

/-- The path of a chunk. -/
def chunkPath (tables : ℤ → OverlayRtable) (f : Frame) : List ℤ :=
  tablePath (tables f.info.srcId) f.info.dstId

theorem chunkRoute_eq : chunkRoute tables f =
    ChunkPlace.localQueue f.info.srcId :: placesFrom none (chunkPath tables f) := rfl

theorem placesFrom_infix : placesFrom none (chunkPath tables f) <:+: chunkRoute tables f :=
  (List.suffix_cons _ _).isInfix

theorem mem_chunkRoute_of_ne {p : ChunkPlace} (h : p ∈ chunkRoute tables f)
    (hne : ∀ u, p ≠ ChunkPlace.localQueue u) : p ∈ placesFrom none (chunkPath tables f) :=
  (List.mem_cons.1 h).resolve_left (hne _)

/-- A chunk that can be delivered is delivered in the end. -/
theorem chunkRoute_getLast (h : ChunkPlace.delivered v ∈ chunkRoute tables f) :
    (chunkRoute tables f).getLast? = some (ChunkPlace.delivered v) := by
  rw [chunkRoute_eq, List.getLast?_cons, placesFrom_getLast (mem_chunkRoute_of_ne h nofun)]
  rfl

theorem tablePath_cases (rt : OverlayRtable) (dst : ℤ) : tablePath rt dst = [] ∨
    ∃ entry, overlayRtableGetEntry rt dst = Except.ok (some entry) ∧
      tablePath rt dst = entry.path := by
  unfold tablePath
  split
  · rename_i entry hentry
    exact Or.inr ⟨entry, hentry, rfl⟩
  · exact Or.inl rfl

section Simple

variable {n : ℕ} (hsimple : TablesSimple n tables)
  (hsrc : 0 ≤ f.info.srcId ∧ f.info.srcId < n)
include hsimple hsrc

theorem chunkPath_nodup : (chunkPath tables f).Nodup := by
  rcases tablePath_cases (tables f.info.srcId) f.info.dstId with hnil | ⟨entry, hentry, heq⟩
  · rw [chunkPath, hnil]
    exact List.nodup_nil
  · rw [chunkPath, heq]
    exact (hsimple _ hsrc _ _ hentry).1

theorem chunkPath_ends (hne : chunkPath tables f ≠ []) :
    (chunkPath tables f).head? = some f.info.srcId ∧
      (chunkPath tables f).getLast? = some f.info.dstId := by
  rcases tablePath_cases (tables f.info.srcId) f.info.dstId with hnil | ⟨entry, hentry, heq⟩
  · exact absurd hnil hne
  · rw [chunkPath, heq]
    exact (hsimple _ hsrc _ _ hentry).2

theorem chunkPath_last (huv : [u, v] <:+: chunkPath tables f) :
    (chunkPath tables f).getLast? = some f.info.dstId := by
  refine (chunkPath_ends hsimple hsrc fun hnil => ?_).2
  rw [hnil] at huv
  cases List.infix_nil.1 huv

/-- On a simple path no place is taken twice. -/
theorem chunkRoute_nodup : (chunkRoute tables f).Nodup :=
  List.nodup_cons.2 ⟨localQueue_not_mem_placesFrom,
    placesFrom_nodup (chunkPath_nodup hsimple hsrc)⟩

/-- The first place after the local queue of the source is its local channel. -/
theorem chunkRoute_enter (huv : [f.info.srcId, v] <:+: chunkPath tables f) :
    [ChunkPlace.localQueue f.info.srcId, ChunkPlace.currBuff f.info.srcId none] <:+:
      chunkRoute tables f := by
  have hne : chunkPath tables f ≠ [] := fun hnil => by
    rw [hnil] at huv
    cases List.infix_nil.1 huv
  have hnodup := chunkPath_nodup hsimple hsrc
  have hhead := (chunkPath_ends hsimple hsrc hne).1
  rw [chunkRoute_eq]
  obtain ⟨path, hpath⟩ := List.head?_eq_some_iff.1 hhead
  rw [hpath] at huv hnodup ⊢
  cases path with
  | nil =>
      have := huv.length_le
      simp at this
  | cons y path => exact ⟨[], _, rfl⟩

/-- **A held chunk goes to the link to the next node.** -/
theorem chunkRoute_send (hc : ChunkPlace.currBuff u c ∈ chunkRoute tables f)
    (huv : [u, v] <:+: chunkPath tables f) :
    [ChunkPlace.currBuff u c, ChunkPlace.link u v] <:+: chunkRoute tables f :=
  (placesFrom_send (chunkPath_nodup hsimple hsrc) (mem_chunkRoute_of_ne hc nofun) huv).trans
    placesFrom_infix

/-- **At the end of a link a chunk for another node is held.** -/
theorem chunkRoute_arrive (hlink : ChunkPlace.link v u ∈ chunkRoute tables f)
    (hdst : f.info.dstId ≠ u) :
    [ChunkPlace.link v u, ChunkPlace.currBuff u (some v)] <:+: chunkRoute tables f := by
  have hvu := link_mem_placesFrom (mem_chunkRoute_of_ne hlink nofun)
  refine (placesFrom_arrive (chunkPath_nodup hsimple hsrc) hvu ?_).trans placesFrom_infix
  rw [chunkPath_last hsimple hsrc hvu]
  exact fun he => hdst (Option.some.inj he)

/-- **At the end of a link a chunk for this node is delivered.** -/
theorem chunkRoute_deliver (hlink : ChunkPlace.link v u ∈ chunkRoute tables f)
    (hdst : f.info.dstId = u) :
    [ChunkPlace.link v u, ChunkPlace.delivered u] <:+: chunkRoute tables f := by
  have hvu := link_mem_placesFrom (mem_chunkRoute_of_ne hlink nofun)
  refine (placesFrom_deliver (chunkPath_nodup hsimple hsrc) hvu ?_).trans placesFrom_infix
  rw [chunkPath_last hsimple hsrc hvu, hdst]

/-- The last place of a chunk is at its destination. -/
theorem dst_of_delivered (h : ChunkPlace.delivered v ∈ chunkRoute tables f) :
    f.info.dstId = v := by
  have hlast := delivered_mem_placesFrom (mem_chunkRoute_of_ne h nofun)
  have hne : chunkPath tables f ≠ [] := fun hnil => by
    rw [hnil] at hlast
    cases hlast
  rw [(chunkPath_ends hsimple hsrc hne).2] at hlast
  exact Option.some.inj hlast

/-- Two links that a chunk takes one after the other are consecutive on its path. -/
theorem chunkRoute_dep
    (h : [ChunkPlace.currBuff v (some u), ChunkPlace.link v w] <:+: chunkRoute tables f) :
    [u, v, w] <:+: chunkPath tables f := by
  have hvw : [v, w] <:+: chunkPath tables f := link_mem_placesFrom (mem_chunkRoute_of_ne
    (h.subset (List.mem_cons_of_mem _ List.mem_cons_self)) nofun)
  rcases currBuff_mem_placesFrom (mem_chunkRoute_of_ne (h.subset List.mem_cons_self) nofun) with
    ⟨hnone, _⟩ | ⟨x, hx, hxv⟩
  · cases hnone
  · obtain rfl := Option.some.inj hx
    exact infix_triple (chunkPath_nodup hsimple hsrc) hxv hvw

/-- A chunk does not go back over the channel that it came in from. -/
theorem chunkRoute_ne
    (h : [ChunkPlace.currBuff u c, ChunkPlace.link u v] <:+: chunkRoute tables f) :
    c ≠ some v := by
  rintro rfl
  have := (chunkPath_nodup hsimple hsrc).sublist (chunkRoute_dep hsimple hsrc h).sublist
  simp at this

end Simple

end Places

end DLFree

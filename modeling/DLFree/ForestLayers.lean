/-
**Taking forests out of a list of links, greedily, one after the other.**

One pass over a list keeps every link that joins two nodes not yet connected by the links kept
before it, and drops the others; the next pass works on what was dropped.  The passes split the
list into numbered forests, the first of which spans everything.

The greedy numbering depends on the order of the list.  `ForestLayers.Compatible` says when a
given numbering belongs to an order: each class is a forest, and a link is in a class only because
every smaller class already connected its ends.

Main definitions:

* `ForestLayers.Sift` — one pass;
* `ForestLayers.Layers` — all passes;
* `ForestLayers.Compatible` — a numbering belongs to an order.

Main results:

* `ForestLayers.Layers.perm`, `ForestLayers.Layers.acyclic`, `ForestLayers.Layers.span` — the
  passes split the list into forests, and the first forest spans it;
* `ForestLayers.Layers.before` — in a sorted list the links of a smaller class that connect the ends
  of a link come before it;
* `ForestLayers.Layers.compatible_iff` — **the greedy numbering is the only compatible one**.
-/

import DLFree.LinkGraph

set_option relaxedAutoImplicit false
set_option autoImplicit false

namespace ForestLayers

open LinkGraph

variable {α V : Type*} {ends : α → V × V}

/-! ### One pass -/

/-- One pass over a list of links on top of the graph `G`: the kept and the dropped links. -/
inductive Sift (ends : α → V × V) : SimpleGraph V → List α → List α → List α → Prop
  | nil {G : SimpleGraph V} : Sift ends G [] [] []
  | drop {G : SimpleGraph V} {e : α} {es kept dropped : List α} :
      G.Reachable (ends e).1 (ends e).2 → Sift ends G es kept dropped →
      Sift ends G (e :: es) kept (e :: dropped)
  | keep {G : SimpleGraph V} {e : α} {es kept dropped : List α} :
      ¬ G.Reachable (ends e).1 (ends e).2 →
      Sift ends (G ⊔ SimpleGraph.edge (ends e).1 (ends e).2) es kept dropped →
      Sift ends G (e :: es) (e :: kept) dropped

variable {G : SimpleGraph V} {es kept dropped : List α}

theorem Sift.perm (h : Sift ends G es kept dropped) : (kept ++ dropped).Perm es := by
  induction h with
  | nil => exact List.Perm.refl _
  | drop _ _ ih => exact List.perm_middle.trans (ih.cons _)
  | keep _ _ ih => exact ih.cons _

theorem graph_map_cons (e : α) (es : List α) :
    graph ((e :: es).map ends) =
      SimpleGraph.edge (ends e).1 (ends e).2 ⊔ graph (es.map ends) := by
  rw [← graph_singleton, ← graph_append, List.map_cons, List.singleton_append]

/-- The kept links extend a forest to a forest. -/
theorem Sift.acyclic (h : Sift ends G es kept dropped) (hG : G.IsAcyclic) :
    (G ⊔ graph (kept.map ends)).IsAcyclic := by
  induction h with
  | nil =>
      rw [List.map_nil, graph_nil, sup_bot_eq]
      exact hG
  | drop _ _ ih => exact ih hG
  | keep hr _ ih =>
      rw [graph_map_cons, ← sup_assoc]
      exact ih (hG.sup_edge_of_not_reachable hr)

/-- What is dropped is already connected. -/
theorem Sift.span (h : Sift ends G es kept dropped) :
    ∀ e ∈ dropped, (G ⊔ graph (kept.map ends)).Reachable (ends e).1 (ends e).2 := by
  induction h with
  | nil => simp
  | drop hr _ ih =>
      intro e he
      rcases List.mem_cons.1 he with rfl | he
      · exact hr.mono le_sup_left
      · exact ih e he
  | keep _ _ ih =>
      intro e he
      rw [graph_map_cons, ← sup_assoc]
      exact ih e he

/-- The kept links close no cycle. -/
theorem Sift.noCycle (h : Sift ends G es kept dropped) {pre : List (V × V)}
    (hG : G = graph pre) (hpre : NoCycle pre) : NoCycle (pre ++ kept.map ends) := by
  induction h generalizing pre with
  | nil =>
      rw [List.map_nil, List.append_nil]
      exact hpre
  | drop _ _ ih => exact ih hG hpre
  | @keep G e es kept dropped hr _ ih =>
      have hstep : NoCycle ((pre ++ [ends e]) ++ kept.map ends) :=
        ih (by rw [hG]; exact (graph_append_singleton _ _ _).symm)
          (hpre.append (by rw [← hG]; exact hr))
      rwa [List.append_assoc, List.singleton_append, ← List.map_cons] at hstep

/-- A pass over a nonempty list of proper links keeps a link. -/
theorem Sift.kept_ne_nil (h : Sift ends ⊥ es kept dropped) (hne : es ≠ [])
    (hloop : ∀ e ∈ es, (ends e).1 ≠ (ends e).2) : kept ≠ [] := by
  cases h with
  | nil => exact absurd rfl hne
  | drop hr _ => exact absurd (SimpleGraph.reachable_bot.1 hr) (hloop _ List.mem_cons_self)
  | keep _ _ => exact List.cons_ne_nil _ _

theorem Sift.length_lt (h : Sift ends ⊥ es kept dropped) (hkept : kept ≠ []) :
    dropped.length < es.length := by
  have hlen := h.perm.length_eq
  rw [List.length_append] at hlen
  have := List.length_pos_iff.2 hkept
  omega

/-- A predicate that tells the kept links from the dropped ones. -/
theorem Sift.eq_filter (h : Sift ends G es kept dropped) {p : α → Bool}
    (hk : ∀ e ∈ kept, p e = true) (hd : ∀ e ∈ dropped, p e = false) :
    kept = es.filter p ∧ dropped = es.filter fun e => !p e := by
  induction h with
  | nil => exact ⟨rfl, rfl⟩
  | @drop G e es kept dropped _ _ ih =>
      have he := hd e List.mem_cons_self
      obtain ⟨h₁, h₂⟩ := ih hk fun x hx => hd x (List.mem_cons_of_mem _ hx)
      exact ⟨by simp [he, h₁], by simp [he, h₂]⟩
  | @keep G e es kept dropped _ _ ih =>
      have he := hk e List.mem_cons_self
      obtain ⟨h₁, h₂⟩ := ih (fun x hx => hk x (List.mem_cons_of_mem _ hx)) hd
      exact ⟨by simp [he, h₁], by simp [he, h₂]⟩

/-- What is dropped is already connected by what was kept before it. -/
theorem Sift.blocked (h : Sift ends G es kept dropped) {p : α → Bool}
    (hk : ∀ e ∈ kept, p e = true) (hd : ∀ e ∈ dropped, p e = false)
    {pre post : List α} {e : α} (hes : es = pre ++ e :: post) (he : p e = false) :
    (G ⊔ graph ((pre.filter p).map ends)).Reachable (ends e).1 (ends e).2 := by
  induction h generalizing pre with
  | nil => simp at hes
  | @drop G f es kept dropped hr _ ih =>
      have hf := hd f List.mem_cons_self
      cases pre with
      | nil =>
          rw [List.nil_append, List.cons.injEq] at hes
          obtain ⟨rfl, -⟩ := hes
          exact hr.mono le_sup_left
      | cons x pre =>
          rw [List.cons_append, List.cons.injEq] at hes
          obtain ⟨rfl, hes⟩ := hes
          rw [List.filter_cons, hf]
          exact ih hk (fun y hy => hd y (List.mem_cons_of_mem _ hy)) hes
  | @keep G f es kept dropped hr _ ih =>
      have hf := hk f List.mem_cons_self
      cases pre with
      | nil =>
          rw [List.nil_append, List.cons.injEq] at hes
          obtain ⟨rfl, -⟩ := hes
          rw [hf] at he
          cases he
      | cons x pre =>
          rw [List.cons_append, List.cons.injEq] at hes
          obtain ⟨rfl, hes⟩ := hes
          rw [List.filter_cons_of_pos hf, graph_map_cons, ← sup_assoc]
          exact ih (fun y hy => hk y (List.mem_cons_of_mem _ hy)) hd hes

theorem Sift.sublist (h : Sift ends G es kept dropped) : dropped.Sublist es := by
  induction h with
  | nil => exact List.Sublist.refl _
  | drop _ _ ih => exact ih.cons_cons _
  | keep _ _ ih => exact ih.cons _

/-- In a sorted list, what connects the ends of a dropped link was kept before it. -/
theorem Sift.before (h : Sift ends G es kept dropped) {R : α → α → Prop} (hes : es.Pairwise R) :
    ∀ e ∈ dropped, ∃ pre, pre ⊆ kept ∧ (∀ x ∈ pre, R x e) ∧
      (G ⊔ graph (pre.map ends)).Reachable (ends e).1 (ends e).2 := by
  induction h with
  | nil => simp
  | @drop G f es kept dropped hr _ ih =>
      intro e he
      rcases List.mem_cons.1 he with rfl | he
      · refine ⟨[], List.nil_subset _, by simp, ?_⟩
        exact hr.mono le_sup_left
      · exact ih (List.pairwise_cons.1 hes).2 e he
  | @keep G f es kept dropped _ hs ih =>
      intro e he
      obtain ⟨hf, hes⟩ := List.pairwise_cons.1 hes
      obtain ⟨pre, hpre, hR, hreach⟩ := ih hes e he
      refine ⟨f :: pre, List.cons_subset_cons _ hpre, ?_, ?_⟩
      · intro x hx
        rcases List.mem_cons.1 hx with rfl | hx
        · exact hf e (hs.sublist.subset he)
        · exact hR x hx
      · rw [graph_map_cons, ← sup_assoc]
        exact hreach

/-! ### All passes -/

/-- All passes over a list, the first of which has number `k`: every link with its number. -/
inductive Layers (ends : α → V × V) : List α → ℕ → List (α × ℕ) → Prop
  | nil {k : ℕ} : Layers ends [] k []
  | pass {es kept dropped : List α} {k : ℕ} {rest : List (α × ℕ)} : es ≠ [] →
      Sift ends ⊥ es kept dropped → Layers ends dropped (k + 1) rest →
      Layers ends es k (kept.map (fun e => (e, k)) ++ rest)

variable {k : ℕ} {asg : List (α × ℕ)}

theorem Layers.perm (h : Layers ends es k asg) : (asg.map Prod.fst).Perm es := by
  induction h with
  | nil => exact List.Perm.refl _
  | @pass es kept dropped k rest _ hs _ ih =>
      rw [List.map_append, List.map_map]
      have : (Prod.fst ∘ fun e : α => (e, k)) = id := rfl
      rw [this, List.map_id]
      exact (ih.append_left kept).trans hs.perm

theorem Layers.le (h : Layers ends es k asg) : ∀ p ∈ asg, k ≤ p.2 := by
  induction h with
  | nil => simp
  | pass _ _ _ ih =>
      intro p hp
      rcases List.mem_append.1 hp with hp | hp
      · obtain ⟨e, _, rfl⟩ := List.mem_map.1 hp
        exact le_rfl
      · exact (Nat.le_succ _).trans (ih p hp)

/-- The links with one number. -/
def layer (asg : List (α × ℕ)) (m : ℕ) : List α := (asg.filter fun p => p.2 = m).map Prod.fst

theorem mem_layer {m : ℕ} {e : α} : e ∈ layer asg m ↔ (e, m) ∈ asg := by
  simp [layer]

theorem Layers.layer_of_pass {rest : List (α × ℕ)} (h : Layers ends dropped (k + 1) rest) (m : ℕ) :
    layer (kept.map (fun e => (e, k)) ++ rest) m = if m = k then kept else layer rest m := by
  have hmap : ∀ l : List α, layer (l.map fun e => (e, k)) m = if m = k then l else [] := by
    intro l
    by_cases hm : m = k
    · subst hm
      simp [layer, List.filter_map, Function.comp_def]
    · rw [if_neg hm, layer, List.filter_eq_nil_iff.2, List.map_nil]
      intro p hp
      obtain ⟨e, _, rfl⟩ := List.mem_map.1 hp
      simpa using Ne.symm hm
  have happ : layer (kept.map (fun e => (e, k)) ++ rest) m =
      layer (kept.map fun e => (e, k)) m ++ layer rest m := by
    simp [layer]
  rw [happ, hmap]
  by_cases hm : m = k
  · rw [if_pos hm, if_pos hm, hm, layer, List.filter_eq_nil_iff.2]
    · simp
    · intro p hp
      have := h.le p hp
      simp only [decide_eq_true_eq]
      omega
  · rw [if_neg hm, if_neg hm, List.nil_append]

/-- **Every class is a forest.** -/
theorem Layers.acyclic (h : Layers ends es k asg) (m : ℕ) :
    (graph ((layer asg m).map ends)).IsAcyclic := by
  induction h with
  | nil => exact isAcyclic_nil
  | pass _ hs hrest ih =>
      rw [hrest.layer_of_pass]
      split
      · have h := hs.acyclic SimpleGraph.isAcyclic_bot
        rwa [bot_sup_eq] at h
      · exact ih

/-- No class closes a cycle. -/
theorem Layers.noCycle (h : Layers ends es k asg) (m : ℕ) :
    NoCycle ((layer asg m).map ends) := by
  induction h with
  | nil => exact noCycle_nil
  | pass _ hs hrest ih =>
      rw [hrest.layer_of_pass]
      split
      · have hkept := hs.noCycle graph_nil.symm noCycle_nil
        rwa [List.nil_append] at hkept
      · exact ih

/-- The first class spans the list. -/
theorem Layers.span (h : Layers ends es k asg) :
    Span (graph ((layer asg k).map ends)) (es.map ends) := by
  cases h with
  | nil => intro e he; cases he
  | pass _ hs hrest =>
      rw [hrest.layer_of_pass, if_pos rfl]
      intro e he
      obtain ⟨x, hx, rfl⟩ := List.mem_map.1 he
      rcases List.mem_append.1 (hs.perm.symm.subset hx) with hx | hx
      · by_cases hne : (ends x).1 = (ends x).2
        · rw [hne]
        · exact SimpleGraph.Adj.reachable
            (adj_iff.2 ⟨hne, Or.inl (List.mem_map_of_mem hx)⟩)
      · have h := hs.span x hx
        rwa [bot_sup_eq] at h

/-- **Every class spans the links of its number and of all greater ones.** -/
theorem Layers.span_of_le (h : Layers ends es k asg) {m : ℕ} (hkm : k ≤ m) :
    Span (graph ((layer asg m).map ends))
      (((asg.filter fun p => m ≤ p.2).map Prod.fst).map ends) := by
  induction h with
  | nil => intro e he; cases he
  | @pass es kept dropped k rest hne hs hrest ih =>
      rcases hkm.eq_or_lt with rfl | hlt
      · have hpass := Layers.pass hne hs hrest
        intro e he
        obtain ⟨x, hx, rfl⟩ := List.mem_map.1 he
        obtain ⟨p, hp, rfl⟩ := List.mem_map.1 hx
        have hes := hpass.perm.subset (List.mem_map_of_mem (List.mem_filter.1 hp).1)
        exact hpass.span _ (List.mem_map_of_mem hes)
      · -- the links kept in this pass have a smaller number
        have hkept : (kept.map fun e => (e, k)).filter (fun p => decide (m ≤ p.2)) = [] := by
          rw [List.filter_eq_nil_iff]
          intro p hp
          obtain ⟨e, _, rfl⟩ := List.mem_map.1 hp
          simpa using hlt
        rw [hrest.layer_of_pass, if_neg hlt.ne', List.filter_append, hkept, List.nil_append]
        exact ih hlt

/-- **In a sorted list, the links of a class that connect the ends of a later link come before it.** -/
theorem Layers.before (h : Layers ends es k asg) {R : α → α → Prop} (hes : es.Pairwise R) {e : α}
    {m j : ℕ} (he : (e, m) ∈ asg) (hkj : k ≤ j) (hjm : j < m) :
    ∃ pre, pre ⊆ layer asg j ∧ (∀ x ∈ pre, R x e) ∧
      (graph (pre.map ends)).Reachable (ends e).1 (ends e).2 := by
  induction h with
  | nil => cases he
  | @pass es kept dropped k rest _ hs hrest ih =>
      have hrest_mem : (e, m) ∈ rest := by
        rcases List.mem_append.1 he with he | he
        · obtain ⟨x, _, hx⟩ := List.mem_map.1 he
          cases hx
          omega
        · exact he
      have hdropped : e ∈ dropped := hrest.perm.subset (List.mem_map_of_mem hrest_mem)
      rw [hrest.layer_of_pass]
      rcases hkj.eq_or_lt with rfl | hlt
      · rw [if_pos rfl]
        obtain ⟨pre, hpre, hR, hreach⟩ := hs.before hes e hdropped
        rw [bot_sup_eq] at hreach
        exact ⟨pre, hpre, hR, hreach⟩
      · rw [if_neg hlt.ne']
        exact ih (hes.sublist hs.sublist) hrest_mem hlt

/-! ### The numbering that belongs to an order -/

/-- The numbering `lev` belongs to the order `es`: every class is a forest, and the smaller classes
connect the ends of a link before it comes. -/
structure Compatible (ends : α → V × V) (lev : α → ℕ) (es : List α) : Prop where
  forest : ∀ k, (graph ((es.filter fun e => lev e = k).map ends)).IsAcyclic
  blocked : ∀ pre e post, es = pre ++ e :: post → ∀ k < lev e,
    (graph ((pre.filter fun x => lev x = k).map ends)).Reachable (ends e).1 (ends e).2

/-- Two links with the same ends. -/
def SamePair (ends : α → V × V) (e f : α) : Prop := ends e = ends f ∨ ends e = (ends f).swap

/-- No link is a loop, and no two links have the same ends. -/
structure Simple (ends : α → V × V) (es : List α) : Prop where
  loop : ∀ e ∈ es, (ends e).1 ≠ (ends e).2
  pair : es.Pairwise fun e f => ¬ SamePair ends e f

variable {lev : α → ℕ}

theorem Compatible.not_reachable (h : Compatible ends lev es) (hs : Simple ends es)
    {pre post : List α} {e : α} (hes : es = pre ++ e :: post) :
    ¬ (graph ((pre.filter fun x => lev x = lev e).map ends)).Reachable (ends e).1 (ends e).2 := by
  intro hr
  have hacyc := h.forest (lev e)
  have hle : graph (((pre ++ [e]).filter fun x => lev x = lev e).map ends) ≤
      graph ((es.filter fun x => lev x = lev e).map ends) := by
    refine graph_mono (List.map_subset _ ?_)
    intro x hx
    rw [List.mem_filter] at hx ⊢
    refine ⟨?_, hx.2⟩
    rw [hes]
    simp only [List.mem_append, List.mem_cons, List.not_mem_nil, or_false] at hx ⊢
    tauto
  have hsplit : ((pre ++ [e]).filter fun x => lev x = lev e).map ends =
      (pre.filter fun x => lev x = lev e).map ends ++ [((ends e).1, (ends e).2)] := by
    simp
  have hacyc' := hacyc.anti hle
  rw [hsplit, graph_append_singleton, SimpleGraph.isAcyclic_sup_fromEdgeSet_iff] at hacyc'
  have he : e ∈ es := by simp [hes]
  rcases hacyc'.2 hr with hloop | hadj
  · exact hs.loop e he hloop
  · -- an edge of the class that joins the ends of `e` is a second link with these ends
    obtain ⟨_, hmem⟩ := adj_iff.1 hadj
    have hpair := hs.pair
    rw [hes, List.pairwise_append] at hpair
    have hno : ∀ x ∈ pre, ¬ SamePair ends x e := fun x hx =>
      hpair.2.2 x hx e List.mem_cons_self
    rcases hmem with hmem | hmem <;> obtain ⟨x, hx, hxe⟩ := List.mem_map.1 hmem
    · exact hno x (List.mem_filter.1 hx).1 (Or.inl hxe)
    · exact hno x (List.mem_filter.1 hx).1 (Or.inr hxe)

/-- Under a compatible numbering a pass keeps exactly its class. -/
theorem Compatible.sift (h : Compatible ends lev es) (hs : Simple ends es) {pre suf : List α}
    (hes : es = pre ++ suf)
    (hsift : Sift ends (graph ((pre.filter fun x => lev x = k).map ends))
      (suf.filter fun x => k ≤ lev x) kept dropped) :
    kept = (suf.filter fun x => lev x = k) ∧ dropped = suf.filter fun x => k + 1 ≤ lev x := by
  induction suf generalizing pre kept dropped with
  | nil => cases hsift; exact ⟨rfl, rfl⟩
  | cons e suf ih =>
      have hes' : es = (pre ++ [e]) ++ suf := by simp [hes]
      rcases lt_trichotomy (lev e) k with hlt | heq | hgt
      · have h₁ : ¬ k ≤ lev e := by omega
        have h₂ : ¬ lev e = k := by omega
        have h₃ : ¬ k + 1 ≤ lev e := by omega
        have hpre : (pre ++ [e]).filter (fun x => lev x = k) = pre.filter fun x => lev x = k := by
          simp [h₂]
        simp only [List.filter_cons, h₁, h₂, h₃, decide_false] at hsift ⊢
        exact ih hes' (by rw [hpre]; exact hsift)
      · subst heq
        have h₃ : ¬ lev e + 1 ≤ lev e := by omega
        have hnot := h.not_reachable hs hes
        have hpre : graph (((pre ++ [e]).filter fun x => lev x = lev e).map ends) =
            graph ((pre.filter fun x => lev x = lev e).map ends) ⊔
              SimpleGraph.edge (ends e).1 (ends e).2 := by
          rw [← graph_append_singleton]
          simp
        simp only [List.filter_cons, le_refl, h₃, decide_true, decide_false, if_true] at hsift ⊢
        cases hsift with
        | drop hr _ => exact absurd hr hnot
        | keep _ hsift =>
            obtain ⟨hk, hd⟩ := ih hes' (by rw [hpre]; exact hsift)
            exact ⟨by simp [hk], by simp [hd]⟩
      · have h₁ : k ≤ lev e := by omega
        have h₂ : ¬ lev e = k := by omega
        have h₃ : k + 1 ≤ lev e := by omega
        have hr := h.blocked pre e suf hes k hgt
        have hpre : (pre ++ [e]).filter (fun x => lev x = k) = pre.filter fun x => lev x = k := by
          simp [h₂]
        simp only [List.filter_cons, h₁, h₂, h₃, decide_true, decide_false] at hsift ⊢
        cases hsift with
        | keep hn _ => exact absurd hr hn
        | drop _ hsift =>
            obtain ⟨hk, hd⟩ := ih hes' (by rw [hpre]; exact hsift)
            exact ⟨by simp [hk], by simp [hd]⟩

theorem Compatible.eq_of_layers (h : Compatible ends lev es) (hs : Simple ends es)
    {pool : List α} (hlayers : Layers ends pool k asg)
    (hpool : pool = es.filter fun x => k ≤ lev x) : ∀ p ∈ asg, lev p.1 = p.2 := by
  induction hlayers with
  | nil => simp
  | @pass pool kept dropped k rest _ hsift _ ih =>
      rw [hpool] at hsift
      obtain ⟨hk, hd⟩ := h.sift hs (List.nil_append es).symm (by
        rw [List.filter_nil, List.map_nil, graph_nil]; exact hsift)
      intro p hp
      rcases List.mem_append.1 hp with hp | hp
      · obtain ⟨e, he, rfl⟩ := List.mem_map.1 hp
        rw [hk, List.mem_filter, decide_eq_true_iff] at he
        exact he.2
      · exact ih hd p hp

/-- The numbering of the passes blocks every link in all smaller classes. -/
theorem Layers.blocked {pool : List α} (h : Layers ends pool k asg)
    (hpool : pool = es.filter fun x => k ≤ lev x) (hlev : ∀ p ∈ asg, lev p.1 = p.2)
    {pre post : List α} {e : α} (hes : es = pre ++ e :: post) {m : ℕ} (hkm : k ≤ m)
    (hm : m < lev e) :
    (graph ((pre.filter fun x => lev x = m).map ends)).Reachable (ends e).1 (ends e).2 := by
  have split : ∀ {p : α → Bool}, p e = true →
      es.filter p = pre.filter p ++ e :: post.filter p := by
    intro p hp
    rw [hes, List.filter_append, List.filter_cons_of_pos hp]
  induction h with
  | @nil k =>
      have : e ∈ es.filter fun x => decide (k ≤ lev x) := by
        rw [List.mem_filter, hes]
        exact ⟨by simp, by simpa using hkm.trans hm.le⟩
      rw [← hpool] at this
      cases this
  | @pass pool kept dropped k rest _ hsift hrest ih =>
      have hk : ∀ x ∈ kept, decide (lev x = k) = true := fun x hx => by
        simpa using hlev (x, k) (List.mem_append_left _ (List.mem_map_of_mem hx))
      have hrestlev : ∀ p ∈ rest, lev p.1 = p.2 := fun p hp =>
        hlev p (List.mem_append_right _ hp)
      have hd : ∀ x ∈ dropped, decide (lev x = k) = false := fun x hx => by
        obtain ⟨p, hp, rfl⟩ := List.mem_map.1 (hrest.perm.symm.subset hx)
        have h₁ := hrestlev p hp
        have h₂ := hrest.le p hp
        simp only [decide_eq_false_iff_not]
        omega
      rcases hkm.eq_or_lt with rfl | hlt
      · have hsplit := hpool.trans (split (p := fun x => decide (k ≤ lev x)) (by simpa using hm.le))
        have h := hsift.blocked hk hd hsplit (by simpa using (by omega : ¬ lev e = k))
        have hfilter : (pre.filter fun x => decide (k ≤ lev x)).filter (fun x => decide (lev x = k)) =
            pre.filter fun x => decide (lev x = k) := by
          rw [List.filter_filter]
          refine List.filter_congr fun x _ => ?_
          by_cases hx : lev x = k <;> simp [hx]
        rwa [bot_sup_eq, hfilter] at h
      · refine ih ?_ hrestlev hlt
        rw [(hsift.eq_filter hk hd).2, hpool, List.filter_filter]
        refine List.filter_congr fun x _ => ?_
        rw [Bool.eq_iff_iff]
        simp only [Bool.and_eq_true, Bool.not_eq_true', decide_eq_true_eq, decide_eq_false_iff_not]
        omega

/-- The greedy numbering, as a function. -/
theorem Layers.exists_numbering (h : Layers ends es k asg) (hs : Simple ends es) :
    ∃ lev : α → ℕ, ∀ p ∈ asg, lev p.1 = p.2 := by
  have hnodup : (asg.map Prod.fst).Nodup := by
    refine h.perm.nodup_iff.2 (hs.pair.imp ?_)
    rintro e _ hne rfl
    exact hne (Or.inl rfl)
  have hnum : ∀ e : α, ∃ m, ∀ p ∈ asg, p.1 = e → p.2 = m := by
    intro e
    by_cases he : ∃ p ∈ asg, p.1 = e
    · obtain ⟨p, hp, rfl⟩ := he
      refine ⟨p.2, fun q hq hqp => ?_⟩
      rw [List.inj_on_of_nodup_map hnodup hq hp hqp]
    · exact ⟨0, fun p hp hpe => absurd ⟨p, hp, hpe⟩ he⟩
  choose lev hlev using hnum
  exact ⟨lev, fun p hp => (hlev p.1 p hp rfl).symm⟩

/-- **The greedy numbering is the only compatible one.** -/
theorem Layers.compatible_iff (h : Layers ends es 0 asg) (hs : Simple ends es) :
    Compatible ends lev es ↔ ∀ p ∈ asg, lev p.1 = p.2 := by
  have hpool : es = es.filter fun x => 0 ≤ lev x := by simp
  constructor
  · exact fun hc => hc.eq_of_layers hs h hpool
  · intro hlev
    refine ⟨?_, ?_⟩
    · intro k
      have hperm : (layer asg k).Perm (es.filter fun e => lev e = k) := by
        have h₁ := (h.perm.filter fun e => decide (lev e = k))
        have h₂ : (asg.map Prod.fst).filter (fun e => decide (lev e = k)) = layer asg k := by
          rw [layer, List.filter_map]
          refine congrArg _ (List.filter_congr fun p hp => ?_)
          simp [hlev p hp]
        rwa [h₂] at h₁
      rw [← graph_perm (hperm.map ends)]
      exact h.acyclic k
    · intro pre e post hes m hm
      exact h.blocked hpool hlev hes (Nat.zero_le _) hm

end ForestLayers

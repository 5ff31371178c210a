/-
**Flooding.**

The nodes of a graph tell one another items.  An item starts at its origin.  A node that learns an
item announces it to all its neighbours, and announces no item twice.  An announcement waits in the
outbox of the node until it is sent, and then on the links to the neighbours until they take it; a
neighbour that knows the item already drops it.

Main definitions:

* `Flood` — what the nodes know, and where the announcements are;
* `FloodStep` — one step of one node;
* `FloodInv` — the invariant: an announcement has been taken by a neighbour or is on its way to it.

Main results:

* `FloodStep.inv` — every step keeps the invariant;
* `FloodInv.spread` — **when no announcement is on its way, what a node has announced is known to
  and announced by every node that it is connected to**.
-/

import Mathlib.Data.Finset.Insert
import Mathlib.Data.List.Nodup
import Mathlib.Logic.Function.Basic
import Mathlib.Logic.Relation

set_option relaxedAutoImplicit false
set_option autoImplicit false

namespace Flooding

/-- What the nodes of type `α` know of the items of type `σ`: `outbox u` is what `u` has announced
and not sent, `link u v` what it has sent and `v` has not taken, and `log u` all that it has
announced. -/
structure Flood (α σ : Type*) where
  known : α → Finset σ
  outbox : α → List σ
  link : α → α → List σ
  log : α → List σ

variable {α σ : Type*} [DecidableEq α] [DecidableEq σ]

namespace Flood

/-- `u` learns `s`. -/
def learn (st : Flood α σ) (u : α) (s : σ) : Flood α σ :=
  { st with known := Function.update st.known u (insert s (st.known u)) }

/-- `u` announces `s`. -/
def announce (st : Flood α σ) (u : α) (s : σ) : Flood α σ :=
  { st with
    outbox := Function.update st.outbox u (st.outbox u ++ [s])
    log := Function.update st.log u (st.log u ++ [s]) }

/-- `u` sends `s` to all its neighbours, and `rest` stays in its outbox. -/
def send (adj : α → α → Prop) [∀ u v, Decidable (adj u v)] (st : Flood α σ) (u : α) (s : σ)
    (rest : List σ) : Flood α σ :=
  { st with
    outbox := Function.update st.outbox u rest
    link := fun x y => if x = u ∧ adj x y then st.link x y ++ [s] else st.link x y }

/-- `u` takes an announcement from the link that leads to it from `v`, and `rest` stays there. -/
def take (st : Flood α σ) (v u : α) (rest : List σ) : Flood α σ :=
  { st with link := fun x y => if x = v ∧ y = u then rest else st.link x y }

end Flood

/-- Nobody knows anything. -/
def floodStart : Flood α σ := ⟨fun _ => ∅, fun _ => [], fun _ _ => [], fun _ => []⟩

/-- A step of a node. -/
inductive FloodStep (adj : α → α → Prop) [∀ u v, Decidable (adj u v)] (origin : σ → α)
    (st : Flood α σ) : Flood α σ → Prop
  /-- the origin of an item learns it -/
  | learn {s : σ} (hnew : s ∉ st.known (origin s)) : FloodStep adj origin st (st.learn (origin s) s)
  /-- the origin of an item announces it -/
  | announce {s : σ} (hknown : s ∈ st.known (origin s)) (hnew : s ∉ st.log (origin s)) :
      FloodStep adj origin st (st.announce (origin s) s)
  /-- an announcement is sent -/
  | send {u : α} {s : σ} {rest : List σ} (hout : st.outbox u = s :: rest) :
      FloodStep adj origin st (st.send adj u s rest)
  /-- an announcement of a known item is dropped -/
  | drop {u v : α} {s : σ} {rest : List σ} (hlink : st.link v u = s :: rest)
      (hknown : s ∈ st.known u) : FloodStep adj origin st (st.take v u rest)
  /-- a new item is learnt and announced -/
  | relay {u v : α} {s : σ} {rest : List σ} (hlink : st.link v u = s :: rest)
      (hnew : s ∉ st.known u) :
      FloodStep adj origin st (((st.take v u rest).learn u s).announce u s)

/-- What holds in every state: a node announces an item once, a node other than its origin as soon
as it learns it; the origin has announced it before; and what has been announced and sent is on the
link to every neighbour, or known to it. -/
structure FloodInv (adj : α → α → Prop) (origin : σ → α) (st : Flood α σ) : Prop where
  nodup : ∀ u, (st.log u).Nodup
  logged : ∀ {u s}, s ∈ st.log u → s ∈ st.known u
  outbox : ∀ {u s}, s ∈ st.outbox u → s ∈ st.log u
  link : ∀ {u v s}, s ∈ st.link u v → s ∈ st.log u
  relayed : ∀ {u s}, s ∈ st.known u → u ≠ origin s → s ∈ st.log u
  first : ∀ {u s}, s ∈ st.log u → s ∈ st.log (origin s)
  told : ∀ {u s}, s ∈ st.log u → s ∈ st.outbox u ∨ ∀ v, adj u v → s ∈ st.link u v ∨ s ∈ st.known v

section Inv

variable {adj : α → α → Prop} {origin : σ → α} {st st' : Flood α σ} {u v x y : α} {s t : σ}
  {rest : List σ}

namespace Flood

theorem mem_learn : t ∈ (st.learn u s).known x ↔ (x = u ∧ t = s) ∨ t ∈ st.known x := by
  by_cases hx : x = u
  · subst hx
    simp [learn]
  · simp [learn, hx]

section

omit [DecidableEq σ]

theorem mem_announce_log : t ∈ (st.announce u s).log x ↔ (x = u ∧ t = s) ∨ t ∈ st.log x := by
  by_cases hx : x = u
  · subst hx
    simp [announce, or_comm]
  · simp [announce, hx]

theorem mem_announce_outbox :
    t ∈ (st.announce u s).outbox x ↔ (x = u ∧ t = s) ∨ t ∈ st.outbox x := by
  by_cases hx : x = u
  · subst hx
    simp [announce, or_comm]
  · simp [announce, hx]

theorem mem_send [∀ u v, Decidable (adj u v)] :
    t ∈ (st.send adj u s rest).link x y ↔ t ∈ st.link x y ∨ (x = u ∧ adj x y ∧ t = s) := by
  unfold send
  dsimp only
  split
  · rename_i hxy
    rw [List.mem_append, List.mem_singleton]
    exact or_congr_right ⟨fun ht => ⟨hxy.1, hxy.2, ht⟩, fun ht => ht.2.2⟩
  · rename_i hxy
    exact ⟨Or.inl, fun ht => ht.resolve_right fun hs => hxy ⟨hs.1, hs.2.1⟩⟩

theorem mem_take (hlink : st.link v u = s :: rest) (ht : t ∈ (st.take v u rest).link x y) :
    t ∈ st.link x y := by
  by_cases hxy : x = v ∧ y = u
  · obtain ⟨rfl, rfl⟩ := hxy
    rw [hlink]
    refine List.mem_cons_of_mem _ ?_
    simpa [take] using ht
  · simpa [take, hxy] using ht

/-- What is taken from a link is its first item. -/
theorem mem_or_eq_of_take (hlink : st.link v u = s :: rest) (ht : t ∈ st.link x y) :
    t ∈ (st.take v u rest).link x y ∨ (x = v ∧ y = u ∧ t = s) := by
  by_cases hxy : x = v ∧ y = u
  · obtain ⟨rfl, rfl⟩ := hxy
    rw [hlink] at ht
    rcases List.mem_cons.1 ht with rfl | ht
    · exact Or.inr ⟨rfl, rfl, rfl⟩
    · exact Or.inl (by simpa [take] using ht)
  · exact Or.inl (by simpa [take, hxy] using ht)

end

end Flood

open Flood

omit [DecidableEq α] [DecidableEq σ] in
theorem floodInv_start : FloodInv adj origin (floodStart : Flood α σ) :=
  ⟨fun _ => List.nodup_nil, nofun, nofun, nofun, nofun, nofun, nofun⟩

namespace FloodInv

theorem learn (h : FloodInv adj origin st) : FloodInv adj origin (st.learn (origin s) s) where
  nodup := h.nodup
  logged hs := mem_learn.2 (Or.inr (h.logged hs))
  outbox := h.outbox
  link := h.link
  relayed ht hne := by
    rcases mem_learn.1 ht with ⟨hu, rfl⟩ | ht
    · exact absurd hu hne
    · exact h.relayed ht hne
  first := h.first
  told ht := (h.told ht).imp id fun htold v hv =>
    (htold v hv).imp id fun hk => mem_learn.2 (Or.inr hk)

omit [DecidableEq σ] in
theorem announce (h : FloodInv adj origin st) (hknown : s ∈ st.known (origin s))
    (hnew : s ∉ st.log (origin s)) : FloodInv adj origin (st.announce (origin s) s) where
  nodup x := by
    by_cases hx : x = origin s
    · subst hx
      simpa [Flood.announce, List.nodup_append] using ⟨h.nodup _, fun t ht he => hnew (he ▸ ht)⟩
    · simpa [Flood.announce, hx] using h.nodup x
  logged ht := by
    rcases mem_announce_log.1 ht with ⟨rfl, rfl⟩ | ht
    · exact hknown
    · exact h.logged ht
  outbox ht := mem_announce_log.2 ((mem_announce_outbox.1 ht).imp id h.outbox)
  link ht := mem_announce_log.2 (Or.inr (h.link ht))
  relayed ht hne := mem_announce_log.2 (Or.inr (h.relayed ht hne))
  first ht := by
    rcases mem_announce_log.1 ht with ⟨rfl, rfl⟩ | ht
    · exact mem_announce_log.2 (Or.inl ⟨rfl, rfl⟩)
    · exact mem_announce_log.2 (Or.inr (h.first ht))
  told ht := by
    rcases mem_announce_log.1 ht with hnew | ht
    · exact Or.inl (mem_announce_outbox.2 (Or.inl hnew))
    · exact (h.told ht).imp (fun ht => mem_announce_outbox.2 (Or.inr ht)) id

omit [DecidableEq σ] in
theorem send [∀ u v, Decidable (adj u v)] (h : FloodInv adj origin st)
    (hout : st.outbox u = s :: rest) : FloodInv adj origin (st.send adj u s rest) where
  nodup := h.nodup
  logged := h.logged
  outbox {x t} ht := by
    refine h.outbox ?_
    by_cases hx : x = u
    · subst hx
      rw [hout]
      exact List.mem_cons_of_mem _ (by simpa [Flood.send] using ht)
    · simpa [Flood.send, hx] using ht
  link {x y t} ht := by
    rcases mem_send.1 ht with ht | ⟨rfl, _, rfl⟩
    · exact h.link ht
    · exact h.outbox (hout ▸ List.mem_cons_self)
  relayed := h.relayed
  first := h.first
  told {x t} ht := by
    rcases h.told ht with hmem | htold
    · by_cases hx : x = u
      · subst hx
        rw [hout] at hmem
        rcases List.mem_cons.1 hmem with rfl | hmem
        · exact Or.inr fun y hy => Or.inl (mem_send.2 (Or.inr ⟨rfl, hy, rfl⟩))
        · exact Or.inl (by simpa [Flood.send] using hmem)
      · exact Or.inl (by simpa [Flood.send, hx] using hmem)
    · exact Or.inr fun y hy => (htold y hy).imp (fun ht => mem_send.2 (Or.inl ht)) id

omit [DecidableEq σ] in
/-- An announcement may be taken from a link when its receiver knows the item. -/
theorem take (h : FloodInv adj origin st) (hlink : st.link v u = s :: rest)
    (hknown : s ∈ st.known u) : FloodInv adj origin (st.take v u rest) where
  nodup := h.nodup
  logged := h.logged
  outbox := h.outbox
  link ht := h.link (mem_take hlink ht)
  relayed := h.relayed
  first := h.first
  told ht := by
    refine (h.told ht).imp id fun htold y hy => ?_
    rcases htold y hy with hmem | hk
    · rcases mem_or_eq_of_take hlink hmem with hmem | ⟨_, rfl, rfl⟩
      · exact Or.inl hmem
      · exact Or.inr hknown
    · exact Or.inr hk

/-- A node other than its origin learns an item and announces it. -/
theorem relay (h : FloodInv adj origin st) (hlink : st.link v u = s :: rest)
    (hnew : s ∉ st.known u) :
    FloodInv adj origin (((st.take v u rest).learn u s).announce u s) where
  nodup x := by
    by_cases hx : x = u
    · subst hx
      have hlog : s ∉ st.log x := fun hs => hnew (h.logged hs)
      simpa [Flood.announce, Flood.learn, Flood.take, List.nodup_append] using
        ⟨h.nodup _, fun t ht he => hlog (he ▸ ht)⟩
    · simpa [Flood.announce, Flood.learn, Flood.take, hx] using h.nodup x
  logged {x t} ht := by
    refine mem_learn.2 ?_
    exact (mem_announce_log.1 ht).imp id fun ht => h.logged ht
  outbox ht := mem_announce_log.2 ((mem_announce_outbox.1 ht).imp id fun ht => h.outbox ht)
  link ht := mem_announce_log.2 (Or.inr (h.link (mem_take hlink ht)))
  relayed {x t} ht hne := by
    have ht : t ∈ ((st.take v u rest).learn u s).known x := ht
    exact mem_announce_log.2 ((mem_learn.1 ht).imp id fun ht => h.relayed ht hne)
  first {x t} ht := by
    refine mem_announce_log.2 (Or.inr ?_)
    rcases mem_announce_log.1 ht with ⟨rfl, rfl⟩ | ht
    · exact h.first (h.link (u := v) (v := x) (by rw [hlink]; exact List.mem_cons_self))
    · exact h.first ht
  told {x t} ht := by
    rcases mem_announce_log.1 ht with hmine | ht
    · exact Or.inl (mem_announce_outbox.2 (Or.inl hmine))
    · refine (h.told ht).imp (fun ht => mem_announce_outbox.2 (Or.inr ht)) fun htold y hy => ?_
      rcases htold y hy with hmem | hk
      · rcases mem_or_eq_of_take hlink hmem with hmem | ⟨_, rfl, rfl⟩
        · exact Or.inl hmem
        · exact Or.inr (mem_learn.2 (Or.inl ⟨rfl, rfl⟩))
      · exact Or.inr (mem_learn.2 (Or.inr hk))

omit [DecidableEq σ] in
/-- **What a node has announced is announced by all that it is connected to**, when no announcement
waits to be sent or is under way. -/
theorem spread (h : FloodInv adj origin st) (hout : ∀ u v, adj u v → st.outbox u = [])
    (hlink : ∀ u v, adj u v → st.link u v = []) (hs : s ∈ st.log u)
    (hconn : Relation.ReflTransGen adj u v) : s ∈ st.log v := by
  induction hconn with
  | refl => exact hs
  | @tail v w _ hadj ih =>
      rcases h.told ih with hmem | htold
      · rw [hout v w hadj] at hmem
        cases hmem
      · rcases htold w hadj with hmem | hk
        · rw [hlink v w hadj] at hmem
          cases hmem
        · by_cases hw : w = origin s
          · rw [hw]
            exact h.first hs
          · exact h.relayed hk hw

end FloodInv

/-- **Every step keeps the invariant.** -/
theorem FloodStep.inv [∀ u v, Decidable (adj u v)] (h : FloodStep adj origin st st')
    (hinv : FloodInv adj origin st) : FloodInv adj origin st' := by
  cases h with
  | learn _ => exact hinv.learn
  | announce hknown hnew => exact hinv.announce hknown hnew
  | send hout => exact hinv.send hout
  | drop hlink hknown => exact hinv.take hlink hknown
  | relay hlink hnew => exact hinv.relay hlink hnew

/-- Nothing is forgotten. -/
theorem FloodStep.known_subset [∀ u v, Decidable (adj u v)] (h : FloodStep adj origin st st')
    (x : α) : st.known x ⊆ st'.known x := by
  intro t ht
  cases h with
  | learn _ => exact mem_learn.2 (Or.inr ht)
  | announce _ _ => exact ht
  | send _ => exact ht
  | drop _ _ => exact ht
  | relay _ _ => exact mem_learn.2 (Or.inr ht)

end Inv

end Flooding

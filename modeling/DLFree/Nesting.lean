/-
**Forests and the words of tags that write them.**

A forest is written as a word of tags: every element opens with a tag that carries the element, and
closes, after what it encloses, with a tag that carries its name only.  A word is a forest's exactly
when a stack of names reads it from end to end, finds at every closing tag the name that the tag
carries, and is empty at the end.

Main definitions:

* `Forest`, `Forest.elements`, `Forest.parents` — forests, their elements in document order, and the
  index of the element around each of them;
* `Tag`, `Forest.tags` — tags, and the word of a forest;
* `nest`, `opened` — the stack that reads a word, and the elements that it opens.

Main results:

* `nest_tags` — the stack reads a forest's word and is as it was before;
* `nest_iff` — **the stack reads exactly the words of forests**.
-/

import Mathlib.Data.List.Basic

set_option relaxedAutoImplicit false
set_option autoImplicit false

namespace DLFree.Nesting

variable {α β : Type}

/-- Trees side by side: the first element, what it encloses, and what stands after it. -/
inductive Forest (α : Type) where
  | nil
  | cons (a : α) (content rest : Forest α)
  deriving DecidableEq, Repr

/-- A tag opens an element, or closes the element with that name. -/
inductive Tag (α β : Type) where
  | start (a : α)
  | finish (b : β)
  deriving DecidableEq, Repr

namespace Forest

/-- The word of a forest; `name` gives the names of its elements. -/
def tags (name : α → β) : Forest α → List (Tag α β)
  | nil => []
  | cons a content rest =>
      Tag.start a :: (content.tags name ++ Tag.finish (name a) :: rest.tags name)

/-- The elements in the order in which they open. -/
def elements : Forest α → List α
  | nil => []
  | cons a content rest => a :: (content.elements ++ rest.elements)

/-- The index of the element around each element, where `next` is the index of the first of them and
`parent` is the index of the element around the whole forest. -/
def parents : Forest α → ℕ → ℕ → List ℕ
  | nil, _, _ => []
  | cons _ content rest, parent, next =>
      parent :: (content.parents next (next + 1) ++
        rest.parents parent (next + 1 + content.elements.length))

@[simp] theorem parents_length (f : Forest α) (parent next : ℕ) :
    (f.parents parent next).length = f.elements.length := by
  induction f generalizing parent next with
  | nil => rfl
  | cons a content rest ihc ihr =>
      simp only [parents, elements, List.length_cons, List.length_append, ihc, ihr]

theorem start_mem_tags (name : α → β) {f : Forest α} {a : α} (h : a ∈ f.elements) :
    Tag.start a ∈ f.tags name := by
  induction f with
  | nil => cases h
  | cons b content rest ihc ihr =>
      rw [elements, List.mem_cons, List.mem_append] at h
      rw [tags, List.mem_cons, List.mem_append, List.mem_cons]
      rcases h with rfl | h | h
      · exact Or.inl rfl
      · exact Or.inr (Or.inl (ihc h))
      · exact Or.inr (Or.inr (Or.inr (ihr h)))

end Forest

variable (name : α → β)

/-- A word that closes the elements of a stack from the innermost on, with forests in between. -/
inductive Closes : List β → List (Tag α β) → Prop
  | nil (f : Forest α) : Closes [] (f.tags name)
  | cons (f : Forest α) (b : β) {stack : List β} {word : List (Tag α β)} : Closes stack word →
      Closes (b :: stack) (f.tags name ++ Tag.finish b :: word)

theorem Closes.tree {stack : List β} {word : List (Tag α β)} (h : Closes name stack word) (a : α)
    (content : Forest α) :
    Closes name stack (Tag.start a :: (content.tags name ++ Tag.finish (name a) :: word)) := by
  cases h with
  | nil f => exact Closes.nil (Forest.cons a content f)
  | cons f b h =>
      have := Closes.cons (Forest.cons a content f) b h
      rwa [Forest.tags, List.cons_append, List.append_assoc, List.cons_append] at this

/-- The elements that a word opens. -/
def opened (word : List (Tag α β)) : List α :=
  word.filterMap fun t =>
    match t with
    | Tag.start a => some a
    | Tag.finish _ => none

theorem opened_append (u w : List (Tag α β)) : opened (u ++ w) = opened u ++ opened w :=
  List.filterMap_append

/-- The word of a forest opens its elements in document order. -/
theorem opened_tags (f : Forest α) : opened (f.tags name) = f.elements := by
  induction f with
  | nil => rfl
  | cons a content rest ihc ihr =>
      have hcons : ∀ word : List (Tag α β), opened (Tag.start a :: word) = a :: opened word :=
        fun _ => rfl
      have hfinish : ∀ word : List (Tag α β),
          opened (Tag.finish (name a) :: word) = opened word := fun _ => rfl
      rw [Forest.tags, hcons, opened_append, ihc, hfinish, ihr, Forest.elements]

variable [DecidableEq β]

/-- The stack of the names of the open elements, the innermost first; `none` when a closing tag has
no open element of its name. -/
def nest : List β → List (Tag α β) → Option (List β)
  | stack, [] => some stack
  | stack, Tag.start a :: word => nest (name a :: stack) word
  | [], Tag.finish _ :: _ => none
  | top :: stack, Tag.finish b :: word => if top = b then nest stack word else none

theorem nest_append (stack : List β) (u w : List (Tag α β)) :
    nest name stack (u ++ w) = (nest name stack u).bind fun s => nest name s w := by
  induction u generalizing stack with
  | nil => rfl
  | cons t u ih =>
      cases t with
      | start a => exact ih (name a :: stack)
      | finish b =>
          cases stack with
          | nil => rfl
          | cons top stack =>
              rw [List.cons_append, nest, nest]
              by_cases h : top = b
              · rw [if_pos h, if_pos h]
                exact ih stack
              · rw [if_neg h, if_neg h]
                rfl

/-- The word of a forest leaves the stack as it was. -/
theorem nest_tags (f : Forest α) (stack : List β) :
    nest name stack (f.tags name) = some stack := by
  induction f generalizing stack with
  | nil => rfl
  | cons a content rest ihc ihr =>
      rw [Forest.tags, nest, nest_append, ihc, Option.bind_some, nest, if_pos rfl]
      exact ihr stack

variable {name}

/-- What empties the stack closes its elements. -/
theorem closes_of_nest {stack : List β} {word : List (Tag α β)}
    (h : nest name stack word = some []) : Closes name stack word := by
  induction word generalizing stack with
  | nil =>
      rw [Option.some.inj h]
      exact Closes.nil Forest.nil
  | cons t word ih =>
      cases t with
      | start a =>
          rw [nest] at h
          cases ih h with
          | cons f _ hrest => exact hrest.tree name a f
      | finish b =>
          cases stack with
          | nil => cases h
          | cons top stack =>
              rw [nest] at h
              split at h
              next htop =>
                subst htop
                exact Closes.cons Forest.nil top (ih h)
              next => cases h

/-- **The stack reads a word from end to end exactly when the word is that of a forest.** -/
theorem nest_iff {word : List (Tag α β)} :
    nest name [] word = some [] ↔ ∃ f : Forest α, f.tags name = word := by
  constructor
  · intro h
    cases closes_of_nest h with
    | nil f => exact ⟨f, rfl⟩
  · rintro ⟨f, rfl⟩
    exact nest_tags name f []

end DLFree.Nesting

import Mathlib.Data.List.Nodup
import Mathlib.Data.List.Perm.Basic

/-!
Depth-first tours.

`Tour` is what a depth-first walk over a graph does, given by the successors of each
node: which nodes it visits for the first time, and how often it comes to one that it
has seen. From that alone: it visits what can be reached, each node once; and if it
never comes to a node again, what it has visited is a forest, every node the
successor of one other or called for, once.
-/

namespace V7Besm.Graph

open List

variable {α : Type} {next : α → List α} {seen calls new : List α} {again : Nat} {x y : α}

/-- A walk that is called for the nodes `calls` one after another, with `seen` seen before. It
visits `new`, the last one first, and comes `again` times to a node it has seen. -/
inductive Tour (next : α → List α) : List α → List α → List α → Nat → Prop where
  | nil {seen : List α} : Tour next seen [] [] 0
  | again {seen calls new : List α} {again : Nat} {x : α} : x ∈ seen →
      Tour next seen calls new again → Tour next seen (x :: calls) new (again + 1)
  | visit {seen calls new₁ new₂ : List α} {again₁ again₂ : Nat} {x : α} : x ∉ seen →
      Tour next (x :: seen) (next x) new₁ again₁ →
      Tour next (new₁ ++ x :: seen) calls new₂ again₂ →
      Tour next seen (x :: calls) (new₂ ++ (new₁ ++ [x])) (again₁ + again₂)

namespace Tour

theorem append {calls' new' : List α} {again' : Nat} (first : Tour next seen calls new again)
    (second : Tour next (new ++ seen) calls' new' again') :
    Tour next seen (calls ++ calls') (new' ++ new) (again + again') := by
  induction first with
  | nil =>
    rwa [append_nil, Nat.zero_add]
  | again known _ ih =>
    rw [Nat.add_right_comm]
    exact .again known (ih second)
  | @visit seen calls new₁ new₂ again₁ again₂ x fresh down _ _ ih =>
    have shift : new₂ ++ (new₁ ++ [x]) ++ seen = new₂ ++ (new₁ ++ x :: seen) := by simp
    rw [shift] at second
    rw [← append_assoc, Nat.add_assoc]
    exact .visit fresh down (ih second)

section

variable (tour : Tour next seen calls new again)
include tour

theorem nodup : new.Nodup ∧ ∀ d ∈ new, d ∉ seen := by
  induction tour with
  | nil => exact ⟨nodup_nil, nofun⟩
  | again _ _ ih => exact ih
  | @visit seen calls new₁ new₂ again₁ again₂ x fresh _ _ ih₁ ih₂ =>
    obtain ⟨nodup₁, apart₁⟩ := ih₁
    obtain ⟨nodup₂, apart₂⟩ := ih₂
    constructor
    · rw [nodup_append, nodup_append]
      refine ⟨nodup₂, ⟨nodup₁, nodup_singleton x, ?_⟩, ?_⟩
      · intro a in_new₁ b is_x same
        rw [mem_singleton] at is_x
        exact apart₁ a in_new₁ (by rw [same, is_x]; exact mem_cons_self)
      intro a in_new₂ b in_rest same
      refine apart₂ a in_new₂ ?_
      rw [same]
      rw [mem_append, mem_singleton] at in_rest
      rw [mem_append, mem_cons]
      obtain in_new₁ | is_x := in_rest
      · exact .inl in_new₁
      · exact .inr (.inl is_x)
    · intro d within
      rw [mem_append, mem_append, mem_singleton] at within
      obtain in_new₂ | in_new₁ | rfl := within
      · intro known
        exact apart₂ d in_new₂ (mem_append_right _ (mem_cons_of_mem _ known))
      · intro known
        exact apart₁ d in_new₁ (mem_cons_of_mem _ known)
      · exact fresh

/-- Every node that was called for has been seen in the end, and so have the successors of the
nodes visited. -/
theorem closed : (∀ x ∈ calls, x ∈ new ++ seen) ∧ ∀ d ∈ new, ∀ x ∈ next d, x ∈ new ++ seen := by
  induction tour with
  | nil => exact ⟨nofun, nofun⟩
  | again known _ ih =>
    refine ⟨?_, ih.2⟩
    intro x within
    cases within with
    | head => exact mem_append_right _ known
    | tail _ within => exact ih.1 x within
  | @visit seen calls new₁ new₂ again₁ again₂ x fresh _ _ ih₁ ih₂ =>
    have shift : new₂ ++ (new₁ ++ [x]) ++ seen = new₂ ++ (new₁ ++ x :: seen) := by simp
    rw [shift]
    constructor
    · intro y within
      cases within with
      | head => simp
      | tail _ within => exact ih₂.1 y within
    · intro d within y successor
      rw [mem_append, mem_append, mem_singleton] at within
      obtain in_new₂ | in_new₁ | rfl := within
      · exact ih₂.2 d in_new₂ y successor
      · exact mem_append_right _ (ih₁.2 d in_new₁ y successor)
      · exact mem_append_right _ (ih₁.1 y successor)

/-- One node is a successor of the other. -/
def Edge (next : α → List α) (x y : α) : Prop := y ∈ next x

/-- Every node visited can be reached from one that was called for. -/
theorem reached : ∀ d ∈ new, ∃ x ∈ calls, Relation.ReflTransGen (Edge next) x d := by
  induction tour with
  | nil => exact nofun
  | again _ _ ih =>
    intro d within
    obtain ⟨x, called, path⟩ := ih d within
    exact ⟨x, mem_cons_of_mem _ called, path⟩
  | @visit seen calls new₁ new₂ again₁ again₂ x fresh _ _ ih₁ ih₂ =>
    intro d within
    rw [mem_append, mem_append, mem_singleton] at within
    obtain in_new₂ | in_new₁ | rfl := within
    · obtain ⟨y, called, path⟩ := ih₂ d in_new₂
      exact ⟨y, mem_cons_of_mem _ called, path⟩
    · obtain ⟨y, successor, path⟩ := ih₁ d in_new₁
      exact ⟨x, mem_cons_self, .head successor path⟩
    · exact ⟨d, mem_cons_self, .refl⟩

end

/-- From one node and with nothing seen, just what can be reached is visited. -/
theorem mem_iff (tour : Tour next [] [x] new again) :
    y ∈ new ↔ Relation.ReflTransGen (Edge next) x y := by
  constructor
  · intro within
    obtain ⟨z, called, path⟩ := tour.reached y within
    cases mem_singleton.mp called
    exact path
  · intro path
    obtain ⟨called, successors⟩ := tour.closed
    rw [append_nil] at called successors
    induction path with
    | refl => exact called x mem_cons_self
    | tail _ edge ih => exact successors _ ih _ edge

/-- A walk that never comes to a node again: each node visited is called for, or is the
successor of a node visited, just once. -/
theorem perm (tour : Tour next seen calls new again) (never : again = 0) :
    new.Perm (calls ++ new.flatMap next) := by
  induction tour with
  | nil => exact .refl _
  | again _ _ _ => cases never
  | @visit seen calls new₁ new₂ again₁ again₂ x fresh _ _ ih₁ ih₂ =>
    have first := ih₁ (by omega)
    have second := ih₂ (by omega)
    -- both sides are made of the same pieces
    classical
    rw [perm_iff_count] at first second ⊢
    intro a
    have of_first := first a
    have of_second := second a
    simp only [count_append, flatMap_append, flatMap_singleton, count_cons,
      count_nil] at of_first of_second ⊢
    omega

end Tour

end V7Besm.Graph

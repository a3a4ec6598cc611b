import Mathlib.Data.List.Nodup

/-!
Singly linked lists threaded through a link field.

`Chain link h l` says that following `link` from the head `h` visits exactly
the elements of `l`, in order, and stops. The list of a chain is determined by
the head and the links, and it has no repetitions, so removing an element or
pushing one is an operation on lists as long as the element is not in the way.
-/

namespace V7Besm.Links

open Function List

variable {α : Type}

/-- The chain from the head `h` is the list `l`. -/
def Chain (link : α → Option α) : Option α → List α → Prop
  | h, [] => h = none
  | h, a :: l => h = some a ∧ Chain link (link a) l

namespace Chain

variable {link : α → Option α} {h : Option α} {l l' : List α} {a : α}

theorem unique (first : Chain link h l) (second : Chain link h l') : l = l' := by
  induction l generalizing h l' with
  | nil =>
    cases l' with
    | nil => rfl
    | cons b l' =>
      obtain rfl : h = none := first
      cases second.1
  | cons a l ih =>
    cases l' with
    | nil =>
      obtain rfl : h = none := second
      cases first.1
    | cons b l' =>
      obtain rfl : a = b := Option.some.inj (first.1.symm.trans second.1)
      rw [ih first.2 second.2]

theorem head (c : Chain link h l) : h = l.head? := by
  cases l with
  | nil => exact c
  | cons a l => exact c.1

/-- The chain goes on the same way from each of its elements. -/
theorem split {pre post : List α} (c : Chain link h (pre ++ a :: post)) :
    Chain link (link a) post := by
  induction pre generalizing h with
  | nil => exact c.2
  | cons b pre ih => exact ih c.2

/-- The successor of an element of `l` is in `l`, or comes right behind it. -/
theorem next_mem {r : List α} {x y : α} (c : Chain link h (l ++ r)) (mem : x ∈ l)
    (next : link x = some y) : y ∈ l ∨ r.head? = some y := by
  induction l generalizing h with
  | nil => simp at mem
  | cons a l ih =>
    rcases mem_cons.mp mem with rfl | mem
    · have first := c.2.head.symm.trans next
      cases l with
      | nil => exact .inr first
      | cons b l => exact .inl (mem_cons_of_mem _ (by simp_all))
    · exact (ih c.2 mem).imp_left (mem_cons_of_mem a)

theorem nodup (c : Chain link h l) : l.Nodup := by
  induction l generalizing h with
  | nil => exact nodup_nil
  | cons a l ih =>
    refine nodup_cons.mpr ⟨fun mem => ?_, ih c.2⟩
    -- A repetition would make the tail behind it equal to the whole tail.
    obtain ⟨pre, post, rfl⟩ := append_of_mem mem
    have same := unique c.2 c.2.split
    have : (pre ++ a :: post).length = post.length := by rw [same]
    simp at this
    omega

/-- A chain depends on the links of its own elements. -/
theorem congr {link' : α → Option α} (c : Chain link h l) (same : ∀ b ∈ l, link' b = link b) :
    Chain link' h l := by
  induction l generalizing h with
  | nil => exact c
  | cons b l ih =>
    refine ⟨c.1, ?_⟩
    rw [same b mem_cons_self]
    exact ih c.2 fun x mem => same x (mem_cons_of_mem _ mem)

variable [DecidableEq α]

theorem update_of_notMem (c : Chain link h l) {x : Option α} (out : a ∉ l) :
    Chain (update link a x) h l :=
  c.congr fun b mem => by rw [update_of_ne (ne_of_mem_of_not_mem mem out)]

/-- Push an element that is on no part of the chain. -/
theorem push (c : Chain link h l) (out : a ∉ l) : Chain (update link a h) (some a) (a :: l) :=
  ⟨rfl, by simpa using c.update_of_notMem out⟩

theorem unlink {pre post : List α} {q : α} (c : Chain link h (pre ++ q :: a :: post)) :
    Chain (update link q (link a)) h (pre ++ q :: post) := by
  induction pre generalizing h with
  | nil =>
    have nodup := c.nodup
    simp only [nil_append, nodup_cons, mem_cons, not_or] at nodup
    refine ⟨c.1, ?_⟩
    simpa using c.2.2.update_of_notMem nodup.1.2
  | cons b pre ih =>
    have nodup := c.nodup
    simp only [cons_append, nodup_cons] at nodup
    have ne : b ≠ q := fun e => nodup.1 (by simp [e])
    refine ⟨c.1, ?_⟩
    rw [update_of_ne ne]
    exact ih c.2

/-- Link an element that is on no part of the chain behind its last one. -/
theorem append {pre : List α} {q : α} (c : Chain link h (pre ++ [q])) (out : a ∉ pre ++ [q])
    (stop : link a = none) : Chain (update link q (some a)) h (pre ++ [q, a]) := by
  induction pre generalizing h with
  | nil =>
    have ne : a ≠ q := fun e => out (by simp [e])
    exact ⟨c.1, by simp, by rw [update_of_ne ne, stop]; rfl⟩
  | cons b pre ih =>
    have nodup := c.nodup
    simp only [cons_append, nodup_cons] at nodup
    have ne : b ≠ q := fun e => nodup.1 (by simp [e])
    refine ⟨c.1, ?_⟩
    rw [update_of_ne ne]
    exact ih c.2 fun mem => out (mem_cons_of_mem _ mem)

end Chain

/-- The element `n` links behind the head `h`. -/
def follow (link : α → Option α) : Option α → Nat → Option α
  | h, 0 => h
  | h, n + 1 => follow link (h.bind link) n

theorem Chain.follow_eq {link : α → Option α} {h : Option α} {l : List α}
    (c : Chain link h l) (n : Nat) : follow link h n = l[n]? := by
  induction l generalizing h n with
  | nil =>
    obtain rfl : h = none := c
    induction n with
    | zero => rfl
    | succ n ih => simpa [follow] using ih
  | cons a l ih =>
    obtain ⟨rfl, c⟩ := c
    cases n with
    | zero => rfl
    | succ n => simpa [follow] using ih c n

end V7Besm.Links

import Mathlib.Data.List.Nodup

/-!
Doubly linked rings.

`Ring fw bk h l` says that the elements of `l`, in order, form a ring through
the head `h`: `fw` goes round it from `h` back to `h` and `bk` undoes each step.
The operations are stated by what they leave in the links, not by the order of
the assignments, so each serves every piece of code that has that effect.
-/

namespace V7Besm.Links

open List


variable {α : Type}

/-- The links lead from `a` through `l` to `b` and back. -/
def Linked (fw bk : α → α) : α → List α → α → Prop
  | a, [], b => fw a = b ∧ bk b = a
  | a, x :: l, b => fw a = x ∧ bk x = a ∧ Linked fw bk x l b

namespace Linked

variable {fw bk fw' bk' : α → α} {a b x : α} {l r : List α}

theorem append : Linked fw bk a (l ++ x :: r) b ↔ Linked fw bk a l x ∧ Linked fw bk x r b := by
  induction l generalizing a with
  | nil => simp [Linked, and_assoc]
  | cons y l ih => simp [Linked, ih, and_assoc]

section

variable (linked : Linked fw bk a l b)
include linked

theorem frame (forw : ∀ y ∈ a :: l, fw' y = fw y)
    (back : ∀ y ∈ l ++ [b], bk' y = bk y) : Linked fw' bk' a l b := by
  induction l generalizing a with
  | nil => exact ⟨(forw a (by simp)).trans linked.1, (back b (by simp)).trans linked.2⟩
  | cons y l ih =>
    obtain ⟨next, prev, rest⟩ := linked
    refine ⟨(forw a (by simp)).trans next, (back y (by simp)).trans prev, ih rest ?_ ?_⟩
    · exact fun z mem => forw z (mem_cons_of_mem _ mem)
    · exact fun z mem => back z (mem_cons_of_mem _ mem)

theorem next_mem : fw a ∈ l ++ [b] := by
  cases l with
  | nil | cons y l => simp [linked.1]

theorem reverse : Linked bk fw b l.reverse a := by
  induction l generalizing a with
  | nil => exact ⟨linked.2, linked.1⟩
  | cons x l ih =>
    rw [reverse_cons]
    exact append.mpr ⟨ih linked.2.2, linked.2.1, linked.1⟩

theorem prev_mem : bk b ∈ a :: l := by
  simpa [or_comm] using linked.reverse.next_mem

end

theorem join (first : Linked fw bk a l x) (second : Linked fw bk x r b)
    (nodup : (a :: l).Nodup) (nodup' : (r ++ [b]).Nodup)
    (forw : fw' (bk x) = fw x) (back : bk' (fw x) = bk x)
    (forw' : ∀ y ∈ a :: (l ++ r), y ≠ bk x → fw' y = fw y)
    (back' : ∀ y ∈ l ++ r ++ [b], y ≠ fw x → bk' y = bk y)
    (apart : ∀ y ∈ a :: l, y ∉ r) (apart' : ∀ y ∈ r ++ [b], y ∉ l) :
    Linked fw' bk' a (l ++ r) b := by
  induction l generalizing a with
  | nil =>
    obtain ⟨next, prev⟩ := first
    rw [prev] at forw forw' back
    cases r with
    | nil =>
      obtain ⟨next', prev'⟩ := second
      rw [next'] at forw back
      exact ⟨forw, back⟩
    | cons y r =>
      obtain ⟨next', prev', rest⟩ := second
      rw [next'] at forw back back'
      refine ⟨forw, back, rest.frame ?_ ?_⟩
      · intro z mem
        exact forw' z (by simp at mem ⊢; tauto) fun e => apart a (by simp) (e ▸ mem)
      · intro z mem
        refine back' z (by simp at mem ⊢; tauto) ?_
        rintro rfl
        exact (nodup_cons.mp nodup').1 mem
  | cons y l ih =>
    obtain ⟨next, prev, rest⟩ := first
    have away : a ≠ bk x := fun e => (nodup_cons.mp nodup).1 (e ▸ rest.prev_mem)
    have away' : y ≠ fw x := fun e => apart' _ second.next_mem (e ▸ mem_cons_self)
    refine ⟨(forw' a (by simp) away).trans next, (back' y (by simp) away').trans prev, ?_⟩
    refine ih rest (nodup_cons.mp nodup).2 ?_ ?_ ?_ ?_
    · exact fun z mem => forw' z (mem_cons_of_mem _ mem)
    · exact fun z mem => back' z (mem_cons_of_mem _ mem)
    · exact fun z mem => apart z (mem_cons_of_mem _ mem)
    · exact fun z mem mem' => apart' z mem (mem_cons_of_mem _ mem')

end Linked

/-- A ring through the head `h`. -/
structure Ring (fw bk : α → α) (h : α) (l : List α) : Prop where
  links : Linked fw bk h l h
  nodup : (h :: l).Nodup

namespace Ring

variable {fw bk fw' bk' : α → α} {h x : α} {l r : List α}

theorem frame (ring : Ring fw bk h l) (forw : ∀ y ∈ h :: l, fw' y = fw y)
    (back : ∀ y ∈ h :: l, bk' y = bk y) : Ring fw' bk' h l :=
  ⟨ring.links.frame forw fun y mem => back y (by simp at mem ⊢; tauto), ring.nodup⟩

theorem reverse (ring : Ring fw bk h l) : Ring bk fw h l.reverse :=
  ⟨ring.links.reverse, by simpa using ring.nodup⟩

theorem next_mem (ring : Ring fw bk h l) {y : α} (mem : y ∈ h :: l) : fw y ∈ h :: l := by
  rcases mem_cons.mp mem with rfl | mem
  · have := ring.links.next_mem
    simp at this ⊢
    tauto
  · obtain ⟨front, back, rfl⟩ := append_of_mem mem
    have := (Linked.append.mp ring.links).2.next_mem
    simp at this ⊢
    tauto

theorem prev_mem (ring : Ring fw bk h l) {y : α} (mem : y ∈ h :: l) : bk y ∈ h :: l := by
  simpa using ring.reverse.next_mem (by simpa using mem)

theorem remove (ring : Ring fw bk h (l ++ x :: r))
    (forw : fw' (bk x) = fw x) (back : bk' (fw x) = bk x)
    (forw' : ∀ y ∈ h :: (l ++ r), y ≠ bk x → fw' y = fw y)
    (back' : ∀ y ∈ h :: (l ++ r), y ≠ fw x → bk' y = bk y) : Ring fw' bk' h (l ++ r) := by
  have nodup := ring.nodup
  rw [nodup_cons, nodup_append] at nodup
  obtain ⟨out, nodupl, noduprx, apart⟩ := nodup
  have nodupr := (nodup_cons.mp noduprx).2
  obtain ⟨first, second⟩ := Linked.append.mp ring.links
  refine ⟨first.join second ?_ ?_ forw back forw' ?_ ?_ ?_, ?_⟩
  · exact nodup_cons.mpr ⟨fun mem => out (mem_append_left _ mem), nodupl⟩
  · refine nodup_append.mpr ⟨nodupr, nodup_singleton _, ?_⟩
    rintro y mem z mem' rfl
    rw [mem_singleton] at mem'
    exact out (by simp [← mem', mem])
  · exact fun y mem => back' y (by simp at mem ⊢; tauto)
  · intro y mem mem'
    rcases mem_cons.mp mem with rfl | mem
    · exact out (by simp [mem'])
    · exact apart y mem y (mem_cons_of_mem _ mem') rfl
  · intro y mem mem'
    rcases mem_append.mp mem with mem | mem
    · exact apart y mem' y (mem_cons_of_mem _ mem) rfl
    · exact out (by simp [← mem_singleton.mp mem, mem'])
  · rw [nodup_cons, nodup_append]
    refine ⟨fun mem => out (by simp at mem ⊢; tauto), nodupl, nodupr, ?_⟩
    exact fun y mem z mem' => apart y mem z (mem_cons_of_mem _ mem')

theorem erase [DecidableEq α] (ring : Ring fw bk h l) (mem : x ∈ l)
    (forw : fw' (bk x) = fw x) (back : bk' (fw x) = bk x) (forw' : ∀ y, y ≠ bk x → fw' y = fw y)
    (back' : ∀ y, y ≠ fw x → bk' y = bk y) : Ring fw' bk' h (l.erase x) := by
  obtain ⟨l₁, l₂, -, rfl, erased⟩ := exists_erase_eq mem
  rw [erased]
  exact ring.remove forw back (fun y _ => forw' y) fun y _ => back' y

theorem pushFront (ring : Ring fw bk h l) (out : x ∉ h :: l) (head : fw' h = x)
    (forw : fw' x = fw h) (back : bk' x = h) (next : bk' (fw h) = x)
    (forw' : ∀ y, y ≠ x → y ≠ h → fw' y = fw y)
    (back' : ∀ y, y ≠ x → y ≠ fw h → bk' y = bk y) : Ring fw' bk' h (x :: l) := by
  have nodup := ring.nodup
  have away : ∀ y ∈ h :: l, y ≠ x := fun y mem e => out (e ▸ mem)
  simp only [mem_cons, not_or] at out
  refine ⟨⟨head, back, ?_⟩, ?_⟩
  · have links := ring.links
    cases l with
    | nil => exact ⟨forw.trans links.1, by rw [links.1] at next; exact next⟩
    | cons y l =>
      obtain ⟨first, prev, rest⟩ := links
      rw [first] at next forw back'
      refine ⟨forw, next, rest.frame (fun z mem => forw' z ?_ ?_) fun z mem => back' z ?_ ?_⟩
      · exact away z (mem_cons_of_mem _ mem)
      · rintro rfl
        exact (nodup_cons.mp nodup).1 mem
      · exact away z (by simp at mem ⊢; tauto)
      · rintro rfl
        rcases mem_append.mp mem with mem | mem
        · exact (nodup_cons.mp (nodup_cons.mp nodup).2).1 mem
        · exact (nodup_cons.mp nodup).1 (by simp [mem_singleton.mp mem])
  · rw [nodup_cons] at nodup ⊢
    exact ⟨by simp [nodup.1, Ne.symm out.1], nodup_cons.mpr ⟨out.2, nodup.2⟩⟩

theorem pushBack (ring : Ring fw bk h l) (out : x ∉ h :: l) (head : bk' h = x)
    (back : bk' x = bk h) (forw : fw' x = h) (prev : fw' (bk h) = x)
    (back' : ∀ y, y ≠ x → y ≠ h → bk' y = bk y)
    (forw' : ∀ y, y ≠ x → y ≠ bk h → fw' y = fw y) : Ring fw' bk' h (l ++ [x]) := by
  have mirrored := ring.reverse.pushFront (by simpa using out) head back forw prev back' forw'
  simpa using mirrored.reverse

end Ring

/-! ### Walking forward -/

/-- Following `fw` from `a` visits `l` and then comes to `b`. -/
def Path (fw : α → α) : α → List α → α → Prop
  | a, [], b => fw a = b
  | a, x :: l, b => fw a = x ∧ Path fw x l b

namespace Path

variable {fw fw' bk : α → α} {a b h : α} {l l' : List α}

theorem snoc (path : Path fw a l b) : Path fw a (l ++ [b]) (fw b) := by
  induction l generalizing a with
  | nil => exact ⟨path, rfl⟩
  | cons x l ih => exact ⟨path.1, ih path.2⟩

theorem congr (same : ∀ x, fw' x = fw x) (path : Path fw a l b) : Path fw' a l b := by
  induction l generalizing a with
  | nil => exact (same a).trans path
  | cons x l ih => exact ⟨(same a).trans path.1, ih path.2⟩

theorem unique (first : Path fw a l h) (second : Path fw a l' h) (out : h ∉ l) (out' : h ∉ l') :
    l = l' := by
  induction l generalizing a l' with
  | nil =>
    cases l' with
    | nil => rfl
    | cons x l' => exact absurd (by simp [← second.1, show fw a = h from first]) out'
  | cons x l ih =>
    cases l' with
    | nil => exact absurd (by simp [← first.1, show fw a = h from second]) out
    | cons y l' =>
      obtain rfl : x = y := first.1.symm.trans second.1
      rw [ih first.2 second.2 (fun mem => out (mem_cons_of_mem _ mem))
        fun mem => out' (mem_cons_of_mem _ mem)]

end Path

theorem Linked.path {fw bk : α → α} {a b : α} {l : List α} (linked : Linked fw bk a l b) :
    Path fw a l b := by
  induction l generalizing a with
  | nil => exact linked.1
  | cons x l ih => exact ⟨linked.1, ih linked.2.2⟩

namespace Ring

variable {fw bk : α → α} {h x b : α} {l l' : List α}

theorem mem_of_path (ring : Ring fw bk h l) (start : x ∈ h :: l) (path : Path fw x l' b) :
    b ∈ h :: l := by
  induction l' generalizing x with
  | nil => exact (show fw x = b from path) ▸ ring.next_mem start
  | cons y l' ih => exact ih (path.1 ▸ ring.next_mem start) path.2

/-- A walk that comes back to the head has seen the whole ring. -/
theorem eq_of_path (ring : Ring fw bk h l) (path : Path fw h l' h) (out : h ∉ l') : l' = l :=
  path.unique ring.links.path out (nodup_cons.mp ring.nodup).1

end Ring

end V7Besm.Links

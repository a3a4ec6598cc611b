import Mathlib.Data.List.Basic

/-!
Resource maps (`malloc.c`).

A map is an array of free runs, in the order of their addresses and ended by a
run of size 0. `malloc` and `mfree` are the two routines, written along the array:
the list holds its entries from the first one on, and what is behind the list is
zero.
-/

namespace V7Besm.Map

open List

/-- `struct map`. -/
structure Entry where
  size : Nat
  addr : Nat
  deriving DecidableEq, Repr

/-- The loop that closes a gap: the entries behind it move one down, up to and with
the one of size 0. -/
def closeUp : List Entry → List Entry
  | [] => [⟨0, 0⟩]
  | e :: es => if e.size = 0 then e :: e :: es else e :: closeUp es

/-- Allocate `size` units, first fit. Answers the base of the space, or 0. -/
def malloc : List Entry → Nat → Nat × List Entry
  | [], _ => (0, [])
  | e :: es, size =>
    if e.size = 0 then (0, e :: es)
    else if size ≤ e.size then
      (e.addr, if e.size - size = 0 then closeUp es else ⟨e.size - size, e.addr + size⟩ :: es)
    else ((malloc es size).1, e :: (malloc es size).2)

/-- The loop that makes room: each entry moves one up, until one of size 0 is
overwritten. -/
def pushUp : Entry → List Entry → List Entry
  | x, [] => [x]
  | x, b :: bs => x :: if b.size = 0 then bs else pushUp b bs

/-- The run at `a` joins the entry `q` that ends there, and perhaps the one behind. -/
def joinLeft (size a : Nat) (q : Entry) : List Entry → List Entry
  | [] => [⟨q.size + size, q.addr⟩]
  | b :: bs =>
    if a + size = b.addr then
      ⟨q.size + size + b.size, q.addr⟩ :: if b.size = 0 then b :: bs else closeUp bs
    else ⟨q.size + size, q.addr⟩ :: b :: bs

/-- The run at `a` joins the entry behind it, or gets one of its own. -/
def joinRight (size a : Nat) : List Entry → List Entry
  | [] => if size = 0 then [] else [⟨size, a⟩]
  | b :: bs =>
    if a + size = b.addr ∧ b.size ≠ 0 then ⟨b.size + size, b.addr - size⟩ :: bs
    else if size = 0 then b :: bs
    else pushUp ⟨size, a⟩ (b :: bs)

/-- The search has passed `q` and stops before the entries of the list. -/
def place (size a : Nat) (q : Entry) (es : List Entry) : List Entry :=
  if q.addr + q.size = a then joinLeft size a q es else q :: joinRight size a es

/-- The search of `mfree`, with the entry `q` just passed. -/
def mfreeAfter (size a : Nat) : Entry → List Entry → List Entry
  | q, [] => place size a q []
  | q, b :: bs =>
    if b.addr ≤ a ∧ b.size ≠ 0 then q :: mfreeAfter size a b bs else place size a q (b :: bs)

/-- Free the space of `size` units at `a`: sort it into the map and combine it with its
neighbours. -/
def mfree : List Entry → Nat → Nat → List Entry
  | [], size, a => joinRight size a []
  | b :: bs, size, a =>
    if b.addr ≤ a ∧ b.size ≠ 0 then mfreeAfter size a b bs else joinRight size a (b :: bs)

/-! ### Well-formed maps -/

/-- The entries before the first one of size 0. -/
def live (m : List Entry) : List Entry := m.takeWhile (·.size ≠ 0)

/-- The unit `w` is in the run. -/
def Entry.Has (e : Entry) (w : Nat) : Prop := e.addr ≤ w ∧ w < e.addr + e.size

/-- The unit `w` is free. -/
def Free (m : List Entry) (w : Nat) : Prop := ∃ e ∈ live m, e.Has w

instance (e : Entry) (w : Nat) : Decidable (e.Has w) := inferInstanceAs (Decidable (_ ∧ _))

instance (m : List Entry) (w : Nat) : Decidable (Free m w) :=
  inferInstanceAs (Decidable (∃ e ∈ live m, e.Has w))

/-- Everything free is behind `lo`, with a gap; so are the runs among each other,
and behind an entry of size 0 there are no others. -/
def Tidy : Nat → List Entry → Prop
  | _, [] => True
  | lo, e :: es =>
    if e.size = 0 then ∀ x ∈ es, x.size = 0 else lo < e.addr ∧ Tidy (e.addr + e.size) es

variable {m es : List Entry} {e b q : Entry} {lo lo' size a w : Nat}

@[simp] theorem live_nil : live [] = [] := rfl

theorem live_cons : live (e :: es) = if e.size = 0 then [] else e :: live es := by
  by_cases zero : e.size = 0 <;> simp [live, zero]

attribute [local simp] live_cons

@[simp] theorem free_nil : ¬ Free [] w := by simp [Free]

theorem free_cons_zero (zero : e.size = 0) : ¬ Free (e :: es) w := by
  simp [Free, zero]

theorem free_cons (pos : e.size ≠ 0) : Free (e :: es) w ↔ e.Has w ∨ Free es w := by
  simp [Free, pos]

theorem tidy_cons_zero (zero : e.size = 0) : Tidy lo (e :: es) ↔ ∀ x ∈ es, x.size = 0 := by
  simp [Tidy, zero]

theorem tidy_cons (pos : e.size ≠ 0) :
    Tidy lo (e :: es) ↔ lo < e.addr ∧ Tidy (e.addr + e.size) es := by
  simp [Tidy, pos]

theorem Tidy.mono (tidy : Tidy lo m) (le : lo' ≤ lo) : Tidy lo' m := by
  cases m with
  | nil => trivial
  | cons e es =>
    by_cases zero : e.size = 0
    · rw [tidy_cons_zero zero] at tidy ⊢
      exact tidy
    · rw [tidy_cons zero] at tidy ⊢
      exact ⟨by omega, tidy.2⟩

theorem live_of_zero (zero : ∀ x ∈ m, x.size = 0) : live m = [] := by
  cases m with
  | nil => rfl
  | cons e es => simp [zero e]

theorem tidy_of_zero (zero : ∀ x ∈ m, x.size = 0) : Tidy lo m := by
  cases m with
  | nil => trivial
  | cons e es =>
    rw [tidy_cons_zero (zero e (by simp))]
    exact fun x mem => zero x (by simp [mem])

theorem Tidy.lt_of_live (tidy : Tidy lo m) (mem : e ∈ live m) : lo < e.addr := by
  induction m generalizing lo with
  | nil => simp at mem
  | cons b bs ih =>
    by_cases zero : b.size = 0
    · simp [zero] at mem
    · rw [tidy_cons zero] at tidy
      rw [live_cons, if_neg zero, mem_cons] at mem
      rcases mem with rfl | mem
      · exact tidy.1
      · have := ih tidy.2 mem
        omega

theorem Tidy.lt_of_free (tidy : Tidy lo m) (free : Free m w) : lo < w := by
  obtain ⟨e, mem, has⟩ := free
  exact Nat.lt_of_lt_of_le (tidy.lt_of_live mem) has.1

/-! ### The loops -/

@[simp] theorem live_closeUp : live (closeUp m) = live m := by
  induction m with
  | nil => simp [closeUp]
  | cons e es ih =>
    by_cases zero : e.size = 0 <;> simp [closeUp, zero, ih]

theorem free_closeUp : Free (closeUp m) w ↔ Free m w := by
  simp [Free]

@[simp] theorem length_closeUp : (closeUp m).length = m.length + 1 := by
  induction m with
  | nil => rfl
  | cons e es ih =>
    by_cases zero : e.size = 0 <;> simp [closeUp, zero, ih]

theorem Tidy.closeUp (tidy : Tidy lo m) : Tidy lo (closeUp m) := by
  induction m generalizing lo with
  | nil => simp [Map.closeUp, Tidy]
  | cons e es ih =>
    by_cases zero : e.size = 0
    · rw [tidy_cons_zero zero] at tidy
      simpa [Map.closeUp, Tidy, zero] using tidy
    · rw [tidy_cons zero] at tidy
      simpa [Map.closeUp, Tidy, zero] using And.intro tidy.1 (ih tidy.2)

theorem live_pushUp (tidy : Tidy lo m) (pos : e.size ≠ 0) : live (pushUp e m) = e :: live m := by
  induction m generalizing lo e with
  | nil => simp [pushUp, pos]
  | cons b bs ih =>
    by_cases zero : b.size = 0
    · rw [tidy_cons_zero zero] at tidy
      simp [pushUp, pos, zero, live_of_zero tidy]
    · rw [tidy_cons zero] at tidy
      simp [pushUp, pos, zero, ih tidy.2 zero]

/-- Room is made inside the list as long as an entry of size 0 is left in it. -/
theorem length_pushUp : (pushUp e m).length = max m.length ((live m).length + 1) := by
  induction m generalizing e with
  | nil => simp [pushUp]
  | cons b bs ih =>
    by_cases zero : b.size = 0
    · simp [pushUp, zero]
    · simp only [pushUp, live_cons, zero, if_false, length_cons, ih]
      omega

theorem Tidy.pushUp (tidy : Tidy (e.addr + e.size) m) (pos : e.size ≠ 0) (lt : lo < e.addr) :
    Tidy lo (pushUp e m) := by
  induction m generalizing lo e with
  | nil => simp [Map.pushUp, Tidy, pos, lt]
  | cons b bs ih =>
    rw [Map.pushUp, tidy_cons pos]
    refine ⟨lt, ?_⟩
    by_cases zero : b.size = 0
    · rw [tidy_cons_zero zero] at tidy
      rw [if_pos zero]
      exact tidy_of_zero tidy
    · rw [tidy_cons zero] at tidy
      rw [if_neg zero]
      exact ih tidy.2 zero tidy.1

/-! ### Allocation -/

/-- The run of `size` units at `a` has been taken out of `m`, which leaves `m'`. -/
structure Taken (lo size a : Nat) (m m' : List Entry) : Prop where
  behind : lo < a
  tidy : Tidy lo m'
  free : ∀ w, Free m w ↔ Free m' w ∨ Entry.Has ⟨size, a⟩ w
  apart : ∀ w, Free m' w → ¬ Entry.Has ⟨size, a⟩ w
  count : (live m').length ≤ (live m).length
  length : m'.length = m.length

theorem taken_whole (tidy : Tidy lo (e :: es)) (pos : e.size ≠ 0) :
    Taken lo e.size e.addr (e :: es) (closeUp es) := by
  rw [tidy_cons pos] at tidy
  refine ⟨tidy.1, tidy.2.closeUp.mono (by omega), fun w => ?_, fun w free has => ?_, ?_, by simp⟩
  · rw [free_cons pos, free_closeUp, or_comm]
  · have := tidy.2.lt_of_free (free_closeUp.mp free)
    exact absurd has.2 (Nat.not_lt.mpr (Nat.le_of_lt this))
  · simp [pos]

theorem taken_part (tidy : Tidy lo (e :: es)) (lt : size < e.size) :
    Taken lo size e.addr (e :: es) (⟨e.size - size, e.addr + size⟩ :: es) := by
  have pos : e.size ≠ 0 := by omega
  have left : e.size - size ≠ 0 := by omega
  rw [tidy_cons pos] at tidy
  refine ⟨tidy.1, ?_, fun w => ?_, fun w free has => ?_, ?_, rfl⟩
  · rw [tidy_cons left]
    exact ⟨by simp only; omega, tidy.2.mono (by simp only; omega)⟩
  · rw [free_cons pos, free_cons left, or_right_comm]
    refine or_congr_left ?_
    simp only [Entry.Has]
    omega
  · have past : e.addr + size ≤ w := by
      rcases (free_cons left).mp free with ⟨ge, -⟩ | free
      · exact ge
      · have := tidy.2.lt_of_free free
        omega
    exact absurd has.2 (Nat.not_lt.mpr past)
  · simp [pos, left]

theorem Taken.cons (taken : Taken (e.addr + e.size) size a es m) (pos : e.size ≠ 0)
    (lt : lo < e.addr) : Taken lo size a (e :: es) (e :: m) := by
  refine ⟨by have := taken.behind; omega, (tidy_cons pos).mpr ⟨lt, taken.tidy⟩, fun w => ?_,
    fun w free has => ?_, ?_, by simp [taken.length]⟩
  · rw [free_cons pos, free_cons pos, taken.free w, or_assoc]
  · rcases (free_cons pos).mp free with before | free
    · have apart := Nat.lt_trans before.2 taken.behind
      exact absurd has.1 (Nat.not_le.mpr apart)
    · exact taken.apart w free has
  · simpa [pos] using taken.count

/-- What `malloc` does to a map: either nothing changes, and no run is long enough,
or the run it answers has been taken. -/
theorem malloc_spec (tidy : Tidy lo m) (pos : 0 < size) :
    (malloc m size = (0, m) ∧ ∀ e ∈ live m, e.size < size) ∨
      Taken lo size (malloc m size).1 m (malloc m size).2 := by
  induction m generalizing lo with
  | nil => exact .inl ⟨rfl, by simp⟩
  | cons e es ih =>
    by_cases zero : e.size = 0
    · exact .inl ⟨by simp [malloc, zero], by simp [zero]⟩
    rw [malloc, if_neg zero]
    rcases Nat.lt_trichotomy size e.size with lt | rfl | gt
    · have left : e.size - size ≠ 0 := by omega
      rw [if_pos (Nat.le_of_lt lt), if_neg left]
      exact .inr (taken_part tidy lt)
    · rw [if_pos (Nat.le_refl _), if_pos (Nat.sub_self _)]
      exact .inr (taken_whole tidy zero)
    rw [if_neg (Nat.not_le.mpr gt)]
    rw [tidy_cons zero] at tidy
    refine (ih tidy.2).imp (fun ⟨fails, short⟩ => ⟨by rw [fails], fun x mem => ?_⟩)
      fun taken => taken.cons zero tidy.1
    rw [live_cons, if_neg zero, mem_cons] at mem
    rcases mem with rfl | mem
    · exact gt
    · exact short x mem

/-! ### Release -/

/-- The run of `size` units at `a` ends or starts where a free run does. -/
def Touches (size a : Nat) (m : List Entry) : Prop :=
  ∃ e ∈ live m, e.addr + e.size = a ∨ a + size = e.addr

/-- The run of `size` units at `a` has been given back to `m`, which makes `m'` of it. -/
structure Given (lo size a : Nat) (m m' : List Entry) : Prop where
  tidy : Tidy lo m'
  free : ∀ w, Free m' w ↔ Free m w ∨ Entry.Has ⟨size, a⟩ w
  joins : Touches size a m → (live m').length ≤ (live m).length
  adds : ¬ Touches size a m → (live m').length = (live m).length + 1
  length : m'.length = max m.length (live m').length

theorem touches_cons (pos : e.size ≠ 0) :
    Touches size a (e :: es) ↔ (e.addr + e.size = a ∨ a + size = e.addr) ∨ Touches size a es := by
  simp [Touches, pos]

theorem length_live_le : (live m).length ≤ m.length := (takeWhile_sublist _).length_le

theorem not_touches_of_tidy (tidy : Tidy (a + size) m) : ¬ Touches size a m := by
  rintro ⟨e, mem, touches⟩
  have := tidy.lt_of_live mem
  omega

/-- The run gets an entry of its own, before all others. -/
theorem given_pushUp (tidy : Tidy (a + size) m) (pos : size ≠ 0) (lt : lo < a) :
    Given lo size a m (pushUp ⟨size, a⟩ m) := by
  have live' : live (pushUp ⟨size, a⟩ m) = ⟨size, a⟩ :: live m := live_pushUp tidy pos
  refine ⟨Tidy.pushUp tidy pos lt, fun w => ?_, fun touches => ?_, fun _ => by simp [live'], ?_⟩
  · simp [Free, live', or_comm]
  · exact absurd touches (not_touches_of_tidy tidy)
  · rw [length_pushUp, live', length_cons]

/-- The first entry grows by the run that touches it. -/
theorem given_grow {x : Entry} (pos : e.size ≠ 0)
    (touches : e.addr + e.size = a ∨ a + size = e.addr) (room : Tidy (x.addr + x.size) es)
    (lt : lo < x.addr) (grown : x.size = e.size + size) (start : x.addr = min e.addr a) :
    Given lo size a (e :: es) (x :: es) := by
  have pos' : x.size ≠ 0 := by omega
  have count : (live (x :: es)).length = (live (e :: es)).length := by simp [pos, pos']
  refine ⟨(tidy_cons pos').mpr ⟨lt, room⟩, fun w => ?_, fun _ => Nat.le_of_eq count, fun apart => ?_, ?_⟩
  · rw [free_cons pos', free_cons pos, or_right_comm]
    refine or_congr_left ?_
    simp only [Entry.Has]
    omega
  · exact absurd ((touches_cons pos).mpr (.inl touches)) apart
  · have := length_live_le (m := x :: es)
    simp only [length_cons] at *
    omega

/-- Where the search stops, nothing that is free starts before the end of the run. -/
theorem given_joinRight (tidy : Tidy lo m) (ahead : ∀ w, Free m w → a + size ≤ w)
    (pos : size ≠ 0) (lt : lo < a) : Given lo size a m (joinRight size a m) := by
  cases m with
  | nil =>
    rw [joinRight, if_neg pos]
    exact given_pushUp trivial pos lt
  | cons b bs =>
    by_cases zero : b.size = 0
    · rw [joinRight, if_neg (fun h => h.2 zero), if_neg pos]
      exact given_pushUp ((tidy_cons_zero zero).mpr ((tidy_cons_zero zero).mp tidy)) pos lt
    have start : a + size ≤ b.addr :=
      ahead b.addr ((free_cons zero).mpr (.inl ⟨Nat.le_refl _, by omega⟩))
    have tidy' := (tidy_cons zero).mp tidy
    by_cases meets : a + size = b.addr
    · rw [joinRight, if_pos ⟨meets, zero⟩]
      refine given_grow zero (.inr meets) (tidy'.2.mono ?_) ?_ rfl ?_ <;>
        simp only <;> omega
    · rw [joinRight, if_neg (fun h => meets h.1), if_neg pos]
      exact given_pushUp ((tidy_cons zero).mpr ⟨by omega, tidy'.2⟩) pos lt

/-- The run closes the gap between `q` and the entry behind. -/
theorem given_bridge (tidy : Tidy lo (q :: b :: es)) (posq : q.size ≠ 0) (posb : b.size ≠ 0)
    (left : q.addr + q.size = a) (right : a + size = b.addr) :
    Given lo size a (q :: b :: es) (⟨q.size + size + b.size, q.addr⟩ :: closeUp es) := by
  have pos : q.size + size + b.size ≠ 0 := by omega
  rw [tidy_cons posq, tidy_cons posb] at tidy
  obtain ⟨first, second, rest⟩ := tidy
  have count : (live (⟨q.size + size + b.size, q.addr⟩ :: closeUp es)).length + 1 =
      (live (q :: b :: es)).length := by simp [posq, posb]
  refine ⟨(tidy_cons pos).mpr ⟨first, rest.closeUp.mono (by simp only; omega)⟩, fun w => ?_,
    fun _ => by omega, fun apart => ?_, ?_⟩
  · rw [free_cons pos, free_cons posq, free_cons posb, free_closeUp, ← or_assoc, or_right_comm]
    refine or_congr_left ?_
    simp only [Entry.Has]
    omega
  · exact absurd ((touches_cons posq).mpr (.inl (.inl left))) apart
  · have := length_live_le (m := q :: b :: es)
    simp only [length_cons, length_closeUp] at *
    omega

theorem given_joinLeft (tidy : Tidy lo (q :: es)) (posq : q.size ≠ 0)
    (ahead : ∀ w, Free es w → a + size ≤ w) (left : q.addr + q.size = a) :
    Given lo size a (q :: es) (joinLeft size a q es) := by
  have tidy' := (tidy_cons posq).mp tidy
  have grow (room : Tidy (a + size) es) :
      Given lo size a (q :: es) (⟨q.size + size, q.addr⟩ :: es) := by
    refine given_grow posq (.inl left) (room.mono ?_) tidy'.1 rfl ?_ <;> simp only <;> omega
  cases es with
  | nil => exact grow trivial
  | cons b bs =>
    by_cases zero : b.size = 0
    · have room : Tidy (a + size) (b :: bs) :=
        (tidy_cons_zero zero).mpr ((tidy_cons_zero zero).mp tidy'.2)
      by_cases meets : a + size = b.addr
      · rw [joinLeft, if_pos meets, if_pos zero, zero]
        exact grow room
      · rw [joinLeft, if_neg meets]
        exact grow room
    have start : a + size ≤ b.addr :=
      ahead b.addr ((free_cons zero).mpr (.inl ⟨Nat.le_refl _, by omega⟩))
    by_cases meets : a + size = b.addr
    · rw [joinLeft, if_pos meets, if_neg zero]
      exact given_bridge tidy posq zero left meets
    · rw [joinLeft, if_neg meets]
      exact grow ((tidy_cons zero).mpr ⟨by omega, ((tidy_cons zero).mp tidy'.2).2⟩)

theorem Given.cons (given : Given (q.addr + q.size) size a es m) (posq : q.size ≠ 0)
    (lt : lo < q.addr) (behind : q.addr + q.size < a) :
    Given lo size a (q :: es) (q :: m) := by
  have touches : Touches size a (q :: es) ↔ Touches size a es := by
    rw [touches_cons posq, or_iff_right (by omega)]
  refine ⟨(tidy_cons posq).mpr ⟨lt, given.tidy⟩, fun w => ?_, fun touching => ?_,
    fun apart => ?_, ?_⟩
  · rw [free_cons posq, free_cons posq, given.free w, or_assoc]
  · simpa [posq] using given.joins (touches.mp touching)
  · simpa [posq] using given.adds (mt touches.mpr apart)
  · have := given.length
    simp only [live_cons, posq, if_false, length_cons]
    omega

theorem given_place (tidy : Tidy lo (q :: es)) (posq : q.size ≠ 0)
    (ahead : ∀ w, Free es w → a + size ≤ w) (pos : size ≠ 0) (behind : q.addr + q.size ≤ a) :
    Given lo size a (q :: es) (place size a q es) := by
  have tidy' := (tidy_cons posq).mp tidy
  by_cases left : q.addr + q.size = a
  · rw [place, if_pos left]
    exact given_joinLeft tidy posq ahead left
  · have lt : q.addr + q.size < a := by omega
    rw [place, if_neg left]
    exact (given_joinRight tidy'.2 ahead pos lt).cons posq tidy'.1 lt

/-- The test that ends the search: the entry is past `a`, or empty. -/
theorem ahead_of_stop (tidy : Tidy lo (b :: es)) (apart : ∀ w, Free (b :: es) w →
    ¬ Entry.Has ⟨size, a⟩ w) (stop : ¬ (b.addr ≤ a ∧ b.size ≠ 0)) (free : Free (b :: es) w) :
    a + size ≤ w := by
  by_cases zero : b.size = 0
  · exact absurd free (free_cons_zero zero)
  have past : a < b.addr := by simpa [zero] using stop
  have start : ¬ b.addr < a + size := fun lt =>
    apart b.addr ((free_cons zero).mpr (.inl ⟨Nat.le_refl _, by omega⟩)) ⟨Nat.le_of_lt past, lt⟩
  rw [tidy_cons zero] at tidy
  rcases (free_cons zero).mp free with has | free
  · have := has.1
    omega
  · have := tidy.2.lt_of_free free
    omega

/-- An entry the search passes ends at or before `a`. -/
theorem behind_of_pass (apart : ∀ w, Free (b :: es) w → ¬ Entry.Has ⟨size, a⟩ w)
    (pass : b.addr ≤ a ∧ b.size ≠ 0) (pos : size ≠ 0) : b.addr + b.size ≤ a := by
  by_contra inside
  exact apart a ((free_cons pass.2).mpr (.inl ⟨pass.1, by omega⟩)) ⟨Nat.le_refl _, by simp only; omega⟩

theorem given_mfreeAfter (tidy : Tidy lo (q :: es)) (posq : q.size ≠ 0)
    (apart : ∀ w, Free es w → ¬ Entry.Has ⟨size, a⟩ w) (pos : size ≠ 0)
    (behind : q.addr + q.size ≤ a) : Given lo size a (q :: es) (mfreeAfter size a q es) := by
  induction es generalizing lo q with
  | nil => exact given_place tidy posq (by simp) pos behind
  | cons b bs ih =>
    have tidy' := (tidy_cons posq).mp tidy
    rw [mfreeAfter]
    split
    · rename_i pass
      have behind' := behind_of_pass apart pass pos
      have first : q.addr + q.size < b.addr := ((tidy_cons pass.2).mp tidy'.2).1
      refine (ih tidy'.2 pass.2 (fun w free => ?_) behind').cons posq tidy'.1 (by omega)
      exact apart w ((free_cons pass.2).mpr (.inr free))
    · rename_i stop
      exact given_place tidy posq (fun w => ahead_of_stop tidy'.2 apart stop) pos behind

/-- What `mfree` does to a map that has nothing of the run yet. -/
theorem mfree_spec (tidy : Tidy lo m) (apart : ∀ w, Free m w → ¬ Entry.Has ⟨size, a⟩ w)
    (pos : size ≠ 0) (lt : lo < a) : Given lo size a m (mfree m size a) := by
  cases m with
  | nil => exact given_joinRight tidy (by simp) pos lt
  | cons b bs =>
    rw [mfree]
    split
    · rename_i pass
      refine given_mfreeAfter tidy pass.2 (fun w free => ?_) pos (behind_of_pass apart pass pos)
      exact apart w ((free_cons pass.2).mpr (.inr free))
    · rename_i stop
      exact given_joinRight tidy (fun w => ahead_of_stop tidy apart stop) pos lt

/-! ### Nothing given back -/

theorem joinRight_zero : joinRight 0 a m = m := by
  cases m with
  | nil => rfl
  | cons b bs => simp [joinRight]

theorem joinLeft_zero (tidy : Tidy (e.addr + e.size) es) (touches : e.addr + e.size = a) :
    joinLeft 0 a e es = e :: es := by
  cases es with
  | nil => rfl
  | cons b bs =>
    by_cases zero : b.size = 0
    · simp [joinLeft, zero]
    · have lt := ((tidy_cons zero).mp tidy).1
      have ne : a + 0 ≠ b.addr := by omega
      rw [joinLeft, if_neg ne]
      rfl

theorem mfreeAfter_zero (tidy : Tidy (e.addr + e.size) es) : mfreeAfter 0 a e es = e :: es := by
  have here {q : Entry} {es : List Entry} (tidy : Tidy (q.addr + q.size) es) :
      place 0 a q es = q :: es := by
    rw [place]
    split
    · rename_i touches
      exact joinLeft_zero tidy touches
    · rw [joinRight_zero]
  induction es generalizing e with
  | nil => exact here tidy
  | cons b bs ih =>
    rw [mfreeAfter]
    split
    · rename_i passed
      rw [ih ((tidy_cons passed.2).mp tidy).2]
    · exact here tidy

theorem mfree_zero (tidy : Tidy lo m) : mfree m 0 a = m := by
  cases m with
  | nil => rfl
  | cons b bs =>
    rw [mfree]
    split
    · rename_i passed
      exact mfreeAfter_zero ((tidy_cons passed.2).mp tidy).2
    · exact joinRight_zero

end V7Besm.Map

import Mathlib.Data.List.Nodup
import Mathlib.Data.List.Perm.Subperm

/-!
Open addressing with linear probing.

A table has `m` slots; entries are numbered in the order they were entered, and
each keeps the slot it was put into. A search starts at the home slot of the
sought name and goes from slot to slot, round the end, until it meets an empty
one or an entry that `hits` the name. The test need not be equality: what the
search returns is the first entry on the way that passes it.

`Table.Laid` is what insertion and the removal of the *last* entry keep: an
entry was put where the search for its own name ended at the time, so the slots
before its own hold older entries only, none of which hits its name. Removing
any other entry would cut such a path.
-/

namespace V7Besm.Probe

open Function List

variable {ν : Type}

/-- The slot after `i`, the first one after the last. -/
def next (m i : Nat) : Nat :=
  if i + 1 < m then i + 1 else 0

/-- The slot reached from `i` in `d` steps. -/
def walk (m i : Nat) : Nat → Nat
  | 0 => i
  | d + 1 => next m (walk m i d)

/-- The first slot from `i` on where `stop` holds, among `fuel` many. -/
def seek (m : Nat) (stop : Nat → Bool) : Nat → Nat → Option Nat
  | 0, _ => none
  | fuel + 1, i => if stop i then some i else seek m stop fuel (next m i)

theorem walk_next (m i d : Nat) : walk m (next m i) d = walk m i (d + 1) := by
  induction d with
  | zero => rfl
  | succ d ih =>
    rw [walk, ih]
    rfl

theorem walk_eq_mod {m i d : Nat} (start : i < m) : walk m i d = (i + d) % m := by
  induction d with
  | zero => exact (Nat.mod_eq_of_lt start).symm
  | succ d ih =>
    rw [walk, ih, next]
    have lt : (i + d) % m < m := Nat.mod_lt _ (by omega)
    rw [← Nat.add_assoc, Nat.add_mod (i + d) 1 m]
    split
    next inside =>
      rw [Nat.mod_eq_of_lt (a := 1) (by omega), Nat.mod_eq_of_lt inside]
    next last =>
      obtain one | more : m = 1 ∨ 1 < m := by omega
      · subst one
        simp [Nat.mod_one]
      · rw [Nat.mod_eq_of_lt more, show (i + d) % m + 1 = m by omega, Nat.mod_self]

/-- Every slot is on the way, wherever the walk starts. -/
theorem exists_walk {m i j : Nat} (start : i < m) (slot : j < m) : ∃ d < m, walk m i d = j := by
  obtain ahead | behind := Nat.lt_or_ge j i
  · refine ⟨j + m - i, by omega, ?_⟩
    rw [walk_eq_mod start, show i + (j + m - i) = j + m by omega, Nat.add_mod_right,
      Nat.mod_eq_of_lt slot]
  · refine ⟨j - i, by omega, ?_⟩
    rw [walk_eq_mod start, show i + (j - i) = j by omega, Nat.mod_eq_of_lt slot]

/-- What a search that ended says of every slot it passed. -/
theorem seek_eq_some {m : Nat} {stop : Nat → Bool} {fuel i j : Nat}
    (found : seek m stop fuel i = some j) :
    stop j = true ∧ ∃ d < fuel, walk m i d = j ∧ ∀ e < d, stop (walk m i e) = false := by
  induction fuel generalizing i with
  | zero => cases found
  | succ fuel ih =>
    unfold seek at found
    split at found
    next here =>
      cases found
      exact ⟨here, 0, by omega, rfl, by omega⟩
    next passed =>
      obtain ⟨at_j, d, lt, reach, before⟩ := ih found
      refine ⟨at_j, d + 1, by omega, by rw [← walk_next, reach], ?_⟩
      intro e le
      cases e with
      | zero => simpa [walk] using passed
      | succ e =>
        rw [← walk_next]
        exact before e (by omega)

/-- A search that has a slot to stop at within its reach stops. -/
theorem seek_isSome {m : Nat} {stop : Nat → Bool} {fuel i d : Nat} (lt : d < fuel)
    (stops : stop (walk m i d) = true) : ∃ j, seek m stop fuel i = some j := by
  induction fuel generalizing i d with
  | zero => omega
  | succ fuel ih =>
    unfold seek
    split
    next => exact ⟨i, rfl⟩
    next passed =>
      cases d with
      | zero => exact absurd stops passed
      | succ d => exact ih (d := d) (by omega) (by rw [walk_next]; exact stops)

/-! ### Tables -/

/-- What the slots hold, the entries' names and the slot of each entry. -/
structure Table (ν : Type) where
  slot : Nat → Option Nat
  names : List ν
  back : List Nat

namespace Table

/-- The search for `n` ends at slot `j`. -/
def stop (t : Table ν) (hits : ν → ν → Bool) (n : ν) (j : Nat) : Bool :=
  match t.slot j with
  | none => true
  | some i => match t.names[i]? with
    | none => true
    | some n' => hits n n'

/-- The slot of an entry that hits `n`, or an empty one for it. -/
def find (t : Table ν) (m : Nat) (home : ν → Nat) (hits : ν → ν → Bool) (n : ν) : Option Nat :=
  seek m (t.stop hits n) m (home n)

/-- A new entry named `n` in slot `j`. -/
def push (t : Table ν) (n : ν) (j : Nat) : Table ν where
  slot := update t.slot j (some t.names.length)
  names := t.names ++ [n]
  back := t.back ++ [j]

/-- The last entry is taken out of its slot. -/
def pop (t : Table ν) : Table ν :=
  match t.back.getLast? with
  | none => t
  | some j =>
    { slot := update t.slot j none
      names := t.names.dropLast
      back := t.back.dropLast }

/-- Nothing is entered yet. -/
def empty : Table ν := ⟨fun _ => none, [], []⟩

/-- Each entry and its slot point at one another. -/
structure Threaded (t : Table ν) : Prop where
  size : t.back.length = t.names.length
  slot_iff : ∀ j k, t.slot j = some k ↔ t.back[k]? = some j

/-- Every entry stands on the probe path of its own name, behind older entries
only, none of which would have answered for it. -/
structure Laid (m : Nat) (home : ν → Nat) (hits : ν → ν → Bool) (t : Table ν) : Prop
    extends Threaded t where
  path : ∀ k n, t.names[k]? = some n →
    ∃ d < m, t.back[k]? = some (walk m (home n) d) ∧
      ∀ e < d, ∃ i < k, ∃ n', t.slot (walk m (home n) e) = some i ∧
        t.names[i]? = some n' ∧ hits n n' = false

/-- An entry that hits `n` stands on the way from its home slot, with no empty slot before
it. -/
def Meets (m : Nat) (home : ν → Nat) (hits : ν → ν → Bool) (t : Table ν) (n : ν) : Prop :=
  ∃ d < m, (∃ k n', t.slot (walk m (home n) d) = some k ∧ t.names[k]? = some n' ∧
    hits n n' = true) ∧ ∀ e < d, t.slot (walk m (home n) e) ≠ none

/-- Entry `k` is met on the way from the home slot of `n`, before an empty slot and
before an entry named `n`. -/
def OnPath (m : Nat) (home : ν → Nat) (t : Table ν) (n : ν) (k : Nat) : Prop :=
  ∃ d < m, t.slot (walk m (home n) d) = some k ∧
    ∀ e ≤ d, ∃ i, t.slot (walk m (home n) e) = some i ∧ t.names[i]? ≠ some n

variable {m : Nat} {home : ν → Nat} {hits : ν → ν → Bool} {t : Table ν} {n : ν} {j k : Nat}

theorem stop_of_slot (n : ν) {n' : ν} (holds : t.slot j = some k)
    (named : t.names[k]? = some n') : t.stop hits n j = hits n n' := by
  simp [stop, holds, named]

/-! ### Entries and slots -/

theorem threaded_empty : Threaded (empty : Table ν) := ⟨rfl, fun j k => by simp [empty]⟩

namespace Threaded

variable (threaded : Threaded t)
include threaded

theorem lt_length (holds : t.slot j = some k) : k < t.names.length := by
  obtain ⟨lt, -⟩ := List.getElem?_eq_some_iff.mp ((threaded.slot_iff j k).mp holds)
  rwa [← threaded.size]

theorem name_of_slot (holds : t.slot j = some k) : ∃ n, t.names[k]? = some n :=
  ⟨_, List.getElem?_eq_getElem (threaded.lt_length holds)⟩

theorem push (n : ν) (free : t.slot j = none) : Threaded (t.push n j) := by
  constructor
  · simp [Table.push, threaded.size]
  · intro i k
    obtain rfl | other := eq_or_ne i j
    · -- the slot was empty, so no entry before the new one stands there
      have fresh : i ∉ t.back := by
        intro mem
        obtain ⟨l, at_l⟩ := mem_iff_getElem?.mp mem
        rw [(threaded.slot_iff i l).mpr at_l] at free
        cases free
      simp only [Table.push, update_self, Option.some.injEq]
      constructor
      · intro last
        rw [← last, ← threaded.size]
        simp
      intro at_k
      obtain old | new := Nat.lt_or_ge k t.back.length
      · rw [List.getElem?_append_left old] at at_k
        exact absurd (mem_of_getElem? at_k) fresh
      · obtain ⟨below, -⟩ := List.getElem?_eq_some_iff.mp at_k
        rw [length_append, length_singleton] at below
        rw [← threaded.size]
        omega
    · simp only [Table.push, update_of_ne other]
      rw [threaded.slot_iff i k]
      obtain old | new := Nat.lt_or_ge k t.back.length
      · rw [List.getElem?_append_left old]
      · rw [List.getElem?_eq_none new, List.getElem?_append_right new]
        cases eq : k - t.back.length with
        | zero => simpa using other.symm
        | succ l => simp

theorem pop : Threaded t.pop := by
  unfold Table.pop
  split
  next => exact threaded
  next j last =>
    have at_last : t.back[t.back.length - 1]? = some j := by
      rwa [← List.getLast?_eq_getElem?]
    constructor
    · simp [threaded.size]
    · intro i k
      rw [List.getElem?_dropLast]
      obtain rfl | other := eq_or_ne i j
      · simp only [update_self, reduceCtorEq, false_iff]
        split
        next lt =>
          intro at_k
          have same := ((threaded.slot_iff i k).mpr at_k).symm.trans
            ((threaded.slot_iff i _).mpr at_last)
          have := Option.some.inj same
          omega
        next => simp
      · simp only [update_of_ne other]
        rw [threaded.slot_iff i k]
        split
        next => rfl
        next ge =>
          simp only [reduceCtorEq, iff_false]
          intro at_k
          have below := (List.getElem?_eq_some_iff.mp at_k).1
          rw [show k = t.back.length - 1 by omega, at_last] at at_k
          exact other (Option.some.inj at_k).symm

end Threaded

/-- An occupied slot is not the one a new entry takes. -/
theorem slot_push {i : Nat} (n : ν) (free : t.slot j = none) (holds : t.slot i = some k) :
    (t.push n j).slot i = some k := by
  have other : i ≠ j := by
    rintro rfl
    rw [free] at holds
    cases holds
  simpa [Table.push, update_of_ne other] using holds

/-- A new entry cuts no path. -/
theorem Meets.push {n' : ν} (free : t.slot j = none) (meets : t.Meets m home hits n) :
    (t.push n' j).Meets m home hits n := by
  obtain ⟨d, lt, ⟨k, n'', holds, named, hit⟩, before⟩ := meets
  refine ⟨d, lt, ⟨k, n'', slot_push n' free holds, ?_, hit⟩, ?_⟩
  · rw [Table.push, List.getElem?_append_left (List.getElem?_eq_some_iff.mp named).1]
    exact named
  · intro e le
    obtain ⟨i, at_e⟩ := Option.ne_none_iff_exists'.mp (before e le)
    rw [slot_push n' free at_e]
    simp

/-- The search for a name that can be met ends at an entry. -/
theorem Meets.find (meets : t.Meets m home hits n) :
    ∃ j k, t.find m home hits n = some j ∧ t.slot j = some k := by
  obtain ⟨d, lt, ⟨k, n', holds, named, hit⟩, before⟩ := meets
  have stops : t.stop hits n (walk m (home n) d) = true := by
    rw [stop_of_slot n holds named, hit]
  obtain ⟨j, found⟩ := seek_isSome lt stops
  obtain ⟨-, d', -, reach, passed⟩ := seek_eq_some found
  refine ⟨j, ?_⟩
  have le : d' ≤ d := by
    by_contra behind
    rw [passed d (by omega)] at stops
    cases stops
  obtain rfl | less := Nat.eq_or_lt_of_le le
  · exact ⟨k, found, reach ▸ holds⟩
  · obtain ⟨i, at_d'⟩ := Option.ne_none_iff_exists'.mp (before d' less)
    exact ⟨i, found, reach ▸ at_d'⟩

theorem laid_empty : Laid m home hits (empty : Table ν) where
  toThreaded := threaded_empty
  path k n at_k := by simp [empty] at at_k

namespace Laid

section

variable (laid : Laid m home hits t)
include laid

theorem exists_empty (room : t.names.length < m) : ∃ j < m, t.slot j = none := by
  by_contra full
  push Not at full
  have all : List.range m ⊆ t.back := by
    intro j mem
    obtain ⟨k, holds⟩ := Option.ne_none_iff_exists'.mp (full j (mem_range.mp mem))
    exact mem_of_getElem? ((laid.slot_iff j k).mp holds)
  have le := (subperm_of_subset nodup_range all).length_le
  rw [length_range, laid.size] at le
  omega

theorem find_isSome (homes : ∀ n, home n < m)
    (room : t.names.length < m) (n : ν) : ∃ j, t.find m home hits n = some j := by
  obtain ⟨j, lt, free⟩ := laid.exists_empty room
  obtain ⟨d, le, reach⟩ := exists_walk (homes n) lt
  refine seek_isSome le ?_
  rw [reach]
  simp [stop, free]

theorem push (found : t.find m home hits n = some j)
    (free : t.slot j = none) : Laid m home hits (t.push n j) where
  toThreaded := laid.toThreaded.push n free
  path k n' named := by
    obtain ⟨-, d, lt, reach, before⟩ := seek_eq_some found
    obtain old | new := Nat.lt_or_ge k t.names.length
    · rw [Table.push, List.getElem?_append_left old] at named
      obtain ⟨d', lt', at_d, behind⟩ := laid.path k n' named
      refine ⟨d', lt', ?_, ?_⟩
      · rw [Table.push, List.getElem?_append_left (by rw [laid.size]; exact old)]
        exact at_d
      · intro e le
        obtain ⟨i, older, n'', holds, name, miss⟩ := behind e le
        refine ⟨i, older, n'', slot_push n free holds, ?_, miss⟩
        rwa [Table.push, List.getElem?_append_left (by omega)]
    · obtain rfl : k = t.names.length := by
        obtain ⟨below, -⟩ := List.getElem?_eq_some_iff.mp named
        simp only [Table.push, length_append, length_singleton] at below
        omega
      obtain rfl : n = n' := by simpa [Table.push] using named
      refine ⟨d, lt, ?_, ?_⟩
      · rw [reach, Table.push, ← laid.size]
        simp
      intro e le
      have passed := before e le
      cases holds : t.slot (walk m (home n) e) with
      | none => simp [stop, holds] at passed
      | some i =>
        obtain ⟨n'', name⟩ := laid.name_of_slot holds
        have older := laid.lt_length holds
        rw [stop_of_slot n holds name] at passed
        refine ⟨i, older, n'', slot_push n free holds, ?_, passed⟩
        rwa [Table.push, List.getElem?_append_left older]

/-- Taking out the last entry cuts no path: the paths run through older entries. -/
theorem pop : Laid m home hits t.pop where
  toThreaded := laid.toThreaded.pop
  path := by
    unfold Table.pop
    split
    next => exact laid.path
    next j last =>
      have at_last : t.back[t.back.length - 1]? = some j := by
        rwa [← List.getLast?_eq_getElem?]
      intro k n named
      rw [List.getElem?_dropLast] at named
      split at named
      next lt =>
        obtain ⟨d, below, at_d, behind⟩ := laid.path k n named
        refine ⟨d, below, ?_, ?_⟩
        · rw [List.getElem?_dropLast, if_pos (by rw [laid.size]; exact lt)]
          exact at_d
        intro e le
        obtain ⟨i, older, n', holds, name, miss⟩ := behind e le
        refine ⟨i, older, n', ?_, ?_, miss⟩
        · have other : walk m (home n) e ≠ j := by
            intro same
            rw [same] at holds
            have := Option.some.inj (holds.symm.trans ((laid.slot_iff j _).mpr at_last))
            rw [laid.size] at this
            omega
          simpa only [update_of_ne other] using holds
        · rwa [List.getElem?_dropLast, if_pos (by omega)]
      next => cases named

/-! ### What a search returns -/

section

variable (refl : ∀ n, hits n n = true)
include refl

/-- Two entries of one name: the younger would have been found to be the older. -/
theorem index_unique {k' : Nat}
    (first : t.names[k]? = some n) (second : t.names[k']? = some n) : k = k' := by
  by_contra differ
  -- by symmetry the first entry is the older one
  wlog older : k < k' generalizing k k'
  · exact this second first (Ne.symm differ) (by omega)
  obtain ⟨d, -, at_d, before⟩ := laid.path k n first
  obtain ⟨d', -, at_d', before'⟩ := laid.path k' n second
  have holds := (laid.slot_iff _ k).mpr at_d
  have holds' := (laid.slot_iff _ k').mpr at_d'
  obtain lt | eq | gt := Nat.lt_trichotomy d d'
  · obtain ⟨i, -, n', at_i, name, miss⟩ := before' d lt
    cases holds.symm.trans at_i
    cases first.symm.trans name
    rw [refl] at miss
    cases miss
  · subst eq
    exact differ (Option.some.inj (holds.symm.trans holds'))
  · obtain ⟨i, lt, -, at_i, -⟩ := before d' gt
    have := Option.some.inj (holds'.symm.trans at_i)
    omega

/-- The search for the name of an entry ends at that entry or before it, so never
at an empty slot. -/
theorem slot_of_named (named : t.names[k]? = some n) (found : t.find m home hits n = some j) :
    ∃ i, t.slot j = some i := by
  obtain ⟨-, d, -, reach, passed⟩ := seek_eq_some found
  obtain ⟨d', -, at_d, before⟩ := laid.path k n named
  have holds := (laid.slot_iff _ k).mpr at_d
  obtain lt | eq | gt := Nat.lt_trichotomy d d'
  · obtain ⟨i, -, -, at_i, -⟩ := before d lt
    rw [reach] at at_i
    exact ⟨i, at_i⟩
  · subst eq
    rw [reach] at holds
    exact ⟨k, holds⟩
  · have := passed d' gt
    rw [stop_of_slot n holds named, refl] at this
    cases this

/-- The search is exact, that is, it returns the entry named `n` where there is
one and an empty slot otherwise, precisely when it does not end at an entry of
another name. -/
theorem exact_iff (found : t.find m home hits n = some j) :
    ((∀ k, t.names[k]? = some n → t.slot j = some k) ∧
      ((∀ k : Nat, t.names[k]? ≠ some n) → t.slot j = none)) ↔
      ∀ k, t.slot j = some k → t.names[k]? = some n := by
  constructor
  · rintro ⟨present, absent⟩ k holds
    by_contra other
    by_cases any : ∃ i : Nat, t.names[i]? = some n
    · obtain ⟨i, named⟩ := any
      cases (present i named).symm.trans holds
      exact other named
    · push Not at any
      rw [absent any] at holds
      cases holds
  · intro right
    constructor
    · intro k named
      obtain ⟨i, holds⟩ := laid.slot_of_named refl named found
      rwa [laid.index_unique refl named (right i holds)]
    · intro none_named
      cases holds : t.slot j with
      | none => rfl
      | some k => exact absurd (right k holds) (none_named k)

/-- The search for `n` is exact as long as no entry on the way to it hits `n`
without having that name. -/
theorem exact_iff_path (found : t.find m home hits n = some j) :
    ((∀ k, t.names[k]? = some n → t.slot j = some k) ∧
      ((∀ k : Nat, t.names[k]? ≠ some n) → t.slot j = none)) ↔
      ∀ k n', OnPath m home t n k → t.names[k]? = some n' → hits n n' = false := by
  rw [laid.exact_iff refl found]
  obtain ⟨stops, d, lt, reach, passed⟩ := seek_eq_some found
  constructor
  · intro right k n' ⟨d', lt', holds, behind⟩ name
    by_contra hit
    -- the search ends at this entry at the latest, on an entry of another name
    obtain le | gt := Nat.lt_or_ge d' d
    · have := passed d' le
      rw [stop_of_slot n holds name] at this
      exact hit this
    · obtain ⟨i, at_i, other⟩ := behind d gt
      rw [reach] at at_i
      exact other (right i at_i)
  · intro clear k holds
    by_contra other
    obtain ⟨n', name⟩ := laid.name_of_slot holds
    rw [stop_of_slot n holds name] at stops
    have on_path : OnPath m home t n k := by
      refine ⟨d, lt, by rw [reach]; exact holds, ?_⟩
      intro e le
      obtain lt | rfl := Nat.lt_or_eq_of_le le
      · have miss := passed e lt
        cases at_e : t.slot (walk m (home n) e) with
        | none => simp [stop, at_e] at miss
        | some i =>
          refine ⟨i, rfl, ?_⟩
          intro same
          rw [stop_of_slot n at_e same, refl] at miss
          cases miss
      · rw [reach]
        exact ⟨k, holds, other⟩
    rw [clear k n' on_path name] at stops
    cases stops

end

end

end Laid

end Table

end V7Besm.Probe

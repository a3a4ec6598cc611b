import V7Besm.Words.Scatter
import Mathlib.Tactic.IntervalCases

/-!
The map of a process (`utab.c`).

Each of the eight words of `u_upt` has the numbers of four physical pages scattered over
its bits, and the even ones have in addition the protection of eight pages. A page
number is gathered back whenever the kernel looks a user's address up.
-/

namespace V7Besm.Mem

open Words Function List

abbrev PGSZ : Nat := 1024
abbrev NPAGE : Nat := 32
abbrev USTKPAGE : Nat := 28
abbrev USIZE : Nat := 1024
abbrev PGBITS : Nat := 10

/-- A word, from its bits by their numbers from the low end. -/
def word (f : Nat → Bool) : List Bool := (List.range 48).map fun i => f (47 - i)

/-- `RPBITS(k)`: the bits of page `k` of a quartet. -/
def rpbits (k p : Nat) : Bool :=
  p == 44 + k || p == 40 + k || p == 36 + k || p == 32 + k || p == 28 + k ||
    (5 * k ≤ p && p < 5 * k + 5)

def rpmask (k : Nat) : List Bool := word (rpbits k)

/-- The physical page mapped at virtual page `v`, or 0. -/
def uptget (upt : Nat → List Bool) (v : Nat) : Nat :=
  value ((gather (rpmask (v % 4)) (upt (v / 4))).take PGBITS)

/-- What `sureg` goes by: `p_addr`, `x_caddr` of a shared text, and the sizes in words. -/
structure Layout where
  paddr : Nat
  xcaddr : Option Nat
  (tsize dsize ssize : Nat)

/-- Where the text is: `taddr`. -/
def Layout.taddr (l : Layout) : Nat := l.xcaddr.getD l.paddr

/-- The arrays of `sureg`: physical pages, and the pages closed to data. -/
structure Table where
  pg : Nat → Nat
  closed : Nat → Bool

/-- The body of a loop over pages, `n` turns of it. -/
def mapPages : Nat → Nat → Nat → Table → Table
  | 0, _, _, t => t
  | n + 1, a, v, t =>
    mapPages n (a + PGSZ) (v + 1) ⟨update t.pg v (a / PGSZ), update t.closed v false⟩

/-- How often a loop from `a` up to `limit` by pages turns. -/
def turns (a limit : Nat) : Nat := (limit - a + (PGSZ - 1)) / PGSZ

/-- Text from page 0 on, then data, then the stack from page `USTKPAGE` on. -/
def table (l : Layout) : Table :=
  let a := l.paddr + USIZE
  let nt := turns l.taddr (l.taddr + l.tsize)
  let nd := turns a (a + l.dsize)
  let t := mapPages nt l.taddr 0 ⟨fun _ => 0, fun _ => true⟩
  let t := mapPages nd a nt t
  let a' := a + nd * PGSZ
  mapPages (turns a' (a + l.dsize + l.ssize)) a' USTKPAGE t

/-- A page number, left-aligned in a word, scattered over the bits of page `k`. -/
def descriptor (pg k : Nat) : List Bool :=
  scatter (rpmask k) (bits PGBITS pg ++ List.replicate (48 - PGBITS) false)

def zeroWord : List Bool := List.replicate 48 false

/-- The page numbers of a quartet. -/
def quartet (pg : Nat → Nat) (i : Nat) : List Bool :=
  (List.range 4).foldl (fun w k => orBits w (descriptor (pg (4 * i + k)) k)) zeroWord

/-- `sureg`: the words of `u_upt`. An even one carries the protection of eight pages. -/
def sureg (l : Layout) (i : Nat) : List Bool :=
  let t := table l
  let w := quartet t.pg i
  if i % 2 = 0 then
    orBits w (word fun p => decide (20 ≤ p ∧ p < 28) && t.closed (4 * i + (p - 20)))
  else w

/-- `estabur` accepts the sizes. -/
def estabur (maxmem nt nd ns : Nat) : Bool :=
  decide (nt + nd + ns ≤ NPAGE * PGSZ ∧ nt + nd ≤ USTKPAGE * PGSZ ∧
    ns ≤ (NPAGE - USTKPAGE) * PGSZ ∧ nt + nd + ns + USIZE ≤ maxmem)

section Lookup

variable (get : Nat → Nat)

/-- The physical word address a virtual one maps to, or 0. -/
def physaddr (addr : Nat) : Nat :=
  let pgno := get (addr / PGSZ)
  if pgno = 0 then 0 else pgno * PGSZ + addr % PGSZ

/-- Is the user's `[addr, addr+count)`, in words, entirely mapped? -/
def useracc (addr count : Nat) : Bool :=
  if count = 0 then true
  else if addr + count > NPAGE * PGSZ then false
  else
    let first := addr / PGSZ
    let last := (addr + count - 1) / PGSZ
    (List.range (last - first + 1)).all fun i => get (first + i) ≠ 0

/-- The physical address of a range on one contiguous run of pages, or 0. -/
def physrange (addr count : Nat) : Nat :=
  if count = 0 ∨ ¬ useracc get addr count then 0
  else
    let first := addr / PGSZ
    let last := (addr + count - 1) / PGSZ
    if (List.range (last - first)).all fun i => get (first + 1 + i) = get first + (1 + i) then
      physaddr get addr
    else 0

/-! ### Ranges -/

/-- The word of this virtual address is mapped. -/
def Mapped (w : Nat) : Prop := w < NPAGE * PGSZ ∧ get (w / PGSZ) ≠ 0

variable {get} {addr count : Nat}

theorem useracc_iff : useracc get addr count = true ↔ ∀ w, addr ≤ w → w < addr + count →
    Mapped get w := by
  simp only [useracc, Mapped, PGSZ, NPAGE]
  split
  next none => exact ⟨fun _ w low high => absurd high (by omega), fun _ => rfl⟩
  next some =>
    split
    next beyond =>
      refine ⟨fun impossible => absurd impossible (by decide), fun all => ?_⟩
      have := (all (addr + count - 1) (by omega) (by omega)).1
      omega
    next within =>
      simp only [all_eq_true, mem_range, decide_eq_true_eq]
      constructor
      · intro all w low high
        have page := all (w / 1024 - addr / 1024) (by omega)
        rw [Nat.add_sub_of_le (Nat.div_le_div_right low)] at page
        exact ⟨by omega, page⟩
      · intro all i low
        -- a word of page `addr / PGSZ + i` that is in the range
        have page := (all (max addr ((addr / 1024 + i) * 1024)) (by omega) (by omega)).2
        rwa [show max addr ((addr / 1024 + i) * 1024) / 1024 = addr / 1024 + i by omega] at page

theorem physrange_ne_zero_iff : physrange get addr count ≠ 0 ↔
    0 < count ∧ (∀ w, addr ≤ w → w < addr + count → Mapped get w) ∧
      ∀ v, addr / PGSZ ≤ v → v ≤ (addr + count - 1) / PGSZ →
        get v = get (addr / PGSZ) + (v - addr / PGSZ) := by
  rw [← useracc_iff]
  unfold physrange
  split
  next bad =>
    refine ⟨fun wrong => absurd rfl wrong, fun good => ?_⟩
    obtain none | unmapped := bad
    · omega
    · exact absurd good.2.1 unmapped
  next good =>
    push Not at good
    have first := (useracc_iff.mp good.2 addr (by omega) (by omega)).2
    have found : physaddr get addr ≠ 0 := by
      simp only [physaddr, if_neg first, PGSZ] at first ⊢
      omega
    simp only [all_eq_true, mem_range, decide_eq_true_eq, PGSZ]
    split
    next consecutive =>
      refine ⟨fun _ => ⟨by omega, good.2, fun v low high => ?_⟩, fun _ => found⟩
      by_cases start : v = addr / 1024
      · rw [start, Nat.sub_self, Nat.add_zero]
      · have next := consecutive (v - addr / 1024 - 1) (by omega)
        rwa [show addr / 1024 + 1 + (v - addr / 1024 - 1) = v by omega,
          show 1 + (v - addr / 1024 - 1) = v - addr / 1024 by omega] at next
    next scattered =>
      refine ⟨fun wrong => absurd rfl wrong, fun all => absurd (fun i low => ?_) scattered⟩
      have next := all.2.2 (addr / 1024 + 1 + i) (by omega) (by omega)
      rwa [show addr / 1024 + 1 + i - addr / 1024 = 1 + i by omega] at next

end Lookup

/-! ### Packing -/

variable {j k p i v : Nat} {pg : Nat → Nat} {l : Layout}

theorem word_getD (f : Nat → Bool) (i : Nat) :
    (word f).getD i false = (decide (i < 48) && f (47 - i)) := by
  by_cases low : i < 48
  · simp [word, low]
  · simp [word, low]

@[simp]
theorem length_word (f : Nat → Bool) : (word f).length = 48 := by simp [word]

theorem rpbits_disjoint : ∀ p < 48, ∀ j < 4, ∀ k < 4, j ≠ k → rpbits j p = true →
    rpbits k p = false := by decide

theorem rpbits_protection : ∀ p, 20 ≤ p → p < 28 → ∀ k < 4, rpbits k p = false := by
  intro p low high
  interval_cases p <;> decide

theorem count_rpmask (low : k < 4) : (rpmask k).count true = PGBITS := by
  interval_cases k <;> decide

/-- A word in which the bits of page `j` are clear. -/
theorem selected_clear {w : List Bool} (low : j < 4) (length : w.length = 48)
    (clear : ∀ i < 48, rpbits j (47 - i) = true → w.getD i false = false) :
    selected (rpmask j) w = List.replicate PGBITS false := by
  rw [← count_rpmask low]
  refine selected_of_clear (by simp [rpmask, length]) fun i bit => ?_
  rw [rpmask, word_getD, Bool.and_eq_true, decide_eq_true_eq] at bit
  exact clear i bit.1 bit.2

@[simp]
theorem length_descriptor (pg k : Nat) : (descriptor pg k).length = 48 := by
  simp [descriptor, rpmask]

theorem descriptor_getD (pg : Nat) (clear : rpbits k (47 - i) = false) :
    (descriptor pg k).getD i false = false :=
  scatter_getD (by rw [rpmask, word_getD, clear, Bool.and_false])

theorem selected_descriptor (pg : Nat) (low : j < 4) (low' : k < 4) :
    selected (rpmask j) (descriptor pg k) =
      if j = k then bits PGBITS pg else List.replicate PGBITS false := by
  split
  next same =>
    subst same
    rw [descriptor, selected_scatter, count_rpmask low, takeD_eq_take _ (by simp)]
    exact take_left' (length_bits _ _)
  next other =>
    refine selected_clear low (length_descriptor pg k) fun i inside bit => ?_
    exact descriptor_getD pg (rpbits_disjoint _ (by omega) j low k low' other bit)

theorem quartet_eq (pg : Nat → Nat) (i : Nat) : quartet pg i =
    orBits (orBits (orBits (orBits zeroWord (descriptor (pg (4 * i)) 0))
      (descriptor (pg (4 * i + 1)) 1)) (descriptor (pg (4 * i + 2)) 2))
      (descriptor (pg (4 * i + 3)) 3) := rfl

@[simp]
theorem length_zeroWord : zeroWord.length = 48 := rfl

theorem zeroWord_getD (i : Nat) : zeroWord.getD i false = false := by
  rw [zeroWord, getD_eq_getElem?_getD, List.getElem?_replicate]
  split <;> rfl

@[simp]
theorem length_quartet (pg : Nat → Nat) (i : Nat) : (quartet pg i).length = 48 := by
  simp [quartet_eq]

theorem selected_quartet (pg : Nat → Nat) (i : Nat) (low : j < 4) :
    selected (rpmask j) (quartet pg i) = bits PGBITS (pg (4 * i + j)) := by
  have zero : selected (rpmask j) zeroWord = List.replicate PGBITS false :=
    selected_clear low rfl fun i _ _ => zeroWord_getD i
  rw [quartet_eq, selected_orBits (by simp), selected_orBits (by simp), selected_orBits (by simp),
    selected_orBits (by simp), zero, selected_descriptor _ low (by decide),
    selected_descriptor _ low (by decide), selected_descriptor _ low (by decide),
    selected_descriptor _ low (by decide)]
  interval_cases j <;> simp [orBits_replicate, replicate_orBits]

/-- The number of a page is gathered back, its low ten bits. -/
theorem uptget_sureg (l : Layout) (v : Nat) : uptget (sureg l) v = (table l).pg v % 2 ^ PGBITS := by
  have low : v % 4 < 4 := Nat.mod_lt _ (by decide)
  have chosen : selected (rpmask (v % 4)) (sureg l (v / 4)) = bits PGBITS ((table l).pg v) := by
    have numbers := selected_quartet (table l).pg (v / 4) low
    rw [Nat.div_add_mod] at numbers
    unfold sureg
    split
    · rw [selected_orBits (by simp), numbers, selected_clear low (by simp)]
      · exact orBits_replicate (length_bits _ _)
      · intro i inside bit
        have outside : ¬ (20 ≤ 47 - i ∧ 47 - i < 28) := by
          rintro ⟨above, below⟩
          rw [rpbits_protection _ above below _ low] at bit
          cases bit
        rw [word_getD, decide_eq_false outside, Bool.false_and, Bool.and_false]
    · exact numbers
  rw [uptget, gather_eq, chosen, take_left' (length_bits _ _), value_bits]

/-- The protection of a page stands in the even word of its eight pages. -/
theorem sureg_protection (l : Layout) (v : Nat) :
    (sureg l (2 * (v / 8))).getD (47 - (20 + v % 8)) false = (table l).closed v := by
  have back : 47 - (47 - (20 + v % 8)) = 20 + v % 8 := by omega
  have page : 4 * (2 * (v / 8)) + (20 + v % 8 - 20) = v := by omega
  have clear : ∀ pg k, k < 4 → (descriptor pg k).getD (47 - (20 + v % 8)) false = false := by
    intro pg k low'
    refine descriptor_getD pg ?_
    exact rpbits_protection _ (by omega) (by omega) k low'
  have inside : 47 - (20 + v % 8) < 48 := by omega
  have here : 20 ≤ 20 + v % 8 ∧ 20 + v % 8 < 28 := by omega
  unfold sureg
  rw [if_pos (by omega), orBits_getD (by simp), quartet_eq, orBits_getD (by simp),
    orBits_getD (by simp), orBits_getD (by simp), orBits_getD (by simp), clear _ 0 (by decide),
    clear _ 1 (by decide), clear _ 2 (by decide), clear _ 3 (by decide), word_getD, back, page,
    zeroWord_getD, decide_eq_true inside, decide_eq_true here]
  rfl

/-! ### The segments -/

theorem mapPages_eq (n a v : Nat) (t : Table) (u : Nat) :
    (mapPages n a v t).pg u = (if v ≤ u ∧ u < v + n then (a + (u - v) * PGSZ) / PGSZ else t.pg u) ∧
      (mapPages n a v t).closed u = (if v ≤ u ∧ u < v + n then false else t.closed u) := by
  induction n generalizing a v t with
  | zero => simp [mapPages, show ¬ (v ≤ u ∧ u < v) by omega]
  | succ n ih =>
    obtain ⟨pages, closes⟩ :=
      ih (a + PGSZ) (v + 1) ⟨update t.pg v (a / PGSZ), update t.closed v false⟩
    simp only [mapPages, pages, closes, update_apply, PGSZ]
    by_cases first : u = v
    · simp [first]
    · by_cases later : v + 1 ≤ u ∧ u < v + 1 + n
      · rw [if_pos later, if_pos later, if_pos (by omega), if_pos (by omega)]
        exact ⟨by congr 1; omega, rfl⟩
      · rw [if_neg later, if_neg later, if_neg first, if_neg first, if_neg (by omega),
          if_neg (by omega)]
        exact ⟨rfl, rfl⟩

/-- The segments are whole pages of the physical memory, and none of them is its page 0. -/
structure Layout.InCore (l : Layout) : Prop where
  aligned : PGSZ ∣ l.paddr ∧ PGSZ ∣ l.taddr
  sizes : PGSZ ∣ l.tsize ∧ PGSZ ∣ l.dsize ∧ PGSZ ∣ l.ssize
  text : 0 < l.taddr ∧ l.taddr + l.tsize ≤ 2 ^ PGBITS * PGSZ
  image : l.paddr + USIZE + l.dsize + l.ssize ≤ 2 ^ PGBITS * PGSZ

/-- Where the word `a` of the process is, or 0. -/
def Layout.phys (l : Layout) (a : Nat) : Nat :=
  if a < l.tsize then l.taddr + a
  else if a < l.tsize + l.dsize then l.paddr + USIZE + (a - l.tsize)
  else if 0o70000 ≤ a ∧ a < 0o70000 + l.ssize then l.paddr + USIZE + l.dsize + (a - 0o70000)
  else 0

/-- The table has the segments where they are, page by page. -/
theorem table_eq {maxmem : Nat} (core : l.InCore)
    (accepted : estabur maxmem l.tsize l.dsize l.ssize = true) (v : Nat) :
    (table l).pg v < 2 ^ PGBITS ∧ ((table l).closed v = true ↔ (table l).pg v = 0) ∧
      ∀ o < PGSZ, l.phys (v * PGSZ + o) =
        if (table l).pg v = 0 then 0 else (table l).pg v * PGSZ + o := by
  obtain ⟨⟨⟨p, at_p⟩, ⟨x, at_x⟩⟩, ⟨⟨t, text⟩, ⟨d, data⟩, ⟨s, stack⟩⟩, in_core, image⟩ := core
  simp only [estabur, decide_eq_true_eq] at accepted
  have whole : ∀ a n, turns a (a + PGSZ * n) = n := by
    intro a n
    simp only [turns, PGSZ]
    omega
  have rest : turns (l.paddr + USIZE + d * PGSZ) (l.paddr + USIZE + PGSZ * d + PGSZ * s) = s := by
    simp only [turns, PGSZ]
    omega
  simp only [table, text, data, stack, whole, rest]
  simp only [mapPages_eq, Layout.phys, text, data, stack, at_p, at_x, PGSZ, USIZE, USTKPAGE,
    NPAGE, PGBITS] at in_core image accepted ⊢
  refine ⟨?_, ?_, fun o within => ?_⟩
  · split_ifs <;> omega
  · split_ifs <;> simp <;> omega
  · by_cases in_stack : 28 ≤ v ∧ v < 28 + s
    · rw [if_pos in_stack]
      split_ifs <;> omega
    · rw [if_neg in_stack]
      split_ifs <;> omega

/-- If the sizes are whole pages and the segments in core, page 0 apart, the map is that of the
segments, a page is closed if and only if it is not mapped, `useracc` says whether all that a range
touches is mapped, and `physrange` finds the ranges of words on consecutive pages. -/
theorem sureg_maps_segments (maxmem : Nat) (l : Layout) (core : l.InCore)
    (accepted : estabur maxmem l.tsize l.dsize l.ssize = true) :
    (∀ a < NPAGE * PGSZ, physaddr (uptget (sureg l)) a = l.phys a) ∧
      (∀ v < NPAGE, (sureg l (2 * (v / 8))).getD (47 - (20 + v % 8)) false = true ↔
        uptget (sureg l) v = 0) ∧
      (∀ addr count, useracc (uptget (sureg l)) addr count = true ↔
        ∀ w, addr ≤ w → w < addr + count → Mapped (uptget (sureg l)) w) ∧
      (∀ addr count, physrange (uptget (sureg l)) addr count ≠ 0 ↔
        0 < count ∧ (∀ w, addr ≤ w → w < addr + count → Mapped (uptget (sureg l)) w) ∧
          ∀ v, addr / PGSZ ≤ v → v ≤ (addr + count - 1) / PGSZ →
            uptget (sureg l) v = uptget (sureg l) (addr / PGSZ) + (v - addr / PGSZ)) := by
  refine ⟨fun a _ => ?_, fun v _ => ?_, fun _ _ => useracc_iff, fun _ _ => physrange_ne_zero_iff⟩
  · obtain ⟨low, -, at_page⟩ := table_eq core accepted (a / PGSZ)
    have split := at_page _ (Nat.mod_lt a (show 0 < PGSZ by decide))
    rw [Nat.div_add_mod' a PGSZ] at split
    rw [physaddr, uptget_sureg, Nat.mod_eq_of_lt low, split]
  · obtain ⟨low, closed, -⟩ := table_eq core accepted v
    rw [sureg_protection, closed, uptget_sureg, Nat.mod_eq_of_lt low]

/-- Two pages of shared text, one of data and one of stack. -/
def smallLayout : Layout := ⟨0o100000, some 0o200000, 2 * PGSZ, PGSZ, PGSZ⟩

theorem sureg_maps_segments_small :
    physaddr (uptget (sureg smallLayout)) 0o70005 = 0o100000 + USIZE + PGSZ + 5 :=
  (sureg_maps_segments (NPAGE * PGSZ) smallLayout
    ⟨by decide, by decide, by decide, by decide⟩ (by decide)).1 0o70005 (by decide)

/-- What `estabur` accepts is not enough. With sizes that are no whole pages word 1, the first
one of the data, is mapped to the text; a text at physical word 0 is mapped and yet closed; of
a page number of 2 ^ 10 or more only the low ten bits are kept; and `physrange` refuses an
empty range. -/
theorem sureg_maps_part_of_page :
    (estabur (NPAGE * PGSZ) 1 PGSZ PGSZ = true ∧
      physaddr (uptget (sureg ⟨0o100000, some 0o200000, 1, PGSZ, PGSZ⟩)) 1 = 0o200001 ∧
      Layout.phys ⟨0o100000, some 0o200000, 1, PGSZ, PGSZ⟩ 1 = 0o100000 + USIZE) ∧
    (estabur (NPAGE * PGSZ) PGSZ PGSZ PGSZ = true ∧
      useracc (uptget (sureg ⟨0o100000, some 0, PGSZ, PGSZ, PGSZ⟩)) 0 1 = false ∧
      physaddr (uptget (sureg ⟨0o100000, some (1027 * PGSZ), PGSZ, PGSZ, PGSZ⟩)) 5 = 3 * PGSZ + 5 ∧
      Layout.phys ⟨0o100000, some (1027 * PGSZ), PGSZ, PGSZ, PGSZ⟩ 5 = 1027 * PGSZ + 5) ∧
    physrange (uptget (sureg smallLayout)) 0 0 = 0 := by
  decide +kernel

end V7Besm.Mem

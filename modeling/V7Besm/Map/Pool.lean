import Mathlib.Data.List.Induction
import Mathlib.Data.List.Perm.Subperm
import Mathlib.Data.List.TakeWhile
import V7Besm.Coop.Trace
import V7Besm.Map.Malloc
import V7Besm.Slp.Wakeup

/-!
The pools of core and swap space: a resource map together with the runs that have
been handed out of it.

The callers of `malloc` and `mfree` keep the runs they were given, may split one
into parts and give them back in any order. A map starts with one free run
(`startup` in `machdep.c`), which does not begin at 0, as 0 is the answer of a
`malloc` that fails.
-/

namespace V7Besm.Map

open Coop List

/-- A map and the runs that are out. -/
structure Pool where
  map : List Entry
  held : List Entry
  deriving DecidableEq, Repr

inductive Op where
  | malloc (size : Nat)
  | split (r : Entry) (size : Nat)
  | mfree (r : Entry)
  deriving DecidableEq, Repr

/-- One call, or one split of a run by its holder. -/
def Pool.step (p : Pool) : Op → Option Pool
  | .malloc size =>
    if size = 0 then none
    else if (malloc p.map size).1 = 0 then some { p with map := (malloc p.map size).2 }
    else some ⟨(malloc p.map size).2, ⟨size, (malloc p.map size).1⟩ :: p.held⟩
  | .split r size =>
    if r ∈ p.held ∧ 0 < size ∧ size < r.size then
      some { p with held := ⟨size, r.addr⟩ :: ⟨r.size - size, r.addr + size⟩ :: p.held.erase r }
    else none
  | .mfree r =>
    if r ∈ p.held then some ⟨mfree p.map r.size r.addr, p.held.erase r⟩ else none

/-- A pool of `size` units at `base`, all free; the entries `spare` of the map are not
in use. -/
def Pool.start (base size : Nat) (spare : List Entry) : Pool := ⟨⟨size, base⟩ :: spare, []⟩

/-! ### The invariant -/

/-- Two runs have no unit in common. -/
def Apart (r s : Entry) : Prop := ∀ w, r.Has w → ¬ s.Has w

/-- The unit `w` is out. -/
def Pool.Out (p : Pool) (w : Nat) : Prop := ∃ r ∈ p.held, r.Has w

structure Pool.Inv (base size : Nat) (p : Pool) : Prop where
  tidy : Tidy 0 p.map
  apart : p.held.Pairwise Apart
  pos : ∀ r ∈ p.held, r.size ≠ 0
  free : ∀ w, Free p.map w → ¬ p.Out w
  all : ∀ w, Free p.map w ∨ p.Out w ↔ Entry.Has ⟨size, base⟩ w

variable {base size : Nat} {spare : List Entry} {p p' : Pool} {r s : Entry} {op : Op} {w : Nat}

theorem Apart.symm (h : Apart r s) : Apart s r := fun w hs hr => h w hr hs

theorem Pool.inv_start (pos : size ≠ 0) (behind : 0 < base) (zero : ∀ e ∈ spare, e.size = 0) :
    (Pool.start base size spare).Inv base size where
  tidy := (tidy_cons pos).mpr ⟨behind, tidy_of_zero zero⟩
  apart := .nil
  pos := by simp [Pool.start]
  free := by simp [Pool.start, Pool.Out]
  all w := by simp [Pool.start, Pool.Out, Free, live_cons, pos, live_of_zero zero]

variable {m : List Entry}

theorem Pool.out_cons {held : List Entry} :
    Pool.Out ⟨m, r :: held⟩ w ↔ r.Has w ∨ Pool.Out ⟨m, held⟩ w := by
  simp [Pool.Out]

theorem Pool.out_erase (mem : r ∈ p.held) :
    p.Out w ↔ r.Has w ∨ Pool.Out ⟨p.map, p.held.erase r⟩ w := by
  rw [← Pool.out_cons]
  exact ⟨fun ⟨s, out, has⟩ => ⟨s, (perm_cons_erase mem).mem_iff.mp out, has⟩,
    fun ⟨s, out, has⟩ => ⟨s, (perm_cons_erase mem).mem_iff.mpr out, has⟩⟩

section

variable (inv : p.Inv base size)

include inv

theorem Pool.Inv.apart_erase (mem : r ∈ p.held) : (r :: p.held.erase r).Pairwise Apart :=
  ((perm_cons_erase mem).pairwise_iff Apart.symm).mp inv.apart

theorem Pool.Inv.taken {n a : Nat} (pos : n ≠ 0)
    (taken : Taken 0 n a p.map m) : Pool.Inv base size ⟨m, ⟨n, a⟩ :: p.held⟩ where
  tidy := taken.tidy
  apart := pairwise_cons.mpr
    ⟨fun r mem w has out => inv.free w ((taken.free w).mpr (.inr has)) ⟨r, mem, out⟩, inv.apart⟩
  pos := forall_mem_cons.mpr ⟨pos, inv.pos⟩
  free w free := by
    rw [Pool.out_cons, not_or]
    exact ⟨taken.apart w free, inv.free w ((taken.free w).mpr (.inl free))⟩
  all w := by
    rw [← inv.all w, taken.free w, Pool.out_cons, or_assoc]
    rfl

theorem Pool.Inv.given (mem : r ∈ p.held)
    (given : Given 0 r.size r.addr p.map m) : Pool.Inv base size ⟨m, p.held.erase r⟩ where
  tidy := given.tidy
  apart := (pairwise_cons.mp (inv.apart_erase mem)).2
  pos s out := inv.pos s (mem_of_mem_erase out)
  free w free := by
    rcases (given.free w).mp free with free | has
    · exact fun out => inv.free w free ((Pool.out_erase mem).mpr (.inr out))
    · exact fun ⟨s, out, has'⟩ => (pairwise_cons.mp (inv.apart_erase mem)).1 s out w has has'
  all w := by
    rw [← inv.all w, given.free w, Pool.out_erase mem, or_assoc]
    rfl

theorem Pool.Inv.split {n : Nat} (mem : r ∈ p.held) (pos : 0 < n)
    (lt : n < r.size) : Pool.Inv base size
      ⟨p.map, ⟨n, r.addr⟩ :: ⟨r.size - n, r.addr + n⟩ :: p.held.erase r⟩ := by
  have parts (w) : r.Has w ↔ Entry.Has ⟨n, r.addr⟩ w ∨ Entry.Has ⟨r.size - n, r.addr + n⟩ w := by
    simp only [Entry.Has]
    omega
  have same (w) : Pool.Out ⟨p.map, ⟨n, r.addr⟩ :: ⟨r.size - n, r.addr + n⟩ :: p.held.erase r⟩ w ↔
      p.Out w := by
    rw [Pool.out_cons, Pool.out_cons, Pool.out_erase mem, parts, or_assoc]
  obtain ⟨first, rest⟩ := pairwise_cons.mp (inv.apart_erase mem)
  refine ⟨inv.tidy, ?_, ?_, fun w free => ?_, fun w => ?_⟩
  · refine pairwise_cons.mpr ⟨forall_mem_cons.mpr ⟨fun w has has' => ?_, ?_⟩,
      pairwise_cons.mpr ⟨?_, rest⟩⟩
    · exact absurd has'.1 (Nat.not_le.mpr has.2)
    · exact fun s out w has => first s out w ((parts w).mpr (.inl has))
    · exact fun s out w has => first s out w ((parts w).mpr (.inr has))
  · refine forall_mem_cons.mpr ⟨by simp only; omega, forall_mem_cons.mpr
      ⟨by simp only; omega, fun s out => inv.pos s (mem_of_mem_erase out)⟩⟩
  · rw [same]
    exact inv.free w free
  · rw [same]
    exact inv.all w

/-- A run that is out can be given back: it is behind 0, and nothing of it is free. -/
theorem Pool.Inv.mfree_spec (behind : 0 < base) (mem : r ∈ p.held) :
    Given 0 r.size r.addr p.map (mfree p.map r.size r.addr) := by
  have pos := inv.pos r mem
  have first : r.Has r.addr := ⟨Nat.le_refl _, by omega⟩
  have inside := ((inv.all r.addr).mp (.inr ⟨r, mem, first⟩)).1
  exact Map.mfree_spec inv.tidy (fun w free has => inv.free w free ⟨r, mem, has⟩) pos
    (Nat.lt_of_lt_of_le behind inside)

end

theorem Pool.Inv.step (behind : 0 < base) (inv : p.Inv base size)
    (step : p.step op = some p') : p'.Inv base size := by
  cases op with
  | malloc n =>
    by_cases zero : n = 0
    · simp [Pool.step, zero] at step
    simp only [Pool.step, if_neg zero] at step
    rcases malloc_spec inv.tidy (Nat.pos_of_ne_zero zero) with ⟨fails, -⟩ | taken
    · simp only [fails, if_true, Option.some.injEq] at step
      exact step ▸ inv
    · rw [if_neg (Nat.ne_of_gt taken.behind), Option.some.injEq] at step
      exact step ▸ inv.taken zero taken
  | split r n =>
    simp only [Pool.step, Option.ite_none_right_eq_some, Option.some.injEq] at step
    obtain ⟨⟨mem, pos, lt⟩, rfl⟩ := step
    exact inv.split mem pos lt
  | mfree r =>
    simp only [Pool.step, Option.ite_none_right_eq_some, Option.some.injEq] at step
    obtain ⟨mem, rfl⟩ := step
    exact inv.given mem (inv.mfree_spec behind mem)

theorem Pool.inv_of_run {ops : List Op} (pos : size ≠ 0) (behind : 0 < base)
    (zero : ∀ e ∈ spare, e.size = 0) (run : ops.foldlM Pool.step (.start base size spare) = some p) :
    p.Inv base size :=
  inv_of_foldlM (fun _ _ _ inv step => inv.step behind step)
    (Pool.inv_start pos behind zero) run

/-! ### What a map always is -/

variable {lo : Nat}

theorem Tidy.pairwise (tidy : Tidy lo m) :
    (live m).Pairwise fun x y => x.addr + x.size < y.addr := by
  induction m generalizing lo with
  | nil => simp
  | cons e es ih =>
    by_cases zero : e.size = 0
    · simp [live_cons, zero]
    · rw [tidy_cons zero] at tidy
      rw [live_cons, if_neg zero]
      exact pairwise_cons.mpr ⟨fun x mem => tidy.2.lt_of_live mem, ih tidy.2⟩

theorem Tidy.zero_after (tidy : Tidy lo m) : ∀ e ∈ m.dropWhile (·.size ≠ 0), e.size = 0 := by
  induction m generalizing lo with
  | nil => simp
  | cons e es ih =>
    by_cases zero : e.size = 0
    · rw [tidy_cons_zero zero] at tidy
      simpa [dropWhile_cons, zero] using tidy
    · rw [tidy_cons zero] at tidy
      simpa [dropWhile_cons, zero] using ih tidy.2

/-- The map of a pool of `size` units at `base`: its runs in order, each with a gap to the
next; behind them only entries of size 0; they make up what is not out; and `malloc` fails
only where no run is long enough. -/
structure Pool.Sound (base size : Nat) (p : Pool) : Prop where
  sorted : (live p.map).Pairwise fun x y => x.addr + x.size < y.addr
  zeros : ∀ e ∈ p.map.dropWhile (·.size ≠ 0), e.size = 0
  free : ∀ w, Free p.map w ↔ Entry.Has ⟨size, base⟩ w ∧ ∀ r ∈ p.held, ¬ r.Has w
  fails : ∀ n > 0, (malloc p.map n).1 = 0 → ∀ e ∈ live p.map, e.size < n

/-- The map is sound after any run of calls. -/
theorem Pool.sound_of_run (base size : Nat) (spare : List Entry) (ops : List Op) (p : Pool)
    (pos : 0 < size) (behind : 0 < base) (zero : ∀ e ∈ spare, e.size = 0)
    (run : ops.foldlM Pool.step (.start base size spare) = some p) : p.Sound base size := by
  have inv := Pool.inv_of_run (Nat.ne_of_gt pos) behind zero run
  refine ⟨inv.tidy.pairwise, inv.tidy.zero_after, fun w => ?_, fun n posn failed => ?_⟩
  · rw [← inv.all w]
    constructor
    · exact fun free => ⟨.inl free, fun r mem has => inv.free w free ⟨r, mem, has⟩⟩
    · rintro ⟨free | ⟨r, mem, has⟩, apart⟩
      · exact free
      · exact absurd has (apart r mem)
  · rcases malloc_spec inv.tidy posn with ⟨-, short⟩ | taken
    · exact short
    · exact absurd failed (Nat.ne_of_gt taken.behind)

/-- Three runs are taken; a part of the first one goes back, and the last, which joins
the rest of the pool. -/
theorem Pool.sound_of_run_split :
    [.malloc 4, .malloc 3, .malloc 2, .split ⟨4, 1⟩ 1, .mfree ⟨3, 2⟩, .mfree ⟨2, 8⟩].foldlM
        Pool.step (.start 1 10 [⟨0, 0⟩]) = some ⟨[⟨3, 2⟩, ⟨3, 8⟩], [⟨1, 1⟩, ⟨3, 5⟩]⟩ ∧
      Pool.Sound 1 10 ⟨[⟨3, 2⟩, ⟨3, 8⟩], [⟨1, 1⟩, ⟨3, 5⟩]⟩ :=
  have run : [.malloc 4, .malloc 3, .malloc 2, .split ⟨4, 1⟩ 1, .mfree ⟨3, 2⟩,
      .mfree ⟨2, 8⟩].foldlM Pool.step (.start 1 10 [⟨0, 0⟩]) = some ⟨_, _⟩ := by decide
  ⟨run, Pool.sound_of_run 1 10 [⟨0, 0⟩] _ _ (by decide) (by decide) (by simp) run⟩

/-! ### The size of the array -/

/-- The map stays within an array of `n` entries, the one that ends it included. -/
structure Pool.Fits (n : Nat) (p : Pool) : Prop where
  length : p.map.length = n
  ended : (live p.map).length < n

/-- There is an entry to spare for the run, or a free run next to it. -/
def Pool.Room (n : Nat) (p : Pool) (r : Entry) : Prop :=
  (live p.map).length + 1 < n ∨ Touches r.size r.addr p.map

variable {n : Nat}

theorem Pool.fits_start (spare_length : spare.length + 1 = n) (two : 2 ≤ n)
    (zero : ∀ e ∈ spare, e.size = 0) : (Pool.start base size spare).Fits n := by
  refine ⟨spare_length, ?_⟩
  rw [Pool.start, live_cons]
  split <;> simp [live_of_zero zero] <;> omega

theorem Pool.Fits.step_malloc {k : Nat} (fits : p.Fits n) (inv : p.Inv base size)
    (step : p.step (.malloc k) = some p') : p'.Fits n := by
  by_cases zero : k = 0
  · simp [Pool.step, zero] at step
  simp only [Pool.step, if_neg zero] at step
  rcases malloc_spec inv.tidy (Nat.pos_of_ne_zero zero) with ⟨fails, -⟩ | taken
  · simp only [fails, if_true, Option.some.injEq] at step
    exact step ▸ fits
  · rw [if_neg (Nat.ne_of_gt taken.behind), Option.some.injEq] at step
    rw [← step]
    exact ⟨taken.length.trans fits.length, Nat.lt_of_le_of_lt taken.count fits.ended⟩

theorem Pool.Fits.step_split {k : Nat} (fits : p.Fits n)
    (step : p.step (.split r k) = some p') : p'.Fits n := by
  simp only [Pool.step, Option.ite_none_right_eq_some, Option.some.injEq] at step
  exact step.2 ▸ ⟨fits.length, fits.ended⟩

/-- `mfree` has no test of its own: whether it stays within the array is whether there is
room. -/
theorem Pool.Fits.step_mfree (behind : 0 < base) (fits : p.Fits n) (inv : p.Inv base size)
    (step : p.step (.mfree r) = some p') : p'.Fits n ↔ p.Room n r := by
  simp only [Pool.step, Option.ite_none_right_eq_some, Option.some.injEq] at step
  obtain ⟨mem, rfl⟩ := step
  have given := inv.mfree_spec behind mem
  have length := given.length
  have ended := fits.ended
  rw [fits.length] at length
  constructor
  · intro fits'
    by_cases touches : Touches r.size r.addr p.map
    · exact .inr touches
    · exact .inl (given.adds touches ▸ fits'.ended)
  · intro room
    have ended' : (live (mfree p.map r.size r.addr)).length < n := by
      by_cases touches : Touches r.size r.addr p.map
      · exact Nat.lt_of_le_of_lt (given.joins touches) ended
      · exact given.adds touches ▸ room.resolve_right touches
    exact ⟨by simp only [length]; omega, ended'⟩

theorem Tidy.not_free_end {e : Entry} (tidy : Tidy lo m)
    (mem : e ∈ live m) : ¬ Free m (e.addr + e.size) := by
  induction m generalizing lo with
  | nil => simp at mem
  | cons b bs ih =>
    by_cases zero : b.size = 0
    · exact free_cons_zero zero
    rw [tidy_cons zero] at tidy
    rw [live_cons, if_neg zero, mem_cons] at mem
    rw [free_cons zero, not_or]
    rcases mem with rfl | mem
    · exact ⟨fun has => absurd has.2 (Nat.lt_irrefl _),
        fun free => absurd (tidy.2.lt_of_free free) (Nat.lt_irrefl _)⟩
    · have := tidy.2.lt_of_live mem
      exact ⟨fun has => absurd has.2 (by omega), ih tidy.2 mem⟩

/-- Every free run but the last one of the pool ends where a run that is out begins. -/
theorem Pool.Inv.next_out (inv : p.Inv base size) {e : Entry} (mem : e ∈ live p.map) :
    e.addr + e.size = base + size ∨ ∃ r ∈ p.held, r.addr = e.addr + e.size := by
  have pos : e.size ≠ 0 := by simpa using mem_takeWhile_imp mem
  have last : Free p.map (e.addr + e.size - 1) := ⟨e, mem, by omega, by omega⟩
  have inside : e.addr + e.size - 1 < base + size := ((inv.all _).mp (.inl last)).2
  have start := ((inv.all _).mp (.inl last)).1
  by_cases more : e.addr + e.size = base + size
  · exact .inl more
  have next : Entry.Has ⟨size, base⟩ (e.addr + e.size) := by
    simp only [Entry.Has] at *
    omega
  rcases (inv.all _).mpr next with free | ⟨r, out, has⟩
  · exact absurd free (inv.tidy.not_free_end mem)
  · refine .inr ⟨r, out, Nat.le_antisymm has.1 ?_⟩
    by_contra before
    exact inv.free _ last ⟨r, out, by omega, by have := has.2; omega⟩

/-- The runs that are out separate the free ones. -/
theorem Pool.Inv.count_le (inv : p.Inv base size) : (live p.map).length ≤ p.held.length + 1 := by
  have nodup : ((live p.map).map fun e => e.addr + e.size).Nodup := by
    rw [nodup_iff_pairwise_ne, pairwise_map]
    refine inv.tidy.pairwise.imp fun {x y} lt => ?_
    omega
  have within : ((live p.map).map fun e => e.addr + e.size) ⊆
      (base + size) :: p.held.map Entry.addr := by
    intro w mem
    obtain ⟨e, free, rfl⟩ := mem_map.mp mem
    rcases inv.next_out free with last | ⟨r, out, start⟩
    · exact last ▸ mem_cons_self
    · exact mem_cons_of_mem _ (mem_map.mpr ⟨r, out, start⟩)
  simpa using (nodup.subperm within).length_le

/-- Fewer runs out than the array has entries always leave room for one of them. -/
theorem Pool.Inv.room (behind : 0 < base) (inv : p.Inv base size) (mem : r ∈ p.held)
    (few : p.held.length < n) : p.Room n r := by
  have given := inv.mfree_spec behind mem
  have count := (inv.given mem given).count_le
  rw [length_erase_of_mem mem] at count
  by_cases touches : Touches r.size r.addr p.map
  · exact .inr touches
  · have adds := given.adds touches
    have := length_pos_of_mem mem
    simp only at count
    exact .inl (by omega)

/-- In a run, the map stays within the array exactly when every run that is given back
finds room, as it does when fewer than `n` runs are out. -/
theorem Pool.fits_iff_room (n base size : Nat) (spare : List Entry) (ops : List Op) (p : Pool)
    (two : 2 ≤ n) (length : spare.length + 1 = n) (pos : 0 < size) (behind : 0 < base)
    (zero : ∀ e ∈ spare, e.size = 0)
    (run : ops.foldlM Pool.step (.start base size spare) = some p) :
    ((∀ pre post q, ops = pre ++ post → pre.foldlM Pool.step (.start base size spare) = some q →
        q.Fits n) ↔
      ∀ pre post r q, ops = pre ++ .mfree r :: post →
        pre.foldlM Pool.step (.start base size spare) = some q → q.Room n r) ∧
    ∀ r ∈ p.held, p.held.length < n → p.Room n r := by
  have inv {ops : List Op} {q} (run : ops.foldlM Pool.step (.start base size spare) = some q) :=
    Pool.inv_of_run (Nat.ne_of_gt pos) behind zero run
  refine ⟨⟨fun fits pre post r q split first => ?_, fun room pre => ?_⟩,
    fun r mem few => (inv run).room behind mem few⟩
  · rw [split] at run
    obtain ⟨q₁, first', rest⟩ := exists_of_foldlM_append run
    obtain rfl : q₁ = q := Option.some.inj (first'.symm.trans first)
    rw [foldlM_cons, Option.bind_eq_bind, Option.bind_eq_some_iff] at rest
    obtain ⟨q', step, -⟩ := rest
    refine ((fits pre _ _ split first).step_mfree behind (inv first) step).mp ?_
    refine fits (pre ++ [.mfree r]) post q' (by simp [split]) ?_
    simp [foldlM_append, first, step]
  · -- by induction on the part of the run that is done, from its last call on
    induction pre using List.reverseRecOn with
    | nil =>
      intro post q split first
      simp only [foldlM_nil, Option.pure_def, Option.some.injEq] at first
      exact first ▸ Pool.fits_start length two zero
    | append_singleton pre op ih =>
      intro post q' split all
      obtain ⟨q, first, last⟩ := exists_of_foldlM_append all
      have step : q.step op = some q' := by simpa using last
      have fits := ih (op :: post) q (by simp [split]) first
      cases op with
      | malloc k => exact fits.step_malloc (inv first) step
      | split s k => exact fits.step_split step
      | mfree s =>
        refine (fits.step_mfree behind (inv first) step).mpr ?_
        exact room pre post s q (by simp [split]) first

/-! ### The two maps of the kernel -/

abbrev PGSZ : Nat := 1024
abbrev NPAGE : Nat := 32
abbrev USIZE : Nat := 1024
abbrev CMAPSIZ : Nat := 50
abbrev SMAPSIZ : Nat := 50
abbrev NTEXT : Nat := 40

/-- `phymem`: the words of core. -/
def phymem : Nat := 512 * PGSZ

/-- `nswap`: the blocks of the paging store. -/
def nswap : Nat := 1024

/-- The entries `mfree` has not reached yet. -/
def bss (n : Nat) : List Entry := List.replicate n ⟨0, 0⟩

/-- The core, as `startup` frees it. -/
def corePool : Pool := ⟨mfree (bss CMAPSIZ) (phymem - (NPAGE * PGSZ + USIZE)) (NPAGE * PGSZ + USIZE), []⟩

/-- The paging store, as `startup` frees it. -/
def swapPool : Pool := ⟨mfree (bss SMAPSIZ) nswap 1, []⟩

/-- `count` holders take `size` units each, from `base` on, and every other one gives them
back. -/
def everyOther (count size base : Nat) : List Op :=
  List.replicate count (.malloc size) ++
    (List.range (count / 2)).map fun k => .mfree ⟨size, base + 2 * k * size⟩

/-- A hundred processes of three pages each, of which every other one exits, leave more free
runs than `coremap` has entries; a hundred calls of `exec`, with two blocks each, do the same
to `swapmap`. -/
theorem maps_overflow :
    100 ≤ Slp.NPROC ∧
    (∃ p, (everyOther 100 (3 * PGSZ) (NPAGE * PGSZ + USIZE)).foldlM Pool.step corePool = some p ∧
      CMAPSIZ < p.map.length ∧ CMAPSIZ < (live p.map).length) ∧
    ∃ p, (everyOther 100 2 1).foldlM Pool.step swapPool = some p ∧
      SMAPSIZ < p.map.length ∧ SMAPSIZ < (live p.map).length := by
  have core : ((everyOther 100 (3 * PGSZ) (NPAGE * PGSZ + USIZE)).foldlM Pool.step corePool).any
      (fun p => CMAPSIZ < p.map.length ∧ CMAPSIZ < (live p.map).length) = true := by
    decide +kernel
  have swap : ((everyOther 100 2 1).foldlM Pool.step swapPool).any
      (fun p => SMAPSIZ < p.map.length ∧ SMAPSIZ < (live p.map).length) = true := by
    decide +kernel
  simp only [Option.any_eq_true, decide_eq_true_eq] at core swap
  exact ⟨by decide, core, swap⟩

/-- Sixty processes, of which every other one exits, leave `coremap` room. -/
theorem Pool.fits_iff_room_core :
    corePool = .start (NPAGE * PGSZ + USIZE) (479 * PGSZ) (bss 49) ∧
    ∃ p, (everyOther 60 (3 * PGSZ) (NPAGE * PGSZ + USIZE)).foldlM Pool.step corePool = some p ∧
      ∀ r ∈ p.held, p.held.length < CMAPSIZ → p.Room CMAPSIZ r := by
  have start : corePool = .start (NPAGE * PGSZ + USIZE) (479 * PGSZ) (bss 49) := by decide +kernel
  have run : ((everyOther 60 (3 * PGSZ) (NPAGE * PGSZ + USIZE)).foldlM Pool.step corePool).isSome =
      true := by decide +kernel
  obtain ⟨p, run⟩ := Option.isSome_iff_exists.mp run
  refine ⟨start, p, run, ?_⟩
  exact (Pool.fits_iff_room CMAPSIZ _ _ (bss 49) _ p (by decide) (by decide) (by decide)
    (by decide) (by decide) run).2

end V7Besm.Map

import V7Besm.Mem.Utab

/-!
Changing the size of a process: `sbreak` (`sys1.c`), `grow` (`sig.c`), and of `expand` (`slp.c`)
and `xswap` (`text.c`) what becomes of the pages.

The image is one run of pages: the u page, the data, the stack. Addresses and sizes are
in pages here. If the image grows it is either copied to another place or written to the
swap area, with a tail of zeroes, and read back in; the other processes may do with the
rest of the core what they like in between.
-/

namespace V7Besm.Mem

open Function

variable {α : Type} [Zero α]

/-- A process and the core: `p_addr`, the sizes, and the contents of each page. -/
structure Image (α : Type) where
  core : Nat → α
  (paddr tsize dsize ssize : Nat)

namespace Image

def psize (s : Image α) : Nat := 1 + s.dsize + s.ssize

def data (s : Image α) (i : Nat) : α := s.core (s.paddr + 1 + i)

def stack (s : Image α) (j : Nat) : α := s.core (s.paddr + 1 + s.dsize + j)

end Image

/-- `copyseg` of `n` pages, the lowest one first. -/
def copyUp : Nat → Nat → Nat → (Nat → α) → Nat → α
  | 0, _, _, core => core
  | n + 1, a, b, core => copyUp n (a + 1) (b + 1) (update core b (core a))

/-- `copyseg` of `n` pages, the highest one first. -/
def copyDown (a b : Nat) : Nat → (Nat → α) → Nat → α
  | 0, core => core
  | n + 1, core => copyDown a b n (update core (b + n) (core (a + n)))

/-- `clearseg` of `n` pages. -/
def clearPages (a : Nat) : Nat → (Nat → α) → Nat → α
  | 0, core => core
  | n + 1, core => clearPages a n (update core (a + n) 0)

/-- `swap`: `n` pages to or from the swap area. -/
def transfer (src : Nat → α) (a b n : Nat) (dst : Nat → α) (x : Nat) : α :=
  if b ≤ x ∧ x < b + n then src (a + (x - b)) else dst x

/-- What happens to an image that grows: it is copied to `a2`, or it goes out to the slot
`a` of the swap area and comes back at `a2`, into a core that has changed meanwhile. -/
inductive Fate (α : Type) where
  | moved (a2 : Nat)
  | swapped (a : Nat) (drum : Nat → α) (a2 : Nat) (core : Nat → α)

/-- `xswap(p, 1, os)` of an image of `size` pages: its pages are written, then a cleared one for
each page that is missing. -/
def xswap (core drum : Nat → α) (paddr a os size : Nat) : Nat → α :=
  let drum := transfer core paddr a os drum
  transfer (fun _ => update core paddr 0 paddr) 0 (a + os) (size - os) drum

/-- `expand` of an image of `n` pages: the core and `p_addr`. -/
def expand (fate : Fate α) (core : Nat → α) (paddr n newsize : Nat) : (Nat → α) × Nat :=
  if n ≥ newsize then (core, paddr)
  else
    match fate with
    | .moved a2 => (copyUp (n - 1) (paddr + 1) (a2 + 1) core, a2)
    | .swapped a drum a2 core' =>
      (transfer (xswap core drum paddr a n newsize) a a2 newsize core', a2)

/-- `sbreak`, if `estabur` accepts. -/
def sbreak (maxmem : Nat) (fate : Fate α) (s : Image α) (nsiz : Nat) : Option (Image α) :=
  let n := (nsiz % 0o100000 + (PGSZ - 1)) / PGSZ - s.tsize
  if ¬ estabur maxmem (s.tsize * PGSZ) (n * PGSZ) (s.ssize * PGSZ) then none
  else if n ≤ s.dsize then
    let core := copyUp s.ssize (s.paddr + 1 + s.dsize) (s.paddr + 1 + n) s.core
    let (core, a) := expand fate core s.paddr s.psize (1 + n + s.ssize)
    some { s with core := core, paddr := a, dsize := n }
  else
    let (core, a) := expand fate s.core s.paddr s.psize (1 + n + s.ssize)
    let core := copyDown (a + 1 + s.dsize) (a + 1 + n) s.ssize core
    let core := clearPages (a + 1 + s.dsize) (n - s.dsize) core
    some { s with core := core, paddr := a, dsize := n }

/-- `grow`, if it grows. -/
def grow (maxmem : Nat) (fate : Fate α) (s : Image α) (pg : Nat) : Option (Image α) :=
  if pg < USTKPAGE ∨ pg ≥ NPAGE then none
  else
    let si := pg - USTKPAGE + 1 - s.ssize
    if si = 0 then none
    else if ¬ estabur maxmem (s.tsize * PGSZ) (s.dsize * PGSZ) ((s.ssize + si) * PGSZ) then none
    else
      let (core, a) := expand fate s.core s.paddr s.psize (s.psize + si)
      some { s with
        core := clearPages (a + (s.psize + si) - si) si core
        paddr := a, ssize := s.ssize + si }

/-! ### Pages that move -/

variable {core : Nat → α} {a b n x newsize : Nat} {fate : Fate α} {s : Image α}

omit [Zero α] in
theorem copyUp_eq (order : b ≤ a ∨ a + n ≤ b) :
    copyUp n a b core x = if b ≤ x ∧ x < b + n then core (a + (x - b)) else core x := by
  induction n generalizing a b core with
  | zero => rw [if_neg (by omega)]; rfl
  | succ n ih =>
    -- the page that is written is none of those still to be read
    rw [copyUp, ih (by omega)]
    by_cases later : b + 1 ≤ x ∧ x < b + 1 + n
    · rw [if_pos later, if_pos (by omega), update_of_ne (by omega)]
      congr 1
      omega
    · rw [if_neg later]
      by_cases here : x = b
      · rw [if_pos (by omega), here, update_self, Nat.sub_self, Nat.add_zero]
      · rw [if_neg (by omega), update_of_ne here]

omit [Zero α] in
theorem copyDown_eq (order : a ≤ b) :
    copyDown a b n core x = if b ≤ x ∧ x < b + n then core (a + (x - b)) else core x := by
  induction n generalizing core with
  | zero => rw [if_neg (by omega)]; rfl
  | succ n ih =>
    rw [copyDown, ih]
    by_cases lower : b ≤ x ∧ x < b + n
    · rw [if_pos lower, if_pos (by omega), update_of_ne (by omega)]
    · rw [if_neg lower]
      by_cases here : x = b + n
      · rw [if_pos (by omega), here, update_self, Nat.add_sub_cancel_left]
      · rw [if_neg (by omega), update_of_ne here]

theorem clearPages_eq : clearPages a n core x = if a ≤ x ∧ x < a + n then 0 else core x := by
  induction n generalizing core with
  | zero => rw [if_neg (by omega)]; rfl
  | succ n ih =>
    rw [clearPages, ih]
    by_cases here : x = a + n
    · rw [if_neg (by omega), if_pos (by omega), here, update_self]
    · rw [update_of_ne here]
      exact if_congr (by omega) rfl rfl

/-- The place for the copy of an image of `n` pages is not where the image is. -/
def Fate.Apart (fate : Fate α) (paddr n : Nat) : Prop :=
  ∀ a2, fate = .moved a2 → a2 + n ≤ paddr ∨ paddr + n ≤ a2

/-- Wherever the image is afterwards, all of its pages but the u page hold what they held. -/
theorem expand_keeps (fate : Fate α) (core : Nat → α) {paddr : Nat} (newsize : Nat)
    (apart : fate.Apart paddr n) : ∃ core' a, expand fate core paddr n newsize = (core', a) ∧
      ∀ i, 1 ≤ i → i < n → core' (a + i) = core (paddr + i) := by
  unfold expand
  split
  next => exact ⟨core, paddr, rfl, fun _ _ _ => rfl⟩
  next =>
    cases fate with
    | moved a2 =>
      have order := apart a2 rfl
      refine ⟨_, _, rfl, fun i low high => ?_⟩
      rw [copyUp_eq (by omega), if_pos (by omega)]
      congr 1
      omega
    | swapped a drum a2 core' =>
      refine ⟨_, _, rfl, fun i low high => ?_⟩
      dsimp only [transfer, xswap]
      rw [if_pos (by omega), if_neg (by omega), if_pos (by omega)]
      congr 1
      omega

section Calls

variable {maxmem : Nat} {s' : Image α} (apart : fate.Apart s.paddr s.psize)

include apart

theorem sbreak_keeps {nsiz : Nat} (ok : sbreak maxmem fate s nsiz = some s') :
    (s'.dsize = (nsiz % 0o100000 + (PGSZ - 1)) / PGSZ - s.tsize ∧
      ∀ i < s'.dsize, s'.data i = if i < s.dsize then s.data i else 0) ∧
    (s'.tsize = s.tsize ∧ s'.ssize = s.ssize) ∧ ∀ j < s.ssize, s'.stack j = s.stack j := by
  unfold sbreak at ok
  dsimp only at ok
  generalize (nsiz % 0o100000 + (PGSZ - 1)) / PGSZ - s.tsize = n at ok ⊢
  obtain ⟨core', a, expands, kept⟩ := expand_keeps fate s.core (1 + n + s.ssize) apart
  split at ok
  next => cases ok
  next =>
    split at ok
    next smaller =>
      have stays : ∀ core, expand fate core s.paddr s.psize (1 + n + s.ssize) = (core, s.paddr) :=
        fun _ => if_pos (by unfold Image.psize; omega)
      rw [stays] at ok
      cases ok
      refine ⟨⟨rfl, fun i low => ?_⟩, ⟨rfl, rfl⟩, fun j low => ?_⟩
      · dsimp only [Image.data] at low ⊢
        rw [copyUp_eq (by omega), if_neg (by omega), if_pos (by omega)]
      · dsimp only [Image.stack]
        rw [copyUp_eq (by omega), if_pos (by omega), Nat.add_sub_cancel_left]
    next bigger =>
      rw [expands] at ok
      cases ok
      refine ⟨⟨rfl, fun i low => ?_⟩, ⟨rfl, rfl⟩, fun j low => ?_⟩
      · dsimp only [Image.data] at low ⊢
        by_cases old : i < s.dsize
        · have same := kept (1 + i) (by omega) (by unfold Image.psize; omega)
          rw [clearPages_eq, if_neg (by omega), copyDown_eq (by omega), if_neg (by omega),
            if_pos old, Nat.add_assoc, same, Nat.add_assoc]
        · rw [clearPages_eq, if_pos (by omega), if_neg old]
      · dsimp only [Image.stack]
        have same := kept (1 + s.dsize + j) (by omega) (by unfold Image.psize; omega)
        rw [clearPages_eq, if_neg (by omega), copyDown_eq (by omega), if_pos (by omega),
          Nat.add_sub_cancel_left]
        simpa only [Nat.add_assoc] using same

theorem grow_keeps {pg : Nat} (ok : grow maxmem fate s pg = some s') :
    (s'.tsize = s.tsize ∧ s'.dsize = s.dsize) ∧ (∀ i < s.dsize, s'.data i = s.data i) ∧
    (s'.ssize = pg - USTKPAGE + 1 ∧ s.ssize < s'.ssize) ∧
      ∀ j < s'.ssize, s'.stack j = if j < s.ssize then s.stack j else 0 := by
  unfold grow at ok
  dsimp only at ok
  generalize grown : pg - USTKPAGE + 1 - s.ssize = si at ok
  obtain ⟨core', a, expands, kept⟩ := expand_keeps fate s.core (s.psize + si) apart
  rw [expands] at ok
  unfold Image.psize at kept ok
  split at ok
  next => cases ok
  next =>
    split at ok
    next => cases ok
    next positive =>
      split at ok
      next => cases ok
      next =>
        cases ok
        refine ⟨⟨rfl, rfl⟩, fun i low => ?_, ⟨?_, ?_⟩, fun j low => ?_⟩
        · dsimp only [Image.data]
          have same := kept (1 + i) (by omega) (by omega)
          rw [clearPages_eq, if_neg (by omega), Nat.add_assoc, same, Nat.add_assoc]
        · dsimp only
          omega
        · dsimp only
          omega
        · dsimp only [Image.stack] at low ⊢
          rw [clearPages_eq]
          by_cases old : j < s.ssize
          · have same := kept (1 + s.dsize + j) (by omega) (by omega)
            rw [if_neg (by omega), if_pos old]
            simpa only [Nat.add_assoc] using same
          · rw [if_pos (by omega), if_neg old]

end Calls

/-- After `sbreak` the data reaches up to the break, in whole pages; what is left of it and the
stack hold what they held, and new data is clear. After `grow` the stack reaches up to the page of
the fault; data and stack hold what they held, and new stack is clear. -/
theorem resize_keeps_image (maxmem : Nat) (s : Image α) (fate : Fate α)
    (apart : fate.Apart s.paddr s.psize) (nsiz pg : Nat) :
    (∀ s', sbreak maxmem fate s nsiz = some s' →
      (s'.dsize = (nsiz % 0o100000 + (PGSZ - 1)) / PGSZ - s.tsize ∧
        ∀ i < s'.dsize, s'.data i = if i < s.dsize then s.data i else 0) ∧
      (s'.tsize = s.tsize ∧ s'.ssize = s.ssize) ∧ ∀ j < s.ssize, s'.stack j = s.stack j) ∧
    (∀ s', grow maxmem fate s pg = some s' →
      (s'.tsize = s.tsize ∧ s'.dsize = s.dsize) ∧ (∀ i < s.dsize, s'.data i = s.data i) ∧
      (s'.ssize = pg - USTKPAGE + 1 ∧ s.ssize < s'.ssize) ∧
        ∀ j < s'.ssize, s'.stack j = if j < s.ssize then s.stack j else 0) :=
  ⟨fun _ => sbreak_keeps apart, fun _ => grow_keeps apart⟩

/-- A page of data and a page of stack. -/
def smallImage : Image Nat := ⟨id, 10, 0, 1, 1⟩

/-- The break goes up by two pages, and a fault is two pages above the stack. -/
theorem resize_keeps_image_moved :
    (∃ s', sbreak (NPAGE * PGSZ) (.moved 20) smallImage (3 * PGSZ) = some s' ∧
      s'.dsize = 3 ∧ s'.data 0 = 11 ∧ s'.data 2 = 0 ∧ s'.stack 0 = 12) ∧
    ∃ s', grow (NPAGE * PGSZ) (.moved 20) smallImage (USTKPAGE + 2) = some s' ∧
      s'.ssize = 3 ∧ s'.stack 0 = 12 ∧ s'.stack 2 = 0 := by
  have apart : (Fate.moved 20 : Fate Nat).Apart smallImage.paddr smallImage.psize := by
    rintro _ ⟨⟩
    decide
  have all := resize_keeps_image (NPAGE * PGSZ) smallImage (.moved 20) apart (3 * PGSZ)
    (USTKPAGE + 2)
  have broken : (sbreak (NPAGE * PGSZ) (.moved 20) smallImage (3 * PGSZ)).isSome = true := by
    decide +kernel
  have grown : (grow (NPAGE * PGSZ) (.moved 20) smallImage (USTKPAGE + 2)).isSome = true := by
    decide +kernel
  constructor
  · obtain ⟨s', ok⟩ := Option.isSome_iff_exists.mp broken
    obtain ⟨⟨size, data⟩, -, stack⟩ := all.1 s' ok
    have three : s'.dsize = 3 := size
    exact ⟨s', ok, three, data 0 (by omega), data 2 (by omega), stack 0 (by decide)⟩
  · obtain ⟨s', ok⟩ := Option.isSome_iff_exists.mp grown
    obtain ⟨-, -, ⟨size, -⟩, stack⟩ := all.2 s' ok
    have three : s'.ssize = 3 := size
    exact ⟨s', ok, three, stack 0 (by omega), stack 2 (by omega)⟩

end V7Besm.Mem

import V7Besm.Fs.FreeList

/-!
The cache of i-numbers as a stack.

`cached` lists the numbers in the superblock, the next one to be popped first. On a volume
whose inodes in use have links, and with room in the inode table, `ialloc` and
`inode_alloc` both drop the numbers that cannot be used and take the next one; an
empty cache is filled from the i-list. The two searches differ in inode 1 alone.
-/

namespace V7Besm.Fs

open Alloc Spin List

variable {now : Int} {fs : Filsys} {d : Disk} {ino : Int} {c rest : List Int}

/-! ### The stack -/

def cacheList (inode : Int → Int) : Nat → List Int
  | 0 => []
  | n + 1 => inode n :: cacheList inode n

/-- The numbers in the cache, the top first. -/
def cached (fs : Filsys) : List Int := cacheList fs.inode fs.ninode.toNat

@[simp]
theorem cacheList_length (inode : Int → Int) (n : Nat) : (cacheList inode n).length = n := by
  induction n with
  | zero => rfl
  | succ n ih => rw [cacheList, length_cons, ih]

variable {n : Nat}

theorem cacheList_congr {inode inode' : Int → Int}
    (same : ∀ i : Nat, i < n → inode' i = inode i) : cacheList inode' n = cacheList inode n := by
  induction n with
  | zero => rfl
  | succ n ih =>
    rw [cacheList, cacheList, same n (by omega), ih fun i below => same i (by omega)]

theorem mem_cacheList (inode : Int → Int) {i : Nat} (below : i < n) :
    inode i ∈ cacheList inode n := by
  induction n with
  | zero => omega
  | succ n ih =>
    obtain rfl | lower : i = n ∨ i < n := by omega
    · exact mem_cons_self
    · exact mem_cons_of_mem _ (ih lower)

theorem cached_length (nonneg : 0 ≤ fs.ninode) : ((cached fs).length : Int) = fs.ninode := by
  rw [cached, cacheList_length]
  omega

/-- What is below a part of the stack is still there when that part has been popped. -/
theorem cacheList_suffix {inode : Int → Int} (suffix : rest <:+ cacheList inode n) :
    cacheList inode rest.length = rest := by
  induction n with
  | zero =>
    rw [suffix_nil.mp suffix]
    rfl
  | succ n ih =>
    rw [cacheList, suffix_cons_iff] at suffix
    obtain rfl | below := suffix
    · rw [length_cons, cacheList_length, cacheList]
    · exact ih below

theorem cached_pop (suffix : rest <:+ cached fs) :
    cached { fs with ninode := rest.length } = rest := cacheList_suffix suffix

theorem cached_push (nonneg : 0 ≤ fs.ninode) (ino : Int) :
    cached { fs with inode := Function.update fs.inode fs.ninode ino, ninode := fs.ninode + 1 } =
      ino :: cached fs := by
  have count : (fs.ninode + 1).toNat = fs.ninode.toNat + 1 := by omega
  have index : ((fs.ninode.toNat : Nat) : Int) = fs.ninode := by omega
  unfold cached
  dsimp only
  rw [count, cacheList, index, Function.update_self]
  congr 1
  refine cacheList_congr ?_
  intro i below
  exact Function.update_of_ne (by omega) _ _

theorem cached_pushInodes (nonneg : 0 ≤ fs.ninode) (l : List Int) :
    cached (pushInodes fs l) = l.reverse ++ cached fs := by
  induction l generalizing fs with
  | nil => rfl
  | cons ino l ih =>
    rw [pushInodes, ih (by dsimp only; omega), cached_push nonneg, reverse_cons,
      append_assoc, singleton_append]

/-- An i-number that can be handed out. -/
def usable (d : Disk) (ino : Int) : Bool := ROOTINO ≤ ino ∧ d.dinode ino DI_MODE = 0

/-- The stack without the numbers that are passed over. -/
def live (d : Disk) (c : List Int) : List Int := c.dropWhile fun ino => !usable d ino

theorem live_suffix (d : Disk) (c : List Int) : live d c <:+ c := dropWhile_suffix _

theorem live_cons_of_usable (yes : usable d ino = true) : live d (ino :: c) = ino :: c := by
  simp [live, yes]

theorem live_cons_of_not (no : usable d ino = false) : live d (ino :: c) = live d c := by
  simp [live, no]

theorem usable_of_live (first : live d c = ino :: rest) : usable d ino = true := by
  induction c with
  | nil => cases first
  | cons i c ih =>
    by_cases yes : usable d i = true
    · rw [live_cons_of_usable yes] at first
      cases first
      exact yes
    · rw [live_cons_of_not (eq_false_of_ne_true yes)] at first
      exact ih first

/-- Inode 1 at the bottom of the stack is never taken. -/
theorem live_append_one (d : Disk) (c : List Int) :
    live d (c ++ [1]) = if live d c = [] then [] else live d c ++ [1] := by
  have one : usable d 1 = false := by
    exact decide_eq_false (fun both => absurd both.1 (by decide))
  induction c with
  | nil => simp [live, one]
  | cons i c ih =>
    by_cases yes : usable d i = true
    · rw [cons_append, live_cons_of_usable yes, live_cons_of_usable yes,
        if_neg (cons_ne_nil _ _), cons_append]
    · rw [cons_append, live_cons_of_not (eq_false_of_ne_true yes),
        live_cons_of_not (eq_false_of_ne_true yes), ih]

/-- A loop that takes the numbers from the top of the stack; `state n` has `n` of them left. It
returns with the first one that can be used, or goes on with an empty stack. -/
theorem returns_of_stack {σ ρ : Type} (turn : σ → σ ⊕ ρ) {inode : Int → Int} (state : Nat → σ)
    (out : Int → List Int → ρ) (turns : ∀ i < n, turn (state (i + 1)) =
      if usable d (inode i) then .inr (out (inode i) (cacheList inode i)) else .inl (state i)) :
    match live d (cacheList inode n) with
    | [] => ∀ r, Returns turn (state n) r ↔ Returns turn (state 0) r
    | ino :: rest => Returns turn (state n) (out ino rest) := by
  induction n with
  | zero => exact fun _ => Iff.rfl
  | succ n ih =>
    have top := turns n (Nat.lt_succ_self n)
    rw [cacheList]
    by_cases yes : usable d (inode n) = true
    · rw [if_pos yes] at top
      rw [live_cons_of_usable yes]
      exact returns_of_inr top
    · rw [if_neg yes] at top
      rw [live_cons_of_not (eq_false_of_ne_true yes)]
      simp only [returns_iff_of_inl top]
      exact ih fun i below => turns i (by omega)

/-! ### The kernel -/

section Kernel

variable {s : Kern}

/-- The inodes in use have links, and there is room in the inode table. -/
structure Kern.Clean (s : Kern) : Prop where
  core : s.core = []
  room : s.others < NINODE
  linked : ∀ ino ∈ cached s.fs, ROOTINO ≤ ino → s.disk.dinode ino DI_MODE ≠ 0 →
    0 < s.disk.dinode ino DI_NLINK

/-- An inode is handed out and the numbers `rest` are left. -/
def Kern.handedOut (s : Kern) (ino : Int) (rest : List Int) : Kern :=
  { s with
    fs := { s.fs with ninode := rest.length, tinode := s.fs.tinode - 1, fmod := 1 }
    core := [⟨ino, true, 0⟩] }

theorem Kern.Clean.away (clean : s.Clean) (m ino : Int) : (s.withCache m).incore ino = none := by
  change s.core.find? _ = none
  rw [clean.core]
  rfl

theorem Kern.Clean.not_full (clean : s.Clean) (m : Int) : (s.withCache m).full = false := by
  have few := clean.room
  change decide (s.core.length + s.others ≥ NINODE) = false
  rw [clean.core, length_nil, decide_eq_false_iff_not]
  omega

theorem judge_of_clean (clean : s.Clean) (within : ino ∈ cached s.fs) (m : Int)
    (no : ¬usable s.disk ino = true) : (s.withCache m).judge now ino = .skip := by
  unfold Kern.judge
  by_cases low : ino < ROOTINO
  · rw [if_pos low]
  have mode : s.disk.dinode ino DI_MODE ≠ 0 := fun mode => no (decide_eq_true ⟨by omega, mode⟩)
  rw [if_neg low, clean.away]
  rw [clean.not_full, if_neg Bool.false_ne_true]
  change (if s.disk.dinode ino DI_MODE = 0 then _
    else if 0 < s.disk.dinode ino DI_NLINK then _ else _) = _
  rw [if_neg mode, if_pos (clean.linked ino within (by omega) mode)]

/-- A number that can be used is taken, another one is passed over. -/
theorem iallocTurn_withCache (now : Int) (clean : s.Clean) (below : n < s.fs.ninode.toNat) :
    iallocTurn now (s.withCache (n + 1 : Nat)) =
      if usable s.disk (s.fs.inode n) then
        .inr (.inode (s.fs.inode n), s.handedOut (s.fs.inode n) (cacheList s.fs.inode n))
      else .inl (s.withCache n) := by
  rw [iallocTurn_pop now rfl]
  change iallocNumber now (s.withCache n) (s.fs.inode n) = _
  split
  next yes =>
    obtain ⟨root, mode⟩ : ROOTINO ≤ s.fs.inode n ∧ s.disk.dinode (s.fs.inode n) DI_MODE = 0 := by
      simpa [usable] using yes
    rw [iallocNumber_of_free now root (clean.away n _) (clean.not_full n) mode]
    unfold handOut Kern.handedOut
    rw [cacheList_length, show (s.withCache n).core = [] from clean.core]
    rfl
  next no =>
    have spec := iallocNumber_of_judge now (s.withCache n) (s.fs.inode n)
    rwa [judge_of_clean clean (mem_cacheList _ below) _ no] at spec

/-- The first number that can be used is taken; if there is none, the search decides. -/
theorem ialloc_of_cached (now : Int) (clean : s.Clean) (nonneg : 0 ≤ s.fs.ninode) :
    match live s.disk (cached s.fs) with
    | [] => ∀ r, Returns (iallocTurn now) s r ↔ Returns (iallocTurn now) (s.withCache 0) r
    | ino :: rest => Returns (iallocTurn now) s (.inode ino, s.handedOut ino rest) := by
  have stack := returns_of_stack (iallocTurn now) (fun n => s.withCache n) (fun ino rest =>
    (.inode ino, s.handedOut ino rest)) fun _ below => iallocTurn_withCache now clean below
  have all : s.withCache s.fs.ninode.toNat = s := by
    rw [Int.toNat_of_nonneg nonneg]
    rfl
  rwa [all] at stack

end Kernel

/-! ### The host -/

section Host

variable {f : Filesystem}

/-- `n` numbers are left in the cache. -/
def Filesystem.withCache (f : Filesystem) (n : Int) : Filesystem :=
  { f with sb := { f.sb with ninode := n } }

/-- An inode is handed out and the numbers `rest` are left. -/
def Filesystem.handedOut (f : Filesystem) (rest : List Int) : Filesystem :=
  { f with sb := { f.sb with ninode := rest.length, tinode := f.sb.tinode - 1 } }

/-- The inodes of the cached numbers are in the image. -/
def Filesystem.Within (f : Filesystem) : Prop :=
  ∀ ino ∈ cached f.sb, ROOTINO ≤ ino → f.outside (itod ino) = false

theorem inodeAllocTurn_withCache (within : f.Within) (below : n < f.sb.ninode.toNat) :
    inodeAllocTurn (f.withCache (n + 1 : Nat)) =
      if usable f.disk (f.sb.inode n) then
        .inr (.ok (f.sb.inode n), f.handedOut (cacheList f.sb.inode n))
      else .inl (f.withCache n) := by
  have some_left : (f.withCache (n + 1 : Nat)).sb.ninode > 0 := Int.natCast_pos.mpr n.succ_pos
  have left : (f.withCache (n + 1 : Nat)).sb.ninode - 1 = n := by
    change ((n + 1 : Nat) : Int) - 1 = n
    omega
  unfold inodeAllocTurn usable Filesystem.handedOut
  rw [cacheList_length, if_pos some_left, left]
  dsimp only [Filesystem.withCache]
  by_cases low : f.sb.inode n < ROOTINO
  · rw [if_pos low, if_neg]
    rw [decide_eq_true_eq]
    omega
  have inside : f.outside (itod (f.sb.inode n)) = false :=
    within _ (mem_cacheList _ below) (by omega)
  rw [if_neg low]
  change (if f.outside (itod (f.sb.inode n)) then _
    else if f.disk.dinode (f.sb.inode n) DI_MODE = 0 then _ else _) = _
  rw [inside, if_neg Bool.false_ne_true]
  refine if_congr ?_ rfl rfl
  rw [decide_eq_true_eq]
  exact ⟨fun mode => ⟨by omega, mode⟩, And.right⟩

/-- The first number that can be used is taken; if there is none, the search decides. -/
theorem inodeAlloc_of_cached (within : f.Within) (nonneg : 0 ≤ f.sb.ninode) :
    match live f.disk (cached f.sb) with
    | [] => ∀ r, Returns inodeAllocTurn f r ↔ Returns inodeAllocTurn (f.withCache 0) r
    | ino :: rest => Returns inodeAllocTurn f (.ok ino, f.handedOut rest) := by
  have stack := returns_of_stack inodeAllocTurn (fun n => f.withCache n) (fun ino rest =>
    (.ok ino, f.handedOut rest)) fun _ below => inodeAllocTurn_withCache within below
  have all : f.withCache f.sb.ninode.toNat = f := by
    rw [Int.toNat_of_nonneg nonneg]
    rfl
  rwa [all] at stack

theorem refillBlock_eq {adr : Int} (within : n ≤ INOPB)
    (at_slot : ino = INOPB * (adr - 1) + (INOPB - n : Nat) + 1) (room : f.sb.ninode < NICINOD) :
    refillBlock adr n ino f =
      { f with sb := fillUp f.sb ((inosFrom ino n).filter (usable f.disk)) } := by
  induction n generalizing ino f with
  | zero => simp [refillBlock, inosFrom]
  | succ n ih =>
    obtain ⟨block, slot⟩ := slot_of_ino within at_slot
    have same : f.disk.get adr ((INOPB - (n + 1)) * 16) = f.disk.dinode ino DI_MODE := by
      rw [Disk.dinode, slot, block, Nat.mul_comm]
      rfl
    have next : ino + 1 = INOPB * (adr - 1) + (INOPB - n : Nat) + 1 := by omega
    rw [refillBlock, inosFrom, same]
    by_cases yes : usable f.disk ino = true
    · obtain ⟨root, mode⟩ : ROOTINO ≤ ino ∧ f.disk.dinode ino DI_MODE = 0 := by
        simpa [usable] using yes
      rw [if_neg (by omega), if_neg (by simpa using mode), filter_cons_of_pos yes, fillUp_cons room]
      dsimp only
      split
      next stop => rw [fillUp_full stop]
      next go => exact ih (by omega) next (by dsimp only; omega)
    · rw [filter_cons_of_neg yes, ← ih (by omega) next room]
      by_cases low : ino < ROOTINO
      · rw [if_pos low]
      · rw [if_neg low, if_pos]
        intro mode
        exact yes (decide_eq_true ⟨by omega, mode⟩)

theorem refill_eq {adr : Int} (start : 0 ≤ adr) (covers : adr + n ≤ f.nblk)
    (at_block : ino = INOPB * (adr - 1) + 1) (room : f.sb.ninode < NICINOD) :
    Fs.refill n adr ino f =
      (.ok (), { f with sb := fillUp f.sb ((inosFrom ino (INOPB * n)).filter (usable f.disk)) }) := by
  induction n generalizing adr ino f with
  | zero => simp [Fs.refill, inosFrom]
  | succ n ih =>
    have first : ino = INOPB * (adr - 1) + (INOPB - INOPB : Nat) + 1 := by
      rw [at_block, Nat.sub_self]
      simp
    have inside : f.outside adr = false := by
      simp only [Filesystem.outside, decide_eq_false_iff_not]
      omega
    rw [Fs.refill, inside, if_neg Bool.false_ne_true, inosFrom_blocks, filter_append,
      fillUp_append, refillBlock_eq (Nat.le_refl _) first room]
    dsimp only
    split
    next stop => rw [fillUp_full stop]
    next go =>
      refine ih (by omega) (by dsimp only; omega) ?_ (by dsimp only; omega)
      simp only [INOPB] at at_block ⊢
      omega

/-- The free inodes of the i-list, as the host's search sees them. -/
def Filesystem.vacancies (f : Filesystem) : List Int :=
  (inosFrom 1 (INOPB * (f.sb.isize - 1).toNat)).filter (usable f.disk)

/-- The stack that a search leaves: the last of the numbers found is on top. -/
def found (l : List Int) : List Int := (l.take NICINOD.toNat).reverse

theorem pushInodes_eq (fs : Filsys) (l : List Int) :
    pushInodes fs l = { fs with
      inode := (pushInodes fs l).inode
      ninode := (pushInodes fs l).ninode } := by
  induction l generalizing fs with
  | nil => rfl
  | cons ino l ih =>
    exact ih _

theorem fillUp_of_empty (count : fs.ninode = 0) (l : List Int) :
    fillUp fs l = pushInodes fs (l.take NICINOD.toNat) := by
  rw [fillUp, count, Int.sub_zero]

theorem cached_fillUp (count : fs.ninode = 0) (l : List Int) : cached (fillUp fs l) = found l := by
  have none_left : cached fs = [] := by
    rw [cached, count]
    rfl
  rw [fillUp_of_empty count, cached_pushInodes (by omega), none_left, append_nil, found]

theorem fillUp_ninode (count : fs.ninode = 0) (l : List Int) :
    (fillUp fs l).ninode = (found l).length := by
  rw [fillUp_of_empty count, pushInodes_ninode, count, found, length_reverse]
  omega

theorem inodeAllocTurn_search (count : f.sb.ninode = 0) (covers : f.sb.isize ≤ f.nblk)
    (size : 0 < f.sb.isize) :
    inodeAllocTurn f =
      if found f.vacancies = [] then .inr (.error (.outOfInodes f.inodeCount), f)
      else .inl { f with sb := fillUp f.sb f.vacancies } := by
  have room : f.sb.ninode < NICINOD := by
    rw [count]
    decide
  have searched : Fs.refill (f.sb.isize - 1).toNat (SUPERB + 1) 1 f =
      (.ok (), { f with sb := fillUp f.sb f.vacancies }) := by
    refine refill_eq (by decide) ?_ (by decide) room
    simp only [SUPERB]
    omega
  unfold inodeAllocTurn
  rw [if_neg (by omega), searched]
  dsimp only
  rw [fillUp_ninode count]
  by_cases nothing : found f.vacancies = []
  · have same : fillUp f.sb f.vacancies = f.sb := by
      rw [fillUp_of_empty count, reverse_eq_nil_iff.mp nothing, pushInodes]
    rw [if_pos nothing, nothing, same]
    rfl
  · have positive := length_pos_iff.mpr nothing
    rw [if_neg nothing, if_pos (by omega)]

end Host

end V7Besm.Fs

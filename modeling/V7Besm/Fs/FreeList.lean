import V7Besm.Fs.Host
import V7Besm.Fs.Ialloc

/-!
The free list as a stack.

`FreeList` says which blocks the superblock's cache and the chain blocks behind it list,
in the order in which they are popped. Both allocators are then operations on that
stack: as long as the list is well formed, `alloc` and `block_alloc` pop the same block
and `free` and `block_free` push it, and both sides leave the same cache and the same
chain blocks.
-/

namespace V7Besm.Fs

open Alloc Function List

variable {strict lossy : Bool} {d d' : Disk} {fs : Filsys} {b bno : Int} {l : List Int}

/-- The free list holds the blocks `l`, the next one to be popped first. In a `strict` list the
end mark, if there is one, is at the bottom of a cache; a `lossy` one ends with a chain
block that has no numbers in it. -/
inductive FreeList (strict lossy : Bool) (d : Disk) : Filsys → List Int → Prop where
  | empty {fs : Filsys} : lossy = false → fs.nfree = 0 → FreeList strict lossy d fs []
  | bottom {fs : Filsys} {n : Nat} : lossy = false → fs.nfree = (n + 1 : Nat) → fs.free n = 0 →
      (strict = true → n = 0) → FreeList strict lossy d fs []
  | pop {fs : Filsys} {n : Nat} {b : Int} {l : List Int} : fs.nfree = (n + 2 : Nat) →
      fs.free (n + 1 : Nat) = b → badblock fs b = false →
      FreeList strict lossy d { fs with nfree := (n + 1 : Nat) } l →
      FreeList strict lossy d fs (b :: l)
  | chain {fs : Filsys} {b : Int} {l : List Int} : fs.nfree = 1 → fs.free 0 = b →
      badblock fs b = false → 1 ≤ d.get b 0 → d.get b 0 ≤ NICFREE →
      FreeList strict lossy d { fs with nfree := d.get b 0, free := chainFree d b fs.free } l →
      FreeList strict lossy d fs (b :: l)
  | last {fs : Filsys} {b : Int} : lossy = true → fs.nfree = 1 → fs.free 0 = b →
      badblock fs b = false → d.get b 0 = 0 → FreeList strict lossy d fs [b]

/-! ### What the list depends on -/

/-- The fields the free list is read from: the count, the cached numbers below it and the
limits of the data area. -/
structure SameCache (fs fs' : Filsys) : Prop where
  nfree : fs'.nfree = fs.nfree
  isize : fs'.isize = fs.isize
  fsize : fs'.fsize = fs.fsize
  free : ∀ i, 0 ≤ i → i < fs.nfree → fs'.free i = fs.free i

theorem SameCache.badblock {fs' : Filsys} (same : SameCache fs fs') (b : Int) :
    badblock fs' b = badblock fs b := by
  unfold Alloc.badblock
  rw [same.isize, same.fsize]

theorem FreeList.congr {fs' : Filsys} (list : FreeList strict lossy d fs l) (same : SameCache fs fs') :
    FreeList strict lossy d fs' l := by
  induction list generalizing fs' with
  | empty kind none_left => exact .empty kind (same.nfree.trans none_left)
  | bottom kind count mark at_bottom =>
    refine .bottom kind (same.nfree.trans count) ?_ at_bottom
    rwa [same.free _ (by omega) (by omega)]
  | pop count top good _ ih =>
    refine .pop (same.nfree.trans count) ?_ (by rw [same.badblock]; exact good) (ih ?_)
    · rwa [same.free _ (by omega) (by omega)]
    · refine ⟨rfl, same.isize, same.fsize, ?_⟩
      intro i low high
      dsimp only at high ⊢
      exact same.free i low (by omega)
  | chain count top good low high _ ih =>
    refine .chain (same.nfree.trans count) ?_ (by rw [same.badblock]; exact good) low high (ih ?_)
    · rwa [same.free _ (by omega) (by omega)]
    · refine ⟨rfl, same.isize, same.fsize, ?_⟩
      intro i low' high'
      dsimp only at high' ⊢
      unfold chainFree
      rw [if_pos (by omega), if_pos (by omega)]
  | last kind count top good zero =>
    refine .last kind (same.nfree.trans count) ?_ (by rw [same.badblock]; exact good) zero
    rwa [same.free _ (by omega) (by omega)]

/-- The words of the listed blocks are all that is read. -/
theorem FreeList.frame (list : FreeList strict lossy d fs l) (same : ∀ b ∈ l, d' b = d b) :
    FreeList strict lossy d' fs l := by
  induction list with
  | empty kind none_left => exact .empty kind none_left
  | bottom kind count mark at_bottom => exact .bottom kind count mark at_bottom
  | pop count top good _ ih =>
    exact .pop count top good (ih fun b within => same b (mem_cons_of_mem _ within))
  | @chain fs b l count top good low high _ ih =>
    have here : d' b = d b := same b mem_cons_self
    have get : ∀ i, d'.get b i = d.get b i := by
      intro i
      rw [Disk.get, Disk.get, here]
    have free : chainFree d' b fs.free = chainFree d b fs.free := by
      funext i
      simp only [chainFree, get]
    refine .chain count top good (by rw [get]; exact low) (by rw [get]; exact high) ?_
    rw [get, free]
    exact ih fun b within => same b (mem_cons_of_mem _ within)
  | @last fs b kind count top good zero =>
    refine .last kind count top good ?_
    rwa [Disk.get, same b mem_cons_self]

theorem FreeList.good (list : FreeList strict lossy d fs l) : ∀ b ∈ l, badblock fs b = false := by
  induction list with
  | empty _ _ | bottom _ _ _ _ => intro b within; cases within
  | pop _ _ good _ ih | chain _ _ good _ _ _ ih => exact forall_mem_cons.mpr ⟨good, ih⟩
  | last _ _ _ good _ =>
    intro b within
    cases mem_singleton.mp within
    exact good

/-- A strict list's cached numbers are data blocks or the end mark. -/
theorem FreeList.cached (list : FreeList true lossy d fs l) :
    ∀ i : Int, 0 ≤ i → i < fs.nfree → fs.free i = 0 ∨ badblock fs (fs.free i) = false := by
  induction list with
  | empty _ none_left =>
    intro i low high
    omega
  | bottom _ count mark at_bottom =>
    intro i low high
    cases at_bottom rfl
    obtain rfl : i = 0 := by omega
    exact .inl mark
  | @pop fs n b l count top good _ ih =>
    intro i low high
    by_cases last : i = (n + 1 : Nat)
    · rw [last, top]
      exact .inr good
    · exact ih i low (by dsimp only; omega)
  | chain count top good _ _ _ _ | last _ count top good _ =>
    intro i low high
    obtain rfl : i = 0 := by omega
    rw [top]
    exact .inr good

theorem FreeList.nfree_nonneg (list : FreeList strict lossy d fs l) : 0 ≤ fs.nfree := by
  cases list <;> omega

/-! ### Pushing -/

/-- The superblock behind `free`, apart from the flag that it was changed. -/
def pushed (fs : Filsys) (bno : Int) : Filsys :=
  let fs := sentinel fs
  let fs := if fs.nfree ≥ NICFREE then { fs with nfree := 0 } else fs
  { fs with
    free := update fs.free fs.nfree bno
    nfree := fs.nfree + 1
    tfree := fs.tfree + 1 }

/-- The disk behind `free`: a full cache goes into the block. -/
def pushedDisk (fs : Filsys) (d : Disk) (bno : Int) : Disk :=
  if (sentinel fs).nfree ≥ NICFREE then update d bno (chainWords (sentinel fs)) else d

theorem fits_cached {v : Int} (size : 0 < fs.isize) (fits : Fits fs.fsize)
    (cached : v = 0 ∨ badblock fs v = false) : Fits v := by
  obtain ⟨low, high⟩ := fits
  unfold Fits
  obtain rfl | good := cached
  · decide
  · simp only [badblock, decide_eq_false_iff_not] at good
    simp only [WORD_MIN] at low ⊢
    omega

theorem sentinel_of_pos (count : 0 < fs.nfree) : sentinel fs = fs := if_neg (by omega)

theorem FreeList.push (list : FreeList true false d fs l) (room : fs.nfree ≤ NICFREE)
    (size : 0 < fs.isize) (fits : Fits fs.fsize) (good : badblock fs bno = false)
    (fresh : bno ∉ l) :
    FreeList true false (pushedDisk fs d bno) (pushed fs bno) (bno :: l) := by
  have nonneg := list.nfree_nonneg
  by_cases none_left : fs.nfree = 0
  · -- the first block on an empty list goes on top of an end mark
    have nil : l = [] := by
      cases list with
      | empty _ _ => rfl
      | bottom _ _ _ _ => rfl
      | pop count _ _ _ | chain count _ _ _ _ _ | last _ count _ _ _ => omega
    have planted : sentinel fs = { fs with nfree := 1, free := update fs.free 0 0 } :=
      if_pos (by omega)
    have disk : pushedDisk fs d bno = d := by
      unfold pushedDisk
      rw [planted]
      rfl
    have super : pushed fs bno = { fs with
        nfree := 2
        free := update (update fs.free 0 0) 1 bno
        tfree := fs.tfree + 1 } := by
      unfold pushed
      rw [planted]
      rfl
    rw [nil, disk, super]
    exact .pop rfl rfl good (.bottom rfl rfl rfl fun _ => rfl)
  · have kept : sentinel fs = fs := sentinel_of_pos (by omega)
    by_cases full : fs.nfree = NICFREE
    · -- the cache spills into the block
      have disk : pushedDisk fs d bno = update d bno (chainWords fs) := by
        unfold pushedDisk
        rw [kept]
        exact if_pos (by omega)
      have super : pushed fs bno = { fs with
          nfree := 1
          free := update fs.free 0 bno
          tfree := fs.tfree + 1 } := by
        unfold pushed
        rw [kept]
        dsimp only
        rw [if_pos (by omega)]
        rfl
      have count : (pushedDisk fs d bno).get bno 0 = fs.nfree := by
        rw [disk, Disk.get, update_self]
        change fs.nfree ≤ 320 at room
        exact fromWord_toWord (by unfold Fits WORD_MIN WORD_MAX; omega)
      have rest : FreeList true false (pushedDisk fs d bno) fs l := by
        refine list.frame ?_
        intro b within
        rw [disk]
        refine update_of_ne ?_ _ _
        rintro rfl
        exact fresh within
      rw [super]
      refine .chain rfl rfl good (by rw [count]; omega) (by rw [count]; exact room) ?_
      refine rest.congr ⟨count, rfl, rfl, ?_⟩
      intro i low high
      dsimp only
      have below : ¬ (1 + i.toNat = 0) := by omega
      have within : 1 + i.toNat ≤ NICFREE.toNat := by omega
      have index : ((1 + i.toNat - 1 : Nat) : Int) = i := by omega
      unfold chainFree
      rw [if_pos (by omega), disk, Disk.get, update_self, chainWords, if_neg below,
        if_pos within, index]
      exact fromWord_toWord (fits_cached size fits (list.cached i low high))
    · -- one more in the cache
      have disk : pushedDisk fs d bno = d := by
        unfold pushedDisk
        rw [kept]
        exact if_neg (by omega)
      have super : pushed fs bno = { fs with
          nfree := fs.nfree + 1
          free := update fs.free fs.nfree bno
          tfree := fs.tfree + 1 } := by
        unfold pushed
        rw [kept]
        dsimp only
        rw [if_neg (by omega)]
      obtain ⟨n, at_top⟩ : ∃ n : Nat, fs.nfree = (n + 1 : Nat) := ⟨fs.nfree.toNat - 1, by omega⟩
      rw [disk, super]
      refine .pop (n := n) ?_ ?_ good ?_
      · dsimp only
        omega
      · rw [← at_top]
        exact update_self ..
      · refine list.congr ⟨at_top.symm, rfl, rfl, ?_⟩
        intro i low high
        exact update_of_ne (by omega) _ _

/-! ### Popping -/

/-- The superblock behind `alloc` of the block `b`, apart from the flag that it was changed. -/
def popped (d : Disk) (fs : Filsys) (b : Int) : Filsys :=
  if fs.nfree = 1 then
    { fs with nfree := d.get b 0, free := chainFree d b fs.free, tfree := fs.tfree - 1 }
  else { fs with nfree := fs.nfree - 1, tfree := fs.tfree - 1 }

/-- The disk behind `alloc` of the block `b`. -/
def poppedDisk (d : Disk) (b : Int) : Disk := update d b fun _ => 0

section

variable (list : FreeList strict lossy d fs (b :: l))
include list

theorem FreeList.tail (fresh : b ∉ l) (more : lossy = true → l ≠ []) :
    FreeList strict lossy (poppedDisk d b) (popped d fs b) l := by
  have same : ∀ c ∈ l, poppedDisk d b c = d c := by
    intro c within
    refine update_of_ne ?_ _ _
    rintro rfl
    exact fresh within
  cases list with
  | @pop _ n _ _ count top good rest =>
    unfold popped
    rw [if_neg (by omega)]
    refine (rest.frame same).congr ⟨?_, rfl, rfl, fun i low high => rfl⟩
    dsimp only
    omega
  | chain count top good low high rest =>
    unfold popped
    rw [if_pos count]
    exact (rest.frame same).congr ⟨rfl, rfl, rfl, fun i low high => rfl⟩
  | last kind _ _ _ _ => exact absurd rfl (more kind)

/-- The block on top of the cache is popped, and the chain block in it is loaded if it was the
last one. -/
theorem FreeList.top (more : lossy = true → l ≠ []) :
    ∃ n : Nat, fs.nfree = (n + 1 : Nat) ∧ fs.free n = b ∧ badblock fs b = false ∧
      if n = 0 then 1 ≤ d.get b 0 ∧ d.get b 0 ≤ NICFREE ∧ popped d fs b =
        { fs with nfree := d.get b 0, free := chainFree d b fs.free, tfree := fs.tfree - 1 }
      else popped d fs b = { fs with nfree := n, tfree := fs.tfree - 1 } := by
  cases list with
  | @pop _ n _ _ count top good rest =>
    have left : fs.nfree - 1 = (n + 1 : Nat) := by omega
    refine ⟨n + 1, count, top, good, ?_⟩
    rw [if_neg n.succ_ne_zero, popped, if_neg (by omega), left]
  | chain count top good low high rest =>
    exact ⟨0, count, top, good, low, high, if_pos count⟩
  | last kind _ _ _ _ => exact absurd rfl (more kind)

theorem FreeList.popped_nfree (more : lossy = true → l ≠ []) (room : fs.nfree ≤ NICFREE) :
    0 ≤ (popped d fs b).nfree ∧ (popped d fs b).nfree ≤ NICFREE := by
  obtain ⟨n, count, -, -, behind⟩ := list.top more
  split at behind
  next =>
    rw [behind.2.2]
    dsimp only
    omega
  next =>
    rw [behind]
    dsimp only
    omega

end

theorem ne_zero_of_good (size : 0 < fs.isize) (good : badblock fs b = false) : b ≠ 0 := by
  simp only [badblock, decide_eq_false_iff_not] at good
  omega

/-! ### The kernel -/

section Kernel

variable {s : Kern}

theorem popBlock_good {n : Nat} (top : fs.free n = b) (nonzero : b ≠ 0)
    (good : badblock fs b = false) : popBlock fs (n + 1) = ({ fs with nfree := n }, some b) := by
  rw [popBlock, top]
  simp only [if_neg nonzero, good, Bool.false_eq_true, if_false]

theorem alloc_cons (list : FreeList strict lossy s.disk s.fs (b :: l)) (counts : s.Counts)
    (size : 0 < s.fs.isize) (more : lossy = true → l ≠ []) :
    alloc s = (some b, { s with
      fs := { popped s.disk s.fs b with fmod := 1 }
      disk := poppedDisk s.disk b }) := by
  obtain ⟨n, count, top, good, behind⟩ := list.top more
  have pop : popBlock s.fs s.fs.nfree.toNat = ({ s.fs with nfree := n }, some b) := by
    rw [count, Int.toNat_natCast]
    exact popBlock_good top (ne_zero_of_good size good) good
  unfold alloc
  rw [getfs_eq counts]
  rw [if_neg (by omega), pop]
  dsimp only
  split at behind
  next none_left =>
    obtain ⟨low, high, behind⟩ := behind
    have loaded : reload s.disk { s.fs with nfree := n } b =
        { s.fs with nfree := s.disk.get b 0, free := chainFree s.disk b s.fs.free } :=
      if_pos (by dsimp only; omega)
    rw [behind, loaded, if_neg (by dsimp only; omega)]
    rfl
  next some_left =>
    have kept : reload s.disk { s.fs with nfree := n } b = { s.fs with nfree := n } :=
      if_neg (by dsimp only; omega)
    rw [behind, kept, if_neg (by dsimp only; omega)]
    rfl

theorem alloc_nil (list : FreeList strict lossy s.disk s.fs []) (counts : s.Counts) :
    alloc s = (none, { s with fs := { s.fs with nfree := 0, tfree := 0, fmod := 1 } }) := by
  unfold alloc
  rw [getfs_eq counts]
  cases list with
  | empty _ none_left =>
    rw [if_pos (by omega)]
    rfl
  | @bottom _ n _ count mark _ =>
    have at_top : s.fs.nfree.toNat = n + 1 := by omega
    have pop : popBlock s.fs s.fs.nfree.toNat = ({ s.fs with nfree := n }, none) := by
      rw [at_top, popBlock, mark]
      rfl
    rw [if_neg (by omega), pop]
    rfl

theorem free_good (counts : s.Counts) (good : badblock s.fs bno = false) :
    free none s bno = some { s with
      fs := { pushed s.fs bno with fmod := 1 }
      disk := pushedDisk s.fs s.disk bno } := by
  have flagged : sentinel { s.fs with fmod := 1 } = { sentinel s.fs with fmod := 1 } := by
    unfold sentinel
    split <;> rfl
  have good' : badblock { s.fs with fmod := 1 } bno = false := good
  unfold free pushed pushedDisk
  rw [getfs_eq counts]
  rw [if_neg (by simp [good']), flagged]
  by_cases full : (sentinel s.fs).nfree ≥ NICFREE
  · simp only [if_pos full]
    rfl
  · simp only [if_neg full]
    rfl

end Kernel

/-! ### The host -/

section Host

variable {f : Filesystem}

theorem badBlock_eq (f : Filesystem) (bno : Int) : f.badBlock bno = badblock f.sb bno := rfl

theorem not_outside (size : 0 < f.sb.isize) (covers : f.sb.fsize ≤ f.nblk)
    (good : badblock f.sb b = false) : f.outside b = false := by
  simp only [badblock, decide_eq_false_iff_not] at good
  simp only [Filesystem.outside, decide_eq_false_iff_not]
  omega

theorem popCache_good {n : Nat} (top : f.sb.free n = b) (nonzero : b ≠ 0)
    (good : badblock f.sb b = false) :
    popCache f (n + 1) = (.ok b, { f with sb := { f.sb with nfree := n } }) := by
  have good' : Filesystem.badBlock { f with sb := { f.sb with nfree := n } } b = false := good
  rw [popCache, top]
  simp only [if_neg nonzero, good', Bool.false_eq_true, if_false]

theorem clearBlock_good (size : 0 < f.sb.isize) (covers : f.sb.fsize ≤ f.nblk)
    (good : badblock f.sb b = false) :
    clearBlock f b = (.ok b, { f with
      sb := { f.sb with tfree := f.sb.tfree - 1 }
      disk := poppedDisk f.disk b }) := by
  unfold clearBlock
  rw [if_neg (by simp [not_outside size covers good])]
  rfl

/-- `block_alloc` pops the first block of the list. -/
theorem blockAlloc_cons (list : FreeList strict lossy f.disk f.sb (b :: l))
    (room : f.sb.nfree ≤ NICFREE) (size : 0 < f.sb.isize) (covers : f.sb.fsize ≤ f.nblk)
    (more : lossy = true → l ≠ []) :
    blockAlloc f = (.ok b, { f with
      sb := popped f.disk f.sb b
      disk := poppedDisk f.disk b }) := by
  obtain ⟨n, count, top, good, behind⟩ := list.top more
  have pop : popCache f f.sb.nfree.toNat = (.ok b, { f with sb := { f.sb with nfree := n } }) := by
    rw [count, Int.toNat_natCast]
    exact popCache_good top (ne_zero_of_good size good) good
  unfold blockAlloc
  rw [if_neg (by omega), if_neg (by omega), pop]
  dsimp only
  split at behind
  next none_left =>
    obtain ⟨low, high, behind⟩ := behind
    have within : Filesystem.outside { f with sb := { f.sb with nfree := n } } b = false :=
      not_outside size covers good
    have loaded : loadChain { f with sb := { f.sb with nfree := n } } b = (.ok (), { f with
        sb := { f.sb with nfree := f.disk.get b 0, free := chainFree f.disk b f.sb.free } }) := by
      unfold loadChain
      rw [if_neg (ne_true_of_eq_false within)]
      dsimp only
      rw [if_neg (by omega), if_neg (by omega)]
    rw [if_pos (by omega), loaded, behind]
    exact clearBlock_good size covers good
  next some_left =>
    rw [if_neg (by omega), behind]
    exact clearBlock_good size covers good

theorem blockAlloc_nil (list : FreeList strict lossy f.disk f.sb []) (room : f.sb.nfree ≤ NICFREE) :
    ∃ n, blockAlloc f = (.error .noSpace, { f with sb := { f.sb with nfree := n } }) ∧
      (strict = true → n = 0) := by
  unfold blockAlloc
  cases list with
  | empty _ none_left =>
    refine ⟨f.sb.nfree, ?_, fun _ => none_left⟩
    rw [if_pos (by omega)]
  | @bottom _ n _ count mark at_bottom =>
    have at_top : f.sb.nfree.toNat = n + 1 := by omega
    have pop : popCache f f.sb.nfree.toNat =
        (.error .noSpace, { f with sb := { f.sb with nfree := n } }) := by
      rw [at_top, popCache, mark]
      rfl
    refine ⟨n, ?_, ?_⟩
    · rw [if_neg (by omega), if_neg (by omega), pop]
    · intro is_strict
      rw [at_bottom is_strict]
      rfl

theorem blockFree_good (list : FreeList true false f.disk f.sb l) (room : f.sb.nfree ≤ NICFREE)
    (size : 0 < f.sb.isize) (fits : Fits f.sb.fsize) (covers : f.sb.fsize ≤ f.nblk)
    (good : badblock f.sb bno = false) :
    blockFree f bno = (.ok (), { f with
      sb := pushed f.sb bno
      disk := pushedDisk f.sb f.disk bno }) := by
  unfold blockFree pushed pushedDisk
  rw [if_neg (by simp [badBlock_eq, good])]
  by_cases full : (sentinel f.sb).nfree ≥ NICFREE
  · have positive : 0 < f.sb.nfree := by
      by_contra none_left
      have planted : (sentinel f.sb).nfree = 1 := by
        unfold sentinel
        rw [if_pos (by omega)]
      rw [planted] at full
      exact absurd full (by decide)
    have kept := sentinel_of_pos positive
    rw [kept] at full ⊢
    have all_fit : unfit f.sb = none := by
      unfold unfit
      rw [List.find?_eq_none]
      intro v within
      change f.sb.nfree ≤ 320 at room
      simp only [decide_not, Bool.not_eq_true', decide_eq_false_iff_not, not_not]
      cases within with
      | head =>
        unfold Fits WORD_MIN WORD_MAX
        omega
      | tail _ within =>
        obtain ⟨i, below, rfl⟩ := mem_map.mp within
        rw [mem_range] at below
        exact fits_cached size fits (list.cached i (by omega) (by omega))
    have within : f.outside bno = false := not_outside size covers good
    simp only [if_pos full, all_fit]
    rw [if_neg (ne_true_of_eq_false within)]
    rfl
  · simp only [if_neg full]
    rfl

end Host

end V7Besm.Fs

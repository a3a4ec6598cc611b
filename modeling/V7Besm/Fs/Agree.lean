import V7Besm.Fs.Inodes

/-!
The host's allocators beside the kernel's.

Both sides run the same calls: blocks and inodes are allocated and freed, and in between
the callers write their blocks and inodes. `Mirrors` relates a mounted volume and its
image; it is kept by every call, except where the kernel's search of the i-list counts
inode 1 among the free ones and the host's does not.
-/

namespace V7Besm.Fs

open Alloc Spin Function List

/-! ### Calls on both sides -/

/-- What is called. `ifree` and `iwrite` are also the words that the caller writes to the
inode: after `ifree` it has no mode. -/
inductive Op where
  | alloc
  | free (bno : Int)
  | ialloc
  | ifree (ino : Int) (words : Nat → Nat)
  | iwrite (ino : Int) (words : Nat → Nat)
  | write (bno : Int) (words : Nat → Nat)

inductive Res where
  | block (bno : Int)
  | inode (ino : Int)
  | done
  | failed
deriving DecidableEq, Repr

/-- The words of an inode. -/
def putInode (d : Disk) (ino : Int) (words : Nat → Nat) : Disk :=
  update d (itod ino) fun i =>
    if 16 * itoo ino ≤ i ∧ i < 16 * itoo ino + 16 then words (i - 16 * itoo ino)
    else d (itod ino) i

def Res.ofBlock : Option Int → Res
  | some b => .block b
  | none => .failed

/-- Asleep for ever is no result. -/
def Res.ofOut : Out → Option Res
  | .inode ino => some (.inode ino)
  | .nospace => some .failed
  | .tableFull => some .failed
  | .asleep => none

/-- The kernel on the mounted volume. -/
def KernStep (now : Int) (k : Kern) : Op → Res → Kern → Prop
  | .alloc, r, k' => r = Res.ofBlock (alloc k).1 ∧ k' = (alloc k).2
  | .free bno, r, k' => r = .done ∧ free none k bno = some k'
  | .ialloc, r, k' => ∃ out, Ialloc now k out k' ∧ Res.ofOut out = some r
  | .ifree ino words, r, k' => r = .done ∧ k' = { ifree k ino with
      disk := putInode k.disk ino words
      core := k.core.filter fun ip => ip.number ≠ ino }
  | .iwrite ino words, r, k' => r = .done ∧ k' = { k with
      disk := putInode k.disk ino words
      core := k.core.filter fun ip => ip.number ≠ ino }
  | .write bno words, r, k' => r = .done ∧ k' = k.write bno words

def Res.ofHost {α : Type} (ok : α → Res) : Except FsError α → Res
  | .ok a => ok a
  | .error _ => .failed

/-- The host tool on the image. -/
def HostStep (f : Filesystem) : Op → Res → Filesystem → Prop
  | .alloc, r, f' => r = Res.ofHost .block (blockAlloc f).1 ∧ f' = (blockAlloc f).2
  | .free bno, r, f' =>
    r = Res.ofHost (fun _ => .done) (blockFree f bno).1 ∧ f' = (blockFree f bno).2
  | .ialloc, r, f' => ∃ out, InodeAlloc f out f' ∧ r = Res.ofHost .inode out
  | .ifree ino words, r, f' => r = Res.ofHost (fun _ => .done) (inodeFree f ino).1 ∧
      f' = { (inodeFree f ino).2 with disk := putInode f.disk ino words }
  | .iwrite ino words, r, f' => r = .done ∧ f' = { f with disk := putInode f.disk ino words }
  | .write bno words, r, f' => r = .done ∧ f' = f.put bno words

/-- A run of calls with its results. -/
inductive Run {σ : Type} (step : σ → Op → Res → σ → Prop) : σ → List Op → List Res → σ → Prop where
  | nil {s : σ} : Run step s [] [] s
  | cons {s s' s'' : σ} {op : Op} {r : Res} {ops : List Op} {rs : List Res} :
      step s op r s' → Run step s' ops rs s'' → Run step s (op :: ops) (r :: rs) s''

/-- What must be the same on both sides. -/
structure Same (k : Kern) (f : Filesystem) : Prop where
  nfree : k.fs.nfree = f.sb.nfree
  free : ∀ i, 0 ≤ i → i < k.fs.nfree → k.fs.free i = f.sb.free i
  tfree : k.fs.tfree = f.sb.tfree
  tinode : k.fs.tinode = f.sb.tinode
  disk : k.disk = f.disk

/-- Both sides return, with the same results, and leave the same volume. -/
def Agrees (now : Int) (k : Kern) (f : Filesystem) (ops : List Op) : Prop :=
  ∃ rs k' f', Run (KernStep now) k ops rs k' ∧ Run HostStep f ops rs f' ∧ Same k' f'

/-! ### Consistent volumes -/

/-- The number of inodes in the i-list. -/
def Filesystem.ninodes (f : Filesystem) : Nat := INOPB * (f.sb.isize - 1).toNat

/-- A consistent volume: the free list is a chain of different data blocks, as many as the
superblock says, the cached i-numbers are in the i-list, and inodes in use have links. -/
structure Filesystem.Consistent (f : Filesystem) : Prop where
  accepted : sbcheck f.sb = false
  fits : Fits f.sb.fsize
  covers : f.sb.fsize ≤ f.nblk
  list : ∃ l, FreeList true false f.disk f.sb l ∧ l.Nodup ∧ f.sb.tfree = l.length
  cache : ∀ ino ∈ cached f.sb, ino ≤ f.ninodes
  linked : ∀ ino : Int, ROOTINO ≤ ino → ino ≤ f.ninodes → f.disk.dinode ino DI_MODE ≠ 0 →
    0 < f.disk.dinode ino DI_NLINK

/-- The kernel has mounted the image, and has none of its inodes in core. -/
structure Mounted (k : Kern) (f : Filesystem) : Prop where
  fs : k.fs = f.sb
  disk : k.disk = f.disk
  core : k.core = []
  room : k.others < NINODE
  consistent : f.Consistent

/-- The block is not on the free list. -/
def Filesystem.owned (f : Filesystem) (bno : Int) : Prop :=
  badblock f.sb bno = false ∧ ∀ l, FreeList true false f.disk f.sb l → bno ∉ l

/-- A call as it may be made: blocks that are freed or written are owned, inodes are those of the
i-list, and an inode that was handed out is written before the next is asked for. -/
def Legal (k : Kern) (f : Filesystem) : Op → Prop
  | .alloc => True
  | .free bno => f.owned bno
  | .ialloc => k.core = []
  | .ifree ino words => ROOTINO ≤ ino ∧ ino ≤ f.ninodes ∧ fromWord (words DI_MODE) = 0
  | .iwrite ino words => ROOTINO ≤ ino ∧ ino ≤ f.ninodes ∧ fromWord (words DI_MODE) ≠ 0 ∧
      0 < fromWord (words DI_NLINK)
  | .write bno _ => f.owned bno

/-- Every call is as `P` wants it, as long as both sides return the same. -/
def Lawful (P : Kern → Filesystem → Op → Prop) (now : Int) : Kern → Filesystem → List Op → Prop
  | _, _, [] => True
  | k, f, op :: ops => P k f op ∧
      ∀ r k' f', KernStep now k op r k' → HostStep f op r f' → Lawful P now k' f' ops

/-- Inode 1 is free, and there is an i-list that has it. -/
def Filesystem.oneFree (f : Filesystem) : Prop := 1 < f.sb.isize ∧ f.disk.dinode 1 DI_MODE = 0

/-- Where inode 1 makes no difference: it is in use, or an inode is allocated from the cache or
by a search that finds some inodes but not more than fit beside it, and an i-number
is freed while there is room for it and inode 1 in the cache. -/
def Guarded (f : Filesystem) : Op → Prop
  | .ialloc => ¬ f.oneFree ∨ live f.disk (cached f.sb) ≠ [] ∨
      (1 ≤ f.vacancies.length ∧ f.vacancies.length < NICINOD.toNat)
  | .ifree _ _ => ¬ f.oneFree ∨ f.sb.ninode ≠ NICINOD - 1
  | _ => True

/-! ### What is written where -/

variable {one : Prop} {now : Int} {k : Kern} {f : Filesystem} {d : Disk} {ino : Int} {words : Nat → Nat}

theorem itod_bounds {n : Int} (low : 1 ≤ ino) (high : ino ≤ (INOPB * (n - 1).toNat : Nat)) :
    1 ≤ itod ino ∧ itod ino < n := by
  simp only [INOPB] at high
  unfold itod
  simp only [INOPB]
  omega

variable {bno : Int}

theorem dinode_update (other : itod ino ≠ bno) (i : Nat) :
    Disk.dinode (update d bno words) ino i = d.dinode ino i := by
  unfold Disk.dinode Disk.get
  rw [update_of_ne other]

theorem dinode_putInode_self {i : Nat} (within : i < 16) :
    (putInode d ino words).dinode ino i = fromWord (words i) := by
  have inside : 16 * itoo ino ≤ 16 * itoo ino + i ∧ 16 * itoo ino + i < 16 * itoo ino + 16 := by
    omega
  unfold Disk.dinode Disk.get putInode
  rw [update_self, if_pos inside, Nat.add_sub_cancel_left]

theorem dinode_putInode_of_ne {ino' : Int} {i : Nat} (other : ino' ≠ ino) (within : i < 16) :
    (putInode d ino words).dinode ino' i = d.dinode ino' i := by
  by_cases block : itod ino' = itod ino
  · have slot : ¬ (16 * itoo ino ≤ 16 * itoo ino' + i ∧
        16 * itoo ino' + i < 16 * itoo ino + 16) := by
      intro inside
      apply other
      have same : itoo ino' = itoo ino := by omega
      unfold itod at block
      unfold itoo at same
      simp only [INOPB] at block same
      omega
    unfold Disk.dinode Disk.get putInode
    rw [block, update_self, if_neg slot]
  · exact dinode_update block i

theorem putInode_of_ne (other : bno ≠ itod ino) : putInode d ino words bno = d bno :=
  update_of_ne other _ _

/-! ### Consistent volumes stay consistent -/

variable {sb : Filsys}

namespace Filesystem.Consistent

section

variable (ok : f.Consistent)

include ok

theorem size : 0 < f.sb.isize ∧ f.sb.isize < f.sb.fsize := ((sbcheck_iff _).mp ok.accepted).2.2.1

theorem nfree : 0 ≤ f.sb.nfree ∧ f.sb.nfree ≤ NICFREE := ((sbcheck_iff _).mp ok.accepted).2.2.2.1

theorem ninode : 0 ≤ f.sb.ninode ∧ f.sb.ninode ≤ NICINOD := ((sbcheck_iff _).mp ok.accepted).2.2.2.2

theorem within : f.Within := by
  intro ino inside root
  have size := ok.size
  have covers := ok.covers
  simp only [ROOTINO] at root
  obtain ⟨low, high⟩ := itod_bounds (by omega) (ok.cache ino inside)
  simp only [Filesystem.outside, decide_eq_false_iff_not]
  omega

theorem blocks {d : Disk}
    (same : sb = { f.sb with nfree := sb.nfree, free := sb.free, tfree := sb.tfree })
    (count : 0 ≤ sb.nfree ∧ sb.nfree ≤ NICFREE) (ilist : ∀ bno < f.sb.isize, d bno = f.disk bno)
    (list : ∃ l, FreeList true false d sb l ∧ l.Nodup ∧ sb.tfree = l.length) :
    Filesystem.Consistent { f with sb := sb, disk := d } := by
  obtain ⟨n, g, t, rfl⟩ : ∃ n g t, sb = { f.sb with nfree := n, free := g, tfree := t } :=
    ⟨_, _, _, same⟩
  obtain ⟨magic, geometry, sizes, -, ninode⟩ := (sbcheck_iff _).mp ok.accepted
  refine ⟨(sbcheck_iff _).mpr ⟨magic, geometry, sizes, count, ninode⟩, ok.fits, ok.covers, list,
    ok.cache, fun ino root below => ?_⟩
  have inside : itod ino < f.sb.isize :=
    (itod_bounds (by simp only [ROOTINO] at root; omega) below).2
  have unchanged : d.dinode ino = f.disk.dinode ino := by
    unfold Disk.dinode Disk.get
    rw [ilist _ inside]
  dsimp only
  rw [unchanged]
  exact ok.linked ino root below

theorem inodes
    (same : sb = { f.sb with ninode := sb.ninode, inode := sb.inode, tinode := sb.tinode })
    (count : 0 ≤ sb.ninode ∧ sb.ninode ≤ NICINOD) (cache : ∀ ino ∈ cached sb, ino ≤ f.ninodes) :
    Filesystem.Consistent { f with sb := sb } := by
  obtain ⟨n, g, t, rfl⟩ : ∃ n g t, sb = { f.sb with ninode := n, inode := g, tinode := t } :=
    ⟨_, _, _, same⟩
  obtain ⟨magic, geometry, sizes, nfree, -⟩ := (sbcheck_iff _).mp ok.accepted
  obtain ⟨l, list, nodup, tfree⟩ := ok.list
  exact ⟨(sbcheck_iff _).mpr ⟨magic, geometry, sizes, nfree, count⟩, ok.fits, ok.covers,
    ⟨l, list.congr ⟨rfl, rfl, rfl, fun _ _ _ => rfl⟩, nodup, tfree⟩, cache, ok.linked⟩

theorem putInode (root : ROOTINO ≤ ino) (below : ino ≤ f.ninodes)
    (linked : fromWord (words DI_MODE) ≠ 0 → 0 < fromWord (words DI_NLINK)) :
    Filesystem.Consistent { f with disk := Fs.putInode f.disk ino words } := by
  obtain ⟨l, list, nodup, tfree⟩ := ok.list
  simp only [ROOTINO] at root
  have block := itod_bounds (by omega) below
  refine { ok with list := ⟨l, list.frame ?_, nodup, tfree⟩, linked := ?_ }
  · intro b within
    have good := list.good b within
    simp only [badblock, decide_eq_false_iff_not] at good
    exact putInode_of_ne (by omega)
  · intro ino' root' below' mode
    by_cases same : ino' = ino
    · subst same
      rw [dinode_putInode_self (by decide)] at mode ⊢
      exact linked mode
    · rw [dinode_putInode_of_ne same (by decide)] at mode ⊢
      exact ok.linked ino' root' below' mode

end

end Filesystem.Consistent

/-! ### The relation between the two sides -/

/-- The kernel's volume and the host's image. The kernel's cache of i-numbers may have inode 1
at the bottom, where the search of the i-list has put it. Whether inode 1 is free, which
is `one`, does not change. -/
structure Mirrors (one : Prop) (k : Kern) (f : Filesystem) : Prop where
  fs : k.fs = { f.sb with ninode := k.fs.ninode, inode := k.fs.inode, fmod := k.fs.fmod }
  disk : k.disk = f.disk
  count : 0 ≤ k.fs.ninode ∧ k.fs.ninode ≤ NICINOD
  cache : cached k.fs = cached f.sb ∨ f.oneFree ∧ cached k.fs = cached f.sb ++ [1]
  room : k.others < NINODE
  consistent : f.Consistent
  one_iff : f.oneFree ↔ one

theorem Mounted.mirrors (start : Mounted k f) : Mirrors f.oneFree k f := by
  have count := start.consistent.ninode
  have fs := start.fs
  refine ⟨by rw [fs], start.disk, by rw [fs]; exact count, .inl (by rw [fs]), start.room,
    start.consistent, Iff.rfl⟩

variable {l : List Int} {fs : Filsys}

namespace Mirrors

theorem same (mirrors : Mirrors one k f) : Same k f := by
  have fs := mirrors.fs
  exact ⟨by rw [fs], fun i _ _ => by rw [fs], by rw [fs], by rw [fs], mirrors.disk⟩

theorem counts (mirrors : Mirrors one k f) : k.Counts := by
  refine ⟨?_, mirrors.count.2⟩
  rw [mirrors.fs]
  exact mirrors.consistent.nfree.2

theorem list (mirrors : Mirrors one k f) (list : FreeList true false f.disk f.sb l) :
    FreeList true false k.disk k.fs l := by
  have fs := mirrors.fs
  rw [mirrors.disk]
  exact list.congr ⟨by rw [fs], by rw [fs], by rw [fs], fun i _ _ => by rw [fs]⟩

theorem blocks {d : Disk} (mirrors : Mirrors one k f)
    (fs_eq : fs = { sb with ninode := k.fs.ninode, inode := k.fs.inode, fmod := fs.fmod })
    (sb_eq : sb = { f.sb with nfree := sb.nfree, free := sb.free, tfree := sb.tfree })
    (count : 0 ≤ sb.nfree ∧ sb.nfree ≤ NICFREE) (ilist : ∀ bno < f.sb.isize, d bno = f.disk bno)
    (list : ∃ l, FreeList true false d sb l ∧ l.Nodup ∧ sb.tfree = l.length) :
    Mirrors one { k with fs := fs, disk := d } { f with sb := sb, disk := d } := by
  obtain ⟨n, g, t, rfl⟩ : ∃ n g t, sb = { f.sb with nfree := n, free := g, tfree := t } :=
    ⟨_, _, _, sb_eq⟩
  obtain ⟨m, rfl⟩ : ∃ m, fs = { f.sb with
      nfree := n, free := g, tfree := t, ninode := k.fs.ninode, inode := k.fs.inode, fmod := m } :=
    ⟨_, fs_eq⟩
  have same_one : Filesystem.oneFree
      { f with sb := { f.sb with nfree := n, free := g, tfree := t }, disk := d } ↔ f.oneFree := by
    unfold Filesystem.oneFree Disk.dinode Disk.get
    refine and_congr_right fun long => ?_
    dsimp only
    rw [ilist _ (show itod 1 < f.sb.isize from long)]
  refine ⟨rfl, rfl, mirrors.count, ?_, mirrors.room,
    mirrors.consistent.blocks rfl count ilist list, same_one.trans mirrors.one_iff⟩
  rw [same_one]
  exact mirrors.cache

end Mirrors

theorem popped_congr (d : Disk) (fs : Filsys) (b n m : Int) (g : Int → Int) :
    popped d { fs with ninode := n, inode := g, fmod := m } b =
      { popped d fs b with ninode := n, inode := g, fmod := m } := by
  unfold popped
  split <;> rfl

theorem sentinel_congr (fs : Filsys) (n m : Int) (g : Int → Int) :
    sentinel { fs with ninode := n, inode := g, fmod := m } =
      { sentinel fs with ninode := n, inode := g, fmod := m } := by
  unfold sentinel
  split <;> rfl

theorem pushed_congr (fs : Filsys) (b n m : Int) (g : Int → Int) :
    pushed { fs with ninode := n, inode := g, fmod := m } b =
      { pushed fs b with ninode := n, inode := g, fmod := m } := by
  unfold pushed
  rw [sentinel_congr]
  dsimp only
  split <;> rfl

theorem pushedDisk_congr (d : Disk) (fs : Filsys) (b n m : Int) (g : Int → Int) :
    pushedDisk { fs with ninode := n, inode := g, fmod := m } d b = pushedDisk fs d b := by
  unfold pushedDisk
  rw [sentinel_congr]
  rfl

theorem popped_frame (d : Disk) (fs : Filsys) (b : Int) :
    popped d fs b = { fs with
      nfree := (popped d fs b).nfree
      free := (popped d fs b).free
      tfree := (popped d fs b).tfree } ∧ (popped d fs b).tfree = fs.tfree - 1 := by
  unfold popped
  split <;> exact ⟨rfl, rfl⟩

theorem pushed_frame (fs : Filsys) (b : Int) :
    pushed fs b = { fs with
      nfree := (pushed fs b).nfree
      free := (pushed fs b).free
      tfree := (pushed fs b).tfree } ∧ (pushed fs b).tfree = fs.tfree + 1 := by
  unfold pushed sentinel
  by_cases none_left : fs.nfree ≤ 0
  · simp only [if_pos none_left]
    split <;> exact ⟨rfl, rfl⟩
  · simp only [if_neg none_left]
    split <;> exact ⟨rfl, rfl⟩

theorem pushed_nfree (fs : Filsys) (b : Int) :
    0 ≤ (pushed fs b).nfree ∧ (pushed fs b).nfree ≤ NICFREE := by
  have positive : 0 < (sentinel fs).nfree := by
    unfold sentinel
    split
    · exact Int.one_pos
    · omega
  unfold pushed
  dsimp only
  split
  · change (0 : Int) ≤ 0 + 1 ∧ (0 : Int) + 1 ≤ 320
    decide
  · omega

/-- Both sides answer the call alike, and go on alike. -/
abbrev Answered (one : Prop) (now : Int) (k : Kern) (f : Filesystem) (op : Op) : Prop :=
  ∃ r k' f', KernStep now k op r k' ∧ HostStep f op r f' ∧ Mirrors one k' f'

/-! ### The search of the i-list -/

theorem oneFree_putInode (root : ROOTINO ≤ ino) :
    Filesystem.oneFree { f with disk := putInode f.disk ino words } ↔ f.oneFree := by
  simp only [ROOTINO] at root
  unfold Filesystem.oneFree
  rw [dinode_putInode_of_ne (by omega) (by decide)]

theorem mem_host_vacancies : ino ∈ f.vacancies ↔
    ROOTINO ≤ ino ∧ ino ≤ f.ninodes ∧ f.disk.dinode ino DI_MODE = 0 := by
  unfold Filesystem.vacancies usable
  rw [mem_filter, mem_inosFrom, decide_eq_true_eq]
  simp only [ROOTINO, Filesystem.ninodes]
  omega

theorem found_length (l : List Int) : ((found l).length : Int) ≤ NICINOD := by
  rw [found, length_reverse, length_take]
  change ((min 160 l.length : Nat) : Int) ≤ 160
  omega

theorem mem_of_found (within : ino ∈ found l) : ino ∈ l := mem_of_mem_take (mem_reverse.mp within)

theorem found_eq_nil : found l = [] ↔ l = [] := by
  rw [found, reverse_eq_nil_iff, take_eq_nil_iff]
  constructor
  · rintro (zero | nil)
    · cases zero
    · exact nil
  · exact .inr

theorem Filesystem.Consistent.cleared (ok : f.Consistent) : (f.withCache 0).Consistent :=
  ok.inodes rfl (by decide : (0 : Int) ≤ 0 ∧ (0 : Int) ≤ NICINOD) nofun

theorem Filesystem.Consistent.filled (ok : f.Consistent) (empty : f.sb.ninode = 0) :
    Filesystem.Consistent { f with sb := fillUp f.sb f.vacancies } := by
  refine ok.inodes ?_ ?_ ?_
  · rw [show fillUp f.sb f.vacancies = _ from pushInodes_eq _ _]
  · rw [fillUp_ninode empty]
    exact ⟨Int.natCast_nonneg _, found_length _⟩
  · intro ino within
    rw [cached_fillUp empty] at within
    exact (mem_host_vacancies.mp (mem_of_found within)).2.1

/-- The kernel's volume after a search of the i-list with an empty cache. -/
def Kern.searched (k : Kern) : Kern :=
  { k.withCache 0 with fs := fillUp (k.withCache 0).fs k.vacancies }

def Filesystem.searched (f : Filesystem) : Filesystem :=
  { f.withCache 0 with sb := fillUp (f.withCache 0).sb f.vacancies }

theorem found_counts (counts : k.Counts) : k.searched.Counts := by
  refine ⟨?_, ?_⟩
  · exact le_of_eq_of_le (pushInodes_nfree _ _).1 counts.1
  · exact le_of_eq_of_le (fillUp_ninode rfl _) (found_length _)

theorem live_searched (some_free : f.vacancies ≠ []) :
    ∃ ino rest, live f.searched.disk (cached f.searched.sb) = ino :: rest ∧
      found f.vacancies = ino :: rest := by
  have stack : cached f.searched.sb = found f.vacancies := cached_fillUp rfl _
  cases top : found f.vacancies with
  | nil => exact absurd (found_eq_nil.mp top) some_free
  | cons ino rest =>
    refine ⟨ino, rest, ?_, rfl⟩
    have within : ino ∈ f.vacancies := mem_of_found (by rw [top]; exact mem_cons_self)
    obtain ⟨root, -, mode⟩ := mem_host_vacancies.mp within
    rw [stack, top]
    exact live_cons_of_usable (decide_eq_true ⟨root, mode⟩)

/-! ### The calls for blocks -/

section

variable (mirrors : Mirrors one k f)

include mirrors

theorem Mirrors.alloc : Answered one now k f .alloc := by
  obtain ⟨l, list, nodup, tfree⟩ := mirrors.consistent.list
  have nfree := mirrors.consistent.nfree
  have size := mirrors.consistent.size.1
  have size' : 0 < k.fs.isize := by rw [mirrors.fs]; exact size
  cases l with
  | nil =>
    obtain ⟨n, host, zero⟩ := blockAlloc_nil list nfree.2
    cases zero rfl
    have kern := alloc_nil (mirrors.list list) mirrors.counts
    refine ⟨.failed, _, _, ⟨by rw [kern]; rfl, rfl⟩, ⟨by rw [host]; rfl, rfl⟩, ?_⟩
    rw [kern, host]
    rw [mirrors.disk]
    have count : (0 : Int) ≤ 0 ∧ (0 : Int) ≤ NICFREE := by decide
    refine mirrors.blocks ?_ rfl count (fun _ _ => rfl) ⟨[], .empty rfl rfl, nodup, tfree⟩
    rw [mirrors.fs]
    simp only [tfree]
    rfl
  | cons b l =>
    have host := blockAlloc_cons list nfree.2 size mirrors.consistent.covers (by simp)
    have kern := alloc_cons (mirrors.list list) mirrors.counts size' (by simp)
    obtain ⟨fresh, nodup⟩ := nodup_cons.mp nodup
    have good := list.good b mem_cons_self
    refine ⟨.block b, _, _, ⟨by rw [kern]; rfl, rfl⟩, ⟨by rw [host]; rfl, rfl⟩, ?_⟩
    rw [kern, host]
    rw [mirrors.disk]
    refine mirrors.blocks ?_ (popped_frame _ _ _).1 (list.popped_nfree (by simp) nfree.2) ?_
      ⟨l, list.tail fresh (by simp), nodup, ?_⟩
    · rw [mirrors.fs, popped_congr]
    · intro bno below
      simp only [badblock, decide_eq_false_iff_not] at good
      exact update_of_ne (by omega) _ _
    · rw [(popped_frame _ _ _).2, tfree, length_cons]
      omega

theorem Mirrors.free (owned : f.owned bno) : Answered one now k f (.free bno) := by
  obtain ⟨l, list, nodup, tfree⟩ := mirrors.consistent.list
  have nfree := mirrors.consistent.nfree
  have size := mirrors.consistent.size.1
  obtain ⟨good, off⟩ := owned
  have fresh := off l list
  have good' : badblock k.fs bno = false := by rw [mirrors.fs]; exact good
  have host := blockFree_good list nfree.2 size mirrors.consistent.fits mirrors.consistent.covers good
  have kern := free_good mirrors.counts good'
  refine ⟨.done, _, _, ⟨rfl, kern⟩, ⟨by rw [host]; rfl, rfl⟩, ?_⟩
  rw [host]
  have disk : pushedDisk k.fs k.disk bno = pushedDisk f.sb f.disk bno := by
    rw [mirrors.fs, pushedDisk_congr, mirrors.disk]
  rw [disk]
  refine mirrors.blocks ?_ (pushed_frame _ _).1 (pushed_nfree _ _) ?_
    ⟨bno :: l, list.push nfree.2 size mirrors.consistent.fits good fresh,
      nodup_cons.mpr ⟨fresh, nodup⟩, ?_⟩
  · rw [mirrors.fs, pushed_congr]
  · intro b below
    simp only [badblock, decide_eq_false_iff_not] at good
    unfold pushedDisk
    split
    · exact update_of_ne (by omega) _ _
    · rfl
  · rw [(pushed_frame _ _).2, tfree, length_cons]
    omega

theorem Mirrors.write (owned : f.owned bno) : Answered one now k f (.write bno words) := by
  obtain ⟨l, list, nodup, tfree⟩ := mirrors.consistent.list
  obtain ⟨good, off⟩ := owned
  have fresh := off l list
  refine ⟨.done, _, _, ⟨rfl, rfl⟩, ⟨rfl, rfl⟩, ?_⟩
  unfold Kern.write Filesystem.put
  rw [mirrors.disk]
  refine mirrors.blocks mirrors.fs rfl mirrors.consistent.nfree ?_ ⟨l, list.frame ?_, nodup, tfree⟩
  · intro b below
    simp only [badblock, decide_eq_false_iff_not] at good
    exact update_of_ne (by omega) _ _
  · intro b within
    refine update_of_ne ?_ _ _
    rintro rfl
    exact fresh within

/-! ### The calls for inodes -/

/-- Other caches of i-numbers, that of the kernel perhaps with inode 1 at the bottom. -/
theorem Mirrors.inodes {core : List Incore} (fs_eq : fs = { k.fs with
      ninode := fs.ninode, inode := fs.inode, tinode := sb.tinode, fmod := fs.fmod })
    (sb_eq : sb = { f.sb with ninode := sb.ninode, inode := sb.inode, tinode := sb.tinode })
    (count : 0 ≤ fs.ninode ∧ fs.ninode ≤ NICINOD)
    (cache : cached fs = cached sb ∨ f.oneFree ∧ cached fs = cached sb ++ [1])
    (consistent : Filesystem.Consistent { f with sb := sb }) :
    Mirrors one { k with fs := fs, core := core } { f with sb := sb } := by
  obtain ⟨n, g, t, rfl⟩ : ∃ n g t, sb = { f.sb with ninode := n, inode := g, tinode := t } :=
    ⟨_, _, _, sb_eq⟩
  refine ⟨?_, mirrors.disk, count, cache, mirrors.room, consistent, mirrors.one_iff⟩
  dsimp only
  rw [fs_eq, mirrors.fs]

theorem Mirrors.putInode {core : List Incore} (root : ROOTINO ≤ ino) (below : ino ≤ f.ninodes)
    (linked : fromWord (words DI_MODE) ≠ 0 → 0 < fromWord (words DI_NLINK)) :
    Mirrors one { k with disk := Fs.putInode k.disk ino words, core := core }
      { f with disk := Fs.putInode f.disk ino words } := by
  refine ⟨mirrors.fs, by rw [mirrors.disk], mirrors.count, ?_, mirrors.room,
    mirrors.consistent.putInode root below linked, (oneFree_putInode root).trans mirrors.one_iff⟩
  rw [oneFree_putInode root]
  exact mirrors.cache

theorem Mirrors.iwrite (root : ROOTINO ≤ ino) (below : ino ≤ f.ninodes)
    (linked : 0 < fromWord (words DI_NLINK)) :
    Answered one now k f (.iwrite ino words) :=
  ⟨.done, _, _, ⟨rfl, rfl⟩, ⟨rfl, rfl⟩, mirrors.putInode root below fun _ => linked⟩

/-- Both caches take the number, or neither. -/
theorem Mirrors.ifree (root : ROOTINO ≤ ino) (below : ino ≤ f.ninodes)
    (mode : fromWord (words DI_MODE) = 0) (guard : ¬ f.oneFree ∨ f.sb.ninode ≠ NICINOD - 1) :
    Answered one now k f (.ifree ino words) := by
  have count := mirrors.count
  have count' := mirrors.consistent.ninode
  have kern_length := cached_length count.1
  have host_length := cached_length count'.1
  -- the kernel's cache is full just when the host's is
  have both_full : k.fs.ninode ≥ NICINOD ↔ ¬ f.sb.ninode < NICINOD := by
    obtain equal | ⟨free, more⟩ := mirrors.cache
    · rw [equal] at kern_length
      omega
    · have longer := congrArg List.length more
      rw [length_append, length_singleton] at longer
      obtain no_one | other := guard
      · exact absurd free no_one
      · omega
  obtain ⟨l, only, few, few', kern, host⟩ : ∃ l : List Int, (∀ i ∈ l, i = ino) ∧
      k.fs.ninode + l.length ≤ NICINOD ∧ f.sb.ninode + l.length ≤ NICINOD ∧
      Fs.ifree k ino = { k with
        fs := { pushInodes k.fs l with tinode := k.fs.tinode + 1, fmod := 1 } } ∧
      inodeFree f ino =
        (.ok (), { f with sb := { pushInodes f.sb l with tinode := f.sb.tinode + 1 } }) := by
    unfold Fs.ifree inodeFree
    rw [getfs_eq mirrors.counts, if_neg (by omega : ¬ ino < ROOTINO)]
    by_cases room : f.sb.ninode < NICINOD
    · refine ⟨[ino], by simp, ?_, ?_, if_neg (show ¬ NICINOD ≤ k.fs.ninode by omega), ?_⟩
      · rw [length_singleton]
        omega
      · rw [length_singleton]
        omega
      · rw [if_pos room]
        rfl
    · refine ⟨[], nofun, by simpa using count.2, by simpa using count'.2,
        if_pos (show NICINOD ≤ k.fs.ninode by omega), ?_⟩
      rw [if_neg room]
      rfl
  have pushed : Mirrors one
      { k with fs := { pushInodes k.fs l with tinode := k.fs.tinode + 1, fmod := 1 } }
      { f with sb := { pushInodes f.sb l with tinode := f.sb.tinode + 1 } } := by
    refine mirrors.inodes ?_ ?_ ?_ ?_ (mirrors.consistent.inodes ?_ ?_ ?_)
    · rw [mirrors.same.tinode, pushInodes_eq k.fs l]
    · rw [pushInodes_eq f.sb l]
    · rw [pushInodes_ninode]
      omega
    · change cached (pushInodes k.fs l) = cached (pushInodes f.sb l) ∨
        f.oneFree ∧ cached (pushInodes k.fs l) = cached (pushInodes f.sb l) ++ [1]
      rw [cached_pushInodes count.1, cached_pushInodes count'.1]
      obtain equal | ⟨free, more⟩ := mirrors.cache
      · exact .inl (by rw [equal])
      · exact .inr ⟨free, by rw [more, append_assoc]⟩
    · rw [pushInodes_eq f.sb l]
    · rw [pushInodes_ninode]
      omega
    · intro i within
      change i ∈ cached (pushInodes f.sb l) at within
      rw [cached_pushInodes count'.1, mem_append, mem_reverse] at within
      obtain new | old := within
      · rwa [only i new]
      · exact mirrors.consistent.cache i old
  refine ⟨.done, _, _, ⟨rfl, rfl⟩, ⟨by rw [host]; rfl, rfl⟩, ?_⟩
  rw [kern, host]
  refine pushed.putInode root ?_ fun used => absurd mode used
  change ino ≤ (INOPB * ((pushInodes f.sb l).isize - 1).toNat : Nat)
  rwa [(pushInodes_nfree f.sb l).2]

theorem Mirrors.clean (core : k.core = []) : k.Clean := by
  refine ⟨core, mirrors.room, ?_⟩
  intro ino within root mode
  rw [mirrors.disk] at mode ⊢
  have cached_host : ino ∈ cached f.sb := by
    obtain equal | ⟨-, more⟩ := mirrors.cache
    · rwa [← equal]
    · rw [more, mem_append, mem_singleton] at within
      obtain inside | one := within
      · exact inside
      · simp only [ROOTINO] at root
        omega
  exact mirrors.consistent.linked ino root (mirrors.consistent.cache ino cached_host) mode

theorem Mirrors.ialloc_live (now : Int) {rest : List Int} (core : k.core = [])
    (first : live f.disk (cached f.sb) = ino :: rest) :
    ∃ k' f', KernStep now k .ialloc (.inode ino) k' ∧ HostStep f .ialloc (.inode ino) f' ∧
      Mirrors one k' f' ∧ k'.core = [⟨ino, true, 0⟩] ∧ f'.disk = f.disk ∧
      f'.sb.isize = f.sb.isize := by
  have count := mirrors.count
  have count' := mirrors.consistent.ninode
  have suffix : rest <:+ cached f.sb := by
    have whole := live_suffix f.disk (cached f.sb)
    rw [first] at whole
    exact (suffix_cons ino rest).trans whole
  have host_left : cached { f.sb with ninode := rest.length } = rest := cached_pop suffix
  have host_few : (rest.length : Int) ≤ NICINOD := by
    have := suffix.length_le
    have := cached_length count'.1
    omega
  have host := inodeAlloc_of_cached mirrors.consistent.within count'.1
  rw [first] at host
  obtain ⟨rest', first', suffix', relation⟩ : ∃ rest', live k.disk (cached k.fs) = ino :: rest' ∧
      rest' <:+ cached k.fs ∧ (rest' = rest ∨ f.oneFree ∧ rest' = rest ++ [1]) := by
    rw [mirrors.disk]
    obtain equal | ⟨free, more⟩ := mirrors.cache
    · rw [equal]
      exact ⟨rest, first, suffix, .inl rfl⟩
    · refine ⟨rest ++ [1], ?_, ?_, .inr ⟨free, rfl⟩⟩
      · rw [more, live_append_one, first, if_neg (cons_ne_nil _ _), cons_append]
      · rw [more]
        obtain ⟨front, whole⟩ := suffix
        exact ⟨front, by rw [← append_assoc, whole]⟩
  have kern_left : cached { k.fs with ninode := rest'.length } = rest' := cached_pop suffix'
  have kern_few : (rest'.length : Int) ≤ NICINOD := by
    have := suffix'.length_le
    have := cached_length count.1
    omega
  have kern := ialloc_of_cached now (mirrors.clean core) count.1
  rw [first'] at kern
  refine ⟨k.handedOut ino rest', f.handedOut rest, ⟨.inode ino, ?_, rfl⟩, ⟨.ok ino, host, rfl⟩, ?_,
    rfl, rfl, rfl⟩
  · unfold Ialloc
    rwa [getfs_eq mirrors.counts]
  refine mirrors.inodes ?_ rfl ⟨Int.natCast_nonneg _, kern_few⟩ ?_
    (mirrors.consistent.inodes rfl ⟨Int.natCast_nonneg _, host_few⟩ ?_)
  · rw [mirrors.same.tinode]
  · change cached { k.fs with ninode := rest'.length } = cached { f.sb with ninode := rest.length } ∨
      f.oneFree ∧ cached { k.fs with ninode := rest'.length } =
        cached { f.sb with ninode := rest.length } ++ [1]
    rwa [kern_left, host_left]
  · intro i within
    change i ∈ cached { f.sb with ninode := rest.length } at within
    rw [host_left] at within
    exact mirrors.consistent.cache i (suffix.subset within)

/-- The kernel finds inode 1 as well. -/
theorem Mirrors.vacancies (core : k.core = []) :
    (f.oneFree → k.vacancies = 1 :: f.vacancies) ∧ (¬ f.oneFree → k.vacancies = f.vacancies) := by
  have isize : k.fs.isize = f.sb.isize := by rw [mirrors.fs]
  have vacant : ∀ ino, k.vacant ino = decide (f.disk.dinode ino DI_MODE = 0) := by
    intro ino
    unfold Kern.vacant Kern.incore
    rw [core, mirrors.disk]
    simp
  have kern : k.vacancies = (inosFrom 1 (INOPB * (f.sb.isize - 1).toNat)).filter
      fun ino => f.disk.dinode ino DI_MODE = 0 := by
    unfold Kern.vacancies Kern.ninodes
    rw [isize]
    exact filter_congr fun ino _ => vacant ino
  have tail : ∀ n, (inosFrom (1 + 1) n).filter (fun ino => f.disk.dinode ino DI_MODE = 0) =
      (inosFrom (1 + 1) n).filter (usable f.disk) := by
    intro n
    refine filter_congr ?_
    intro ino within
    have root : ROOTINO ≤ ino := (mem_inosFrom.mp within).1
    unfold usable
    simp only [root, true_and]
  have one_unusable : usable f.disk 1 = false :=
    decide_eq_false fun both => absurd both.1 (by decide)
  rw [kern]
  unfold Filesystem.vacancies Filesystem.oneFree
  cases size : INOPB * (f.sb.isize - 1).toNat with
  | zero =>
    simp only [INOPB] at size
    constructor
    · rintro ⟨long, -⟩
      omega
    · intro
      rfl
  | succ n =>
    simp only [INOPB] at size
    have long : 1 < f.sb.isize := by omega
    rw [inosFrom, filter_cons_of_neg (ne_true_of_eq_false one_unusable)]
    constructor
    · rintro ⟨-, free⟩
      rw [filter_cons_of_pos (by simpa using free), tail]
    · intro no_one
      have used : ¬ f.disk.dinode 1 DI_MODE = 0 := fun free => no_one ⟨long, free⟩
      rw [filter_cons_of_neg (by simpa using used), tail]

theorem Mirrors.cleared : Mirrors one (k.withCache 0) (f.withCache 0) := by
  refine mirrors.inodes ?_ rfl (by decide : (0 : Int) ≤ 0 ∧ (0 : Int) ≤ NICINOD) (.inl rfl)
    mirrors.consistent.cleared
  rw [← mirrors.same.tinode]

theorem Mirrors.searched (empty : k.fs.ninode = 0) (empty' : f.sb.ninode = 0)
    (relation : found k.vacancies = found f.vacancies ∨
      f.oneFree ∧ found k.vacancies = found f.vacancies ++ [1]) :
    Mirrors one { k with fs := fillUp k.fs k.vacancies }
      { f with sb := fillUp f.sb f.vacancies } := by
  have kern : fillUp k.fs k.vacancies = { k.fs with
      inode := (fillUp k.fs k.vacancies).inode
      ninode := (fillUp k.fs k.vacancies).ninode } := pushInodes_eq _ _
  have host : fillUp f.sb f.vacancies = { f.sb with
      inode := (fillUp f.sb f.vacancies).inode
      ninode := (fillUp f.sb f.vacancies).ninode } := pushInodes_eq _ _
  refine mirrors.inodes ?_ ?_ ?_ ?_ (mirrors.consistent.filled empty')
  · rw [kern, host]
    rw [← mirrors.same.tinode]
  · rw [host]
  · rw [fillUp_ninode empty]
    exact ⟨Int.natCast_nonneg _, found_length _⟩
  · rwa [cached_fillUp empty, cached_fillUp empty']

variable {k' : Kern} {f' : Filesystem} {r : Res}

section Dead

variable (core : k.core = []) (dead : live f.disk (cached f.sb) = [])
include core dead

omit core in
theorem kern_dead : live k.disk (cached k.fs) = [] := by
  rw [mirrors.disk]
  obtain equal | ⟨-, more⟩ := mirrors.cache
  · rw [equal]
    exact dead
  · rw [more, live_append_one, if_pos dead]

theorem ialloc_iff_cleared {out : Out} :
    Ialloc now k out k' ↔ Returns (iallocTurn now) (k.withCache 0) (out, k') := by
  have stack := ialloc_of_cached now (mirrors.clean core) mirrors.count.1
  rw [kern_dead mirrors dead] at stack
  unfold Ialloc
  rw [getfs_eq mirrors.counts, stack]

omit core in
theorem inodeAlloc_iff_cleared {out : Except FsError Int} :
    InodeAlloc f out f' ↔ Returns inodeAllocTurn (f.withCache 0) (out, f') := by
  have stack := inodeAlloc_of_cached mirrors.consistent.within mirrors.consistent.ninode.1
  rw [dead] at stack
  exact stack _

/-- With a number found, the calls go on from what the search has left. -/
theorem kernStep_iff_searched (some_free : k.vacancies ≠ []) :
    KernStep now k .ialloc r k' ↔ KernStep now k.searched .ialloc r k' := by
  have turn : iallocTurn now (k.withCache 0) = .inl k.searched :=
    (iallocTurn_search now rfl).trans (if_neg some_free)
  have same : ∀ out, Ialloc now k out k' ↔ Ialloc now k.searched out k' := by
    intro out
    rw [ialloc_iff_cleared mirrors core dead, returns_iff_of_inl turn]
    unfold Ialloc
    rw [getfs_eq (found_counts mirrors.counts)]
  unfold KernStep
  simp only [same]

omit core dead in
theorem host_turn : inodeAllocTurn (f.withCache 0) = if found f.vacancies = [] then
    .inr (.error (.outOfInodes f.inodeCount), f.withCache 0) else .inl f.searched := by
  have size := mirrors.consistent.size
  have covers := mirrors.consistent.covers
  exact inodeAllocTurn_search rfl (by change f.sb.isize ≤ f.nblk; omega) size.1

omit core in
theorem hostStep_iff_searched (some_free : f.vacancies ≠ []) :
    HostStep f .ialloc r f' ↔ HostStep f.searched .ialloc r f' := by
  have turn := (host_turn mirrors).trans (if_neg fun nil => some_free (found_eq_nil.mp nil))
  have same : ∀ out, InodeAlloc f out f' ↔ InodeAlloc f.searched out f' := by
    intro out
    rw [inodeAlloc_iff_cleared mirrors dead, returns_iff_of_inl turn]
    rfl
  unfold HostStep
  simp only [same]

omit core in
/-- Nothing is free: the host fails. -/
theorem hostStep_of_no_vacancy (nothing : f.vacancies = []) :
    HostStep f .ialloc .failed (f.withCache 0) := by
  have turn := (host_turn mirrors).trans (if_pos (found_eq_nil.mpr nothing))
  exact ⟨_, (inodeAlloc_iff_cleared mirrors dead).mpr (returns_of_inr turn), rfl⟩

theorem kernStep_of_no_vacancy (nothing : k.vacancies = []) :
    KernStep now k .ialloc .failed (k.withCache 0) := by
  refine ⟨.nospace, (ialloc_iff_cleared mirrors core dead).mpr ?_, rfl⟩
  exact (returns_of_no_vacancy (s := k.withCache 0) rfl nothing).mpr rfl

theorem not_kernStep_of_inode_one (only : k.vacancies = [1]) : ¬ KernStep now k .ialloc r k' := by
  rintro ⟨out, returns, -⟩
  rw [ialloc_iff_cleared mirrors core dead] at returns
  exact not_returns_of_inode_one (s := k.withCache 0) rfl only returns

end Dead

/-- The two searches leave the same numbers, the kernel's perhaps with inode 1 below them. -/
theorem Mirrors.found_relation (core : k.core = [])
    (guard : ¬ f.oneFree ∨ f.vacancies.length < NICINOD.toNat) :
    found k.vacancies = found f.vacancies ∨
      f.oneFree ∧ found k.vacancies = found f.vacancies ++ [1] := by
  obtain ⟨with_one, without⟩ := mirrors.vacancies core
  by_cases free : f.oneFree
  · obtain no_one | few := guard
    · exact absurd free no_one
    · refine .inr ⟨free, ?_⟩
      rw [with_one free]
      unfold found
      rw [take_of_length_le (by rw [length_cons]; omega),
        take_of_length_le (by omega), reverse_cons]
  · exact .inl (by rw [without free])

/-- A cached number that can be used is that of a free inode. -/
theorem Mirrors.mem_vacancies_of_live {rest : List Int}
    (first : live f.disk (cached f.sb) = ino :: rest) : ino ∈ f.vacancies := by
  have within : ino ∈ cached f.sb := by
    refine (live_suffix f.disk _).subset ?_
    rw [first]
    exact mem_cons_self
  obtain ⟨root, mode⟩ : ROOTINO ≤ ino ∧ f.disk.dinode ino DI_MODE = 0 := by
    simpa [usable] using usable_of_live first
  exact mem_host_vacancies.mpr ⟨root, mirrors.consistent.cache ino within, mode⟩

theorem Mirrors.some_free (free : f.oneFree) (guard : Guarded f .ialloc) : f.vacancies ≠ [] := by
  intro nothing
  obtain no_one | alive | bounds := guard
  · exact no_one free
  · cases first : live f.disk (cached f.sb) with
    | nil => exact alive first
    | cons ino rest =>
      have within := mirrors.mem_vacancies_of_live first
      rw [nothing] at within
      cases within
  · rw [nothing] at bounds
    exact absurd bounds.1 (by decide)

theorem Mirrors.ialloc_takes (now : Int) (core : k.core = [])
    (guard : Guarded f .ialloc) (some_free : f.vacancies ≠ []) :
    ∃ ino k' f', ino ∈ f.vacancies ∧ KernStep now k .ialloc (.inode ino) k' ∧
      HostStep f .ialloc (.inode ino) f' ∧ Mirrors one k' f' ∧ k'.core = [⟨ino, true, 0⟩] ∧
      f'.disk = f.disk ∧ f'.sb.isize = f.sb.isize := by
  cases first : live f.disk (cached f.sb) with
  | cons ino rest =>
    obtain ⟨k', f', step⟩ := mirrors.ialloc_live now core first
    exact ⟨ino, k', f', mirrors.mem_vacancies_of_live first, step⟩
  | nil =>
    have limits : ¬ f.oneFree ∨ f.vacancies.length < NICINOD.toNat := by
      obtain no_one | alive | bounds := guard
      · exact .inl no_one
      · exact absurd first alive
      · exact .inr bounds.2
    have kern_some : k.vacancies ≠ [] := by
      by_cases free : f.oneFree
      · rw [(mirrors.vacancies core).1 free]
        exact cons_ne_nil _ _
      · rwa [(mirrors.vacancies core).2 free]
    have searched : Mirrors one k.searched f.searched :=
      mirrors.cleared.searched rfl rfl (mirrors.found_relation core limits)
    obtain ⟨ino, rest, live_found, top⟩ := live_searched some_free
    obtain ⟨k', f', kern, host, mirrors', core', disk, isize⟩ :=
      searched.ialloc_live now core live_found
    refine ⟨ino, k', f', mem_of_found (by rw [top]; exact mem_cons_self),
      (kernStep_iff_searched mirrors core first kern_some).mpr kern,
      (hostStep_iff_searched mirrors first some_free).mpr host, mirrors', core', disk, ?_⟩
    exact isize.trans (pushInodes_nfree _ _).2

theorem Mirrors.ialloc (now : Int) (core : k.core = [])
    (guard : Guarded f .ialloc) : Answered one now k f .ialloc := by
  by_cases nothing : f.vacancies = []
  · cases first : live f.disk (cached f.sb) with
    | cons ino rest =>
      obtain ⟨k', f', kern, host, mirrors', -⟩ := mirrors.ialloc_live now core first
      exact ⟨_, k', f', kern, host, mirrors'⟩
    | nil =>
      have no_one : ¬ f.oneFree := by
        obtain no_one | alive | bounds := guard
        · exact no_one
        · exact absurd first alive
        · rw [nothing] at bounds
          exact absurd bounds.1 (by decide)
      have kern_nothing : k.vacancies = [] := by
        rwa [(mirrors.vacancies core).2 no_one]
      exact ⟨.failed, _, _, kernStep_of_no_vacancy mirrors core first kern_nothing,
        hostStep_of_no_vacancy mirrors first nothing, mirrors.cleared⟩
  · obtain ⟨ino, k', f', -, kern, host, mirrors', -⟩ := mirrors.ialloc_takes now core guard nothing
    exact ⟨_, k', f', kern, host, mirrors'⟩

/-! ### Whole runs -/

variable {op : Op}

/-- A call that inode 1 does not matter to is answered alike. -/
theorem Mirrors.step (now : Int) (legal : Legal k f op)
    (guard : Guarded f op) : Answered one now k f op := by
  cases op with
  | alloc => exact mirrors.alloc
  | free bno => exact mirrors.free legal
  | ialloc => exact mirrors.ialloc now legal guard
  | ifree ino words => exact mirrors.ifree legal.1 legal.2.1 legal.2.2 guard
  | iwrite ino words => exact mirrors.iwrite legal.1 legal.2.1 legal.2.2.2
  | write bno words => exact mirrors.write legal

end

theorem Mirrors.agrees {ops : List Op} (mirrors : Mirrors one k f)
    (lawful : Lawful (fun k f op => Legal k f op ∧ Guarded f op) now k f ops) :
    Agrees now k f ops := by
  induction ops generalizing k f with
  | nil => exact ⟨[], k, f, .nil, .nil, mirrors.same⟩
  | cons op ops ih =>
    obtain ⟨⟨legal, guard⟩, next⟩ := lawful
    obtain ⟨r, k₁, f₁, kern, host, mirrors₁⟩ := mirrors.step now legal guard
    obtain ⟨rs, k', f', kern_run, host_run, same⟩ := ih mirrors₁ (next r k₁ f₁ kern host)
    exact ⟨r :: rs, k', f', .cons kern kern_run, .cons host host_run, same⟩

theorem KernStep.unique {r' : Res} {k₁ k₂ : Kern} (first : KernStep now k op r k₁)
    (second : KernStep now k op r' k₂) : r = r' ∧ k₁ = k₂ := by
  cases op with
  | free bno =>
    obtain ⟨rfl, done⟩ := first
    obtain ⟨rfl, done'⟩ := second
    exact ⟨rfl, Option.some.inj (done.symm.trans done')⟩
  | ialloc =>
    obtain ⟨out, returns, res⟩ := first
    obtain ⟨out', returns', res'⟩ := second
    cases returns.unique returns'
    exact ⟨Option.some.inj (res.symm.trans res'), rfl⟩
  | _ => exact ⟨first.1.trans second.1.symm, first.2.trans second.2.symm⟩

theorem HostStep.unique {r' : Res} {f₁ f₂ : Filesystem} (first : HostStep f op r f₁)
    (second : HostStep f op r' f₂) : r = r' ∧ f₁ = f₂ := by
  cases op with
  | ialloc =>
    obtain ⟨out, returns, res⟩ := first
    obtain ⟨out', returns', res'⟩ := second
    cases returns.unique returns'
    exact ⟨res.trans res'.symm, rfl⟩
  | _ => exact ⟨first.1.trans second.1.symm, first.2.trans second.2.symm⟩

/-- With inode 1 in use, every call is. -/
theorem Mirrors.agrees_of_one_used {ops : List Op} (mirrors : Mirrors one k f) (used : ¬ one)
    (lawful : Lawful Legal now k f ops) : Agrees now k f ops := by
  refine mirrors.agrees ?_
  induction ops generalizing k f with
  | nil => trivial
  | cons op ops ih =>
    have no_one : ¬ f.oneFree := fun free => used (mirrors.one_iff.mp free)
    have guard : Guarded f op := by
      cases op with
      | ialloc | ifree ino words => exact .inl no_one
      | _ => trivial
    obtain ⟨legal, next⟩ := lawful
    refine ⟨⟨legal, guard⟩, ?_⟩
    intro r k' f' kern host
    obtain ⟨r', k₁, f₁, kern₁, host₁, mirrors₁⟩ := mirrors.step now legal guard
    obtain ⟨rfl, rfl⟩ := kern.unique kern₁
    obtain ⟨-, rfl⟩ := host.unique host₁
    exact ih mirrors₁ (next r k' f' kern host)

/-! ### Where inode 1 matters -/

/-- More are free than fit: the host's search goes one further than the kernel's. -/
theorem found_of_many (many : NICINOD.toNat ≤ l.length) :
    ∃ m a b, found l = b :: a :: m ∧ found (1 :: l) = a :: (m ++ [1]) ∧ [a, b].Sublist l := by
  change 160 ≤ l.length at many
  obtain ⟨a, at_a⟩ : ∃ a, l[158]? = some a := ⟨l[158], List.getElem?_eq_getElem (by omega)⟩
  obtain ⟨b, at_b⟩ : ∃ b, l[159]? = some b := ⟨l[159], List.getElem?_eq_getElem (by omega)⟩
  have upto_a : l.take 159 = l.take 158 ++ [a] := by
    rw [take_add_one, at_a]
    rfl
  have upto_b : l.take 160 = l.take 158 ++ [a] ++ [b] := by
    rw [take_add_one, at_b, upto_a]
    rfl
  refine ⟨(l.take 158).reverse, a, b, ?_, ?_, ?_⟩
  · change (l.take 160).reverse = _
    rw [upto_b, reverse_append, reverse_append]
    rfl
  · change ((1 :: l).take 160).reverse = _
    rw [take_succ_cons, reverse_cons, upto_a, reverse_append]
    rfl
  · have whole := take_sublist 160 l
    rw [upto_b, append_assoc] at whole
    exact (sublist_append_right _ _).trans whole

theorem host_vacancies_sorted (f : Filesystem) : f.vacancies.Pairwise (· < ·) :=
  (inosFrom_sorted _ _).filter _

/-- All that the kernel's search finds has no mode. -/
theorem Mirrors.clean_searched (mirrors : Mirrors one k f) (core : k.core = []) : k.searched.Clean := by
  refine ⟨core, mirrors.room, ?_⟩
  intro ino within root mode
  have stack : cached k.searched.fs = found k.vacancies := cached_fillUp rfl _
  rw [stack] at within
  have free := (mem_vacancies.mp (mem_of_found within)).2
  simp only [Kern.vacant, decide_eq_true_eq] at free
  exact absurd free.1 mode

/-- A call that inode 1 matters to is not answered alike. -/
theorem Mirrors.differs (mirrors : Mirrors one k f) (core : k.core = [])
    (unguarded : ¬ Guarded f .ialloc) (kern : KernStep now k .ialloc r k') :
    ¬ HostStep f .ialloc r f' := by
  intro host
  obtain ⟨free, dead, limits⟩ : f.oneFree ∧ live f.disk (cached f.sb) = [] ∧
      ¬ (1 ≤ f.vacancies.length ∧ f.vacancies.length < NICINOD.toNat) := by
    simpa [Guarded] using unguarded
  have with_one := (mirrors.vacancies core).1 free
  by_cases nothing : f.vacancies = []
  · rw [nothing] at with_one
    exact not_kernStep_of_inode_one mirrors core dead with_one kern
  have positive := length_pos_iff.mpr nothing
  obtain ⟨m, a, b, host_found, kern_found, inside⟩ := found_of_many (l := f.vacancies) (by omega)
  have smaller : a < b := by
    have sorted := (host_vacancies_sorted f).sublist inside
    exact (pairwise_cons.mp sorted).1 b (by simp)
  have kern_some : k.vacancies ≠ [] := by
    rw [with_one]
    exact cons_ne_nil _ _
  have usable_of_mem : ∀ ino ∈ [a, b], usable f.disk ino = true := by
    intro ino within
    obtain ⟨root, -, mode⟩ := mem_host_vacancies.mp (inside.subset within)
    exact decide_eq_true ⟨root, mode⟩
  rw [kernStep_iff_searched mirrors core dead kern_some] at kern
  rw [hostStep_iff_searched mirrors dead nothing] at host
  have kern_stack : live k.searched.disk (cached k.searched.fs) = a :: (m ++ [1]) := by
    have stack : cached k.searched.fs = found k.vacancies := cached_fillUp rfl _
    rw [stack, with_one, kern_found]
    refine live_cons_of_usable ?_
    rw [show k.searched.disk = f.disk from mirrors.disk]
    exact usable_of_mem a (by simp)
  have host_stack : live f.searched.disk (cached f.searched.sb) = b :: a :: m := by
    have stack : cached f.searched.sb = found f.vacancies := cached_fillUp rfl _
    rw [stack, host_found]
    exact live_cons_of_usable (usable_of_mem b (by simp))
  have kern_count : 0 ≤ k.searched.fs.ninode := by
    rw [show k.searched.fs.ninode = _ from fillUp_ninode rfl _]
    exact Int.natCast_nonneg _
  have searched : f.searched.Consistent := mirrors.consistent.cleared.filled rfl
  have taken := ialloc_of_cached now (mirrors.clean_searched core) kern_count
  have taken' := inodeAlloc_of_cached searched.within searched.ninode.1
  rw [kern_stack] at taken
  rw [host_stack] at taken'
  have kern_takes : KernStep now k.searched .ialloc (.inode a)
      (k.searched.handedOut a (m ++ [1])) := by
    refine ⟨.inode a, ?_, rfl⟩
    unfold Ialloc
    rwa [getfs_eq (found_counts mirrors.counts)]
  have host_takes : HostStep f.searched .ialloc (.inode b) (f.searched.handedOut (a :: m)) :=
    ⟨.ok b, taken', rfl⟩
  have result_a := (kern.unique kern_takes).1
  have result_b := (host.unique host_takes).1
  cases result_a.symm.trans result_b
  omega

/-- The words of a new file. -/
def newFile (i : Nat) : Nat := if i = DI_MODE then 0x81a4 else if i = DI_NLINK then 1 else 0

theorem vacancies_putInode (within : ino ∈ f.vacancies) (mode : fromWord (words DI_MODE) ≠ 0) :
    (Filesystem.vacancies { f with disk := putInode f.disk ino words }).length <
      f.vacancies.length := by
  have no_longer : usable (putInode f.disk ino words) ino = false := by
    refine decide_eq_false ?_
    rw [dinode_putInode_self (by decide)]
    exact fun both => mode both.2
  have fewer : Filesystem.vacancies { f with disk := putInode f.disk ino words } =
      f.vacancies.filter (usable (putInode f.disk ino words)) := by
    unfold Filesystem.vacancies
    rw [filter_filter]
    refine filter_congr ?_
    intro i _
    by_cases same : i = ino
    · rw [same, no_longer, Bool.false_and]
    · unfold usable
      rw [dinode_putInode_of_ne same (by decide), Bool.and_self]
  rw [fewer, length_filter_lt_length_iff_exists]
  exact ⟨ino, within, by rw [no_longer]; exact Bool.false_ne_true⟩

/-- As long as inode 1 is free, allocating all the others comes to a call that differs. -/
theorem Mirrors.exists_differs (now : Int) (mirrors : Mirrors one k f) (core : k.core = [])
    (free : f.oneFree) :
    ∃ ops, Lawful Legal now k f ops ∧ ¬ Agrees now k f ops := by
  generalize measure : f.vacancies.length = n
  induction n using Nat.strongRecOn generalizing k f with
  | ind n ih =>
    by_cases guard : Guarded f .ialloc
    · -- an inode is allocated, and its mode written
      obtain ⟨ino, k₁, f₁, within, kern, host, mirrors₁, core₁, disk, isize⟩ :=
        mirrors.ialloc_takes now core guard (mirrors.some_free free guard)
      obtain ⟨root, below, -⟩ := mem_host_vacancies.mp within
      have below₁ : ino ≤ f₁.ninodes := by
        unfold Filesystem.ninodes
        rwa [isize]
      have same : f₁.vacancies = f.vacancies := by
        unfold Filesystem.vacancies
        rw [disk, isize]
      rw [← same] at within measure
      have free₁ : f₁.oneFree := by
        unfold Filesystem.oneFree
        rwa [disk, isize]
      have mode : fromWord (newFile DI_MODE) ≠ 0 := by decide
      have linked : 0 < fromWord (newFile DI_NLINK) := by decide
      have mirrors₂ : Mirrors one
          { k₁ with
            disk := Fs.putInode k₁.disk ino newFile
            core := k₁.core.filter fun ip => ip.number ≠ ino }
          { f₁ with disk := Fs.putInode f₁.disk ino newFile } :=
        mirrors₁.putInode root below₁ fun _ => linked
      have core₂ : (k₁.core.filter fun ip => ip.number ≠ ino) = [] := by
        rw [core₁]
        simp
      have fewer := vacancies_putInode within mode
      rw [measure] at fewer
      obtain ⟨ops, lawful, differs⟩ := ih _ fewer mirrors₂ core₂ ((oneFree_putInode root).mpr free₁) rfl
      refine ⟨.ialloc :: .iwrite ino newFile :: ops, ⟨core, ?_⟩, ?_⟩
      · intro r k' f' kern' host'
        obtain ⟨rfl, rfl⟩ := kern.unique kern'
        obtain ⟨-, rfl⟩ := host.unique host'
        refine ⟨⟨root, below₁, mode, linked⟩, ?_⟩
        rintro r k' f' ⟨rfl, rfl⟩ ⟨-, rfl⟩
        exact lawful
      · rintro ⟨rs, k', f', kern_run, host_run, same⟩
        obtain _ | ⟨kern', _ | ⟨kern₂, kern_run⟩⟩ := kern_run
        obtain _ | ⟨host', _ | ⟨host₂, host_run⟩⟩ := host_run
        obtain ⟨rfl, rfl⟩ := kern.unique kern'
        obtain ⟨-, rfl⟩ := host.unique host'
        obtain ⟨rfl, rfl⟩ := kern₂
        obtain ⟨-, rfl⟩ := host₂
        exact differs ⟨_, _, _, kern_run, host_run, same⟩
    · refine ⟨[.ialloc], ⟨core, fun _ _ _ _ _ => trivial⟩, ?_⟩
      rintro ⟨rs, k', f', kern_run, host_run, -⟩
      obtain _ | ⟨kern, -⟩ := kern_run
      obtain _ | ⟨host, -⟩ := host_run
      exact mirrors.differs core guard kern host

/-- The two sides agree in every run that inode 1 does not matter to, and in every run at all
just when inode 1 is not free. -/
theorem allocators_agree (now : Int) (k : Kern) (f : Filesystem) (start : Mounted k f) :
    (∀ ops, Lawful (fun k f op => Legal k f op ∧ Guarded f op) now k f ops → Agrees now k f ops) ∧
      ((∀ ops, Lawful Legal now k f ops → Agrees now k f ops) ↔ ¬ f.oneFree) := by
  have mirrors := start.mirrors
  refine ⟨fun ops lawful => mirrors.agrees lawful, ?_⟩
  constructor
  · intro all free
    obtain ⟨ops, lawful, differs⟩ := mirrors.exists_differs now start.core free
    exact differs (all ops lawful)
  · intro used ops lawful
    exact mirrors.agrees_of_one_used used lawful

/-- The image of a volume of one block of inodes, those from `used` on in use. -/
def smallImage (used : Nat) : Filesystem where
  sb := (smallVolume used).fs
  disk := (smallVolume used).disk
  nblk := 4

theorem mounted_small {used : Nat} (count : used = 1 ∨ used = 2 ∨ used = 3) :
    Mounted (smallVolume used) (smallImage used) := by
  have linked : ∀ ino : Nat, ino < 33 → (smallImage used).disk.dinode ino DI_MODE ≠ 0 →
      0 < (smallImage used).disk.dinode ino DI_NLINK := by
    obtain rfl | rfl | rfl := count <;> decide
  refine ⟨rfl, rfl, rfl, by change 0 < 24; decide,
    ⟨rfl, ?_, ?_, ⟨[], .empty rfl rfl, nodup_nil, rfl⟩, ?_, ?_⟩⟩
  · change Fits 4
    decide
  · change (4 : Int) ≤ 4
    decide
  · nofun
  · intro ino root below mode
    simp only [ROOTINO] at root
    change ino ≤ 32 at below
    obtain ⟨n, rfl⟩ : ∃ n : Nat, ino = n := ⟨ino.toNat, by omega⟩
    exact linked n (by omega) mode

/-- With inodes 1 and 2 free an `ialloc` agrees; with inode 1 in use every run does. -/
theorem allocators_agree_small :
    Mounted (smallVolume 3) (smallImage 3) ∧
      Agrees 0 (smallVolume 3) (smallImage 3) [.ialloc] ∧
      ((∀ ops, Lawful Legal 0 (smallVolume 3) (smallImage 3) ops →
          Agrees 0 (smallVolume 3) (smallImage 3) ops) ↔ ¬ (smallImage 3).oneFree) ∧
      (∀ ops, Lawful Legal 0 (smallVolume 1) (smallImage 1) ops →
          Agrees 0 (smallVolume 1) (smallImage 1) ops) := by
  have start := mounted_small (.inr (.inr rfl))
  have taken : 1 ≤ (smallImage 3).vacancies.length ∧
      (smallImage 3).vacancies.length < NICINOD.toNat := by decide
  refine ⟨start, (allocators_agree 0 _ _ start).1 _ ?_, (allocators_agree 0 _ _ start).2,
    (allocators_agree 0 _ _ (mounted_small (.inl rfl))).2.mpr ?_⟩
  · exact ⟨⟨rfl, .inr (.inr taken)⟩, fun _ _ _ _ _ => trivial⟩
  · exact fun free => absurd free.2 (by decide)

/-- Inode 1 is all that is free: `inode_alloc` fails where `ialloc` does not return. -/
theorem allocators_differ :
    Mounted (smallVolume 2) (smallImage 2) ∧
      Lawful Legal 0 (smallVolume 2) (smallImage 2) [.ialloc] ∧
      ¬ Agrees 0 (smallVolume 2) (smallImage 2) [.ialloc] := by
  have start := mounted_small (.inr (.inl rfl))
  refine ⟨start, ⟨rfl, fun _ _ _ _ _ => trivial⟩, ?_⟩
  rintro ⟨rs, k', f', kern_run, -, -⟩
  cases kern_run with
  | cons kern _ =>
    have only : (smallVolume 2).vacancies = [1] := by decide
    exact not_kernStep_of_inode_one start.mirrors rfl rfl only kern

end V7Besm.Fs

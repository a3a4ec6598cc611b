import V7Besm.Fs.Kernel
import Mathlib.Data.List.Basic

/-!
When `ialloc` returns.

The loop first goes down the cache of i-numbers. A number below `ROOTINO` or that of an
inode in use is passed over; the first other one decides. When the cache is empty the
i-list is searched, and the search counts inode 1 among the free ones although the
loop will not hand it out: if it is the only one, the loop pops it, finds the cache
empty and searches again, for ever.
-/

namespace V7Besm.Fs

open Alloc Spin Function List

variable {now : Int} {s s' : Kern}

/-! ### Frames -/

/-- The counts are in range, as `sbcheck` found them. -/
def Kern.Counts (s : Kern) : Prop := s.fs.nfree ≤ NICFREE ∧ s.fs.ninode ≤ NICINOD

theorem getfs_eq (counts : s.Counts) : s.getfs = s := by
  unfold Kern.getfs
  rw [if_neg]
  obtain ⟨nfree, ninode⟩ := counts
  omega

/-- Only the free list and the words of blocks have changed. -/
structure BlocksOnly (s s' : Kern) : Prop where
  core : s'.core = s.core
  others : s'.others = s.others
  ninode : s'.fs.ninode = s.fs.ninode
  inode : s'.fs.inode = s.fs.inode
  counts : s'.Counts

theorem BlocksOnly.refl (counts : s.Counts) : BlocksOnly s s := ⟨rfl, rfl, rfl, rfl, counts⟩

theorem BlocksOnly.trans {s'' : Kern} (first : BlocksOnly s s') (second : BlocksOnly s' s'') :
    BlocksOnly s s'' :=
  ⟨second.core.trans first.core, second.others.trans first.others,
    second.ninode.trans first.ninode, second.inode.trans first.inode, second.counts⟩

theorem sentinel_inodes (fs : Filsys) :
    (sentinel fs).ninode = fs.ninode ∧ (sentinel fs).inode = fs.inode := by
  unfold sentinel
  split <;> exact ⟨rfl, rfl⟩

theorem free_blocksOnly {held : Option Int} {bno : Int} (counts : s.Counts)
    (ok : free held s bno = some s') : BlocksOnly s s' := by
  unfold free at ok
  rw [getfs_eq counts] at ok
  obtain ⟨nfree, ninode⟩ := counts
  obtain ⟨same, same'⟩ := sentinel_inodes { s.fs with fmod := 1 }
  dsimp only at ok
  split at ok
  next =>
    cases ok
    exact ⟨rfl, rfl, rfl, rfl, nfree, ninode⟩
  next =>
    split at ok
    next =>
      split at ok
      next => cases ok
      next =>
        cases ok
        refine ⟨rfl, rfl, same, same', ?_, le_of_eq_of_le same ninode⟩
        change (0 : Int) + 1 ≤ 320
        decide
    next small =>
      cases ok
      refine ⟨rfl, rfl, same, same', ?_, le_of_eq_of_le same ninode⟩
      dsimp only [pushBlock]
      omega

variable {bn : Int} {i : Nat}

variable {ip ip' : Nat → Int}

section Frees

-- whatever each `free` keeps, `itrunc` keeps
variable {bad : Int → Bool} {R : Kern → Kern → Prop} (refl : ∀ s, R s s)
  (trans : ∀ s s' s'', R s s' → R s' s'' → R s s'')
  (each : ∀ held s bno s', free held s bno = some s' → R s s')

include refl trans each

theorem tloop_rel {one : Kern → Int → Option Kern}
    (each' : ∀ s nb s', one s nb = some s' → R s s')
    (ok : tloop bad one bn i s = some s') : R s s' := by
  induction i generalizing s with
  | zero => exact each _ _ _ _ ok
  | succ i ih =>
    simp only [tloop] at ok
    split at ok
    next =>
      cases ok
      exact refl _
    next =>
      split at ok
      next => exact ih ok
      next =>
        obtain ⟨s₁, first, rest⟩ := Option.bind_eq_some_iff.mp ok
        exact trans _ _ _ (each' _ _ _ first) (ih rest)

theorem freeSlot_rel (ok : freeSlot bad i s bn = some s') : R s s' := by
  have single : ∀ s bn s', tloopSingle bad s bn = some s' → R s s' :=
    fun _ _ _ ok => tloop_rel refl trans each (each _) ok
  unfold freeSlot at ok
  split at ok
  next => exact tloop_rel refl trans each single ok
  next =>
    split at ok
    next => exact single _ _ _ ok
    next => exact each _ _ _ _ ok

theorem itruncLoop_rel (ok : itruncLoop bad i ip s = some (ip', s')) : R s s' := by
  induction i generalizing ip s with
  | zero =>
    cases ok
    exact refl _
  | succ i ih =>
    simp only [itruncLoop] at ok
    split at ok
    next => exact ih ok
    next =>
      obtain ⟨s₁, first, rest⟩ := Option.bind_eq_some_iff.mp ok
      exact trans _ _ _ (freeSlot_rel refl trans each first) (ih rest)

theorem itrunc_rel (ok : itrunc bad ip s = some (ip', s')) : R s s' := by
  unfold itrunc at ok
  split at ok
  next =>
    cases ok
    exact refl _
  next =>
    obtain ⟨⟨ip₁, s₁⟩, loop, done⟩ := Option.bind_eq_some_iff.mp ok
    cases done
    exact itruncLoop_rel refl trans each loop

end Frees

theorem itrunc_blocksOnly {bad : Int → Bool} (counts : s.Counts)
    (ok : itrunc bad ip s = some (ip', s')) :
    BlocksOnly s s' :=
  itrunc_rel (fun _ => .refl)
    (fun _ _ _ first second counts => (first counts).trans (second (first counts).counts))
    (fun _ _ _ _ ok counts => free_blocksOnly counts ok) ok counts

variable {ino : Int}

/-- An inode without links that is put back is free and on top of the cache. -/
theorem iput_frees (counts : s.Counts) (room : s.fs.ninode < NICINOD) (unlinked : ip DI_NLINK ≤ 0)
    (ok : iput now ino ip s = some s') :
    s'.core = s.core ∧ s'.others = s.others ∧ s'.Counts ∧
      s'.fs.ninode = s.fs.ninode + 1 ∧ s'.fs.inode s.fs.ninode = ino ∧
      s'.disk.dinode ino DI_MODE = 0 := by
  unfold iput at ok
  rw [if_pos unlinked] at ok
  obtain ⟨⟨ip₁, s₁⟩, truncs, done⟩ := Option.bind_eq_some_iff.mp ok
  cases done
  have only := itrunc_blocksOnly counts truncs
  obtain ⟨nfree, -⟩ := only.counts
  have not_full : ¬ s₁.fs.ninode ≥ NICINOD := by
    rw [only.ninode]
    omega
  have freed : ifree s₁ ino = { s₁ with fs := { s₁.fs with
      tinode := s₁.fs.tinode + 1
      fmod := 1
      inode := update s₁.fs.inode s₁.fs.ninode ino
      ninode := s₁.fs.ninode + 1 } } := by
    unfold ifree
    rw [getfs_eq only.counts]
    exact if_neg not_full
  rw [freed]
  refine ⟨only.core, only.others, ⟨nfree, ?_⟩, ?_, ?_, ?_⟩
  · dsimp only [iupdat, Kern.write]
    omega
  · dsimp only [iupdat, Kern.write]
    rw [only.ninode]
  · dsimp only [iupdat, Kern.write]
    rw [only.ninode, update_self]
  · simp [iupdat, Kern.write, Disk.dinode, Disk.get]
    decide

/-! ### The search of the i-list -/

/-- The i-numbers from `ino` on, `n` of them. -/
def inosFrom (ino : Int) : Nat → List Int
  | 0 => []
  | n + 1 => ino :: inosFrom (ino + 1) n

theorem inosFrom_add (ino : Int) (m n : Nat) :
    inosFrom ino (m + n) = inosFrom ino m ++ inosFrom (ino + m) n := by
  induction m generalizing ino with
  | zero => simp [inosFrom]
  | succ m ih =>
    have shift : ino + 1 + m = ino + (m + 1 : Nat) := by omega
    rw [Nat.add_right_comm, inosFrom, inosFrom, ih, shift, cons_append]

/-- The inodes of a block, and those of the blocks behind it. -/
theorem inosFrom_blocks (ino : Int) (n : Nat) : inosFrom ino (INOPB * (n + 1)) =
    inosFrom ino INOPB ++ inosFrom (ino + INOPB) (INOPB * n) := by
  rw [← inosFrom_add, Nat.mul_succ, Nat.add_comm]

variable {n : Nat}

theorem mem_inosFrom {i : Int} : i ∈ inosFrom ino n ↔ ino ≤ i ∧ i < ino + n := by
  induction n generalizing ino with
  | zero =>
    simp only [inosFrom, not_mem_nil, false_iff]
    omega
  | succ n ih =>
    rw [inosFrom, mem_cons, ih]
    omega

theorem inosFrom_sorted (ino : Int) (n : Nat) : (inosFrom ino n).Pairwise (· < ·) := by
  induction n generalizing ino with
  | zero => exact List.Pairwise.nil
  | succ n ih =>
    refine pairwise_cons.mpr ⟨?_, ih _⟩
    intro i within
    have := mem_inosFrom.mp within
    omega

/-- The numbers go into the cache, as many as are given. -/
def pushInodes (fs : Filsys) : List Int → Filsys
  | [] => fs
  | ino :: rest =>
    pushInodes { fs with
      inode := update fs.inode fs.ninode ino
      ninode := fs.ninode + 1 } rest

theorem pushInodes_append (fs : Filsys) (l m : List Int) :
    pushInodes fs (l ++ m) = pushInodes (pushInodes fs l) m := by
  induction l generalizing fs with
  | nil => rfl
  | cons ino l ih => exact ih _

theorem pushInodes_ninode (fs : Filsys) (l : List Int) :
    (pushInodes fs l).ninode = fs.ninode + l.length := by
  induction l generalizing fs with
  | nil => simp [pushInodes]
  | cons ino l ih =>
    rw [pushInodes, ih, length_cons]
    dsimp only
    omega

theorem pushInodes_inode_top (fs : Filsys) (l : List Int) (ino : Int) :
    (pushInodes fs (l ++ [ino])).inode (fs.ninode + l.length) = ino := by
  rw [pushInodes_append, pushInodes, pushInodes, ← pushInodes_ninode]
  exact update_self ..

theorem pushInodes_nfree (fs : Filsys) (l : List Int) :
    (pushInodes fs l).nfree = fs.nfree ∧ (pushInodes fs l).isize = fs.isize := by
  induction l generalizing fs with
  | nil => exact ⟨rfl, rfl⟩
  | cons ino l ih => exact ih _

/-- What the search takes for free: mode 0 on the disk, and not in core. -/
def Kern.vacant (s : Kern) (ino : Int) : Bool := s.disk.dinode ino DI_MODE = 0 ∧ s.incore ino = none

/-- The number of inodes in the i-list, numbered from 1 on. -/
def Kern.ninodes (s : Kern) : Nat := INOPB * (s.fs.isize - 1).toNat

/-- The free inodes of the i-list, as the search sees them. -/
def Kern.vacancies (s : Kern) : List Int := (inosFrom 1 s.ninodes).filter s.vacant

/-- The cache is filled up with the first of the numbers. -/
def fillUp (fs : Filsys) (l : List Int) : Filsys :=
  pushInodes fs (l.take (NICINOD - fs.ninode).toNat)

@[simp]
theorem fillUp_nil (fs : Filsys) : fillUp fs [] = fs := by
  rw [fillUp, take_nil, pushInodes]

variable {fs : Filsys} {l : List Int}

theorem fillUp_cons (room : fs.ninode < NICINOD) :
    fillUp fs (ino :: l) = fillUp { fs with
      inode := update fs.inode fs.ninode ino
      ninode := fs.ninode + 1 } l := by
  have more : (NICINOD - fs.ninode).toNat = (NICINOD - (fs.ninode + 1)).toNat + 1 := by omega
  rw [fillUp, more, take_succ_cons, pushInodes, fillUp]

theorem fillUp_full (full : fs.ninode ≥ NICINOD) : fillUp fs l = fs := by
  have none_left : (NICINOD - fs.ninode).toNat = 0 := by omega
  rw [fillUp, none_left, take_zero, pushInodes]

theorem fillUp_append (fs : Filsys) (l m : List Int) :
    fillUp fs (l ++ m) = fillUp (fillUp fs l) m := by
  have left : (NICINOD - (fs.ninode + (l.take (NICINOD - fs.ninode).toNat).length)).toNat =
      (NICINOD - fs.ninode).toNat - l.length := by
    rw [length_take]
    omega
  unfold fillUp
  rw [take_append, pushInodes_append, pushInodes_ninode, left]

variable {adr : Int}

/-- Where the search stands: the inode with `n + 1` slots left in the block `adr`. -/
theorem slot_of_ino (within : n + 1 ≤ INOPB)
    (at_slot : ino = INOPB * (adr - 1) + (INOPB - (n + 1) : Nat) + 1) :
    itod ino = adr ∧ itoo ino = INOPB - (n + 1) := by
  simp only [INOPB] at within at_slot
  unfold itod itoo
  simp only [INOPB]
  omega

theorem scanBlock_eq (within : n ≤ INOPB)
    (at_slot : ino = INOPB * (adr - 1) + (INOPB - n : Nat) + 1) (room : s.fs.ninode < NICINOD) :
    scanBlock adr n ino s = { s with fs := fillUp s.fs ((inosFrom ino n).filter s.vacant) } := by
  induction n generalizing ino s with
  | zero => simp [scanBlock, inosFrom]
  | succ n ih =>
    obtain ⟨block, slot⟩ := slot_of_ino within at_slot
    have same : s.disk.get adr (16 * (INOPB - (n + 1))) = s.disk.dinode ino DI_MODE := by
      rw [Disk.dinode, slot, block]
      rfl
    rw [scanBlock, inosFrom, same]
    by_cases free : s.vacant ino = true
    · have open_ : ¬ (s.disk.dinode ino DI_MODE ≠ 0 ∨ (s.incore ino).isSome) := by
        simpa [Kern.vacant] using free
      rw [if_neg open_, filter_cons_of_pos free, fillUp_cons room]
      dsimp only
      split
      next stop => rw [fillUp_full stop]
      next go =>
        exact ih (by omega) (by omega) (by dsimp only; omega)
    · have taken : s.disk.dinode ino DI_MODE ≠ 0 ∨ (s.incore ino).isSome := by
        simp only [Kern.vacant, decide_eq_true_eq, not_and] at free
        by_cases mode : s.disk.dinode ino DI_MODE = 0
        · exact .inr (Option.isSome_iff_ne_none.mpr (free mode))
        · exact .inl mode
      rw [if_pos taken, filter_cons_of_neg free]
      exact ih (by omega) (by omega) room

theorem scanBlocks_eq (at_block : ino = INOPB * (adr - 1) + 1) (room : s.fs.ninode < NICINOD) :
    scanBlocks n adr ino s =
      { s with fs := fillUp s.fs ((inosFrom ino (INOPB * n)).filter s.vacant) } := by
  induction n generalizing adr ino s with
  | zero => simp [scanBlocks, inosFrom]
  | succ n ih =>
    have first : ino = INOPB * (adr - 1) + (INOPB - INOPB : Nat) + 1 := by
      rw [at_block, Nat.sub_self]
      simp
    rw [scanBlocks, inosFrom_blocks, filter_append, fillUp_append,
      scanBlock_eq (Nat.le_refl _) first room]
    split
    next stop => rw [fillUp_full stop]
    next go =>
      refine ih ?_ (by omega)
      simp only [INOPB] at at_block ⊢
      omega

/-- The search fills the cache with the first of the free inodes. -/
theorem scan_eq (room : s.fs.ninode < NICINOD) :
    scan s = { s with fs := fillUp s.fs s.vacancies } := scanBlocks_eq (by decide) room

/-! ### The cache -/

/-- What the loop does with a number from the cache: it goes on to the next, it takes it, the
inode table has no room for it, or it waits for itself. -/
inductive Verdict where
  | skip
  | take
  | tableFull
  | asleep
deriving DecidableEq, Repr

/-- The verdict on a number that has been popped. An inode in use goes back by `iput`, and one
without links is free after that and the next to be popped. -/
def Kern.judge (now : Int) (s : Kern) (ino : Int) : Verdict :=
  if ino < ROOTINO then .skip
  else
    match s.incore ino with
    | some ip => if ip.locked then .asleep else if ip.mode = 0 then .take else .skip
    | none =>
      if s.full then .tableFull
      else if s.disk.dinode ino DI_MODE = 0 then .take
      else if s.disk.dinode ino DI_NLINK > 0 then .skip
      else if (iput now ino (s.disk.dinode ino) s).isSome then .take
      else .asleep

/-- The first of the `n` lowest numbers in the cache that is not passed over, from the top. -/
def Kern.decisive (now : Int) (s : Kern) : Nat → Option Verdict
  | 0 => none
  | n + 1 =>
    match (s.withCache n).judge now (s.fs.inode n) with
    | .skip => s.decisive now n
    | v => some v

theorem decisive_withCache (now : Int) (s : Kern) (m : Int) (n : Nat) :
    (s.withCache m).decisive now n = s.decisive now n := by
  induction n with
  | zero => rfl
  | succ n ih =>
    rw [Kern.decisive, Kern.decisive, ih]
    rfl

/-- The inode is in core, locked and without a mode. -/
def Kern.holds (s : Kern) (ino : Int) : Prop :=
  ∃ ip ∈ s.core, ip.number = ino ∧ ip.locked = true ∧ ip.mode = 0

/-- How the loop ends on a verdict. -/
def Verdict.ends (now : Int) (s : Kern) : Verdict → Prop
  | .skip => False
  | .take => ∃ ino s', ROOTINO ≤ ino ∧ s'.holds ino ∧ Returns (iallocTurn now) s (.inode ino, s')
  | .tableFull => ∃ s', Returns (iallocTurn now) s (.tableFull, s')
  | .asleep => ∃ s', Returns (iallocTurn now) s (.asleep, s')

theorem iallocTurn_pop (now : Int) (cached : s.fs.ninode = (n + 1 : Nat)) :
    iallocTurn now s = iallocNumber now (s.withCache n) (s.fs.inode n) := by
  have below : s.fs.ninode - 1 = n := by omega
  unfold iallocTurn
  rw [if_pos (by omega), below]

/-- A number is passed over, or the loop ends with it, or its inode is freed first. -/
theorem iallocNumber_of_judge (now : Int) (s : Kern) (ino : Int) :
    match s.judge now ino with
    | .skip => iallocNumber now s ino = .inl s
    | .tableFull => iallocNumber now s ino = .inr (.tableFull, s)
    | .asleep => iallocNumber now s ino = .inr (.asleep, s)
    | .take => ROOTINO ≤ ino ∧
        ((∃ s', iallocNumber now s ino = .inr (.inode ino, s') ∧ s'.holds ino) ∨
          s.incore ino = none ∧ s.full = false ∧ s.disk.dinode ino DI_NLINK ≤ 0 ∧
            ∃ s', iput now ino (s.disk.dinode ino) s = some s' ∧
              iallocNumber now s ino = .inl s') := by
  unfold Kern.judge iallocNumber
  by_cases low : ino < ROOTINO
  · simp only [low, if_true]
  simp only [low, if_false]
  cases here : s.incore ino with
  | some ip =>
    have found : ip.number = ino := by simpa using List.find?_some here
    by_cases locked : ip.locked = true
    · simp only [if_pos locked]
    · by_cases mode : ip.mode = 0
      · simp only [if_neg locked, if_pos mode]
        refine ⟨by omega, .inl ⟨_, rfl, { ip with locked := true }, ?_, found, rfl, mode⟩⟩
        refine mem_map.mpr ⟨ip, mem_of_find?_eq_some here, ?_⟩
        rw [if_pos found]
      · simp only [if_neg locked, if_neg mode]
  | none =>
    by_cases full : s.full = true
    · simp only [if_pos full]
    by_cases mode : s.disk.dinode ino DI_MODE = 0
    · simp only [if_neg full, if_pos mode]
      exact ⟨by omega, .inl ⟨_, rfl, _, mem_cons_self, rfl, rfl, rfl⟩⟩
    simp only [if_neg full, if_neg mode]
    by_cases linked : s.disk.dinode ino DI_NLINK > 0
    · have back : iput now ino (s.disk.dinode ino) s = some s := if_neg (by omega)
      simp only [if_pos linked, back]
    · simp only [if_neg linked]
      cases put : iput now ino (s.disk.dinode ino) s with
      | none => simp
      | some s' =>
        exact ⟨by omega, .inr ⟨trivial, eq_false_of_ne_true full, by omega, s', rfl, rfl⟩⟩

theorem iallocNumber_of_free (now : Int) (root : ROOTINO ≤ ino) (away : s.incore ino = none)
    (room : s.full = false) (mode : s.disk.dinode ino DI_MODE = 0) :
    iallocNumber now s ino = .inr (handOut s (⟨ino, true, 0⟩ :: s.core) ino) := by
  unfold iallocNumber
  rw [if_neg (by omega), away]
  rw [room, if_neg Bool.false_ne_true, if_pos mode]

theorem iallocNumber_of_full (now : Int) (root : ROOTINO ≤ ino) (away : s.incore ino = none)
    (full : s.full = true) : iallocNumber now s ino = .inr (.tableFull, s) := by
  unfold iallocNumber
  rw [if_neg (by omega), away]
  exact if_pos full

/-- A free inode on top of the cache is handed out. -/
theorem returns_of_free (now : Int) (cached : s.fs.ninode = (n + 1 : Nat))
    (top : s.fs.inode n = ino) (root : ROOTINO ≤ ino) (away : s.incore ino = none)
    (room : s.full = false) (mode : s.disk.dinode ino DI_MODE = 0) :
    ∃ s', s'.holds ino ∧ Returns (iallocTurn now) s (.inode ino, s') := by
  have turn := iallocTurn_pop now cached
  rw [top, iallocNumber_of_free (s := s.withCache n) now root away room mode] at turn
  exact ⟨_, ⟨_, mem_cons_self, rfl, rfl, rfl⟩, returns_of_inr turn⟩

theorem ends_of_judge {v : Verdict} (counts : s.Counts) (cached : s.fs.ninode = (n + 1 : Nat))
    (verdict : (s.withCache n).judge now (s.fs.inode n) = v) (decides : v ≠ .skip) :
    v.ends now s := by
  have spec := iallocNumber_of_judge now (s.withCache n) (s.fs.inode n)
  rw [verdict, ← iallocTurn_pop now cached] at spec
  cases v with
  | skip => exact absurd rfl decides
  | tableFull | asleep => exact ⟨_, returns_of_inr spec⟩
  | take =>
    obtain ⟨root, ⟨s', turn, holds⟩ | ⟨away, room, unlinked, s₁, put, turn⟩⟩ := spec
    · exact ⟨_, s', root, holds, returns_of_inr turn⟩
    -- the inode is free now, and the next one to be popped
    obtain ⟨nfree, ninode⟩ := counts
    have below : (n : Int) < NICINOD := by omega
    have counts' : (s.withCache n).Counts := ⟨nfree, Int.le_of_lt below⟩
    obtain ⟨core, others, -, cached₁, top, mode⟩ := iput_frees counts' below unlinked put
    have away₁ : s₁.incore (s.fs.inode n) = none := by
      unfold Kern.incore
      rwa [core]
    have room₁ : s₁.full = false := by
      unfold Kern.full
      rwa [core, others]
    obtain ⟨s', holds, returns⟩ := returns_of_free now cached₁ top root away₁ room₁ mode
    exact ⟨_, s', root, holds, (returns_iff_of_inl turn).mpr returns⟩

theorem Verdict.ends_iff {v : Verdict} (turn : iallocTurn now s = .inl s') :
    v.ends now s ↔ v.ends now s' := by
  cases v <;> simp only [Verdict.ends, returns_iff_of_inl turn]

/-- The number on top is passed over, or it decides. -/
theorem decisive_succ (now : Int) (cached : s.fs.ninode = (n + 1 : Nat)) :
    (iallocTurn now s = .inl (s.withCache n) ∧
        s.decisive now (n + 1) = (s.withCache n).decisive now n) ∨
      ∃ v, (s.withCache n).judge now (s.fs.inode n) = v ∧ s.decisive now (n + 1) = some v ∧
        v ≠ .skip := by
  have spec := iallocNumber_of_judge now (s.withCache n) (s.fs.inode n)
  rw [iallocTurn_pop now cached, Kern.decisive, decisive_withCache]
  cases verdict : (s.withCache n).judge now (s.fs.inode n) with
  | skip =>
    rw [verdict] at spec
    exact .inl ⟨spec, rfl⟩
  | _ => exact .inr ⟨_, rfl, rfl, nofun⟩

/-- The first number that is not passed over decides. -/
theorem ends_of_decisive {v : Verdict} (counts : s.Counts) (cached : s.fs.ninode = n)
    (first : s.decisive now n = some v) : v.ends now s := by
  induction n generalizing s with
  | zero => cases first
  | succ n ih =>
    obtain ⟨turn, rest⟩ | ⟨w, verdict, top, decides⟩ := decisive_succ now cached
    · obtain ⟨nfree, ninode⟩ := counts
      have counts' : (s.withCache n).Counts := by
        refine ⟨nfree, ?_⟩
        change (n : Int) ≤ NICINOD
        omega
      exact (Verdict.ends_iff turn).mpr (ih counts' rfl (rest ▸ first))
    · cases top.symm.trans first
      exact ends_of_judge counts cached verdict decides

variable {r : Out × Kern}

/-- If no number in the cache decides, the search does. -/
theorem returns_of_undecided (cached : s.fs.ninode = n) (none_decides : s.decisive now n = none) :
    Returns (iallocTurn now) s r ↔ Returns (iallocTurn now) (s.withCache 0) r := by
  induction n generalizing s with
  | zero =>
    have same : s.withCache 0 = s := by
      unfold Kern.withCache
      rw [show (0 : Int) = s.fs.ninode from cached.symm]
    rw [same]
  | succ n ih =>
    obtain ⟨turn, rest⟩ | ⟨w, -, top, -⟩ := decisive_succ now cached
    · rw [returns_iff_of_inl turn]
      exact ih rfl (rest ▸ none_decides)
    · cases top.symm.trans none_decides

/-! ### The empty cache -/

theorem vacancies_sorted (s : Kern) : s.vacancies.Pairwise (· < ·) := (inosFrom_sorted _ _).filter _

theorem mem_vacancies : ino ∈ s.vacancies ↔ (1 ≤ ino ∧ ino ≤ s.ninodes) ∧ s.vacant ino = true := by
  rw [Kern.vacancies, mem_filter, mem_inosFrom]
  constructor
  · rintro ⟨within, free⟩
    exact ⟨by omega, free⟩
  · rintro ⟨within, free⟩
    exact ⟨by omega, free⟩

/-- The search of the i-list, if the cache is empty. -/
theorem iallocTurn_search (now : Int) (cached : s.fs.ninode = 0) : iallocTurn now s =
    if s.vacancies = [] then .inr (.nospace, s)
    else .inl { s with fs := fillUp s.fs s.vacancies } := by
  have found := scan_eq (s := s) (by rw [cached]; decide)
  unfold iallocTurn
  rw [if_neg (by omega), found]
  by_cases nothing : s.vacancies = []
  · rw [if_pos nothing, nothing, fillUp_nil]
    exact if_neg (by dsimp only; omega)
  · have positive := length_pos_iff.mpr nothing
    rw [if_neg nothing, if_pos]
    rw [fillUp, pushInodes_ninode, cached, length_take]
    change 0 < 0 + ((min 160 s.vacancies.length : Nat) : Int)
    omega

theorem returns_of_no_vacancy (cached : s.fs.ninode = 0) (nothing : s.vacancies = []) :
    Returns (iallocTurn now) s r ↔ r = (.nospace, s) :=
  returns_iff_of_inr ((iallocTurn_search now cached).trans (if_pos nothing))

/-- Something is free: the last number found is on top of the cache. It is inode 1 only if that
is all there is. -/
theorem scan_finds (now : Int) (cached : s.fs.ninode = 0) (something : s.vacancies ≠ []) :
    ∃ (l : List Int) (top : Int), top ∈ s.vacancies ∧ (top = 1 → s.vacancies = [1]) ∧
      iallocTurn now s = .inl { s with fs := pushInodes s.fs (l ++ [top]) } := by
  have turn := (iallocTurn_search now cached).trans (if_neg something)
  rw [fillUp, cached, Int.sub_zero] at turn
  obtain nil | ⟨l, top, taken⟩ := (s.vacancies.take NICINOD.toNat).eq_nil_or_concat
  · rw [take_eq_nil_iff] at nil
    obtain zero | nil := nil
    · cases zero
    · exact absurd nil something
  rw [concat_eq_append] at taken
  rw [taken] at turn
  have sorted : (l ++ [top]).Pairwise (· < ·) := by
    rw [← taken]
    exact (vacancies_sorted s).sublist (take_sublist _ _)
  have inside : ∀ ino ∈ l ++ [top], ino ∈ s.vacancies := by
    intro ino within
    rw [← taken] at within
    exact mem_of_mem_take within
  refine ⟨l, top, inside top (by simp), fun one => ?_, turn⟩
  -- every number before the last one is smaller, and there is none below 1
  have only : l = [] := by
    refine eq_nil_iff_forall_not_mem.mpr ?_
    intro ino within
    have smaller := (pairwise_append.mp sorted).2.2 ino within top (by simp)
    have bounds := (mem_vacancies.mp (inside ino (mem_append_left _ within))).1
    omega
  rw [only, nil_append, one] at taken
  rcases vacancies : s.vacancies with _ | ⟨ino, _ | _⟩
  all_goals
    rw [vacancies] at taken
    cases taken
  rfl

/-- Inode 1 is all that is free, and all that the cache can hold. -/
def Kern.Spins (s : Kern) : Prop :=
  s.vacancies = [1] ∧ (s.fs.ninode = 0 ∨ s.fs.ninode = 1 ∧ s.fs.inode 0 = 1)

/-- Inode 1 is found again and again. -/
theorem not_returns_of_inode_one (cached : s.fs.ninode = 0)
    (only : s.vacancies = [1]) : ¬ Returns (iallocTurn now) s r := by
  have spins : s.Spins := ⟨only, .inl cached⟩
  refine not_returns_of_invariant spins ?_
  rintro t ⟨only, empty | ⟨one, top⟩⟩
  · have turn := (iallocTurn_search now empty).trans (if_neg (by simp [only]))
    rw [only, fillUp_cons (by rw [empty]; decide), fillUp_nil, empty] at turn
    exact ⟨_, turn, only, .inr ⟨rfl, by simp⟩⟩
  · refine ⟨t.withCache 0, ?_, only, .inl rfl⟩
    rw [iallocTurn_pop now one, iallocNumber]
    exact if_pos (by change t.fs.inode 0 < 2; omega)

/-! ### The result -/

/-- An inode that can be handed out: `ROOTINO` or more, in the i-list, not in core, mode 0. -/
def Kern.HasFree (s : Kern) : Prop := ∃ ino, ROOTINO ≤ ino ∧ ino ≤ s.ninodes ∧ s.vacant ino = true

/-- What `ialloc` should end with. -/
def Out.Proper (s' : Kern) : Out → Prop
  | .inode ino => ROOTINO ≤ ino ∧ s'.holds ino
  | .nospace => True
  | .tableFull => False
  | .asleep => False

/-- `ialloc` returns, with a locked inode without a mode or with `ENOSPC`, and with the latter if
there is no inode to be had. -/
def Allocates (now : Int) (s : Kern) : Prop :=
  ∃ out s', Ialloc now s out s' ∧ out.Proper s' ∧ (¬ s.HasFree → out = .nospace)

theorem allocates_iff (counts : s.Counts) (returns : Returns (iallocTurn now) s r) :
    Allocates now s ↔ r.1.Proper r.2 ∧ (¬ s.HasFree → r.1 = .nospace) := by
  unfold Allocates Ialloc
  rw [getfs_eq counts]
  constructor
  · rintro ⟨out, s', ends, proper⟩
    cases returns.unique ends
    exact proper
  · rintro proper
    exact ⟨r.1, r.2, returns, proper⟩

theorem hasFree_of_mem (within : ino ∈ s.vacancies) (root : ROOTINO ≤ ino) :
    s.HasFree := by
  obtain ⟨⟨-, below⟩, free⟩ := mem_vacancies.mp within
  exact ⟨ino, root, below, free⟩

theorem Kern.HasFree.mem (free : s.HasFree) : ∃ ino ∈ s.vacancies, ROOTINO ≤ ino := by
  obtain ⟨ino, root, below, vacant⟩ := free
  simp only [ROOTINO] at root
  exact ⟨ino, mem_vacancies.mpr ⟨⟨by omega, below⟩, vacant⟩, root⟩

/-- A number other than 1 that the search leaves on top of the cache. -/
theorem returns_of_found {top : Int} (cached : s.fs.ninode = 0) (root : ROOTINO ≤ top)
    (vacant : s.vacant top = true)
    (turn : iallocTurn now s = .inl { s with fs := pushInodes s.fs (l ++ [top]) }) :
    if s.full then ∃ s', Returns (iallocTurn now) s (.tableFull, s')
    else ∃ s', s'.holds top ∧ Returns (iallocTurn now) s (.inode top, s') := by
  have cached' : (pushInodes s.fs (l ++ [top])).ninode = (l.length + 1 : Nat) := by
    rw [pushInodes_ninode, cached, length_append, length_singleton]
    omega
  have top' : (pushInodes s.fs (l ++ [top])).inode l.length = top := by
    have last := pushInodes_inode_top s.fs l top
    rwa [cached, Int.zero_add] at last
  obtain ⟨mode, away⟩ : s.disk.dinode top DI_MODE = 0 ∧ s.incore top = none := by
    simpa [Kern.vacant] using vacant
  simp only [returns_iff_of_inl turn]
  split
  next full =>
    have popped := iallocTurn_pop (s := { s with fs := pushInodes s.fs (l ++ [top]) }) now cached'
    rw [top'] at popped
    exact ⟨_, returns_of_inr (popped.trans (iallocNumber_of_full now root away full))⟩
  next room =>
    exact returns_of_free now cached' top' root away (eq_false_of_ne_true room) mode

theorem allocates_iff_of_empty (cached : s.fs.ninode = 0) :
    (∃ out s', Returns (iallocTurn now) s (out, s') ∧ out.Proper s' ∧
        (¬ s.HasFree → out = .nospace)) ↔
      (s.HasFree ∧ s.full = false) ∨ (¬ s.HasFree ∧ 1 ∉ s.vacancies) := by
  by_cases nothing : s.vacancies = []
  · have no_free : ¬ s.HasFree := by
      intro free
      obtain ⟨ino, within, -⟩ := free.mem
      rw [nothing] at within
      cases within
    exact iff_of_true ⟨_, _, (returns_of_no_vacancy cached nothing).mpr rfl, trivial, fun _ => rfl⟩
      (.inr ⟨no_free, by simp [nothing]⟩)
  obtain ⟨l, top, within, one, turn⟩ := scan_finds now cached nothing
  obtain ⟨⟨low, -⟩, vacant⟩ := mem_vacancies.mp within
  by_cases is_one : top = 1
  · have only := one is_one
    refine iff_of_false (fun ⟨_, _, returns, _⟩ => not_returns_of_inode_one cached only returns) ?_
    rintro (⟨free, -⟩ | ⟨-, missing⟩)
    · obtain ⟨ino, inside, root⟩ := free.mem
      rw [only, mem_singleton] at inside
      simp only [ROOTINO] at root
      omega
    · simp [only] at missing
  have root : ROOTINO ≤ top := by
    simp only [ROOTINO]
    omega
  have free : s.HasFree := hasFree_of_mem within root
  have ends := returns_of_found cached root vacant turn
  cases room : s.full with
  | true =>
    rw [if_pos room] at ends
    obtain ⟨s'', full_ends⟩ := ends
    refine iff_of_false (fun ⟨out, s', returns, proper, _⟩ => ?_) (by simp [free])
    cases returns.unique full_ends
    exact proper
  | false =>
    rw [room, if_neg Bool.false_ne_true] at ends
    obtain ⟨s', holds, returns⟩ := ends
    exact iff_of_true ⟨_, s', returns, ⟨root, holds⟩, fun no_free => absurd free no_free⟩
      (.inl ⟨free, rfl⟩)

/-- When `ialloc` does what it should. If there is an inode to be had, the first number that
the cache does not pass over is taken, or there is none and the inode table has room. If
there is none to be had, no number in the cache decides and inode 1 is not free either. -/
def Provided (now : Int) (s : Kern) : Prop :=
  (s.HasFree ∧ (s.decisive now s.fs.ninode.toNat = some .take ∨
      s.decisive now s.fs.ninode.toNat = none ∧ s.full = false)) ∨
    (¬ s.HasFree ∧ s.decisive now s.fs.ninode.toNat = none ∧ 1 ∉ s.vacancies)

theorem sbcheck_iff (fs : Filsys) :
    sbcheck fs = false ↔ fs.magic = FS_MAGIC ∧
      (fs.bsize = BSIZEW ∧ fs.inopb = INOPB ∧ fs.naddr = NADDR) ∧
      (SUPERB < fs.isize ∧ fs.isize < fs.fsize) ∧
      (0 ≤ fs.nfree ∧ fs.nfree ≤ NICFREE) ∧ (0 ≤ fs.ninode ∧ fs.ninode ≤ NICINOD) := by
  unfold sbcheck
  split
  next => simp only [Bool.true_eq_false, false_iff]; tauto
  split
  next => simp only [Bool.true_eq_false, false_iff]; tauto
  split
  next => simp only [Bool.true_eq_false, false_iff]; omega
  split
  next => simp only [Bool.true_eq_false, false_iff]; omega
  next magic geometry _ _ =>
    exact iff_of_true rfl ⟨not_not.mp magic, by tauto, by omega, by omega, by omega⟩

/-- `ialloc` ends properly just when the cache and the i-list let it. -/
theorem ialloc_allocates_iff (now : Int) (s : Kern) (accepted : sbcheck s.fs = false) :
    Allocates now s ↔ Provided now s := by
  obtain ⟨-, -, -, ⟨-, nfree⟩, low, high⟩ := (sbcheck_iff _).mp accepted
  have counts : s.Counts := ⟨nfree, high⟩
  have cached : s.fs.ninode = s.fs.ninode.toNat := by omega
  unfold Provided
  cases first : s.decisive now s.fs.ninode.toNat with
  | none =>
    have searched : (∃ out s', Returns (iallocTurn now) (s.withCache 0) (out, s') ∧
        out.Proper s' ∧ (¬ s.HasFree → out = .nospace)) ↔
        (s.HasFree ∧ s.full = false) ∨ (¬ s.HasFree ∧ 1 ∉ s.vacancies) := allocates_iff_of_empty rfl
    unfold Allocates Ialloc
    rw [getfs_eq counts]
    simp only [returns_of_undecided cached first]
    simpa using searched
  | some v =>
    have ends := ends_of_decisive counts cached first
    cases v with
    | skip => exact ends.elim
    | take =>
      obtain ⟨ino, s', root, holds, returns⟩ := ends
      rw [allocates_iff counts returns]
      have proper : Out.Proper s' (.inode ino) := ⟨root, holds⟩
      simp [proper]
    | _ =>
      obtain ⟨s', returns⟩ := ends
      rw [allocates_iff counts returns]
      simp [Out.Proper]

/-- A volume of one block of inodes, those from `used` on regular files with one link. -/
def smallVolume (used : Nat) : Kern where
  fs := {
    magic := FS_MAGIC, bsize := BSIZEW, inopb := INOPB, naddr := NADDR, isize := 2, fsize := 4
    tfree := 0, tinode := used - 2, flock := 0, ilock := 0, fmod := 0
    nfree := 0, free := fun _ => 0, ninode := 0, inode := fun _ => 0 }
  disk := fun bno i =>
    if bno = 1 ∧ used ≤ i / 16 + 1 then
      if i % 16 = DI_MODE then 0x81a4 else if i % 16 = DI_NLINK then 1 else 0
    else 0
  core := []
  others := 0

theorem ialloc_allocates_iff_new :
    sbcheck (smallVolume 3).fs = false ∧ (Allocates 0 (smallVolume 3) ↔
      Provided 0 (smallVolume 3)) ∧ Provided 0 (smallVolume 3) :=
  ⟨rfl, ialloc_allocates_iff 0 _ rfl, .inl ⟨⟨2, by decide⟩, .inr ⟨rfl, rfl⟩⟩⟩

/-- Inode 1 is all that is free: `ialloc` neither returns nor sleeps. -/
theorem ialloc_spins :
    sbcheck (smallVolume 2).fs = false ∧ ∀ out s', ¬ Ialloc 0 (smallVolume 2) out s' := by
  refine ⟨rfl, ?_⟩
  intro out s' returns
  have only : (smallVolume 2).vacancies = [1] := by decide
  exact not_returns_of_inode_one rfl only returns

end V7Besm.Fs

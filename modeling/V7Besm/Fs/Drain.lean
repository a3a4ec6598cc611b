import V7Besm.Fs.Verdict
import V7Besm.Spin.Drain

/-!
Draining a free list that the checker accepts.

Both allocators hand out the blocks of the list one after another. What the checker does
not exclude is a list that ends with a chain block without numbers: that block is counted,
but the call that takes it finds nothing behind it and fails.
-/

namespace V7Besm.Fs

open Alloc Spin List

variable {strict lossy : Bool} {d : Disk} {fs : Filsys} {b : Int} {l m : List Int}

/-! ### The end of the list -/

/-- A lossy list has a last block. -/
theorem FreeList.ne_nil (list : FreeList strict true d fs l) : l ≠ [] := by
  rintro rfl
  cases list with
  | empty kind _ | bottom kind _ _ _ => cases kind

/-- The list is settled by the superblock and the chain blocks. -/
theorem FreeList.unique {lossy' : Bool} (list : FreeList strict lossy d fs l)
    (size : 0 < fs.isize) (list' : FreeList strict lossy' d fs m) : lossy = lossy' ∧ l = m := by
  induction list generalizing m with
  | empty kind none_left =>
    cases list' with
    | empty kind' _ => exact ⟨kind.trans kind'.symm, rfl⟩
    | _ => omega
  | @bottom fs n kind count mark at_bottom =>
    cases list' with
    | empty _ none_left => omega
    | bottom kind' _ _ _ => exact ⟨kind.trans kind'.symm, rfl⟩
    | @pop _ n' _ _ count' top good _ =>
      obtain rfl : n = n' + 1 := by omega
      exact absurd (top.symm.trans mark) (ne_zero_of_good size good)
    | chain count' top good _ _ _ | last _ count' top good _ =>
      obtain rfl : n = 0 := by omega
      exact absurd (top.symm.trans mark) (ne_zero_of_good size good)
  | @pop fs n b l count top good _ ih =>
    cases list' with
    | @bottom _ n' _ count' mark _ =>
      obtain rfl : n' = n + 1 := by omega
      exact absurd (top.symm.trans mark) (ne_zero_of_good size good)
    | @pop _ n' _ _ count' top' _ rest =>
      obtain rfl : n = n' := by omega
      obtain ⟨same, rfl⟩ := ih size rest
      exact ⟨same, by rw [← top, top']⟩
    | _ => omega
  | @chain fs b l count top good low high _ ih =>
    cases list' with
    | @bottom _ n' _ count' mark _ =>
      obtain rfl : n' = 0 := by omega
      exact absurd (top.symm.trans mark) (ne_zero_of_good size good)
    | chain count' top' _ _ _ rest =>
      obtain rfl := top.symm.trans top'
      obtain ⟨same, rfl⟩ := ih size rest
      exact ⟨same, rfl⟩
    | last _ _ top' _ zero =>
      obtain rfl := top.symm.trans top'
      omega
    | _ => omega
  | @last fs b kind count top good zero =>
    cases list' with
    | @bottom _ n' _ count' mark _ =>
      obtain rfl : n' = 0 := by omega
      exact absurd (top.symm.trans mark) (ne_zero_of_good size good)
    | chain _ top' _ low _ _ =>
      obtain rfl := top.symm.trans top'
      omega
    | last kind' _ top' _ _ =>
      obtain rfl := top.symm.trans top'
      exact ⟨kind.trans kind'.symm, rfl⟩
    | _ => omega

/-- The blocks that can be handed out. -/
def drainable (lossy : Bool) (l : List Int) : List Int := if lossy then l.dropLast else l

theorem drainable_eq_cons (takes : drainable lossy m = b :: l) :
    ∃ m', m = b :: m' ∧ (lossy = true → m' ≠ []) ∧ drainable lossy m' = l := by
  cases lossy with
  | false => exact ⟨l, takes, nofun, rfl⟩
  | true =>
    cases m with
    | nil => cases takes
    | cons x m' =>
      cases m' with
      | nil => cases takes
      | cons y m' =>
        injection takes with same rest
        rw [same]
        exact ⟨y :: m', rfl, fun _ => cons_ne_nil _ _, rest⟩

theorem FreeList.of_drainable_nil (list : FreeList strict lossy d fs m)
    (none_left : drainable lossy m = []) : m = [] ∨ ∃ b, lossy = true ∧ m = [b] := by
  cases lossy with
  | false => exact .inl none_left
  | true =>
    cases m with
    | nil => exact .inl rfl
    | cons b m' =>
      cases m' with
      | nil => exact .inr ⟨b, rfl, rfl⟩
      | cons y m' => cases none_left

/-- The last block of a lossy list is a chain block without numbers. -/
theorem FreeList.last_iff (list : FreeList strict true d fs [b]) :
    fs.nfree = 1 ∧ fs.free 0 = b ∧ badblock fs b = false ∧ d.get b 0 = 0 := by
  cases list with
  | pop _ _ _ rest | chain _ _ _ _ _ rest => exact absurd rfl rest.ne_nil
  | last _ count top good zero => exact ⟨count, top, good, zero⟩

/-! ### The allocators -/

/-- `block_alloc` as it hands out blocks. -/
def hostPop (f : Filesystem) : Option (Int × Filesystem) :=
  match blockAlloc f with
  | (.ok b, f') => some (b, f')
  | (.error _, _) => none

/-- `alloc` as it hands out blocks. -/
def kernPop (s : Kern) : Option (Int × Kern) :=
  match alloc s with
  | (some b, s') => some (b, s')
  | (none, _) => none

/-- The host's volume can hand out the blocks `l`. -/
structure HostLeft (f : Filesystem) (l : List Int) : Prop where
  size : 0 < f.sb.isize
  covers : f.sb.fsize ≤ f.nblk
  room : f.sb.nfree ≤ NICFREE
  list : ∃ lossy m, FreeList false lossy f.disk f.sb m ∧ m.Nodup ∧ drainable lossy m = l

/-- The kernel's volume can hand out the blocks `l`. -/
structure KernLeft (s : Kern) (l : List Int) : Prop where
  size : 0 < s.fs.isize
  counts : s.Counts
  list : ∃ lossy m, FreeList false lossy s.disk s.fs m ∧ m.Nodup ∧ drainable lossy m = l

variable {f : Filesystem}

theorem HostLeft.step (left : HostLeft f (b :: l)) :
    ∃ f', hostPop f = some (b, f') ∧ HostLeft f' l := by
  obtain ⟨lossy, m, list, nodup, takes⟩ := left.list
  obtain ⟨m', rfl, more, rest⟩ := drainable_eq_cons takes
  obtain ⟨fresh, nodup'⟩ := nodup_cons.mp nodup
  have frame := (popped_frame f.disk f.sb b).1
  refine ⟨_, by rw [hostPop, blockAlloc_cons list left.room left.size left.covers more], ?_, ?_,
    (list.popped_nfree more left.room).2, lossy, m', list.tail fresh more, nodup', rest⟩
  · dsimp only
    rw [frame]
    exact left.size
  · dsimp only
    rw [frame]
    exact left.covers

theorem HostLeft.noSpace (left : HostLeft f []) : (blockAlloc f).1 = .error .noSpace := by
  obtain ⟨lossy, m, list, -, takes⟩ := left.list
  obtain rfl | ⟨b, rfl, rfl⟩ := list.of_drainable_nil takes
  · obtain ⟨n, fails, -⟩ := blockAlloc_nil list left.room
    rw [fails]
  -- the chain block is popped, and nothing is behind it
  obtain ⟨count, top, good, zero⟩ := list.last_iff
  have at_top : f.sb.nfree.toNat = 0 + 1 := by omega
  have pop : popCache f f.sb.nfree.toNat = (.ok b, { f with sb := { f.sb with nfree := 0 } }) := by
    rw [at_top]
    exact popCache_good top (ne_zero_of_good left.size good) good
  have within : Filesystem.outside { f with sb := { f.sb with nfree := 0 } } b = false :=
    not_outside left.size left.covers good
  have none_behind : (loadChain { f with sb := { f.sb with nfree := 0 } } b).1 =
      .error .noSpace := by
    unfold loadChain
    rw [if_neg (ne_true_of_eq_false within)]
    rw [if_neg (by rw [zero]; decide), if_pos (by rw [zero])]
  have room := left.room
  unfold blockAlloc
  rw [if_neg (by omega), if_neg (by omega), pop]
  dsimp only
  rw [if_pos (Int.le_refl 0)]
  cases load : loadChain { f with sb := { f.sb with nfree := 0 } } b with
  | mk out f' =>
    rw [load] at none_behind
    dsimp only at none_behind
    rw [none_behind]

variable {s : Kern}

theorem KernLeft.step (left : KernLeft s (b :: l)) :
    ∃ s', kernPop s = some (b, s') ∧ KernLeft s' l := by
  obtain ⟨lossy, m, list, nodup, takes⟩ := left.list
  obtain ⟨m', rfl, more, rest⟩ := drainable_eq_cons takes
  obtain ⟨fresh, nodup'⟩ := nodup_cons.mp nodup
  have frame := (popped_frame s.disk s.fs b).1
  refine ⟨_, by rw [kernPop, alloc_cons list left.counts left.size more], ?_, ⟨?_, ?_⟩, lossy, m',
    ?_, nodup', rest⟩
  · dsimp only
    rw [frame]
    exact left.size
  · exact (list.popped_nfree more left.counts.1).2
  · dsimp only
    rw [frame]
    exact left.counts.2
  · exact (list.tail fresh more).congr ⟨rfl, rfl, rfl, fun _ _ _ => rfl⟩

theorem KernLeft.noSpace (left : KernLeft s []) : (alloc s).1 = none := by
  obtain ⟨lossy, m, list, -, takes⟩ := left.list
  obtain rfl | ⟨b, rfl, rfl⟩ := list.of_drainable_nil takes
  · rw [alloc_nil list left.counts]
  obtain ⟨count, top, good, zero⟩ := list.last_iff
  have at_top : s.fs.nfree.toNat = 0 + 1 := by omega
  have pop : popBlock s.fs s.fs.nfree.toNat = ({ s.fs with nfree := 0 }, some b) := by
    rw [at_top]
    exact popBlock_good top (ne_zero_of_good left.size good) good
  have none_behind : (reload s.disk { s.fs with nfree := 0 } b).nfree ≤ 0 := by
    exact Int.le_of_eq zero
  unfold alloc
  rw [getfs_eq left.counts]
  rw [if_neg (by omega), pop]
  dsimp only
  rw [if_pos none_behind]

/-! ### References -/

/-- The blocks named by an indirect block and those it names, as far as they can be read. -/
def refsSingle (f : Filesystem) (bno : Int) : List Int :=
  if bno = 0 then [] else bno :: if f.outside bno then [] else indirect f bno

def refsDouble (f : Filesystem) (bno : Int) : List Int :=
  if bno = 0 then []
  else bno :: if f.outside bno then [] else (indirect f bno).flatMap (refsSingle f)

/-- The blocks an inode refers to, whether or not they are data blocks. -/
def refsOf (f : Filesystem) (ino : Int) : List Int :=
  if (inodeAt f ino).mode = 0 ∨ (inodeAt f ino).isDev then []
  else (List.range 6).flatMap (fun i => claimOne ((inodeAt f ino).addr i)) ++
    refsSingle f ((inodeAt f ino).addr 6) ++ refsDouble f ((inodeAt f ino).addr 7)

theorem mem_claimSingle {bno : Int} (within : b ∈ refsSingle f bno) : b ∈ claimSingle f bno := by
  unfold refsSingle at within
  unfold claimSingle
  by_cases zero : bno = 0
  · rw [if_pos zero] at within
    cases within
  · rw [if_neg zero] at within ⊢
    rw [mem_cons] at within ⊢
    obtain same | inside := within
    · exact .inl same
    · split at inside
      · cases inside
      · exact .inr inside

theorem mem_claimDouble {bno : Int} (within : b ∈ refsDouble f bno) : b ∈ claimDouble f bno := by
  unfold refsDouble at within
  unfold claimDouble
  by_cases zero : bno = 0
  · rw [if_pos zero] at within
    cases within
  rw [if_neg zero] at within ⊢
  rw [mem_cons] at within ⊢
  obtain same | inside := within
  · exact .inl same
  · split at inside
    · cases inside
    · obtain ⟨x, named, inside⟩ := mem_flatMap.mp inside
      exact .inr (mem_flatMap.mpr ⟨x, named, mem_claimSingle inside⟩)

/-- What an inode refers to the checker has seen it claim. -/
theorem mem_claimsOf {ino : Int} (within : b ∈ refsOf f ino) : b ∈ claimsOf f ino := by
  unfold refsOf at within
  unfold claimsOf claimBlocks
  by_cases none_there : (inodeAt f ino).mode = 0 ∨ (inodeAt f ino).isDev
  · rw [if_pos none_there] at within
    cases within
  · rw [if_neg none_there] at within ⊢
    rw [mem_append, mem_append] at within ⊢
    obtain (direct | single) | double := within
    · exact .inl (.inl direct)
    · exact .inl (.inr (mem_claimSingle single))
    · exact .inr (mem_claimDouble double)

/-! ### Draining -/

/-- Different data blocks to which no inode refers, as many as `s_tfree` says. -/
structure Unused (f : Filesystem) (l : List Int) : Prop where
  count : f.sb.tfree = l.length
  nodup : l.Nodup
  good : ∀ b ∈ l, badblock f.sb b = false
  unreferenced : ∀ b ∈ l, ∀ ino, 1 ≤ ino → ino ≤ f.inodeCount → b ∉ refsOf f ino

/-- The host's free list can be drained. -/
def HostDrains (f : Filesystem) : Prop :=
  ∃ l f', Drains hostPop f l f' ∧ (blockAlloc f').1 = .error .noSpace ∧ Unused f l

/-- The free list of the volume `f` can be drained by the kernel. -/
def KernDrains (f : Filesystem) (s : Kern) : Prop :=
  ∃ l s', Drains kernPop s l s' ∧ (alloc s').1 = none ∧ Unused f l

/-- The list has no chain block without numbers, and inode 1, at which the checker does not look,
refers to none of its blocks. -/
def Drainable (f : Filesystem) : Prop :=
  (∀ l, ¬ FreeList false true f.disk f.sb l) ∧
    ∀ l, FreeList false false f.disk f.sb l → ∀ b ∈ l, b ∉ refsOf f 1

theorem hostPop_eq_none (fails : (blockAlloc f).1 = .error .noSpace) : hostPop f = none := by
  unfold hostPop
  cases out : blockAlloc f with
  | mk result f' =>
    rw [out] at fails
    dsimp only at fails
    rw [fails]

theorem kernPop_eq_none (fails : (alloc s).1 = none) : kernPop s = none := by
  unfold kernPop
  cases out : alloc s with
  | mk result s' =>
    rw [out] at fails
    dsimp only at fails
    rw [fails]

/-- What can be handed out is what the claim is about, if and only if the list is drainable. -/
theorem Passed.unused_iff {dirs : List Int} (passed : Passed f dirs lossy l) :
    Unused f (drainable lossy l) ↔ Drainable f := by
  have size := ((sbcheck_iff _).mp passed.accepted).2.2.1.1
  cases lossy with
  | true =>
    constructor
    · intro unused
      have count := unused.count
      have some_there := length_pos_iff.mpr passed.list.ne_nil
      have told := passed.tfree
      change f.sb.tfree = l.dropLast.length at count
      rw [length_dropLast] at count
      omega
    · rintro ⟨not_lossy, -⟩
      exact absurd passed.list (not_lossy l)
  | false =>
    have only : ∀ lossy m, FreeList false lossy f.disk f.sb m → lossy = false ∧ m = l := by
      intro lossy m list
      exact list.unique size passed.list
    constructor
    · intro unused
      constructor
      · intro m list
        cases (only true m list).1
      · intro m list b within
        obtain ⟨-, rfl⟩ := only false m list
        have ilist := passed.ilist
        simp only [ROOTINO] at ilist
        exact unused.unreferenced b within 1 (Int.le_refl 1) (by omega)
    · rintro ⟨-, free_of_one⟩
      refine ⟨passed.tfree, passed.nodup, passed.list.good, ?_⟩
      intro b within ino low high refers
      by_cases one : ino = 1
      · rw [one] at refers
        exact free_of_one l passed.list b within refers
      · have checked : ino ∈ checkedInodes f := by
          refine mem_checkedInodes.mpr ⟨?_, high⟩
          simp only [ROOTINO]
          omega
        exact passed.apart b within
          (mem_flatMap.mpr ⟨ino, checked, mem_claimsOf refers⟩)

/-- A free list that the checker accepts can be drained just when it has no chain block without
numbers and inode 1 refers to none of its blocks. -/
theorem drains_iff (f : Filesystem) (zero : check f = .ok 0) :
    (HostDrains f ↔ Drainable f) ∧
      ∀ s : Kern, s.fs = f.sb → s.disk = f.disk → (KernDrains f s ↔ Drainable f) := by
  obtain ⟨dirs, lossy, m, passed⟩ := check_passed zero
  obtain ⟨-, -, ⟨size, -⟩, ⟨-, nfree⟩, -, ninode⟩ := (sbcheck_iff _).mp passed.accepted
  constructor
  · have left : HostLeft f (drainable lossy m) :=
      ⟨size, passed.covers, nfree, lossy, m, passed.list, passed.nodup, rfl⟩
    rw [← passed.unused_iff]
    exact drains_iff_of_invariant (fun _ _ _ => HostLeft.step) (fun _ => HostLeft.noSpace)
      (fun _ => hostPop_eq_none) left
  · intro s super disk
    have left : KernLeft s (drainable lossy m) := by
      refine ⟨?_, ⟨?_, ?_⟩, lossy, m, ?_, passed.nodup, rfl⟩
      · rwa [super]
      · rwa [super]
      · rwa [super]
      · rw [super, disk]
        exact passed.list
    rw [← passed.unused_iff]
    exact drains_iff_of_invariant (fun _ _ _ => KernLeft.step) (fun _ => KernLeft.noSpace)
      (fun _ => kernPop_eq_none) left

/-- A root directory, and one free block on top of a cache of `nfree` numbers, over end marks. -/
def oneBlockFree (nfree : Nat) : Filesystem :=
  { rootOnly 2 2 with
    sb := { (rootOnly 2 2).sb with
      fsize := 4, tfree := 1, nfree := nfree
      free := fun i => if i + 1 = nfree then 3 else 0 }
    nblk := 4 }

theorem drains_iff_marked : check (oneBlockFree 2) = .ok 0 ∧ HostDrains (oneBlockFree 2) := by
  have zero : check (oneBlockFree 2) = .ok 0 := by decide +kernel
  have list : FreeList false false (oneBlockFree 2).disk (oneBlockFree 2).sb [3] :=
    .pop rfl rfl rfl (.bottom rfl rfl rfl nofun)
  have drainable : Drainable (oneBlockFree 2) := by
    constructor
    · intro l lossy
      cases (list.unique (by decide) lossy).1
    · intro l same b within
      obtain ⟨-, rfl⟩ := list.unique (by decide) same
      cases mem_singleton.mp within
      decide +kernel
  exact ⟨zero, (drains_iff (oneBlockFree 2) zero).1.mpr drainable⟩

/-- The free block has no numbers in it: the checker counts it, and neither allocator hands it
out. -/
theorem not_drains_of_empty_chain :
    check (oneBlockFree 1) = .ok 0 ∧ ¬ HostDrains (oneBlockFree 1) ∧
      ¬ KernDrains (oneBlockFree 1) ⟨(oneBlockFree 1).sb, (oneBlockFree 1).disk, [], 0⟩ := by
  refine ⟨by decide +kernel, ?_, ?_⟩
  · rintro ⟨l, f', drains, -, unused⟩
    cases drains with
    | nil => cases unused.count
    | cons next _ => cases next
  · rintro ⟨l, s', drains, -, unused⟩
    cases drains with
    | nil => cases unused.count
    | cons next _ => cases next

end V7Besm.Fs

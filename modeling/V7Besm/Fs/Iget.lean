import V7Besm.Fs.Ialloc

/-!
`iget` of an inode that has to be read (`iget.c`), and what becomes of it when the block of
the i-list cannot be.

The entry of the inode table is recycled as it stands. Only the device, the number, the
flags and the count are set before the read; if that fails, `iput` gives the entry
back and looks at the link count of whatever inode was there before.
-/

namespace V7Besm.Fs

open Alloc Function

/-- An entry of the inode table: `ILOCK`, `IMOUNT`, whether the inode has to be written
(`IUPD` and `ICHG`), and `i_mode`, `i_nlink` and so on where the inode on disk has them. -/
structure Slot where
  (dev number count : Int)
  (locked mounted changed : Bool)
  ip : Nat → Int

/-- How `iget` ends: the inode is in the table already, the table is full, it returns an entry
or NULL, or it sleeps for ever. -/
inductive Got where
  | incore (i : Nat)
  | overflow
  | returned (ip : Option Nat) (table : List Slot) (s : Kern)
  | asleep

/-- The last reference to an inode goes: without links it is freed, but for what is named by the
indirect blocks among the `bad` ones, which cannot be read. -/
def Slot.release (bad : Int → Bool) (slot : Slot) (s : Kern) : Option (Slot × Kern) :=
  if slot.ip DI_NLINK ≤ 0 then do
    let (ip, s) ← itrunc bad slot.ip s
    some ({ slot with ip := update ip DI_MODE 0, changed := true }, ifree s slot.number)
  else some (slot, s)

/-- `iput`. Whether `iupdat` gets to write the inode, if it has to, is up to `writes`: the volume
is not read-only and the block of the i-list can be read. -/
def Slot.iput (now : Int) (writes : Bool) (bad : Int → Bool) (slot : Slot) (s : Kern) :
    Option (Slot × Kern) :=
  if slot.count = 1 then do
    let (slot, s) ← slot.release bad s
    let s := if slot.changed ∧ writes then iupdat now slot.number slot.ip s else s
    some ({ slot with
      number := 0, count := 0, locked := false, mounted := false, changed := false }, s)
  else some ({ slot with count := slot.count - 1, locked := false }, s)

/-- What `iget` sets in the entry before it reads the inode. -/
def Slot.take (slot : Slot) (dev ino : Int) : Slot :=
  { slot with
    dev := dev, number := ino, locked := true, mounted := false, changed := false
    count := slot.count + 1 }

/-- `iget` on the volume `dev`, whose superblock and blocks are those of `s`. `readable` says
whether the block of the i-list can be read, `writes` whether `iupdat` can write it later, and
`bad` which blocks `tloop` cannot read. -/
def iget (now dev ino : Int) (readable writes : Bool) (bad : Int → Bool) (table : List Slot)
    (s : Kern) : Got :=
  match table.findIdx? fun ip => ip.number = ino ∧ ip.dev = dev with
  | some i => .incore i
  | none =>
    match table.zipIdx.find? fun p => p.1.count = 0 with
    | none => .overflow
    | some (slot, i) =>
      let slot := slot.take dev ino
      if readable then
        .returned (some i) (table.set i { slot with ip := s.disk.dinode ino }) s
      else
        match slot.iput now writes bad s with
        | none => .asleep
        | some (slot, s) => .returned none (table.set i slot) s

/-! ### A read that fails -/

/-- NULL is returned, the superblock and the inodes on disk are those of `s`, and the entry `i`
of the table is free again. -/
def Got.Harmless (got : Got) (i : Nat) (s : Kern) : Prop :=
  ∃ table s' slot, got = .returned none table s' ∧ s'.fs = s.fs ∧
    (∀ ino j, s'.disk.dinode ino j = s.disk.dinode ino j) ∧
    table[i]? = some slot ∧ slot.count = 0 ∧ slot.number = 0 ∧ slot.locked = false

variable {now ino dev : Int} {writes : Bool} {bad : Int → Bool} {slot slot' : Slot} {s s' : Kern}

theorem free_tinode (held : Option Int) (s : Kern) (bno : Int) (s' : Kern)
    (ok : free held s bno = some s') : s'.fs.tinode = s.fs.tinode := by
  have counted : s.getfs.fs.tinode = s.fs.tinode := by
    unfold Kern.getfs
    split <;> rfl
  have marked : ∀ fs, (sentinel fs).tinode = fs.tinode := by
    intro fs
    unfold sentinel
    split <;> rfl
  unfold free at ok
  dsimp only at ok
  split at ok
  next =>
    cases ok
    exact counted
  next =>
    split at ok
    next =>
      split at ok
      next => cases ok
      next =>
        cases ok
        exact (marked _).trans counted
    next =>
      cases ok
      exact (marked _).trans counted

theorem ifree_tinode (s : Kern) (ino : Int) : (ifree s ino).fs.tinode = s.fs.tinode + 1 := by
  have counted : s.getfs.fs.tinode = s.fs.tinode := by
    unfold Kern.getfs
    split <;> rfl
  unfold ifree
  dsimp only
  split
  · exact congrArg (· + 1) counted
  · exact congrArg (· + 1) counted

/-- A free inode is one more, even if the cache has no room for its number. -/
theorem release_tinode (unlinked : slot.ip DI_NLINK ≤ 0)
    (ok : slot.release bad s = some (slot', s')) : s'.fs.tinode = s.fs.tinode + 1 := by
  unfold Slot.release at ok
  rw [if_pos unlinked] at ok
  obtain ⟨⟨ip, s₁⟩, truncs, done⟩ := Option.bind_eq_some_iff.mp ok
  cases done
  rw [ifree_tinode]
  congr 1
  exact itrunc_rel (R := fun s s' => s'.fs.tinode = s.fs.tinode) (fun _ => rfl)
    (fun _ _ _ first second => second.trans first) free_tinode truncs

theorem iput_tinode (last : slot.count = 1) (unlinked : slot.ip DI_NLINK ≤ 0)
    (ok : slot.iput now writes bad s = some (slot', s')) : s'.fs.tinode = s.fs.tinode + 1 := by
  unfold Slot.iput at ok
  rw [if_pos last] at ok
  obtain ⟨⟨slot₁, s₁⟩, releases, done⟩ := Option.bind_eq_some_iff.mp ok
  cases done
  rw [← release_tinode unlinked releases]
  split <;> rfl

theorem iput_of_linked (last : slot.count = 1) (linked : 0 < slot.ip DI_NLINK)
    (clean : slot.changed = false) :
    slot.iput now writes bad s = some ({ slot with
      number := 0, count := 0, locked := false, mounted := false, changed := false }, s) := by
  have released : slot.release bad s = some (slot, s) := if_neg (by omega)
  unfold Slot.iput
  rw [if_pos last, released]
  simp [clean]

/-- An `iget` whose read fails leaves the volume as it was if and only if the inode that was in
the recycled entry before had a link. -/
theorem iget_harmless_iff (now dev ino : Int) (writes : Bool) (bad : Int → Bool)
    (table : List Slot) (s : Kern) (i : Nat) (slot : Slot)
    (absent : table.findIdx? (fun ip => ip.number = ino ∧ ip.dev = dev) = none)
    (vacant : table.zipIdx.find? (fun p => p.1.count = 0) = some (slot, i)) :
    (iget now dev ino false writes bad table s).Harmless i s ↔ 0 < slot.ip DI_NLINK := by
  have unused : slot.count = 0 := by simpa using List.find?_some vacant
  have last : (slot.take dev ino).count = 1 := by simp [Slot.take, unused]
  have within : i < table.length := by
    have := List.mem_zipIdx (List.mem_of_find?_eq_some vacant)
    omega
  unfold iget
  simp only [absent, vacant, Bool.false_eq_true, if_false]
  constructor
  · rintro ⟨table', s', slot', returns, same, -⟩
    by_contra unlinked
    split at returns
    next => cases returns
    next slot' s₁ puts =>
      cases returns
      have more := iput_tinode last (by simpa [Slot.take] using unlinked) puts
      rw [same] at more
      omega
  · intro linked
    rw [iput_of_linked last linked rfl]
    exact ⟨_, s, _, rfl, rfl, fun _ _ => rfl, List.getElem?_set_self within, rfl, rfl, rfl⟩

/-- An entry that has never been used, and one left by an inode with a link. -/
def Slot.unused (nlink : Int) : Slot :=
  ⟨0, 0, 0, false, false, false, fun j => if j = DI_NLINK then nlink else 0⟩

theorem iget_harmless_iff_linked :
    (iget 0 7 3 false true (· = 1) [.unused 1] (smallVolume 3)).Harmless 0 (smallVolume 3) :=
  (iget_harmless_iff 0 7 3 true (· = 1) [.unused 1] (smallVolume 3) 0 (.unused 1) rfl rfl).mpr
    (by decide)

/-- With an entry that has never been used, the failed read of inode 3, a regular file, puts its
number on top of the free ones, and if the block can be read again its mode is cleared. -/
theorem iget_frees_used_inode :
    (smallVolume 3).disk.dinode 3 DI_MODE = 0x81a4 ∧ ∃ table s',
      iget 0 7 3 false true (fun _ => false) [.unused 0] (smallVolume 3) = .returned none table s' ∧
      s'.fs.ninode = 1 ∧ s'.fs.inode 0 = 3 ∧ s'.disk.dinode 3 DI_MODE = 0 :=
  ⟨by decide, _, _, rfl, by decide, by decide, by decide⟩

end V7Besm.Fs

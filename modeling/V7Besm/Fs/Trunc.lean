import V7Besm.Fs.Disk
import Mathlib.Data.List.Sublists

/-!
The calls of `free` that truncating a file makes (`itrunc` and `tloop` in `iget.c`).

A freed block may be written at once: by `free` itself, as a chain block, and by
whoever allocates it next, since `free` sleeps. So the words of a block depend on what has
been freed already. What nobody else writes is a block of the file that has not
been freed yet, and it is enough that `tloop` frees an indirect block last.
-/

namespace V7Besm.Fs.Trunc

open Function List

/-- The words of a block, given the calls of `free` so far. -/
abbrev Read := List Int → Int → Nat → Int

variable {read : Read}

/-- `tloop` on the block `bn`: its numbers from the last one of `i` on, then the block itself.
`bap` is the buffer, `one` what is done with each number. -/
def tloop (bap : List Int → Nat → Int) (one : Int → List Int → List Int) (bn : Int) :
    Nat → List Int → List Int
  | 0, freed => freed ++ [bn]
  | i + 1, freed =>
    let nb := bap freed i
    if nb = 0 then tloop bap one bn i freed else tloop bap one bn i (one nb freed)

/-- `tloop(dev, bn, 0, 0)`: the buffer is held to the end. -/
def tloopSingle (read : Read) (bn : Int) (freed : List Int) : List Int :=
  tloop (fun _ => read freed bn) (fun nb freed => freed ++ [nb]) bn NINDIR freed

/-- `tloop(dev, bn, 1, 0)`: the buffer is released for each call and read again. -/
def tloopDouble (read : Read) (bn : Int) (freed : List Int) : List Int :=
  tloop (fun now => read now bn) (tloopSingle read) bn NINDIR freed

/-- The `switch` of `itrunc`. -/
def freeSlot (read : Read) (i : Nat) (bn : Int) (freed : List Int) : List Int :=
  if i = 7 then tloopDouble read bn freed
  else if i = 6 then tloopSingle read bn freed
  else freed ++ [bn]

/-- The loop of `itrunc` over the addresses, from the last one of `i` on. -/
def itruncLoop (read : Read) : Nat → (Nat → Int) → List Int → (Nat → Int) × List Int
  | 0, ip, freed => (ip, freed)
  | i + 1, ip, freed =>
    let bn := ip (DI_ADDR + i)
    if bn = 0 then itruncLoop read i ip freed
    else itruncLoop read i (update ip (DI_ADDR + i) 0) (freeSlot read i bn freed)

/-- `itrunc`: the inode and the calls of `free`. -/
def itrunc (read : Read) (ip : Nat → Int) : (Nat → Int) × List Int :=
  if fmt (ip DI_MODE) ≠ IFREG ∧ fmt (ip DI_MODE) ≠ IFDIR then (ip, [])
  else
    let (ip, freed) := itruncLoop read 8 ip []
    (update ip DI_SIZE 0, freed)

/-! ### The blocks of a file -/

/-- The numbers in the first `n` words of an indirect block, the last one first. -/
def entries (w : Nat → Int) : Nat → List Int
  | 0 => []
  | n + 1 => if w n = 0 then entries w n else w n :: entries w n

/-- The blocks reachable through the block `b` in slot `i` of the addresses. -/
def below (d : Int → Nat → Int) (i : Nat) (b : Int) : List Int :=
  if i = 7 then (entries (d b) NINDIR).flatMap fun c => entries (d c) NINDIR ++ [c]
  else if i = 6 then entries (d b) NINDIR
  else []

/-- The blocks of a file, those of the first `n` addresses. -/
def blocks (d : Int → Nat → Int) (addr : Nat → Int) : Nat → List Int
  | 0 => []
  | n + 1 =>
    if addr n = 0 then blocks d addr n else below d n (addr n) ++ [addr n] ++ blocks d addr n

/-- In the file with these addresses the block `c` is reachable through `b`. -/
inductive Through (d : Int → Nat → Int) (addr : Nat → Int) : Int → Int → Prop where
  | slot {i : Nat} {c : Int} : i < 8 → addr i ≠ 0 → c ∈ below d i (addr i) →
      Through d addr (addr i) c
  | inner {b c : Int} : addr 7 ≠ 0 → b ∈ entries (d (addr 7)) NINDIR →
      c ∈ entries (d b) NINDIR → Through d addr b c

variable {d : Int → Nat → Int} {addr : Nat → Int} {freed : List Int} {bn : Int} {i n : Nat}

theorem slot_sublist (within : i < n) (used : addr i ≠ 0) :
    (below d i (addr i) ++ [addr i]).Sublist (blocks d addr n) := by
  induction n with
  | zero => omega
  | succ n ih =>
    unfold blocks
    by_cases last : i = n
    · subst last
      rw [if_neg used]
      exact sublist_append_left _ _
    · have before := ih (by omega)
      split
      · exact before
      · exact before.trans (sublist_append_right _ _)

theorem pair_sublist {α : Type} {l : List α} {b c : α} (within : c ∈ l) :
    [c, b].Sublist (l ++ [b]) := (singleton_sublist.mpr within).append (List.Sublist.refl [b])

/-- In the list of blocks an indirect block stands behind all that is reachable through it. -/
theorem Through.sublist {b c : Int} (through : Through d addr b c) :
    [c, b].Sublist (blocks d addr 8) := by
  cases through with
  | slot within used below => exact (pair_sublist below).trans (slot_sublist within used)
  | inner used entry below =>
    refine (pair_sublist below).trans (.trans ?_ (slot_sublist (by decide : 7 < 8) used))
    refine .trans ?_ (sublist_append_left _ _)
    exact sublist_flatten_of_mem (mem_map_of_mem entry)

/-! ### The calls -/

/-- If `tloop` finds in its buffer the words `w` as long as it has not freed the block, it goes
through the numbers in them and frees the block last. -/
theorem tloop_eq {bap : List Int → Nat → Int} {one : Int → List Int → List Int} {w : Nat → Int}
    {post : Int → List Int} (stable : ∀ l, bn ∉ l → bap l = w)
    (each : ∀ nb ∈ entries w n, ∀ l, (l ++ post nb).Nodup → one nb l = l ++ post nb)
    (nodup : (freed ++ ((entries w n).flatMap post ++ [bn])).Nodup) :
    tloop bap one bn n freed = freed ++ ((entries w n).flatMap post ++ [bn]) := by
  induction n generalizing freed with
  | zero => rfl
  | succ n ih =>
    have kept : bn ∉ freed := fun freed => (disjoint_of_nodup_append nodup) freed (by simp)
    rw [tloop, stable freed kept]
    unfold entries at each nodup ⊢
    split at each
    next zero =>
      rw [if_pos zero] at nodup
      simp only [if_pos zero]
      exact ih each nodup
    next number =>
      simp only [if_neg number, flatMap_cons, append_assoc] at nodup ⊢
      rw [← append_assoc] at nodup
      rw [each _ mem_cons_self freed nodup.of_append_left,
        ih (fun nb entry => each nb (mem_cons_of_mem _ entry)) nodup, append_assoc]

section File

variable {file : List Int} (own : ∀ b ∈ file, ∀ l, b ∉ l → read l b = d b)

include own

theorem tloopSingle_eq (within : bn ∈ file)
    (nodup : (freed ++ (entries (d bn) NINDIR ++ [bn])).Nodup) :
    tloopSingle read bn freed = freed ++ (entries (d bn) NINDIR ++ [bn]) := by
  have kept : bn ∉ freed := fun freed => (disjoint_of_nodup_append nodup) freed (by simp)
  have all : tloopSingle read bn freed =
      freed ++ ((entries (d bn) NINDIR).flatMap (fun nb => [nb]) ++ [bn]) :=
    tloop_eq (fun _ _ => own bn within freed kept) (fun _ _ _ _ => rfl) (by simpa using nodup)
  simpa only [flatMap_singleton'] using all

theorem freeSlot_eq (within : ∀ b ∈ below d i bn ++ [bn], b ∈ file)
    (nodup : (freed ++ (below d i bn ++ [bn])).Nodup) :
    freeSlot read i bn freed = freed ++ (below d i bn ++ [bn]) := by
  have here : bn ∈ file := within bn (by simp)
  unfold freeSlot
  unfold below at within nodup ⊢
  split
  next double =>
    rw [if_pos double] at within nodup
    refine tloop_eq (fun l kept => own bn here l kept) (fun nb entry l => ?_) nodup
    refine tloopSingle_eq own (within nb ?_)
    exact mem_append_left _ (mem_flatMap.mpr ⟨nb, entry, by simp⟩)
  next =>
    split
    next single => exact tloopSingle_eq own here (by simpa [single] using nodup)
    next => rfl

/-- The loop of `itrunc` frees the blocks of the addresses that are left and clears these. -/
theorem itruncLoop_eq (ip : Nat → Int) (n : Nat) (freed : List Int)
    (same : ∀ j < n, ip (DI_ADDR + j) = addr j)
    (within : ∀ b ∈ blocks d addr n, b ∈ file) (nodup : (freed ++ blocks d addr n).Nodup) :
    (itruncLoop read n ip freed).2 = freed ++ blocks d addr n ∧
      (∀ j < n, (itruncLoop read n ip freed).1 (DI_ADDR + j) = 0) ∧
      ∀ j ≥ n, (itruncLoop read n ip freed).1 (DI_ADDR + j) = ip (DI_ADDR + j) := by
  induction n generalizing ip freed with
  | zero => exact ⟨by simp [itruncLoop, blocks], by simp, fun j _ => rfl⟩
  | succ n ih =>
    have at_n := same n (by omega)
    unfold itruncLoop
    unfold blocks at within nodup ⊢
    split at within
    next zero =>
      rw [if_pos zero] at nodup
      obtain ⟨calls, cleared, rest⟩ := ih ip freed (fun j low => same j (by omega)) within nodup
      simp only [at_n, if_pos zero]
      refine ⟨calls, fun j low => ?_, fun j high => rest j (by omega)⟩
      by_cases last : j = n
      · rw [rest j (by omega), last, at_n, zero]
      · exact cleared j (by omega)
    next used =>
      rw [if_neg used, ← append_assoc] at nodup
      have slot := freeSlot_eq own (fun b inside => within b (mem_append_left _ inside))
        nodup.of_append_left
      obtain ⟨calls, cleared, rest⟩ := ih (update ip (DI_ADDR + n) 0) _
        (fun j low => by rw [update_of_ne (by omega), same j (by omega)])
        (fun b inside => within b (mem_append_right _ inside)) nodup
      simp only [at_n, if_neg used, slot]
      refine ⟨by rw [calls, append_assoc], fun j low => ?_, fun j high => ?_⟩
      · by_cases last : j = n
        · rw [rest j (by omega), last, update_self]
        · exact cleared j (by omega)
      · rw [rest j (by omega), update_of_ne (by omega)]

end File

/-- Truncating a regular file or directory frees each of its blocks once, an indirect block
behind all that is reachable through it, whatever becomes of the blocks that are free. -/
theorem itrunc_frees (read : Read) (ip : Nat → Int)
    (kind : fmt (ip DI_MODE) = IFREG ∨ fmt (ip DI_MODE) = IFDIR)
    (distinct : (blocks (read []) (fun j => ip (DI_ADDR + j)) 8).Nodup)
    (own : ∀ b ∈ blocks (read []) (fun j => ip (DI_ADDR + j)) 8, ∀ l, b ∉ l →
      read l b = read [] b) :
    (itrunc read ip).2.Perm (blocks (read []) (fun j => ip (DI_ADDR + j)) 8) ∧
      (∀ b c, Through (read []) (fun j => ip (DI_ADDR + j)) b c →
        [c, b].Sublist (itrunc read ip).2) ∧
      (∀ j < 8, (itrunc read ip).1 (DI_ADDR + j) = 0) ∧ (itrunc read ip).1 DI_SIZE = 0 := by
  obtain ⟨calls, cleared, -⟩ := itruncLoop_eq own ip 8 [] (fun _ _ => rfl)
    (fun _ inside => inside) distinct
  have is_file : ¬ (fmt (ip DI_MODE) ≠ IFREG ∧ fmt (ip DI_MODE) ≠ IFDIR) := by
    rintro ⟨not_reg, not_dir⟩
    exact kind.elim not_reg not_dir
  unfold itrunc
  rw [if_neg is_file]
  dsimp only
  rw [calls]
  refine ⟨.refl _, fun b c through => through.sublist, fun j low => ?_, update_self ..⟩
  rw [update_of_ne (show DI_ADDR + j ≠ DI_SIZE by simp only [DI_ADDR, DI_SIZE]; omega)]
  exact cleared j low

/-- A file with a data block, an indirect block and one block behind it. -/
def smallFile : Nat → Int
  | 0 => 0x8000
  | 8 => 10
  | 14 => 11
  | _ => 0

theorem itrunc_frees_small :
    (itrunc (fun _ b i => if b = 11 ∧ i = 3 then 12 else 0) smallFile).2.Perm [12, 11, 10] := by
  have listed : blocks (fun b i => if b = 11 ∧ i = 3 then 12 else 0)
      (fun j => smallFile (DI_ADDR + j)) 8 = [12, 11, 10] := by decide +kernel
  have all := itrunc_frees (fun _ b i => if b = 11 ∧ i = 3 then 12 else 0) smallFile
    (.inl (by decide)) (by rw [listed]; decide) (fun _ _ _ _ => rfl)
  rw [← listed]
  exact all.1

end V7Besm.Fs.Trunc

import V7Besm.Fs.Check
import V7Besm.Fs.Agree
import V7Besm.Fallible.Steps
import Mathlib.Data.List.Nodup

/-!
What the first pass of the checker finds out.

The walk over the block lists never fails on an image that covers the volume. If it
has no complaint, the blocks it has marked are those that the inodes claim, each of
them a data block and claimed once.
-/

namespace V7Besm.Fs

open Alloc Fallible Function List

variable {f : Filesystem} {c c' : Checker} {l m : List Int}

/-! ### Claims -/

/-- The blocks that an indirect block names. -/
def indirect (f : Filesystem) (bno : Int) : List Int :=
  ((List.range NINDIR).map fun i => f.disk.get bno i).filter fun nb => nb ≠ 0

/-- A block number of 0 claims nothing. -/
def claimOne (bno : Int) : List Int := if bno = 0 then [] else [bno]

def claimSingle (f : Filesystem) (bno : Int) : List Int :=
  if bno = 0 then [] else bno :: indirect f bno

def claimDouble (f : Filesystem) (bno : Int) : List Int :=
  if bno = 0 then [] else bno :: (indirect f bno).flatMap (claimSingle f)

/-- The blocks of a block list. -/
def claimBlocks (f : Filesystem) (addr : Nat → Int) : List Int :=
  (List.range 6).flatMap (fun i => claimOne (addr i)) ++ claimSingle f (addr 6) ++
    claimDouble f (addr 7)

/-- The list `l` has been claimed without a complaint. -/
structure Claims (f : Filesystem) (c : Checker) (l : List Int) (c' : Checker) : Prop where
  good : ∀ b ∈ l, badblock f.sb b = false
  nodup : l.Nodup
  fresh : ∀ b ∈ l, c.used b = false
  used : ∀ b, c'.used b = true ↔ c.used b = true ∨ b ∈ l

theorem Claims.nil (same : c'.used = c.used) : Claims f c [] c' := by
  refine ⟨?_, nodup_nil, ?_, ?_⟩
  · nofun
  · nofun
  · intro b
    rw [same]
    simp

theorem Claims.trans {c'' : Checker} (first : Claims f c l c') (second : Claims f c' m c'') :
    Claims f c (l ++ m) c'' := by
  have apart : ∀ b ∈ l, b ∉ m := by
    intro b in_l in_m
    have marked := (first.used b).mpr (.inr in_l)
    rw [second.fresh b in_m] at marked
    cases marked
  refine ⟨forall_mem_append.mpr ⟨first.good, second.good⟩,
    first.nodup.append second.nodup apart, ?_, ?_⟩
  · refine forall_mem_append.mpr ⟨first.fresh, fun b in_m => ?_⟩
    have unmarked := second.fresh b in_m
    by_contra marked
    have still := (first.used b).mpr (.inl (by simpa using marked))
    rw [unmarked] at still
    cases still
  · intro b
    rw [second.used, first.used, mem_append, or_assoc]

/-- Nothing but the problems and the block map has changed, and no problem is forgotten. -/
structure Walked (c c' : Checker) : Prop where
  problems : c'.problems = [] → c.problems = []
  tables : c' = { c with problems := c'.problems, used := c'.used }

theorem Walked.refl (c : Checker) : Walked c c := ⟨id, rfl⟩

theorem Walked.trans {c'' : Checker} (first : Walked c c') (second : Walked c' c'') :
    Walked c c'' := by
  refine ⟨fun clean => first.problems (second.problems clean), ?_⟩
  rw [second.tables, first.tables]

theorem walked_error (c : Checker) (p : Problem) : Walked c (c.error p) := by
  refine ⟨?_, rfl⟩
  nofun

theorem walked_errorIf (c : Checker) (bad : Bool) (p : Problem) : Walked c (c.errorIf bad p) := by
  unfold Checker.errorIf
  split
  · exact walked_error c p
  · exact .refl c

theorem errorIf_clean {bad : Bool} {p : Problem} (clean : (c.errorIf bad p).problems = []) :
    bad = false ∧ c.errorIf bad p = c := by
  cases bad with
  | true => cases clean
  | false => exact ⟨rfl, rfl⟩

/-- A walk that claims `l`. -/
def Walks (f : Filesystem) (x : Except Abort Checker) (c : Checker) (l : List Int) : Prop :=
  ∃ c', x = .ok c' ∧ Walked c c' ∧ (c'.problems = [] → Claims f c l c')

theorem Walks.nil (f : Filesystem) (c : Checker) : Walks f (.ok c) c [] :=
  ⟨c, rfl, .refl c, fun _ => .nil rfl⟩

theorem Walks.bind {x : Except Abort Checker} {g : Checker → Except Abort Checker}
    (first : Walks f x c l) (second : ∀ c, Walks f (g c) c m) : Walks f (x >>= g) c (l ++ m) := by
  obtain ⟨c₁, rfl, walked, claims⟩ := first
  obtain ⟨c₂, ok, walked', claims'⟩ := second c₁
  refine ⟨c₂, ok, walked.trans walked', ?_⟩
  intro clean
  exact (claims (walked'.problems clean)).trans (claims' clean)

theorem Walks.foldlM {α : Type} {step : Checker → α → Except Abort Checker} {g : α → List Int}
    {xs : List α} (each : ∀ x ∈ xs, ∀ c, Walks f (step c x) c (g x)) (c : Checker) :
    Walks f (xs.foldlM step c) c (xs.flatMap g) := by
  induction xs generalizing c with
  | nil => exact .nil f c
  | cons x xs ih =>
    refine (each x mem_cons_self c).bind ?_
    intro c₁
    exact ih (fun y within => each y (mem_cons_of_mem _ within)) c₁

theorem Walks.foldl {α : Type} {step : Checker → α → Checker} {g : α → List Int}
    (each : ∀ x c, Walks f (.ok (step c x)) c (g x)) (xs : List α) (c : Checker) :
    Walks f (.ok (xs.foldl step c)) c (xs.flatMap g) := by
  have same : xs.foldlM (fun c x => (.ok (step c x) : Except Abort Checker)) c =
      .ok (xs.foldl step c) := by
    induction xs generalizing c with
    | nil => rfl
    | cons x xs ih => exact ih (step c x)
  rw [← same]
  exact Walks.foldlM (fun x _ c => each x c) c

theorem claim_walks (f : Filesystem) (ino : Int) (what : What) (c : Checker) (bno : Int) :
    Walks f (.ok (claim f ino what c bno).2) c (claimOne bno) ∧
      ((claim f ino what c bno).1 = true → bno ≠ 0 → badblock f.sb bno = false) ∧
      ((claim f ino what c bno).1 = false → (claim f ino what c bno).2.problems ≠ []) := by
  unfold claim claimOne
  by_cases zero : bno = 0
  · simp only [if_pos zero]
    exact ⟨.nil f c, fun _ nonzero => absurd zero nonzero, nofun⟩
  simp only [if_neg zero]
  by_cases outside : bno < f.sb.isize ∨ bno ≥ f.sb.fsize
  · simp only [if_pos outside]
    refine ⟨⟨_, rfl, walked_error _ _, ?_⟩, nofun, fun _ => cons_ne_nil _ _⟩
    nofun
  simp only [if_neg outside]
  have good : badblock f.sb bno = false := decide_eq_false outside
  by_cases used : c.used bno = true
  · simp only [if_pos used]
    refine ⟨⟨_, rfl, walked_error _ _, ?_⟩, fun _ _ => good, fun _ => cons_ne_nil _ _⟩
    nofun
  simp only [if_neg used]
  refine ⟨⟨_, rfl, ⟨id, rfl⟩, fun _ => ⟨?_, pairwise_singleton _ _, ?_, ?_⟩⟩,
    fun _ _ => good, nofun⟩
  · intro b within
    cases mem_singleton.mp within
    exact good
  · intro b within
    cases mem_singleton.mp within
    simpa using used
  · intro b
    by_cases same : b = bno
    · simp [same]
    · simp [same]

theorem flatMap_claimOne {α : Type} (g : α → Int) (xs : List α) :
    xs.flatMap (fun x => claimOne (g x)) = (xs.map g).filter fun nb => nb ≠ 0 := by
  induction xs with
  | nil => rfl
  | cons x xs ih =>
    rw [flatMap_cons, map_cons, ih]
    unfold claimOne
    by_cases zero : g x = 0
    · rw [if_pos zero, filter_cons_of_neg (by simpa using zero), nil_append]
    · rw [if_neg zero, filter_cons_of_pos (by simpa using zero), singleton_append]

variable {ino bno : Int}

/-- A walk that begins with the claim of an indirect block. -/
theorem Walks.indirect {what : What} {rest : Checker → Except Abort Checker} (nonzero : bno ≠ 0)
    (then_rest : badblock f.sb bno = false → ∀ c, Walks f (rest c) c m) (c : Checker) :
    Walks f (match claim f ino what c bno with
      | (false, c) => .ok c
      | (true, c) => rest c) c (bno :: m) := by
  obtain ⟨⟨c₁, first, walked, claims⟩, good, bad⟩ := claim_walks f ino what c bno
  cases claimed : claim f ino what c bno with
  | mk ok c₂ =>
    rw [claimed] at first good bad
    cases first
    cases ok with
    | false => exact ⟨c₂, rfl, walked, fun clean => absurd clean (bad rfl)⟩
    | true =>
      obtain ⟨c₃, done, walked', claims'⟩ := then_rest (good rfl nonzero) c₂
      refine ⟨c₃, done, walked.trans walked', ?_⟩
      intro clean
      have here := claims (walked'.problems clean)
      rw [claimOne, if_neg nonzero] at here
      exact here.trans (claims' clean)

section Walk

variable (size : 0 < f.sb.isize) (covers : f.sb.fsize ≤ f.nblk)
include size covers

theorem walkSingle_walks (ino : Int) (nonzero : bno ≠ 0) (c : Checker) :
    Walks f (walkSingle f ino c bno) c (claimSingle f bno) := by
  unfold walkSingle claimSingle
  rw [if_neg nonzero]
  refine Walks.indirect nonzero ?_ c
  intro good c
  rw [not_outside size covers good, if_neg Bool.false_ne_true, Fs.indirect, ← flatMap_claimOne]
  refine Walks.foldl ?_ _ c
  intro i c
  by_cases zero : f.disk.get bno i = 0
  · rw [if_pos zero, claimOne, if_pos zero]
    exact .nil f c
  · rw [if_neg zero]
    exact (claim_walks f ino .data c _).1

theorem walkDouble_walks (ino : Int) (nonzero : bno ≠ 0) (c : Checker) :
    Walks f (walkDouble f ino c bno) c (claimDouble f bno) := by
  unfold walkDouble claimDouble
  rw [if_neg nonzero]
  refine Walks.indirect nonzero ?_ c
  intro good c
  have all : (Fs.indirect f bno).flatMap (claimSingle f) =
      (List.range NINDIR).flatMap fun i => claimSingle f (f.disk.get bno i) := by
    rw [Fs.indirect, ← flatMap_claimOne, flatMap_assoc]
    congr 1
    funext i
    unfold claimOne claimSingle
    split
    · rfl
    · simp [*]
  rw [not_outside size covers good, if_neg Bool.false_ne_true, all]
  refine Walks.foldlM ?_ c
  intro i _ c
  by_cases zero : f.disk.get bno i = 0
  · rw [if_pos zero, claimSingle, if_pos zero]
    exact .nil f c
  · rw [if_neg zero]
    exact walkSingle_walks size covers ino zero c

theorem walkBlocks_walks (ip : Inode) (c : Checker) :
    Walks f (walkBlocks f ip c) c (claimBlocks f ip.addr) := by
  have direct := Walks.foldl
    (fun i c => (claim_walks f ip.number .data c (ip.addr i)).1) (List.range 6) c
  have single : ∀ c, Walks f (walkSlot (walkSingle f ip.number) c (ip.addr 6)) c
      (claimSingle f (ip.addr 6)) := by
    intro c
    unfold walkSlot
    by_cases zero : ip.addr 6 = 0
    · rw [if_neg (not_not.mpr zero), claimSingle, if_pos zero]
      exact .nil f c
    · rw [if_pos zero]
      exact walkSingle_walks size covers _ zero c
  have double : ∀ c, Walks f (walkSlot (walkDouble f ip.number) c (ip.addr 7)) c
      (claimDouble f (ip.addr 7)) := by
    intro c
    unfold walkSlot
    by_cases zero : ip.addr 7 = 0
    · rw [if_neg (not_not.mpr zero), claimDouble, if_pos zero]
      exact .nil f c
    · rw [if_pos zero]
      exact walkDouble_walks size covers _ zero c
  exact (direct.bind single).bind double

end Walk

/-! ### The inodes -/

/-- The inode as it is on the disk. -/
def inodeAt (f : Filesystem) (ino : Int) : Inode where
  number := ino
  mode := f.disk.dinode ino DI_MODE
  nlink := f.disk.dinode ino DI_NLINK
  size := f.disk.dinode ino DI_SIZE
  addr := fun i => f.disk.dinode ino (DI_ADDR + i)

/-- The blocks that an inode claims. -/
def claimsOf (f : Filesystem) (ino : Int) : List Int :=
  if (inodeAt f ino).mode = 0 ∨ (inodeAt f ino).isDev then []
  else claimBlocks f (inodeAt f ino).addr

/-- An inode that the first pass has nothing to say about. -/
structure SoundInode (f : Filesystem) (ino : Int) : Prop where
  unused : (inodeAt f ino).mode = 0 → (inodeAt f ino).nlink = 0
  linked : (inodeAt f ino).mode ≠ 0 → 0 < (inodeAt f ino).nlink
  type : (inodeAt f ino).mode ≠ 0 → legalType (inodeAt f ino).mode = true
  size : (inodeAt f ino).mode ≠ 0 → (inodeAt f ino).isDev = false →
    0 ≤ (inodeAt f ino).size ∧ ((inodeAt f ino).isDir = true → (inodeAt f ino).size % 24 = 0) ∧
      (inodeAt f ino).size ≤ maxBlocks * 3072

/-- The tables of the checker after the inodes `done`, and what follows if it has no complaint. -/
structure Scanned (f : Filesystem) (done : List Int) (c : Checker) : Prop where
  allocated : ∀ ino, c.allocated ino = true ↔ ino ∈ done ∧ (inodeAt f ino).mode ≠ 0
  isDir : ∀ ino, c.isDir ino = true ↔
    ino ∈ done ∧ (inodeAt f ino).mode ≠ 0 ∧ (inodeAt f ino).isDir = true
  links : ∀ ino ∈ done, (inodeAt f ino).mode ≠ 0 → c.links ino = narrow (inodeAt f ino).nlink
  rest : c = { Checker.start with
    problems := c.problems, used := c.used
    allocated := c.allocated, isDir := c.isDir, links := c.links }
  clean : c.problems = [] → Claims f .start (done.flatMap (claimsOf f)) c ∧
    ∀ ino ∈ done, SoundInode f ino

theorem scanned_start (f : Filesystem) : Scanned f [] .start := by
  refine ⟨?_, ?_, ?_, rfl, ?_⟩
  · intro ino
    simp [Checker.start]
  · intro ino
    simp [Checker.start]
  · nofun
  · intro _
    refine ⟨.nil rfl, ?_⟩
    nofun

/-- The tables with an allocated inode. -/
def entered (ip : Inode) (c : Checker) : Checker :=
  { c with
    allocated := update c.allocated ip.number true
    links := update c.links ip.number (narrow ip.nlink)
    isDir := update c.isDir ip.number ip.isDir }

theorem enterInode_walked (ip : Inode) (c : Checker) : Walked (entered ip c) (enterInode ip c) :=
  (walked_errorIf (entered ip c) _ _).trans (walked_errorIf _ _ _)

theorem enterInode_clean {ip : Inode} (clean : (enterInode ip c).problems = []) :
    enterInode ip c = entered ip c ∧ 0 < ip.nlink ∧ legalType ip.mode = true := by
  obtain ⟨type, same⟩ := errorIf_clean clean
  have clean' : ((entered ip c).errorIf (ip.nlink ≤ 0) (.noLinks ip.number ip.nlink)).problems = [] :=
    (walked_errorIf _ _ _).problems clean
  obtain ⟨links, same'⟩ := errorIf_clean clean'
  refine ⟨same.trans same', ?_, by simpa using type⟩
  have positive := of_decide_eq_false links
  omega

theorem checkSize_walked (ip : Inode) (c : Checker) : Walked c (checkSize ip c) :=
  (walked_errorIf c _ _).trans (walked_errorIf _ _ _)

theorem checkSize_clean {ip : Inode} (nonneg : 0 ≤ ip.size)
    (clean : (checkSize ip c).problems = []) :
    checkSize ip c = c ∧ (ip.isDir = true → ip.size % 24 = 0) ∧ ip.size ≤ maxBlocks * 3072 := by
  obtain ⟨dir, same⟩ := errorIf_clean clean
  obtain ⟨large, same'⟩ := errorIf_clean ((walked_errorIf _ _ _).problems clean)
  refine ⟨same.trans same', ?_, ?_⟩
  · intro is_dir
    by_contra odd
    exact of_decide_eq_false dir ⟨is_dir, odd⟩
  · have bound := of_decide_eq_false large
    rw [Int.tdiv_eq_ediv_of_nonneg (by omega)] at bound
    omega

section

variable (size : 0 < f.sb.isize) (covers : f.sb.fsize ≤ f.nblk)
include size covers

/-- An allocated inode that is no device. -/
theorem checkBlocks_spec (ip : Inode) (c : Checker) :
    ∃ c', (do
        let c ← walkBlocks f ip (c.errorIf (ip.size < 0) (.negativeSize ip.number ip.size))
        .ok (checkSize ip c)) = .ok c' ∧ Walked c c' ∧
      (c'.problems = [] → Claims f c (claimBlocks f ip.addr) c' ∧ 0 ≤ ip.size ∧
        (ip.isDir = true → ip.size % 24 = 0) ∧ ip.size ≤ maxBlocks * 3072) := by
  have before := walked_errorIf c (ip.size < 0) (.negativeSize ip.number ip.size)
  obtain ⟨c₁, walk, walked, claims⟩ := walkBlocks_walks size covers ip
    (c.errorIf (ip.size < 0) (.negativeSize ip.number ip.size))
  have after := checkSize_walked ip c₁
  refine ⟨checkSize ip c₁, by rw [walk]; rfl, (before.trans walked).trans after, ?_⟩
  intro clean
  have clean₁ := after.problems clean
  obtain ⟨sign, same⟩ := errorIf_clean (walked.problems clean₁)
  have nonneg : 0 ≤ ip.size := by
    have := of_decide_eq_false sign
    omega
  obtain ⟨same', dir, large⟩ := checkSize_clean nonneg clean
  have all := claims clean₁
  rw [same] at all
  rw [same']
  exact ⟨all, nonneg, dir, large⟩

/-- The problems and the block map after an inode. -/
theorem checkInode_eq (get : Inode.get f ino = .ok (inodeAt f ino)) (c : Checker) :
    ∃ c', checkInode f c ino = .ok c' ∧ (c'.problems = [] → c.problems = []) ∧
      c' = { c with
        problems := c'.problems
        used := c'.used
        allocated := if (inodeAt f ino).mode = 0 then c.allocated
          else update c.allocated ino true
        links := if (inodeAt f ino).mode = 0 then c.links
          else update c.links ino (narrow (inodeAt f ino).nlink)
        isDir := if (inodeAt f ino).mode = 0 then c.isDir
          else update c.isDir ino (inodeAt f ino).isDir } ∧
      (c'.problems = [] → Claims f c (claimsOf f ino) c' ∧ SoundInode f ino) := by
  unfold checkInode
  rw [get]
  change ∃ c', (if (inodeAt f ino).mode = 0 then _ else _) = _ ∧ _
  by_cases mode : (inodeAt f ino).mode = 0
  · rw [if_pos mode]
    have walked := walked_errorIf c ((inodeAt f ino).nlink ≠ 0)
      (.freeWithLinks ino (inodeAt f ino).nlink)
    refine ⟨_, rfl, walked.problems, ?_, ?_⟩
    · simp only [if_pos mode]
      exact walked.tables
    · intro clean
      obtain ⟨links, same⟩ := errorIf_clean clean
      have nlink : (inodeAt f ino).nlink = 0 := by simpa using links
      refine ⟨?_, fun _ => nlink, fun used => absurd mode used, fun used => absurd mode used,
        fun used => absurd mode used⟩
      rw [claimsOf, if_pos (.inl mode), same]
      exact .nil rfl
  · rw [if_neg mode]
    have entered_walked := enterInode_walked (inodeAt f ino) c
    simp only [if_neg mode]
    by_cases dev : (inodeAt f ino).isDev = true
    · rw [if_pos dev]
      refine ⟨_, rfl, entered_walked.problems, entered_walked.tables, ?_⟩
      intro clean
      obtain ⟨same, linked, type⟩ := enterInode_clean clean
      refine ⟨?_, fun unused => absurd unused mode, fun _ => linked, fun _ => type, ?_⟩
      · rw [claimsOf, if_pos (.inr dev), same]
        exact .nil rfl
      · intro _ not_dev
        rw [dev] at not_dev
        cases not_dev
    · rw [if_neg dev]
      obtain ⟨c', done, walked, claims⟩ :=
        checkBlocks_spec size covers (inodeAt f ino) (enterInode (inodeAt f ino) c)
      have both := entered_walked.trans walked
      refine ⟨c', done, both.problems, both.tables, ?_⟩
      intro clean
      obtain ⟨all, nonneg, dir, large⟩ := claims clean
      obtain ⟨same, linked, type⟩ := enterInode_clean (walked.problems clean)
      refine ⟨?_, fun unused => absurd unused mode, fun _ => linked, fun _ => type,
        fun _ _ => ⟨nonneg, dir, large⟩⟩
      rw [claimsOf, if_neg (by simp [mode, dev])]
      rw [same] at all
      exact { all with }

theorem Scanned.step {done : List Int}
    (get : Inode.get f ino = .ok (inodeAt f ino)) (scanned : Scanned f done c) :
    ∃ c', checkInode f c ino = .ok c' ∧ Scanned f (done ++ [ino]) c' := by
  obtain ⟨c', ok, before, fields, clean⟩ := checkInode_eq size covers get c
  have allocated : c'.allocated = if (inodeAt f ino).mode = 0 then c.allocated
      else update c.allocated ino true := by rw [fields]
  have isDir : c'.isDir = if (inodeAt f ino).mode = 0 then c.isDir
      else update c.isDir ino (inodeAt f ino).isDir := by rw [fields]
  have links : c'.links = if (inodeAt f ino).mode = 0 then c.links
      else update c.links ino (narrow (inodeAt f ino).nlink) := by rw [fields]
  refine ⟨c', ok, ?_, ?_, ?_, ?_, ?_⟩
  · intro i
    rw [allocated, mem_append, mem_singleton]
    split
    next mode =>
      rw [scanned.allocated]
      constructor
      · rintro ⟨within, used⟩
        exact ⟨.inl within, used⟩
      · rintro ⟨within | rfl, used⟩
        · exact ⟨within, used⟩
        · exact absurd mode used
    next mode =>
      by_cases same : i = ino
      · simp [same, mode]
      · rw [update_of_ne same, scanned.allocated]
        simp [same]
  · intro i
    rw [isDir, mem_append, mem_singleton]
    split
    next mode =>
      rw [scanned.isDir]
      constructor
      · rintro ⟨within, used, dir⟩
        exact ⟨.inl within, used, dir⟩
      · rintro ⟨within | rfl, used, dir⟩
        · exact ⟨within, used, dir⟩
        · exact absurd mode used
    next mode =>
      by_cases same : i = ino
      · simp [same, mode]
      · rw [update_of_ne same, scanned.isDir]
        simp [same]
  · intro i within used
    rw [links]
    rw [mem_append, mem_singleton] at within
    split
    next mode =>
      obtain inside | rfl := within
      · exact scanned.links i inside used
      · exact absurd mode used
    next mode =>
      by_cases same : i = ino
      · rw [same, update_self]
      · rw [update_of_ne same]
        exact scanned.links i (within.resolve_right same) used
  · rw [fields, scanned.rest]
  · intro clean'
    obtain ⟨claims, sound⟩ := clean clean'
    obtain ⟨claims₀, sound₀⟩ := scanned.clean (before clean')
    refine ⟨?_, ?_⟩
    · rw [flatMap_append, flatMap_singleton]
      exact claims₀.trans claims
    · exact forall_mem_append.mpr ⟨sound₀, forall_mem_singleton.mpr sound⟩

end

theorem Scanned.errorIf {done : List Int} (scanned : Scanned f done c) (bad : Bool) (p : Problem) :
    Scanned f done (c.errorIf bad p) := by
  cases bad with
  | false => exact scanned
  | true =>
    refine { scanned with rest := ?_, clean := ?_ }
    · change { c with problems := _ } = _
      rw [scanned.rest]
      rfl
    · nofun

theorem mem_checkedInodes : ino ∈ checkedInodes f ↔ ROOTINO ≤ ino ∧ ino ≤ f.inodeCount := by
  unfold checkedInodes
  simp only [mem_map, mem_range, ROOTINO]
  constructor
  · rintro ⟨i, below, rfl⟩
    omega
  · rintro ⟨low, high⟩
    exact ⟨(ino - 2).toNat, by omega, by omega⟩

theorem get_checked (accepted : sbcheck f.sb = false) (covers : f.sb.fsize ≤ f.nblk)
    (within : ino ∈ checkedInodes f) : Inode.get f ino = .ok (inodeAt f ino) := by
  obtain ⟨-, -, ⟨-, sizes⟩, -⟩ := (sbcheck_iff _).mp accepted
  obtain ⟨low, high⟩ := mem_checkedInodes.mp within
  unfold Filesystem.inodeCount at high
  simp only [ROOTINO, INOPB, SUPERB] at low high
  have block : 1 ≤ itod ino ∧ itod ino < f.sb.isize := by
    unfold itod
    simp only [INOPB]
    omega
  have inside : f.outside (itod ino) = false := by
    simp only [Filesystem.outside, decide_eq_false_iff_not]
    omega
  unfold Inode.get
  rw [if_neg (by omega), if_neg (by omega), inside, if_neg Bool.false_ne_true]
  rfl

/-- The inodes in use from `ROOTINO` up. -/
def inUse (f : Filesystem) : List Int :=
  (checkedInodes f).filter fun ino => (inodeAt f ino).mode ≠ 0

/-- The first pass always comes to its end. -/
theorem pass1_spec (accepted : sbcheck f.sb = false) (covers : f.sb.fsize ≤ f.nblk) :
    ∃ c, pass1Inodes f .start = .ok c ∧ Scanned f (checkedInodes f) c ∧
      (c.problems = [] → f.sb.tinode = f.inodeCount - 1 - (inUse f).length) := by
  have size := ((sbcheck_iff _).mp accepted).2.2.1.1
  obtain ⟨c, ok, scanned⟩ := foldlM_total (l := checkedInodes f)
    (scanned_start f) (by
      intro done ino rest c split scanned
      have within : ino ∈ checkedInodes f := by
        rw [split]
        exact mem_append_right _ mem_cons_self
      exact scanned.step size covers (get_checked accepted covers within))
  have counted : (checkedInodes f).filter c.allocated = inUse f := by
    refine filter_congr ?_
    intro ino within
    rw [Bool.eq_iff_iff, scanned.allocated, decide_eq_true_eq]
    exact and_iff_right within
  refine ⟨_, ?_, scanned.errorIf (f.inodeCount - 1 - (inUse f).length ≠ f.sb.tinode)
    (.tinode f.sb.tinode (f.inodeCount - 1 - (inUse f).length)), ?_⟩
  · unfold pass1Inodes
    rw [ok]
    change Except.ok _ = Except.ok _
    rw [counted]
  · intro clean
    have told := of_decide_eq_false (errorIf_clean clean).1
    omega

end V7Besm.Fs

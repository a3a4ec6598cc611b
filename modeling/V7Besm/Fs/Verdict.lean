import V7Besm.Fs.Tree

/-!
The verdict of the host's `fsck`.

The last three passes never fail. Together with the first two they say when a run comes to
its end, and what an image looks like about which the checker has nothing to say.
-/

namespace V7Besm.Fs

open Alloc Fallible V7Besm.Graph Function List

variable {f : Filesystem} {c c' : Checker} {w w' : Chain} {b : Int}

/-! ### Link counts -/

theorem checkLinks_spec (c : Checker) (ino : Int) :
    checkLinks c ino = { c with problems := (checkLinks c ino).problems } ∧
    ((checkLinks c ino).problems = [] → c.problems = [] ∧
      (c.allocated ino = true → c.refs ino ≠ 0 ∧ c.refs ino = c.links ino)) := by
  unfold checkLinks
  by_cases free : c.allocated ino = false
  · rw [if_pos (by simp [free])]
    refine ⟨rfl, fun clean => ⟨clean, ?_⟩⟩
    intro allocated
    rw [free] at allocated
    cases allocated
  · rw [if_neg (by simpa using free)]
    by_cases none_there : c.refs ino = 0
    · rw [if_pos none_there]
      exact ⟨rfl, nofun⟩
    · rw [if_neg none_there]
      refine ⟨errorIf_fields _ _ _, ?_⟩
      intro clean
      obtain ⟨right, same⟩ := errorIf_clean clean
      rw [same] at clean
      exact ⟨clean, fun _ => ⟨none_there, by simpa using right⟩⟩

theorem pass3_spec (f : Filesystem) (c : Checker) :
    pass3LinkCounts f c = { c with problems := (pass3LinkCounts f c).problems } ∧
    ((pass3LinkCounts f c).problems = [] → c.problems = [] ∧
      ∀ ino ∈ checkedInodes f, c.allocated ino = true →
        c.refs ino ≠ 0 ∧ c.refs ino = c.links ino) := by
  unfold pass3LinkCounts
  induction checkedInodes f generalizing c with
  | nil =>
    refine ⟨rfl, fun clean => ⟨clean, ?_⟩⟩
    nofun
  | cons i inos ih =>
    obtain ⟨fields, here⟩ := checkLinks_spec c i
    obtain ⟨fields', rest⟩ := ih (checkLinks c i)
    rw [foldl_cons]
    constructor
    · rw [fields', fields]
    intro clean
    obtain ⟨clean', others⟩ := rest clean
    obtain ⟨clean₀, one⟩ := here clean'
    refine ⟨clean₀, ?_⟩
    intro ino within
    cases within with
    | head => exact one
    | tail _ within =>
      have later := others ino within
      rwa [fields] at later

/-! ### The free list -/

/-- The superblock as the walk over the free list sees it. -/
def Chain.super (f : Filesystem) (w : Chain) : Filsys :=
  { f.sb with nfree := w.nfree, free := w.cache }

/-- The blocks `l` have been walked without a complaint. -/
structure Listed (f : Filesystem) (w : Chain) (lossy : Bool) (l : List Int) (w' : Chain) : Prop where
  list : FreeList false lossy f.disk (w.super f) l
  nodup : l.Nodup
  fresh : ∀ b ∈ l, w.checker.freed b = false ∧ w.checker.used b = false
  freed : ∀ b, w'.checker.freed b = true ↔ w.checker.freed b = true ∨ b ∈ l
  count : w'.count = w.count + l.length

/-- What the walk over the free list does. -/
structure WalkedFree (f : Filesystem) (w w' : Chain) : Prop where
  fields : w'.checker = { w.checker with
    problems := w'.checker.problems, freed := w'.checker.freed }
  problems : w'.checker.problems = [] → w.checker.problems = []
  clean : w'.checker.problems = [] → ∃ lossy l, Listed f w lossy l w'

/-- How many data blocks have not been met on the list. -/
def unlisted (f : Filesystem) (c : Checker) : Nat :=
  ((dataBlocks f).filter fun bno => !c.freed bno).length

theorem mem_dataBlocks : b ∈ dataBlocks f ↔ badblock f.sb b = false := by
  unfold dataBlocks badblock
  simp only [mem_map, mem_range, decide_eq_false_iff_not]
  constructor
  · rintro ⟨i, below, rfl⟩
    omega
  · intro good
    exact ⟨(b - f.sb.isize).toNat, by omega, by omega⟩

theorem Listed.nil (list : FreeList false false f.disk (w.super f) [])
    (checker : w'.checker = w.checker) (count : w'.count = w.count) :
    Listed f w false [] w' := by
  refine ⟨list, nodup_nil, ?_, ?_, ?_⟩
  · nofun
  · intro b
    rw [checker]
    simp
  · simpa using count

/-- One block, and what the walk from there on finds. -/
theorem Listed.cons {w₁ : Chain} {l : List Int} {lossy lossy' : Bool}
    (list : FreeList false lossy' f.disk (w.super f) (b :: l)) (rest : Listed f w₁ lossy l w')
    (fresh : w.checker.freed b = false ∧ w.checker.used b = false)
    (freed : w₁.checker.freed = update w.checker.freed b true)
    (used : w₁.checker.used = w.checker.used) (count : w₁.count = w.count + 1) :
    Listed f w lossy' (b :: l) w' := by
  have later : ∀ x ∈ l, x ≠ b ∧ w.checker.freed x = false ∧ w.checker.used x = false := by
    intro x within
    obtain ⟨not_freed, not_used⟩ := rest.fresh x within
    rw [freed] at not_freed
    rw [used] at not_used
    have other : x ≠ b := by
      rintro rfl
      rw [update_self] at not_freed
      cases not_freed
    rw [update_of_ne other] at not_freed
    exact ⟨other, not_freed, not_used⟩
  refine ⟨list, nodup_cons.mpr ⟨fun within => (later b within).1 rfl, rest.nodup⟩, ?_, ?_, ?_⟩
  · intro x within
    cases within with
    | head => exact fresh
    | tail _ within => exact (later x within).2
  · intro x
    rw [rest.freed, freed, mem_cons]
    by_cases other : x = b
    · simp [other]
    · rw [update_of_ne other]
      simp [other]
  · rw [rest.count, count, length_cons]
    omega

theorem nextChain_spec (size : 0 < f.sb.isize) (covers : f.sb.fsize ≤ f.nblk)
    (good : badblock f.sb b = false) :
    ∃ w' go, nextChain f w b = .ok (w', go) ∧
      w'.checker = { w.checker with problems := w'.checker.problems } ∧
      (w'.checker.problems = [] → w.checker.problems = [] ∧ go = true) ∧
      w'.count = w.count ∧
      (go = true → (0 < w.nfree ∧ w' = w) ∨ (w.nfree ≤ 0 ∧ 0 ≤ f.disk.get b 0 ∧
        f.disk.get b 0 ≤ NICFREE ∧ w'.nfree = f.disk.get b 0 ∧
        w'.cache = chainFree f.disk b w.cache)) := by
  unfold nextChain
  by_cases some_left : w.nfree ≤ 0
  · rw [if_pos some_left]
    by_cases again : w.chains b = true
    · rw [if_pos again]
      exact ⟨_, _, rfl, rfl, nofun, rfl, nofun⟩
    rw [if_neg again, not_outside size covers good, if_neg Bool.false_ne_true]
    by_cases bad : f.disk.get b 0 < 0 ∨ f.disk.get b 0 > NICFREE
    · rw [if_pos bad]
      exact ⟨_, _, rfl, rfl, nofun, rfl, nofun⟩
    · rw [if_neg bad]
      exact ⟨_, _, rfl, rfl, fun clean => ⟨clean, rfl⟩, rfl,
        fun _ => .inr ⟨some_left, by omega, by omega, rfl, rfl⟩⟩
  · rw [if_neg some_left]
    exact ⟨_, _, rfl, rfl, fun clean => ⟨clean, rfl⟩, rfl, fun _ => .inl ⟨by omega, rfl⟩⟩

theorem FreeList.nil_of_nfree {strict lossy : Bool} {d : Disk} {fs : Filsys} {l : List Int}
    (list : FreeList strict lossy d fs l) (none_left : fs.nfree = 0) : l = [] := by
  cases list with
  | empty _ _ => rfl
  | bottom _ _ _ _ => rfl
  | pop count _ _ _ | chain count _ _ _ _ _ | last _ count _ _ _ => omega

/-- The block `b` on top of the list, and the list behind it as the walk goes on with it. -/
theorem freeList_cons {w₁ : Chain} {lossy : Bool} {l : List Int}
    (positive : 0 < w.nfree) (top : w.cache (w.nfree - 1) = b) (good : badblock f.sb b = false)
    (next : (0 < w.nfree - 1 ∧ w₁.super f = { w.super f with nfree := w.nfree - 1 }) ∨
      (w.nfree - 1 ≤ 0 ∧ 0 ≤ f.disk.get b 0 ∧ f.disk.get b 0 ≤ NICFREE ∧
        w₁.nfree = f.disk.get b 0 ∧ w₁.cache = chainFree f.disk b w.cache))
    (rest : FreeList false lossy f.disk (w₁.super f) l) :
    ∃ lossy', FreeList false lossy' f.disk (w.super f) (b :: l) := by
  obtain ⟨more, same⟩ | ⟨none_left, low, high, nfree, cache⟩ := next
  · refine ⟨lossy, .pop (n := w.nfree.toNat - 2) ?_ ?_ good ?_⟩
    · change w.nfree = _
      omega
    · change w.cache _ = b
      rw [← top]
      congr 1
      omega
    · have left : ((w.nfree.toNat - 2 + 1 : Nat) : Int) = w.nfree - 1 := by omega
      rwa [left, ← same]
  · have one : w.nfree = 1 := by omega
    have bottom : w.cache 0 = b := by
      rw [← top]
      congr 1
      omega
    have super : w₁.super f =
        { w.super f with nfree := f.disk.get b 0, free := chainFree f.disk b w.cache } := by
      unfold Chain.super
      rw [nfree, cache]
    by_cases zero : f.disk.get b 0 = 0
    · have nil : l = [] := rest.nil_of_nfree (nfree.trans zero)
      rw [nil]
      exact ⟨true, .last rfl one bottom good zero⟩
    · rw [super] at rest
      exact ⟨lossy, .chain one bottom good (by omega) high rest⟩

/-- The walk over the free list comes to its end, since it meets every block but once. -/
theorem walkFree_spec (size : 0 < f.sb.isize) (covers : f.sb.fsize ≤ f.nblk) (fuel : Nat)
    (nonneg : 0 ≤ w.nfree) (enough : unlisted f w.checker < fuel) :
    ∃ w', walkFree f fuel w = .ok w' ∧ WalkedFree f w w' := by
  induction fuel generalizing w with
  | zero => omega
  | succ fuel ih =>
    rw [walkFree]
    by_cases none_left : w.nfree ≤ 0
    · rw [if_pos none_left]
      have list : FreeList false false f.disk (w.super f) [] := by
        refine .empty rfl ?_
        change w.nfree = 0
        omega
      exact ⟨w, rfl, rfl, id, fun _ => ⟨false, [], .nil list rfl rfl⟩⟩
    rw [if_neg none_left]
    dsimp only
    by_cases zero : w.cache (w.nfree - 1) = 0
    · rw [if_pos zero]
      have list : FreeList false false f.disk (w.super f) [] := by
        refine .bottom (n := w.nfree.toNat - 1) rfl ?_ ?_ nofun
        · change w.nfree = _
          omega
        · change w.cache _ = 0
          rw [← zero]
          congr 1
          omega
      exact ⟨_, rfl, rfl, id, fun _ => ⟨false, [], .nil list rfl rfl⟩⟩
    rw [if_neg zero]
    generalize at_top : w.cache (w.nfree - 1) = b at zero
    by_cases outside : b < f.sb.isize ∨ b ≥ f.sb.fsize
    · rw [if_pos outside]
      exact ⟨_, rfl, rfl, nofun, nofun⟩
    rw [if_neg outside]
    have good : badblock f.sb b = false := decide_eq_false outside
    cases before : w.checker.freed b with
    | true =>
      exact ⟨_, rfl, rfl, nofun, nofun⟩
    | false =>
      have positive : 0 < w.nfree := by omega
      generalize counted : ({ w with
        nfree := w.nfree - 1
        checker := Checker.errorIf
          { w.checker with freed := update w.checker.freed b true }
          (w.checker.used b) (.usedAndFree b)
        count := w.count + 1 } : Chain) = w₁
      have fields₁ : w₁.checker = { w.checker with
          problems := w₁.checker.problems
          freed := update w.checker.freed b true } := by
        rw [← counted]
        exact errorIf_fields _ _ _
      have clean₁ : w₁.checker.problems = [] →
          w.checker.problems = [] ∧ w.checker.used b = false := by
        intro clean
        rw [← counted] at clean
        obtain ⟨not_used, same⟩ := errorIf_clean clean
        rw [same] at clean
        exact ⟨clean, not_used⟩
      obtain ⟨w₂, go, next, fields₂, clean₂, count₂, how⟩ := nextChain_spec size covers good
      have freed₂ : w₂.checker.freed = update w.checker.freed b true := by
        rw [fields₂, fields₁]
      rw [next]
      cases go with
      | false =>
        refine ⟨w₂, rfl, ?_, fun clean => (by cases (clean₂ clean).2),
          fun clean => by cases (clean₂ clean).2⟩
        rw [fields₂, fields₁]
      | true =>
        have how := how rfl
        have nfree₁ : w₁.nfree = w.nfree - 1 := by rw [← counted]
        have super₁ : w₁.super f = { w.super f with nfree := w.nfree - 1 } := by
          rw [← counted]
          rfl
        have cache₁ : w₁.cache = w.cache := by rw [← counted]
        have nonneg₂ : 0 ≤ w₂.nfree := by
          obtain ⟨more, rfl⟩ | ⟨-, low, -, nfree, -⟩ := how
          · omega
          · omega
        have fewer : unlisted f w₂.checker < unlisted f w.checker := by
          unfold unlisted
          rw [freed₂]
          exact length_unmarked_lt (mem_dataBlocks.mpr good) before
        obtain ⟨w', ok, walked⟩ := ih nonneg₂ (by omega)
        refine ⟨w', ok, ?_, ?_, ?_⟩
        · rw [walked.fields, fields₂, fields₁]
        · intro clean
          exact (clean₁ (clean₂ (walked.problems clean)).1).1
        intro clean
        obtain ⟨lossy, l, listed⟩ := walked.clean clean
        have unused := (clean₁ (clean₂ (walked.problems clean)).1).2
        have on_list : ∃ lossy', FreeList false lossy' f.disk (w.super f) (b :: l) := by
          refine freeList_cons positive at_top good ?_ listed.list
          rw [← cache₁, ← nfree₁]
          obtain ⟨more, rfl⟩ | chain := how
          · exact .inl ⟨more, by rw [super₁, nfree₁]⟩
          · exact .inr chain
        obtain ⟨lossy', list⟩ := on_list
        refine ⟨lossy', b :: l, .cons list listed ⟨before, unused⟩ freed₂ ?_ ?_⟩
        · rw [fields₂, fields₁]
        · rw [count₂, ← counted]

theorem pass4_spec (accepted : sbcheck f.sb = false) (covers : f.sb.fsize ≤ f.nblk)
    (none_freed : ∀ b, c.freed b = false) :
    ∃ c', pass4FreeList f c = .ok c' ∧
      c' = { c with problems := c'.problems, freed := c'.freed } ∧
      (c'.problems = [] → c.problems = [] ∧ ∃ lossy l, FreeList false lossy f.disk f.sb l ∧
        l.Nodup ∧ (∀ b ∈ l, c.used b = false) ∧ (∀ b, c'.freed b = true ↔ b ∈ l) ∧
        f.sb.tfree = l.length) := by
  obtain ⟨-, -, ⟨size, -⟩, ⟨low, high⟩, -⟩ := (sbcheck_iff _).mp accepted
  obtain ⟨w, ok, walked⟩ := walkFree_spec size covers ((f.sb.fsize - f.sb.isize).toNat + 1)
    (w := ⟨c, f.sb.nfree, f.sb.free, fun _ => false, 0⟩) low (by
      refine Nat.lt_succ_of_le (Nat.le_trans (length_filter_le _ _) ?_)
      simp [dataBlocks])
  generalize verdict : decide (w.checker.problems.length = c.problems.length ∧
    w.count ≠ f.sb.tfree) = wrong
  refine ⟨w.checker.errorIf wrong (.tfree f.sb.tfree w.count), ?_, ?_, ?_⟩
  · unfold pass4FreeList
    rw [if_neg (by omega), ok, ← verdict]
    rfl
  · rw [errorIf_fields, walked.fields]
  intro clean
  obtain ⟨right, same⟩ := errorIf_clean clean
  rw [same] at clean ⊢
  have clean₀ : c.problems = [] := walked.problems clean
  obtain ⟨lossy, l, listed⟩ := walked.clean clean
  refine ⟨clean₀, lossy, l, listed.list, listed.nodup, fun b within => (listed.fresh b within).2,
    ?_, ?_⟩
  · intro b
    rw [listed.freed]
    simp [none_freed]
  · rw [right, clean, clean₀] at verdict
    have count := listed.count
    simp only [true_and, decide_eq_false_iff_not, not_not] at verdict
    dsimp only at count
    omega

theorem pass5_clean (clean : (pass5Accounting f c).problems = []) :
    c.problems = [] ∧ ∀ b, badblock f.sb b = false → c.used b = true ∨ c.freed b = true := by
  obtain ⟨none_lost, same⟩ := errorIf_clean clean
  unfold pass5Accounting at clean
  rw [same] at clean
  refine ⟨clean, ?_⟩
  intro b good
  by_contra neither
  rw [not_or, Bool.not_eq_true, Bool.not_eq_true] at neither
  have lost : b ∈ (dataBlocks f).filter fun bno => !c.used bno && !c.freed bno :=
    mem_filter.mpr ⟨mem_dataBlocks.mpr good, by simp [neither.1, neither.2]⟩
  have positive := length_pos_of_mem lost
  exact of_decide_eq_false none_lost positive

/-! ### The whole run -/

/-- The blocks that the inodes claim. -/
def claimed (f : Filesystem) : List Int := (checkedInodes f).flatMap (claimsOf f)

/-- What a run without complaints has found out: the directories in the order of the walk, and
the blocks of the free list. -/
structure Passed (f : Filesystem) (dirs : List Int) (lossy : Bool) (l : List Int) : Prop where
  accepted : sbcheck f.sb = false
  covers : f.sb.fsize ≤ f.nblk
  ilist : ROOTINO ≤ f.inodeCount
  inodes : ∀ ino ∈ checkedInodes f, SoundInode f ino
  tinode : f.sb.tinode = f.inodeCount - 1 - (inUse f).length
  good : ∀ b ∈ claimed f, badblock f.sb b = false
  claimed_nodup : (claimed f).Nodup
  root : HasRoot f
  tour : Tour (subdirs f) [] [ROOTINO] dirs 0
  root_dots : GoodDir f ROOTINO ROOTINO
  dots : ∀ d ∈ dirs, ∀ x ∈ subdirs f d, GoodDir f x d
  range : ∀ i, linksFrom f dirs i ≤ 2 ^ 31 - 1
  links : ∀ ino ∈ checkedInodes f, (inodeAt f ino).mode ≠ 0 → linksFrom f dirs ino ≠ 0 ∧
    (linksFrom f dirs ino : Int) = narrow (inodeAt f ino).nlink
  list : FreeList false lossy f.disk f.sb l
  nodup : l.Nodup
  apart : ∀ b ∈ l, b ∉ claimed f
  accounted : ∀ b, badblock f.sb b = false → b ∈ claimed f ∨ b ∈ l
  tfree : f.sb.tfree = l.length

/-- The passes behind the first one. -/
theorem problemCount_eq (first : pass1Inodes f .start = .ok c) :
    problemCount f = (do
      let c ← pass2Directories f c
      let c ← pass4FreeList f (pass3LinkCounts f c)
      .ok (pass5Accounting f c).problems.length) := by
  unfold problemCount
  rw [first]
  rfl

theorem check_eq_ok (accepted : sbcheck f.sb = false) (covers : f.sb.fsize ≤ f.nblk) {n : Nat} :
    check f = .ok n ↔ problemCount f = .ok n ∧ n < 2 ^ 31 := by
  unfold check
  rw [accepted, if_neg Bool.false_ne_true, if_neg (by omega), bind_eq_ok]
  constructor
  · rintro ⟨m, counted, ok⟩
    split at ok
    next => cases ok
    next small =>
      cases ok
      exact ⟨counted, by omega⟩
  · rintro ⟨counted, small⟩
    exact ⟨n, counted, if_neg (by omega)⟩

/-- The passes end just when there is an i-list and the tree can be walked. -/
theorem problemCount_returns_iff (accepted : sbcheck f.sb = false)
    (covers : f.sb.fsize ≤ f.nblk) :
    (∃ n, problemCount f = .ok n) ↔ ROOTINO ≤ f.inodeCount ∧ (HasRoot f → Walkable f) := by
  obtain ⟨c₁, first, scanned, -⟩ := pass1_spec accepted covers
  rw [problemCount_eq first, ← pass2_returns_iff accepted covers scanned]
  constructor
  · rintro ⟨n, ok⟩
    obtain ⟨c₂, second, -⟩ := bind_eq_ok.mp ok
    exact ⟨c₂, second⟩
  · rintro ⟨c₂, second⟩
    obtain ⟨fields, -⟩ := pass2_fields accepted covers scanned second
    obtain ⟨c₄, fourth, -⟩ := pass4_spec (c := pass3LinkCounts f c₂) accepted covers (by
      intro b
      rw [(pass3_spec f c₂).1, fields, scanned.rest]
      rfl)
    exact ⟨_, bind_eq_ok.mpr ⟨c₂, second, bind_eq_ok.mpr ⟨c₄, fourth, rfl⟩⟩⟩

theorem check_passed (zero : check f = .ok 0) : ∃ dirs lossy l, Passed f dirs lossy l := by
  have accepted : sbcheck f.sb = false := by
    by_contra refused
    unfold check at zero
    rw [if_pos (by simpa using refused)] at zero
    cases zero
  have covers : f.sb.fsize ≤ f.nblk := by
    by_contra short
    unfold check at zero
    rw [accepted, if_neg Bool.false_ne_true, if_pos (by omega)] at zero
    cases zero
  obtain ⟨c₁, first, scanned, tinode⟩ := pass1_spec accepted covers
  have zero := ((check_eq_ok accepted covers).mp zero).1
  have ilist := ((problemCount_returns_iff accepted covers).mp ⟨0, zero⟩).1
  rw [problemCount_eq first] at zero
  obtain ⟨c₂, second, rest⟩ := bind_eq_ok.mp zero
  obtain ⟨fields₂, clean₂⟩ := pass2_fields accepted covers scanned second
  obtain ⟨fields₃, clean₃⟩ := pass3_spec f c₂
  obtain ⟨c₄, fourth, fields₄, clean₄⟩ := pass4_spec (c := pass3LinkCounts f c₂) accepted covers (by
    intro b
    rw [fields₃, fields₂, scanned.rest]
    rfl)
  rw [fourth] at rest
  have none_left : (pass5Accounting f c₄).problems = [] := by
    injection rest with length
    exact length_eq_zero_iff.mp length
  -- the passes back to front
  obtain ⟨clean, accounted⟩ := pass5_clean none_left
  obtain ⟨clean, lossy, l, list, nodup, unused, freed, tfree⟩ := clean₄ clean
  obtain ⟨clean, links⟩ := clean₃ clean
  obtain ⟨clean₁, dirs, toured, root⟩ := clean₂ clean
  obtain ⟨-, root_dots, dots⟩ := toured.clean clean
  obtain ⟨claims, inodes⟩ := scanned.clean clean₁
  have used : ∀ b, c₁.used b = true ↔ b ∈ claimed f := by
    intro b
    rw [claims.used]
    simp [Checker.start, claimed]
  have used₃ : (pass3LinkCounts f c₂).used = c₁.used := by rw [fields₃, fields₂]
  have used₄ : c₄.used = c₁.used := by rw [fields₄, used₃]
  have refs : ∀ i, c₂.refs i = linksFrom f dirs i := by
    intro i
    rw [toured.refs, scanned.rest]
    exact Int.zero_add _
  refine ⟨dirs, lossy, l, accepted, covers, ilist, inodes, tinode clean₁, claims.good,
    claims.nodup, root, toured.tour, root_dots ROOTINO mem_cons_self, dots, ?_, ?_, list,
    nodup, ?_, ?_, tfree⟩
  · intro i
    have range := toured.range i
    rw [refs] at range
    omega
  · intro ino within mode
    have allocated : c₂.allocated ino = true := by
      rw [fields₂]
      exact (scanned.allocated ino).mpr ⟨within, mode⟩
    obtain ⟨some_there, right⟩ := links ino within allocated
    have told : c₂.links ino = narrow (inodeAt f ino).nlink := by
      rw [fields₂]
      exact scanned.links ino within mode
    rw [refs] at some_there right
    exact ⟨by exact_mod_cast some_there, right.trans told⟩
  · intro b within on_list
    have free := unused b within
    rw [used₃, (used b).mpr on_list] at free
    cases free
  · intro b good
    have which := accounted b good
    rwa [used₄, used, freed] at which

/-! ### What the verdict is about -/

namespace Passed

variable {dirs l : List Int} {lossy : Bool} {d : Int}

section

variable (passed : Passed f dirs lossy l)

include passed

end

end Passed

/-- An image with a root directory and nothing else, its link count and its block as given. -/
def rootOnly (nlink addr : Nat) : Filesystem where
  sb := {
    magic := FS_MAGIC, bsize := BSIZEW, inopb := INOPB, naddr := NADDR, isize := 2, fsize := 3
    tfree := 0, tinode := 30, flock := 0, ilock := 0, fmod := 0
    nfree := 0, free := fun _ => 0, ninode := 0, inode := fun _ => 0 }
  disk := fun bno w =>
    if bno = 1 then
      if w = 16 then 0x41ed else if w = 17 then nlink else if w = 20 then 48
      else if w = 24 then addr else 0
    else if bno = 2 then
      if w = 0 ∨ w = 4 then 2 else if w = 1 then 46 * 2 ^ 40
      else if w = 5 then 46 * 2 ^ 40 + 46 * 2 ^ 32 else 0
    else 0
  nblk := 3

end V7Besm.Fs

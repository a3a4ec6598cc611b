import V7Besm.Coop.Logic
import V7Besm.Alloc.Code

/-!
The indices into the two arrays of a superblock stay in range.

`s_flock` is a lock: who holds it finds `s_nfree` as it left it. `s_ilock` is not: the scan that
ends first clears it for all. What keeps the scans in range is that whoever fills the
cache of inodes up takes one out again before it sleeps; an `ifree` between two scans does not.
-/

namespace V7Besm.Alloc

open Coop Coop.Proto Function

/-- What a process is in the middle of: nothing, a scan of the i-list, the free list
(with `s_flock`), or a full free list that it writes out. -/
inductive Role where
  | out | scanning | chaining | filing
  deriving DecidableEq

/-- The holder of `s_flock`. -/
def Role.locks : Role → Prop
  | .chaining | .filing => True
  | _ => False

def Span.Ok (r : Span) : Prop := 0 ≤ r.start ∧ r.start + r.len ≤ NICFREE

/-- Every store is in range. -/
structure Safe (s : World) : Prop where
  frees : ∀ r ∈ s.frees, r.Ok
  inodes : ∀ i ∈ s.inodes, 0 ≤ i ∧ i < NICINOD
  ninode : s.fs.ninode ≤ NICINOD

structure Base (s : World) (T : Pid → Role) : Prop where
  safe : Safe s
  ninode : 0 ≤ s.fs.ninode
  listed : ∀ p, T p = .scanning ↔ p ∈ s.scanning
  lock : ∀ p, (T p).locks → s.fs.flock ≠ 0
  one : ∀ p q, (T p).locks → (T q).locks → p = q
  empty : ∀ p, T p = .filing → s.fs.nfree = 0

/-- Every scan has room for one more i-number. -/
def Room (s : World) (T : Pid → Role) : Prop := ∀ p, T p = .scanning → s.fs.ninode < NICINOD

/-- What interrupts leave alone. -/
structure Drift (s s' : World) : Prop where
  fs : s'.fs = s.fs
  frees : s'.frees = s.frees
  inodes : s'.inodes = s.inodes
  scanning : s'.scanning = s.scanning
  slipped : s'.slipped = s.slipped

def proto : Proto Pid World Role where
  inv s T := s.slipped = false → Base s T ∧ Room s T
  rest _ g := g = .out
  env := Drift
  guar _ _ s' := Safe s'
  may _ s := s.slipped = false
  sleeps _ s := s.slipped = false

variable {p q : Pid} {g : Role} {s s' : World} {T : Pid → Role} {bno : Int} {α : Type}
  {Q : α → World → (Pid → Role) → Prop} {R : Unit → World → (Pid → Role) → Prop}
  {f : Filsys → Filsys}

/-! ### Changes that do not matter -/

namespace Drift

theorem refl : Drift s s := ⟨rfl, rfl, rfl, rfl, rfl⟩

theorem trans {s'' : World} (a : Drift s s') (b : Drift s' s'') : Drift s s'' :=
  ⟨b.fs.trans a.fs, b.frees.trans a.frees, b.inodes.trans a.inodes, b.scanning.trans a.scanning,
    b.slipped.trans a.slipped⟩

theorem intr {i : Around} (taken : change i s = some s') : Drift s s' := by
  cases taken
  exact ⟨rfl, rfl, rfl, rfl, rfl⟩

theorem env (run : volume.Env s s') : Drift s s' := by
  induction run with
  | refl => exact refl
  | tail _ step ih =>
    obtain ⟨i, taken⟩ := step
    exact ih.trans (intr taken)

end Drift

theorem Safe.drift (safe : Safe s) (d : Drift s s') : Safe s' :=
  ⟨d.frees ▸ safe.frees, d.inodes ▸ safe.inodes, d.fs ▸ safe.ninode⟩

theorem Base.drift (base : Base s T) (d : Drift s s') : Base s' T :=
  ⟨base.safe.drift d, d.fs ▸ base.ninode, d.scanning ▸ base.listed, d.fs ▸ base.lock, base.one,
    d.fs ▸ base.empty⟩

theorem Room.drift (room : Room s T) (d : Drift s s') : Room s' T := by
  intro p scanning
  rw [d.fs]
  exact room p scanning

theorem inv_drift (inv : proto.inv s T) (d : Drift s s') : proto.inv s' T := by
  intro ok
  obtain ⟨base, room⟩ := inv (d.slipped ▸ ok)
  exact ⟨base.drift d, room.drift d⟩

/-! ### Steps on the superblock -/

/-- A step of process `p`, which is in the middle of `g`. -/
theorem wp_act {f : Pid → World → α × World} (holds : proto.Holds p g s T)
    (step : Base s (update T p g) → Room s (update T p g) → s.slipped = false →
      Safe (f p s).2 ∧ Q (f p s).1 (f p s).2 T) : proto.wp p (.act f) Q s T :=
  fun ok => step (holds ok).1 (holds ok).2 ok

theorem wp_read {f : World → α} (holds : proto.Holds p g s T) (next : Q (f s) s T) :
    proto.wp p (.read f) Q s T := wp_act holds fun base _ _ => ⟨base.safe, next⟩

theorem Base.onFs (base : Base s T) (low : 0 ≤ (f s.fs).ninode) (high : (f s.fs).ninode ≤ NICINOD)
    (lock : ∀ p, (T p).locks → (f s.fs).flock ≠ 0)
    (empty : ∀ p, T p = .filing → (f s.fs).nfree = 0) : Base (s.onFs f) T :=
  ⟨⟨base.safe.frees, base.safe.inodes, high⟩, low, base.listed, lock, base.one, empty⟩

/-- A step that leaves the locks alone and keeps `s_nfree`, or sets it to 0. -/
theorem wp_fs (holds : proto.Holds p g s T)
    (ninode : (f s.fs).ninode = s.fs.ninode ∨ (f s.fs).ninode = 0)
    (flock : (f s.fs).flock = s.fs.flock)
    (nfree : (f s.fs).nfree = s.fs.nfree ∨ (f s.fs).nfree = 0 ∨ s.fs.flock = 0)
    (next : proto.Holds p g (s.onFs f) T → R () (s.onFs f) T) :
    proto.wp p (.modify (World.onFs f)) R s T := by
  intro ok
  obtain ⟨base, room⟩ := holds ok
  have same : Base (s.onFs f) (update T p g) := by
    have low := base.ninode
    have high := base.safe.ninode
    apply base.onFs
    · omega
    · rcases ninode with e | e
      · rwa [e]
      · rw [e]
        decide
    · intro q locks
      rw [flock]
      exact base.lock q locks
    · intro q filing
      rcases nfree with e | e | unlocked
      · rw [e]
        exact base.empty q filing
      · exact e
      · exact absurd unlocked (base.lock q (filing ▸ trivial))
  refine ⟨same.safe, next fun _ => ⟨same, ?_⟩⟩
  intro q scanning
  have before := room q scanning
  rcases ninode with e | e
  · rwa [World.onFs, e]
  · rw [World.onFs, e]
    decide

theorem wp_error {e : Int} (holds : proto.Holds p g s T)
    (next : ∀ s', proto.Holds p g s' T → s'.fs = s.fs → R () s' T) :
    proto.wp p (setError e) R s T :=
  wp_act holds fun base _ _ =>
    ⟨{ base.safe with },
      next _ (inv_drift holds ⟨rfl, rfl, rfl, rfl, rfl⟩) rfl⟩

/-! ### Sleeping -/

section

variable (holds : proto.Holds p g s T)

include holds

theorem sleep_spec {c : Chan} :
    proto.wp p (sleep c) (fun _ s' T' => proto.Holds p g s' T') s T := by
  have asleep : proto.Holds p g (s.setChan p (some c)) T := inv_drift holds ⟨rfl, rfl, rfl, rfl, rfl⟩
  refine wp_bind (wp_act holds fun base _ _ => ⟨base.safe.drift ⟨rfl, rfl, rfl, rfl, rfl⟩, ?_⟩)
  intro _
  exact ⟨g, asleep, fun s' T' inv own => holds_of_inv inv own⟩

theorem await_spec {busy : Around → Bool} {c : Chan} :
    proto.wp p (await busy c) (fun _ s' T' => proto.Holds p g s' T') s T := by
  apply wp_loop (fun _ s T => proto.Holds p g s T) holds
  intro _ s T holds
  apply wp_bind
  intro s' drift
  have holds' := inv_drift holds drift
  apply wp_bind
  apply wp_read holds'
  split
  · exact wp_seq (sleep_spec holds') fun _ s T holds => holds
  · exact holds'

theorem bread_spec : proto.wp p (bread bno) (fun _ s' T' => proto.Holds p g s' T') s T := by
  apply wp_seq (await_spec holds)
  intro _ s T holds
  exact wp_bind (wp_read holds holds)

theorem iget_spec {ino : Int} :
    proto.wp p (iget ino) (fun _ s' T' => proto.Holds p g s' T') s T := by
  apply wp_seq (await_spec holds)
  intro _ s T holds
  exact wp_bind (wp_read holds holds)

theorem getfs_spec : proto.wp p getfs (fun _ s' T' => proto.Holds p g s' T') s T := by
  apply wp_fs holds
  · split <;> simp
  · split <;> rfl
  · split <;> simp
  · exact id

theorem waitFlock_spec :
    proto.wp p waitFlock (fun _ s' T' => proto.Holds p g s' T' ∧ s'.fs.flock = 0) s T := by
  apply wp_loop (fun _ s T => proto.Holds p g s T) holds
  intro _ s T holds
  apply wp_bind
  apply wp_read holds
  split
  · exact wp_seq (sleep_spec holds) fun _ s T holds => holds
  · rename_i unlocked
    exact ⟨holds, not_not.mp unlocked⟩

theorem waitIlock_spec : proto.wp p waitIlock (fun _ s' T' => proto.Holds p g s' T') s T := by
  apply wp_loop (fun _ s T => proto.Holds p g s T) holds
  intro _ s T holds
  apply wp_bind
  apply wp_read holds
  split
  · exact wp_seq (sleep_spec holds) fun _ s T holds => holds
  · exact holds

end

/-! ### The free list -/

theorem scanning_update {g' : Role} (ne : g ≠ .scanning) (ne' : g' ≠ .scanning) :
    update T p g' q = .scanning ↔ update T p g q = .scanning := by
  by_cases e : q = p
  · simp [e, ne, ne']
  · simp [update_of_ne e]

theorem locks_of_filing (filing : T q = .filing) : (T q).locks := by
  rw [filing]
  trivial

/-- What a change of the free list leaves alone. -/
structure Relists (s s' : World) : Prop where
  frees : (∀ r ∈ s.frees, r.Ok) → ∀ r ∈ s'.frees, r.Ok
  inodes : s'.inodes = s.inodes
  scanning : s'.scanning = s.scanning
  ninode : s'.fs.ninode = s.fs.ninode

/-- Process `p` goes on to `g'`, which is not a scan, and changes only the free list. -/
theorem wp_turn {f : World → World} (g' : Role) (holds : proto.Holds p g s T)
    (ne : g ≠ .scanning) (ne' : g' ≠ .scanning) (list : Relists s (f s))
    (mine : Base s (update T p g) → ∀ q, ((update T p g') q).locks → (f s).fs.flock ≠ 0 ∧ q = p)
    (empty : g' = .filing → (f s).fs.nfree = 0)
    (next : Base s (update T p g) → proto.Holds p g' (f s) T → R () (f s) T) :
    proto.wp p (.modify f) R s T := by
  intro ok
  obtain ⟨base, room⟩ := holds ok
  have safe : Safe (f s) := ⟨list.frees base.safe.frees, list.inodes ▸ base.safe.inodes,
    list.ninode ▸ base.safe.ninode⟩
  have mine := mine base
  refine ⟨safe, next base fun _ => ⟨⟨safe, list.ninode ▸ base.ninode, fun q => ?_,
    fun q locks => (mine q locks).1, ?_, ?_⟩, ?_⟩⟩
  · rw [scanning_update ne ne', list.scanning]
    exact base.listed q
  · intro q r first second
    rw [(mine q first).2, (mine r second).2]
  · intro q filing
    obtain rfl := (mine q (locks_of_filing filing)).2
    exact empty (by simpa using filing)
  · intro q scans
    rw [list.ninode]
    exact room q ((scanning_update ne ne').mp scans)

theorem wp_take (holds : proto.Holds p .out s T) (unlocked : s.fs.flock = 0)
    (next : ∀ s', proto.Holds p .chaining s' T → R () s' T) :
    proto.wp p (.modify (World.onFs fun fp => { fp with flock := fp.flock + 1 })) R s T := by
  refine wp_turn .chaining holds (by simp) (by simp) ⟨id, rfl, rfl, rfl⟩
    (fun base q locks => ⟨?_, ?_⟩) nofun fun _ => next _
  · simp only [World.onFs, unlocked]
    decide
  · by_contra ne
    apply base.lock q _ unlocked
    rwa [update_of_ne ne] at locks ⊢

theorem Role.ne_scanning (locks : g.locks) : g ≠ .scanning := by
  rintro rfl
  exact locks

theorem Base.eq_of_locks {g' : Role} (base : Base s (update T p g)) (locks : g.locks)
    (other : ((update T p g') q).locks) : q = p := by
  by_contra ne
  rw [update_of_ne ne] at other
  exact ne (base.one q p (by rwa [update_of_ne ne]) (by simpa using locks))

theorem wp_release (holds : proto.Holds p g s T)
    (locks : g.locks) (next : ∀ s', proto.Holds p .out s' T → s'.fs.flock = 0 →
      (g = .filing → s'.fs.nfree = 0) → R () s' T) : proto.wp p releaseFlock R s T := by
  refine wp_turn .out holds (Role.ne_scanning locks) (by simp) ⟨id, rfl, rfl, rfl⟩
    (fun base q other => ?_) nofun fun base holds =>
      next _ holds rfl fun filing => base.empty p (by simpa using filing)
  obtain rfl := base.eq_of_locks locks other
  simp [Role.locks] at other

/-- Nobody holds `s_flock`: process `p` may change the free list. -/
theorem wp_unlocked {f : World → World} (holds : proto.Holds p .out s T)
    (unlocked : s.fs.flock = 0) (list : Relists s (f s))
    (next : proto.Holds p .out (f s) T → R () (f s) T) : proto.wp p (.modify f) R s T :=
  wp_turn .out holds (by simp) (by simp) list
    (fun base q locks => absurd unlocked (base.lock q locks)) nofun fun _ => next

/-- Process `p` holds `s_flock`, and may change the free list. -/
theorem wp_locked {f : World → World} (g' : Role)
    (holds : proto.Holds p g s T) (locks : g.locks) (locks' : g'.locks) (list : Relists s (f s))
    (flock : (f s).fs.flock = s.fs.flock) (empty : g' = .filing → (f s).fs.nfree = 0)
    (next : proto.Holds p g' (f s) T → R () (f s) T) : proto.wp p (.modify f) R s T :=
  wp_turn g' holds (Role.ne_scanning locks) (Role.ne_scanning locks') list
    (fun base q other => ⟨flock ▸ base.lock p (by simpa using locks), base.eq_of_locks locks other⟩)
    empty fun _ => next

section

variable (holds : proto.Holds p .out s T)

include holds

theorem pop_spec (unlocked : s.fs.flock = 0) :
    proto.wp p pop (fun _ s' T' => proto.Holds p .out s' T' ∧ s'.fs.flock = 0) s T := by
  apply wp_loop (fun _ s T => proto.Holds p .out s T ∧ s.fs.flock = 0) ⟨holds, unlocked⟩
  rintro _ s T ⟨holds, unlocked⟩
  apply wp_bind
  apply wp_read holds
  split
  · exact ⟨holds, unlocked⟩
  split
  · exact ⟨holds, unlocked⟩
  apply wp_bind
  apply wp_unlocked holds unlocked ⟨id, rfl, rfl, rfl⟩
  intro holds
  dsimp only
  split
  · exact ⟨holds, unlocked⟩
  split
  · exact ⟨holds, unlocked⟩
  · exact ⟨holds, unlocked⟩

theorem leave : proto.back p () s T := ⟨.out, holds, rfl⟩

theorem nospace_spec : proto.wp p nospace (fun _ s' T' => proto.Holds p .out s' T') s T := by
  apply wp_bind
  apply wp_fs holds (.inl rfl) rfl (.inr (.inl rfl))
  intro holds
  exact wp_bind (wp_error holds fun s' holds _ => holds)

theorem handOut_spec : proto.wp p (handOut bno) (fun _ s' T' => proto.Holds p .out s' T') s T := by
  apply wp_seq (await_spec holds)
  intro _ s T holds
  exact wp_bind (wp_fs holds (.inl rfl) rfl (.inl rfl) id)

/-- The end of `alloc`, once `s_flock` is given back. -/
theorem allocEnd_spec :
    proto.wp p (do if (← .read World.fs).nfree ≤ 0 then nospace else handOut bno)
      (fun _ s' T' => proto.Holds p .out s' T') s T := by
  apply wp_bind
  apply wp_read holds
  split
  · exact nospace_spec holds
  · exact handOut_spec holds

theorem alloc_spec : proto.wp p alloc (fun _ s' T' => proto.Holds p .out s' T') s T := by
  apply wp_seq (getfs_spec holds)
  intro _ s T holds
  apply wp_seq (waitFlock_spec holds)
  rintro _ s T ⟨holds, unlocked⟩
  apply wp_seq (pop_spec holds unlocked)
  rintro bno s T ⟨holds, unlocked⟩
  cases bno with
  | none => exact nospace_spec holds
  | some bno =>
    apply wp_bind
    apply wp_read holds
    split
    · apply wp_bind
      apply wp_take holds unlocked
      intro s holds
      apply wp_seq (bread_spec holds)
      intro failed s T holds
      split
      · apply wp_bind
        apply wp_release holds trivial
        intro s holds _ _
        exact allocEnd_spec holds
      apply wp_bind
      refine wp_locked .chaining holds trivial trivial ⟨?_, rfl, rfl, rfl⟩ rfl nofun ?_
      · intro ok r mem
        rcases List.mem_cons.mp mem with rfl | mem
        · exact ⟨Int.le_refl 0, Int.le_refl _⟩
        · exact ok r mem
      · intro holds
        apply wp_bind
        apply wp_release holds trivial
        intro s holds _ _
        exact allocEnd_spec holds
    · exact handOut_spec holds

end

theorem frees_putFree (bno : Int) {i : Int} (low : 0 ≤ i) (high : i < NICFREE) (ok : ∀ r ∈ s.frees, r.Ok) :
    ∀ r ∈ (s.putFree i bno).frees, r.Ok := by
  intro r mem
  rcases List.mem_cons.mp mem with rfl | mem
  · exact ⟨low, by simp only; omega⟩
  · exact ok r mem

theorem push_spec (holds : proto.Holds p .out s T) (unlocked : s.fs.flock = 0)
    (low : 0 ≤ s.fs.nfree) (high : s.fs.nfree < NICFREE) :
    proto.wp p (push bno) (proto.back p) s T :=
  wp_unlocked holds unlocked ⟨frees_putFree bno low high, rfl, rfl, rfl⟩ fun holds => leave holds

theorem free_spec (holds : proto.Holds p .out s T) : proto.wp p (free bno) (proto.back p) s T := by
  apply wp_seq (getfs_spec holds)
  intro _ s T holds
  apply wp_bind
  apply wp_fs holds (.inl rfl) rfl (.inl rfl)
  intro holds
  apply wp_seq (waitFlock_spec holds)
  rintro _ s T ⟨holds, unlocked⟩
  apply wp_bind
  apply wp_read holds
  split
  · exact leave holds
  apply wp_bind
  apply wp_unlocked holds unlocked
  · split
    · exact ⟨frees_putFree 0 (by decide) (by decide), rfl, rfl, rfl⟩
    · exact ⟨id, rfl, rfl, rfl⟩
  -- an empty list has the terminator now
  intro holds
  have positive : 0 < (if s.fs.nfree ≤ 0 then
      World.putFree 0 0 (s.onFs fun fp => { fp with nfree := 1 }) else s).fs.nfree := by
    split
    · exact Int.one_pos
    · omega
  have unlocked' : (if s.fs.nfree ≤ 0 then
      World.putFree 0 0 (s.onFs fun fp => { fp with nfree := 1 }) else s).fs.flock = 0 := by
    split <;> exact unlocked
  generalize (if s.fs.nfree ≤ 0 then
    World.putFree 0 0 (s.onFs fun fp => { fp with nfree := 1 }) else s) = s at *
  apply wp_bind
  apply wp_read holds
  split
  · apply wp_bind
    apply wp_take holds unlocked'
    intro s holds
    apply wp_seq (await_spec holds)
    intro _ s T holds
    apply wp_bind
    apply wp_locked .filing holds trivial trivial ⟨id, rfl, rfl, rfl⟩ rfl (fun _ => rfl)
    intro holds
    apply wp_seq (await_spec holds)
    intro _ s T holds
    apply wp_bind
    apply wp_release holds trivial
    intro s holds unlocked nfree
    apply push_spec holds unlocked
    · exact Int.le_of_eq (nfree rfl).symm
    · exact Int.lt_of_le_of_lt (Int.le_of_eq (nfree rfl)) (by decide)
  · rename_i room
    exact push_spec holds unlocked' (Int.le_of_lt positive) (by omega)

/-! ### The cache of inodes -/

/-- What a store to `s_inode` keeps. -/
structure Added (s s' : World) : Prop where
  frees : s'.frees = s.frees
  scanning : s'.scanning = s.scanning
  flock : s'.fs.flock = s.fs.flock
  nfree : s'.fs.nfree = s.fs.nfree
  slipped : s'.slipped = s.slipped
  low : 0 ≤ s'.fs.ninode

theorem safe_putInode (ino : Int) (safe : Safe s) (low : 0 ≤ s.fs.ninode)
    (room : s.fs.ninode < NICINOD) : Safe (s.putInode ino) ∧ Added s (s.putInode ino) := by
  constructor
  · constructor
    · exact safe.frees
    · intro i mem
      rcases List.mem_cons.mp mem with rfl | mem
      · exact ⟨low, room⟩
      · exact safe.inodes i mem
    · simp only [World.putInode]
      omega
  · refine ⟨rfl, rfl, rfl, rfl, rfl, ?_⟩
    simp only [World.putInode]
    omega

theorem safe_scanBlock (adr ino : Int) (n : Nat) (safe : Safe s) (low : 0 ≤ s.fs.ninode)
    (room : s.fs.ninode < NICINOD) :
    Safe (scanBlock adr n ino s) ∧ Added s (scanBlock adr n ino s) := by
  induction n generalizing ino s with
  | zero => exact ⟨safe, rfl, rfl, rfl, rfl, rfl, low⟩
  | succ n ih =>
    rw [scanBlock]
    split
    · exact ih (ino + 1) safe low room
    obtain ⟨safe', added⟩ := safe_putInode ino safe low room
    dsimp only
    split
    · exact ⟨safe', added⟩
    · rename_i more
      obtain ⟨safe'', rest⟩ := ih (ino + 1) safe' added.low (by omega)
      exact ⟨safe'', rest.frees.trans added.frees, rest.scanning.trans added.scanning,
        rest.flock.trans added.flock, rest.nfree.trans added.nfree,
        rest.slipped.trans added.slipped, rest.low⟩

theorem Base.added (base : Base s T) (safe : Safe s') (added : Added s s') : Base s' T where
  safe := safe
  ninode := added.low
  listed q := by
    rw [added.scanning]
    exact base.listed q
  lock q locks := by
    rw [added.flock]
    exact base.lock q locks
  one := base.one
  empty q filing := by
    rw [added.nfree]
    exact base.empty q filing

/-- Process `p` runs, and the cache of inodes may be full. -/
def Full (p : Pid) (g : Role) (s : World) (T : Pid → Role) : Prop :=
  s.slipped = false → Base s (update T p g)

theorem Full.holds (full : Full p g s T) (room : s.fs.ninode < NICINOD) : proto.Holds p g s T :=
  fun ok => ⟨full ok, fun _ _ => room⟩

theorem locks_update {g' : Role} (free : ¬ g.locks) (free' : ¬ g'.locks) :
    ((update T p g') q).locks ↔ ((update T p g) q).locks := by
  by_cases e : q = p
  · simp [e, free, free']
  · simp [update_of_ne e]

theorem Base.relist {g' : Role} (base : Base s (update T p g)) (free : ¬ g.locks)
    (free' : ¬ g'.locks) (safe : Safe s') (ninode : s'.fs.ninode = s.fs.ninode)
    (flock : s'.fs.flock = s.fs.flock) (nfree : s'.fs.nfree = s.fs.nfree)
    (listed : ∀ q, update T p g' q = .scanning ↔ q ∈ s'.scanning) :
    Base s' (update T p g') := by
  constructor
  · exact safe
  · rw [ninode]
    exact base.ninode
  · exact listed
  · intro q locks
    rw [flock]
    exact base.lock q ((locks_update free free').mp locks)
  · intro q r first second
    exact base.one q r ((locks_update free free').mp first) ((locks_update free free').mp second)
  intro q filing
  rw [nfree]
  apply base.empty q
  have ne : q ≠ p := by
    rintro rfl
    apply free'
    rw [update_self] at filing
    simp [filing, Role.locks]
  rwa [update_of_ne ne] at filing ⊢

theorem Full.read {f : World → α} (full : Full p g s T) (next : Q (f s) s T) :
    proto.wp p (.read f) Q s T := fun ok => ⟨(full ok).safe, next⟩

theorem Safe.relist (safe : Safe s) (frees : s'.frees = s.frees) (inodes : s'.inodes = s.inodes)
    (ninode : s'.fs.ninode = s.fs.ninode) : Safe s' :=
  ⟨frees ▸ safe.frees, inodes ▸ safe.inodes, ninode ▸ safe.ninode⟩

theorem Base.enterScan (base : Base s (update T p .out)) :
    Base (s.enterScan p) (update T p .scanning) := by
  refine base.relist id id (base.safe.relist rfl rfl rfl) rfl rfl rfl fun q => ?_
  have before := base.listed q
  by_cases e : q = p
  · simp [e, World.enterScan]
  · rw [update_of_ne e] at before ⊢
    simp [World.enterScan, before, e]

theorem Base.leaveScan (base : Base s (update T p .scanning)) :
    Base (s.leaveScan p) (update T p .out) := by
  refine base.relist id id (base.safe.relist rfl rfl rfl) rfl rfl rfl fun q => ?_
  have before := base.listed q
  by_cases e : q = p
  · simp [e, World.leaveScan, World.wakeup]
  · rw [update_of_ne e] at before ⊢
    simp [World.leaveScan, World.wakeup, before, e]

theorem scan_spec (holds : proto.Holds p .out s T) (empty : s.fs.ninode ≤ 0) :
    proto.wp p scan (fun _ s' T' => Full p .out s' T') s T := by
  apply wp_bind
  apply wp_act holds
  intro base _ _
  have begun : Base (s.enterScan p) _ := base.enterScan
  have holds : proto.Holds p .scanning (s.enterScan p) T :=
    Full.holds (fun _ => begun) (Int.lt_of_le_of_lt empty (by decide))
  refine ⟨begun.safe, wp_seq (R := fun _ s T => Full p .scanning s T) ?_ ?_⟩
  · apply wp_loop (fun _ s T => proto.Holds p .scanning s T) holds
    rintro ⟨adr, ino⟩ s T holds
    apply wp_bind
    apply wp_read holds
    split
    · apply wp_seq (bread_spec holds)
      intro failed s T holds
      split
      · exact holds
      apply wp_bind
      apply wp_act holds
      intro base room _
      obtain ⟨safe, added⟩ := safe_scanBlock adr ino INOPB base.safe
        base.ninode (room p (by simp))
      have full : Full p .scanning (scanBlock adr INOPB ino s) T := fun _ => base.added safe added
      refine ⟨safe, wp_bind (full.read ?_)⟩
      split
      · exact full
      · rename_i more
        exact full.holds (by omega)
    · exact fun ok => (holds ok).1
  · intro _ s T full ok
    exact ⟨(full ok).leaveScan.safe, fun ok => (full ok).leaveScan⟩

/-- Take an i-number out of the cache; then every scan has room again. -/
theorem Full.take (full : Full p .out s T) (some : 0 < s.fs.ninode)
    (next : ∀ s', proto.Holds p .out s' T → R () s' T) :
    proto.wp p (.modify (World.onFs fun fp => { fp with ninode := fp.ninode - 1 })) R s T := by
  intro ok
  have base := full ok
  have high := base.safe.ninode
  have fewer : Base (s.onFs fun fp => { fp with ninode := fp.ninode - 1 })
      (update T p .out) := by
    apply base.onFs
    · simp only
      omega
    · simp only
      omega
    · exact base.lock
    · exact base.empty
  refine ⟨fewer.safe, next _ (Full.holds (fun _ => fewer) ?_)⟩
  show s.fs.ninode - 1 < NICINOD
  omega

theorem ialloc_spec (holds : proto.Holds p .out s T) :
    proto.wp p ialloc (fun _ s' T' => proto.Holds p .out s' T') s T := by
  apply wp_seq (getfs_spec holds)
  intro _ s T holds
  apply wp_seq (waitIlock_spec holds)
  intro _ s T holds
  -- whoever comes back from a scan may find the cache full, and takes one out
  apply wp_loop (fun _ s T => Full p .out s T) fun ok => (holds ok).1
  intro _ s T full
  apply wp_bind
  apply full.read
  split
  · rename_i some
    apply wp_bind
    apply full.take some
    intro s holds
    dsimp only
    split
    · exact fun ok => (holds ok).1
    apply wp_seq (iget_spec holds)
    intro mode s T holds
    cases mode with
    | none => exact holds
    | some mode =>
      dsimp only
      split
      · exact wp_bind (wp_fs holds (.inl rfl) rfl (.inl rfl) id)
      · apply wp_seq (await_spec holds)
        intro _ s T holds
        exact fun ok => (holds ok).1
  · rename_i none
    have room : s.fs.ninode < NICINOD := Int.lt_of_le_of_lt (Int.not_lt.mp none) (by decide)
    apply wp_seq (scan_spec (full.holds room) (Int.not_lt.mp none))
    intro _ s T full
    apply wp_bind
    apply full.read
    split
    · exact full
    · rename_i empty
      have room : s.fs.ninode < NICINOD := Int.lt_of_le_of_lt (Int.not_lt.mp empty) (by decide)
      exact wp_bind (wp_error (full.holds room) fun s' holds _ => holds)

theorem ifree_spec {ino : Int} (holds : proto.Holds p .out s T) :
    proto.wp p (ifree ino) (proto.back p) s T := by
  apply wp_seq (getfs_spec holds)
  intro _ s T holds
  apply wp_bind
  apply wp_fs holds (.inl rfl) rfl (.inl rfl)
  intro holds
  apply wp_bind
  apply wp_read holds
  generalize (s.onFs fun fp => { fp with tinode := fp.tinode + 1, fmod := 1 }) = s at holds ⊢
  split
  · exact leave holds
  split
  · exact leave holds
  apply wp_act holds
  intro base _ _
  obtain ⟨safe, added⟩ := safe_putInode ino base.safe base.ninode (by omega)
  refine ⟨{ safe with }, leave fun ok => ⟨?_, ?_⟩⟩
  · have after := base.added safe added
    exact ⟨{ safe with }, after.ninode, after.listed, after.lock, after.one, after.empty⟩
  · -- nobody scans, or the store is the one that the condition rules out
    intro q scans
    have mem := (base.listed q).mp scans
    have idle : s.scanning = [] := by simpa using (Bool.or_eq_false_iff.mp ok).2
    simp [idle] at mem

/-! ### Runs -/

theorem sound : proto.Sound volume where
  env _ _ run := Drift.env run
  trans _ _ _ first second := (Drift.env first).trans second
  intr _ _ _ _ inv taken := inv_drift inv (Drift.intr taken)
  call p k s T inv out _ := by
    have holds : proto.Holds p .out s T := holds_of_inv inv out
    cases k with
    | alloc => exact wp_seq (alloc_spec holds) fun _ s T holds => leave holds
    | free bno => exact free_spec holds
    | ialloc => exact wp_seq (ialloc_spec holds) fun _ s T holds => leave holds
    | ifree ino => exact ifree_spec holds
    | getfs => exact wp_mono (fun _ s T holds => leave holds) (getfs_spec holds)

theorem ninode_of_sbcheck {fs : Filsys} (accepted : sbcheck fs = false) :
    0 ≤ fs.ninode ∧ fs.ninode ≤ NICINOD := by
  unfold sbcheck at accepted
  split at accepted
  · cases accepted
  split at accepted
  · cases accepted
  split at accepted
  · cases accepted
  split at accepted
  · cases accepted
  · rename_i counts
    omega

theorem inv_mounted {fs : Filsys} (around : Around) (accepted : sbcheck fs = false) :
    proto.inv (mounted fs around) fun _ => .out := by
  obtain ⟨low, high⟩ := ninode_of_sbcheck accepted
  intro _
  refine ⟨⟨⟨by simp [mounted], by simp [mounted], high⟩, low, by simp [mounted], ?_, ?_, ?_⟩, ?_⟩
  all_goals simp [Role.locks, Room]

/-- No `ifree` has stored an i-number while a process was scanning the i-list. -/
def Apart (x : Config Pid World) (_ : Event Pid Call Around) : Prop := x.st.slipped = false

/-- From an accepted superblock on, every store into the two caches is in range, in every run in
which no `ifree` comes between a scan of the i-list and its end. -/
theorem safe_of_run {fs : Filsys} {around : Around} {x : Config Pid World}
    (accepted : sbcheck fs = false)
    (run : volume.Reach Apart (System.quiet (mounted fs around)) x) : Safe x.st := by
  have inv := inv_mounted around accepted
  have start : proto.Good (System.quiet (mounted fs around)) := .quiet inv fun _ => rfl
  have meets : proto.Meets Apart := by
    intro x p c apart _ _
    cases c.head <;> first | exact apart | trivial
  apply start.always sound meets _ _ (inv rfl).1.safe run
  · exact fun _ _ _ _ safe => safe
  · exact fun i s s' safe taken => safe.drift (Drift.intr taken)

/-! ### A volume of eight blocks -/

/-- A superblock with one i-number, 50, in its cache. -/
def small : Filsys where
  magic := FS_MAGIC
  bsize := BSIZEW
  inopb := INOPB
  naddr := NADDR
  isize := 8
  fsize := 100
  tfree := 0
  tinode := 0
  flock := 0
  ilock := 0
  fmod := 0
  nfree := 0
  free := fun _ => 0
  ninode := 1
  inode := fun _ => 50

/-- All inodes of the i-list are free; inode 50 was allocated after all. Blocks and inodes
can be had or not. -/
def lull (busy locked : Bool) : Around where
  word := fun _ _ => 0
  busy := fun _ => busy
  failed := fun _ => false
  incore := fun _ => false
  locked
  mode := fun ino => if ino = 50 then some 1 else some 0

/-- Process 2 takes 50 out of the cache and waits for the inode. Process 1 begins a scan and waits for
block 1. Process 2 gets the inode, finds it allocated, loops back past the test of
`s_ilock` and begins a scan too. Process 1 fills the cache, clears `s_ilock` and takes one out;
process 3 frees an inode, and the cache is full again. Process 2 goes on. -/
theorem overlapping_scans_overflow :
    ∃ x, volume.Reach (fun _ _ => True) (System.quiet (mounted small (lull true true))) x ∧
      NICINOD ∈ x.st.inodes :=
  volume.exists_of_play 400 (System.quiet (mounted small (lull true true)))
    [.call 2 .ialloc, .call 1 .ialloc, .intr (lull true false), .dispatch 2, .intr (lull false true),
      .dispatch 1, .call 3 (.ifree 200), .dispatch 2] _ (by decide +kernel)

/-- Without the `ifree` the two scans fill the cache exactly. -/
theorem safe_of_run_overlapping :
    ∃ x, volume.Reach Apart (System.quiet (mounted small (lull true true))) x ∧
      NICINOD - 1 ∈ x.st.inodes ∧ Safe x.st := by
  obtain ⟨x, run, test⟩ := volume.exists_of_playIf (fun x _ => x.st.slipped = false) 400
    (System.quiet (mounted small (lull true true)))
    [.call 2 .ialloc, .call 1 .ialloc, .intr (lull true false), .dispatch 2, .intr (lull false true),
      .dispatch 1, .dispatch 2]
    (fun x => NICINOD - 1 ∈ x.st.inodes) (by decide +kernel)
  exact ⟨x, run, test, safe_of_run (by decide) run⟩

end V7Besm.Alloc

import V7Besm.Swap.Keep

/-!
Images that move, grow, begin and end.

What a process does to the entry of the image that it moves, or to its own.
-/

namespace V7Besm.Swap

open Coop Coop.Proto Map V7Besm.Count

variable {p q t c me : Pid} {x y : Xid} {d d' : Option Xid} {g g' : Hold} {s s' : World}
  {T : Pid → Hold} {k : Proc} {l : Text} {a n os : Nat} {r : Entry} {ff counted : Bool}

attribute [local simp] Proc.coreRun Proc.swapRun Proc.expects Place.inCore

theorem wtodb_ne_zero (big : 512 ≤ n) : wtodb n ≠ 0 := by
  unfold wtodb
  omega

/-- The entry of an image that `p` writes to the blocks at `a`. -/
def Proc.outgoing (k : Proc) (p : Pid) (ff : Bool) (os a : Nat) : Proc :=
  { k with lock := true, place := if ff then .out os a else .copy a, mover := some p, counted := none }

theorem Proc.expects_outgoing : (k.outgoing p ff os a).expects = none := by
  cases ff <;> simp [Proc.outgoing]

namespace Now

theorem image_at {pl : Place} (now : Now p d g s T) (place : (s.proc q).place = pl) :
    Placed q { s.proc q with place := pl } ∧ (pl ≠ .nowhere → q ≠ 0 ∧ 512 ≤ (s.proc q).size) := by
  subst place
  exact ⟨(now.procs q).placed, (now.procs q).big⟩

/-! ### Out -/

theorem startOut (now : Now p none g s T) (big : q ≠ 0 ∧ 512 ≤ (s.proc q).size)
    (at_q : g.move = none ∧ (s.proc q).mover = none ∨ g.move = some (q, s.proc q))
    (swap : (s.proc q).swapRun = none)
    (ready : if ff then (s.proc q).coreRun = some ⟨os, (s.proc q).addr⟩ ∧ (s.proc q).stat = .live ∧
        p = (if (s.proc q).load then q else 0)
      else (s.proc q).coreRun = none ∧ (s.proc q).stat = .born ∧ (s.proc q).load = true)
    (got : (malloc s.swapmap (wtodb (s.proc q).size)).1 = a) (room : a ≠ 0) :
    s.startOut p q ff os = (a, (s.startOut p q ff os).2) ∧
    Now p (s.proc q).counted { g with move := some (q, (s.proc q).outgoing p ff os a) }
      (s.startOut p q ff os).2 T := by
  obtain ⟨mine, here⟩ : Mine p (s.proc q).mover ∧ (g.move = none ∨ ∃ k, g.move = some (q, k)) := by
    rcases at_q with ⟨still, free⟩ | moves
    · exact ⟨.inl free, .inl still⟩
    · exact ⟨.inr (now.move_mover moves), .inr ⟨_, moves⟩⟩
  subst got
  have none : s.swapRun (.proc q) = none := swap
  have taken := now.maps.swap.malloc none (wtodb_ne_zero big.2) room
  simp only [World.startOut, if_neg room]
  refine ⟨trivial, now.image_step rfl rfl rfl rfl ?_ ?_ ⟨?_, fun _ => big⟩
    (now.refs.proc_leaves rfl rfl Proc.expects_outgoing) ⟨rfl, rfl⟩ mine (.inr rfl)
    (now.tells.move.put here rfl)⟩
  · cases ff with
    | true | false => exact now.maps.core_same ready.1.symm
  · cases ff with
    | true | false => exact taken
  · cases ff with
    | true => exact ⟨congrArg some ready.2.2, ready.2.1, rfl⟩
    | false => exact ⟨rfl, ready.2.2, ready.2.1, rfl⟩

theorem finishOut (now : Now p d g s T) (ff : Bool) (os a : Nat) (moves : g.move = some (q, k))
    (place : k.place = if ff then .out os a else .copy a) (counted : k.counted = none) :
    Now p d { g with move := none } (s.finishOut q ff os a) T := by
  have eq := now.move_eq moves
  subst eq
  obtain ⟨placed, big⟩ := now.image_at place
  have stat : (s.proc q).stat = .live ∨ (s.proc q).stat = .born := by
    cases ff with
    | true => exact .inl placed.2.1
    | false => exact .inr placed.2.2.1
  have expects : (s.proc q).expects = none := by
    cases ff <;> simp [place]
  have swapRun : (s.proc q).swapRun = some ⟨wtodb (s.proc q).size, a⟩ := by
    cases ff <;> simp [place]
  refine now.end_step (k := { s.proc q with
    addr := a, load := false, lock := false, place := .disk, mover := none }) ?_ ?_ ?_ ?_ ?_ ?_
    ⟨⟨rfl, rfl, stat⟩, fun _ => big ?_⟩ (now.refs.proc_same rfl rfl ?_) ⟨rfl, rfl⟩ moves rfl
  · cases ff <;> rfl
  · cases ff <;> rfl
  · cases ff <;> rfl
  · cases ff <;> rfl
  · cases ff with
    | true =>
      have run : s.coreRun (.proc q) = some ⟨os, (s.proc q).addr⟩ := by
        simp [World.coreRun, place]
      exact now.maps.core.mfree run
    | false => exact now.maps.core_same (by simp [place])
  · cases ff with
    | true | false => exact now.maps.swap_same swapRun.symm
  · cases ff <;> exact nofun
  · rw [expects]
    rfl

/-- `sched` decides that an image goes. -/
theorem evict (now : Now 0 d g s T) (still : g.move = none) (place : (s.proc q).place = .core)
    (live : (s.proc q).stat = .live) :
    Now 0 d { g with move := some (q, { s.proc q with
      load := false, place := .leaving (s.proc q).size, mover := some 0 }) } (s.evict 0 q) T := by
  obtain ⟨placed, big⟩ := now.image_at place
  refine now.image_step rfl rfl rfl rfl (now.maps.core_same ?_) (now.maps.swap_same ?_)
    ⟨⟨rfl, live⟩, fun _ => big nofun⟩ (now.refs.proc_same rfl rfl ?_) ⟨rfl, rfl⟩
    (.inl placed.1) (.inr rfl) (now.tells.move.put (.inl still) rfl)
  · simp [place]
  · simp [place]
  · simp [place]

/-! ### In -/

theorem startIn (now : Now 0 d g s T) (still : g.move = none) (place : (s.proc q).place = .disk)
    (live : (s.proc q).stat = .live) (got : (malloc s.coremap (s.proc q).size).1 = a)
    (room : a ≠ 0) :
    s.startIn 0 q = (a, (s.startIn 0 q).2) ∧
    Now 0 d { g with move := some (q, { s.proc q with place := .inn a false, mover := some 0 }) }
      (s.startIn 0 q).2 T := by
  obtain ⟨placed, big⟩ := now.image_at place
  have pos : (s.proc q).size ≠ 0 := by
    have := (big nofun).2
    omega
  subst got
  have none : s.coreRun (.proc q) = none := by simp [World.coreRun, place]
  have taken := now.maps.core.malloc none pos room
  simp only [World.startIn, if_neg room]
  refine ⟨trivial, now.image_step rfl rfl rfl rfl taken (now.maps.swap_same ?_)
    ⟨⟨rfl, placed.2.1, live⟩, fun _ => big nofun⟩ (now.refs.proc_same rfl rfl ?_) ⟨rfl, rfl⟩
    (.inl placed.1) (.inr rfl) (now.tells.move.put (.inl still) rfl)⟩
  · simp [place]
  · simp [place]

theorem cancelIn (now : Now 0 d g s T) (moves : g.move = some (q, k))
    (place : k.place = .inn a false) : Now 0 d { g with move := none } (s.cancelIn q a) T := by
  have eq := now.move_eq moves
  subst eq
  obtain ⟨placed, big⟩ := now.image_at place
  have run : s.coreRun (.proc q) = some ⟨(s.proc q).size, a⟩ := by
    simp [World.coreRun, place]
  refine now.end_step rfl rfl rfl rfl
    (now.maps.core.mfree run) (now.maps.swap_same ?_)
    ⟨⟨rfl, placed.2.1, .inl placed.2.2⟩, fun _ => big nofun⟩ (now.refs.proc_same rfl rfl ?_)
    ⟨rfl, rfl⟩ moves rfl
  · simp [place]
  · simp [place]

/-- The image is in core, where its text already counts it. -/
theorem finishIn (now : Now 0 d g s T) (moves : g.move = some (q, k))
    (place : k.place = .inn a counted) (told : k.textp = none ∨ counted = true) :
    Now 0 d { g with move := none } (s.finishIn q a) T := by
  have eq := now.move_eq moves
  subst eq
  obtain ⟨placed, big⟩ := now.image_at place
  have run : s.swapRun (.proc q) = some ⟨wtodb (s.proc q).size, (s.proc q).addr⟩ := by
    simp [World.swapRun, place]
  refine now.end_step
    rfl rfl rfl rfl (now.maps.core_same ?_) (now.maps.swap.mfree run)
    ⟨⟨rfl, rfl, .inl (.inl placed.2.2)⟩, fun _ => big nofun⟩ (now.refs.proc_same rfl rfl ?_)
    ⟨rfl, rfl⟩ moves rfl
  · simp [place]
  · rcases told with none | rfl
    · simp [place, none]
    · simp [place]

theorem countIn (now : Now 0 none g s T) (mine : g.text = some (x, l)) (moves : g.move = some (q, k))
    (place : k.place = .inn a false) (names : k.textp = some x) (before : k.counted = none) :
    Now 0 none { g with
        text := some (x, { l with ccount := l.ccount + 1 })
        move := some (q, { k with counted := some x, place := .inn a true }) }
      (s.countIn q x a) T := by
  have eq := now.move_eq moves
  have mover := now.move_mover moves
  have eq' := now.text_eq mine
  subst eq eq'
  obtain ⟨placed, big⟩ := now.image_at place
  refine now.count_step mine
    (k := { s.proc q with counted := some x, place := .inn a true }) ?_ rfl rfl rfl rfl rfl names
    before rfl rfl rfl rfl ?_ ?_
    ⟨placed, fun _ => big nofun⟩ rfl (.inr mover)
    (now.tells.move.put (.inr ⟨_, moves⟩) mover)
  · simp [World.countIn, World.countText, World.onProc, World.setProc, World.onText, World.setText]
  · simp [place]
  · simp [place]

/-! ### The size of an image -/

section Own

variable (now : Now p d g s T) (place : (s.proc p).place = .core)

include place in
theorem core_facts (now : Now p d g s T) : (s.proc p).mover = none ∧ (s.proc p).load = true ∧
    ((s.proc p).stat.runs ∨ (s.proc p).stat = .born) ∧ p ≠ 0 ∧ 512 ≤ (s.proc p).size := by
  obtain ⟨placed, big⟩ := now.image_at place
  exact ⟨placed.1, placed.2.1, placed.2.2, big nofun⟩

omit now in
include place in
theorem core_run : s.coreRun (.proc p) = some ⟨(s.proc p).size, (s.proc p).addr⟩ := by
  simp [World.coreRun, place]

include now place

theorem core_ok (size : k.size = (s.proc p).size ∨ 512 ≤ k.size) (same : k.place = .core)
    (mover : k.mover = none) (load : k.load = true) (stat : k.stat.runs ∨ k.stat = .born) :
    ProcOk p k := by
  obtain ⟨-, -, -, user, big⟩ := now.core_facts place
  refine ⟨?_, fun _ => ⟨user, ?_⟩⟩
  · simp only [Placed, same]
    exact ⟨mover, load, stat⟩
  · omega

theorem shrink (big : 512 ≤ n) (le : n ≤ (s.proc p).size) : Now p d g (s.shrink p n) T := by
  obtain ⟨mover, load, stat, -⟩ := now.core_facts place
  have less := now.maps.core.shrink (core_run place) (by omega) le
  refine now.own_step rfl rfl rfl rfl ?_
    (now.maps.swap_same ?_) (now.core_ok place (.inr big) place mover load stat)
    (now.refs.proc_same rfl rfl rfl) rfl mover mover (now.know_same fun _ => ⟨rfl, rfl⟩)
  · simp only [Proc.coreRun, place]
    exact less
  · simp [place]

theorem grow (big : 512 ≤ n) (got : (malloc s.coremap n).1 = a) (room : a ≠ 0) :
    s.grow p p n = (a, (s.grow p p n).2) ∧ Now p d g (s.grow p p n).2 T := by
  obtain ⟨mover, load, stat, -⟩ := now.core_facts place
  subst got
  have more := now.maps.core.replace (core_run place) (by omega) room
  simp only [World.grow, if_neg room]
  refine ⟨trivial, now.own_step
    rfl rfl rfl rfl ?_ (now.maps.swap_same ?_)
    (now.core_ok place (.inr big) place mover load stat) (now.refs.proc_same rfl rfl rfl)
    rfl mover mover (now.know_same fun _ => ⟨rfl, rfl⟩)⟩
  · simp only [Proc.coreRun, place]
    exact more
  · simp [place]

theorem grow_none (still : g.move = none) (live : (s.proc p).stat = .live) (big : 512 ≤ n)
    (full : (malloc s.coremap n).1 = 0) :
    s.grow p p n = (0, (s.grow p p n).2) ∧
    Now p d { g with move := some (p, { s.proc p with
      size := n, place := .leaving (s.proc p).size, mover := some p }) } (s.grow p p n).2 T := by
  obtain ⟨mover, load, -, user, -⟩ := now.core_facts place
  simp only [World.grow, if_pos full]
  refine ⟨trivial, now.image_step rfl rfl rfl rfl (now.maps.core_same ?_)
    (now.maps.swap_same ?_) ⟨?_, fun _ => ⟨user, big⟩⟩ (now.refs.proc_same rfl rfl ?_)
    ⟨rfl, rfl⟩ (.inl mover) (.inr rfl) (now.tells.move.put (.inl still) rfl)⟩
  · simp [place]
  · simp [place]
  · simp only [Placed, load, if_true]
    exact ⟨trivial, live⟩
  · simp [place]

theorem setLock (lock : Bool) : Now p d g (s.onProc p fun k => { k with lock := lock }) T := by
  obtain ⟨mover, load, stat, -⟩ := now.core_facts place
  exact now.own_step rfl rfl rfl rfl
    (now.maps.core_same rfl) (now.maps.swap_same rfl)
    (now.core_ok place (.inl rfl) place mover load stat) (now.refs.proc_same rfl rfl rfl)
    rfl mover mover (now.know_same fun _ => ⟨rfl, rfl⟩)

theorem endProc (rv utime : Nat) (bare : (s.proc p).textp = none) :
    Now p d { g with know := none } (s.endProc p rv utime) T := by
  obtain ⟨mover, load, -, user, -⟩ := now.core_facts place
  refine now.own_step (k := { s.proc p with
    stat := .zomb, addr := rv, size := utime, place := .nowhere }) rfl rfl rfl rfl
    (now.maps.core.mfree (core_run place)) (now.maps.swap_same ?_)
    ⟨⟨mover, bare, .inr ⟨user, .inr rfl⟩⟩, fun h => absurd rfl h⟩
    (now.refs.proc_same rfl rfl ?_) rfl mover mover nofun
  · simp [place]
  · simp [bare]

end Own

end Now

end V7Besm.Swap

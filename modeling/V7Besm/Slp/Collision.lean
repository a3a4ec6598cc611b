import V7Besm.Slp.Walk

/-!
When `wakeup` does its work.

The walk of a bucket is disturbed once at most, at the first sleeper that is
not in core, and only while `runout` is set: `setrun` then wakes the scheduler
and clears `runout`. If the channel of `runout` hashes to the bucket being
walked, the process the walk goes on to, or the one it has to unlink behind,
may be on the run queue by then. `Tangled` says when that does harm, and
`wakeup_woke_iff` that `wakeup` does its work in exactly the other cases.
-/

namespace V7Besm.Slp

open Links List
open Function (update update_self update_of_ne update_idem)

variable {t : Table} {B : Fin SQSIZE → List Slot} {R pre post : List Slot} {chan ro : Nat}
  {p : Slot}

theorem Queued.clear_runout (queued : Queued t B R) : Queued { t with runout := 0 } B R :=
  { queued with }

variable {t' : Table} {R' : List Slot}

theorem Moved.of_clear_runout {W : Slot → Prop}
    (moved : Moved W { t with runout := 0 } R t' R') : Moved W t R t' R' := { moved with }

/-- `p` is the first sleeper of `chan` in its bucket that is not in core, and
`runout` is set: waking it disturbs the walk. -/
structure Disturbs (t : Table) (B : Fin SQSIZE → List Slot) (chan : Nat) (pre : List Slot)
    (p : Slot) (post : List Slot) : Prop where
  runout : t.runout ≠ 0
  bucket : B (hash chan) = pre ++ p :: post
  first : ∀ x ∈ pre, (t.proc x).wchan = chan → (t.proc x).load = true
  wchan : (t.proc p).wchan = chan
  load : (t.proc p).load = false

/-- The processes awake after the disturbance: the sleepers of `chan` as far as
`p`, and those that sleep on `runout`. -/
def WokenBy (t : Table) (ro chan : Nat) (pre : List Slot) (p x : Slot) : Prop :=
  SleepsOn t ro x ∨ x ∈ pre ++ [p] ∧ SleepsOn t chan x

section

variable (d : Disturbs t B chan pre p post) (queued : Queued t B R)
include d queued

theorem Disturbs.chan_ne_zero : chan ≠ 0 := by
  have mem : p ∈ B (hash chan) := by simp [d.bucket]
  exact d.wchan ▸ (queued.asleep _ p mem).1

theorem Disturbs.nodup : (pre ++ p :: post).Nodup := d.bucket ▸ (queued.bucket (hash chan)).nodup

/-- A sleeper ahead of the walk sleeps on. -/
theorem Disturbs.not_woken {x : Slot}
    (ne : ro ≠ chan) (mem : x ∈ post) (wchan : (t.proc x).wchan = chan) :
    ¬ WokenBy t ro chan pre p x := by
  have nodup := d.nodup queued
  rw [append_cons] at nodup
  rintro (sleeps | ⟨mem', -⟩)
  · exact ne (sleeps.1.symm.trans wchan)
  · exact (nodup_append.mp nodup).2.2 x mem' x mem rfl

end

/-- The walk up to and including the disturbance. What is left of the bucket
is behind the walk and ahead of it, without the sleepers of `runout` if they
were there; on the run queue they come before `p`. -/
theorem Disturbs.reach (ro : Nat) (d : Disturbs t B chan pre p post) (queued : Queued t B R) :
    ∃ t' B' R', Queued t' B' R' ∧ Moved (WokenBy t ro chan pre p) t R t' R' ∧ t'.runout = 0 ∧
      (hash ro ≠ hash chan → B' (hash chan) = others t chan pre ++ post) ∧
      (hash ro = hash chan → B' (hash chan) = others t ro (others t chan pre ++ post)) ∧
      (∃ front old, R' = front ++ p :: old ∧ ∀ x, SleepsOn t ro x → ro ≠ chan → x ∈ front) ∧
      ∃ N k, ∀ n, N ≤ n → wakeup ro (n + k) chan t =
        wakeLoop ro n chan (others t chan pre).getLast? post.head? t' := by
  have chanNe := d.chan_ne_zero queued
  -- Up to `p` the walk is calm.
  obtain ⟨t₁, R₁, queued₁, moved₁, runout₁, N₁, steps₁⟩ :=
    walk ro [] (p :: post) queued (by simpa using d.bucket) (.inr d.first)
  rw [nil_append] at queued₁ steps₁
  have pout : p ∉ pre := fun mem =>
    (nodup_append.mp (d.nodup queued)).2.2 p mem p mem_cons_self rfl
  have wchan₁ : (t₁.proc p).wchan = chan := (moved₁.same p fun w => pout w.1).2.trans d.wchan
  -- Then `p` is woken, and `setrun` starts a walk for `ro`.
  have queued₂ := queued₁.wake (update_self ..)
  have moved₂ := moved_wakeOne chan (others t chan pre).getLast? p t₁ R₁
  rw [update_idem] at queued₂
  have moved₁₂ := moved₁.trans moved₂
  have asleep₂ : ∀ x i, x ∈ update B (hash chan) (others t chan pre ++ post) i →
      ((wakeOne chan (others t chan pre).getLast? p t₁).proc x).wchan = (t.proc x).wchan :=
    fun x i mem => (moved₁₂.waits (queued₂.asleep i x mem).1).2
  obtain ⟨t₃, R₃, queued₃, moved₃, runout₃, N₃, ends₃⟩ :=
    wakeup_of_calm ro ro queued₂.clear_runout (.inl rfl)
  refine ⟨t₃, _, R₃, queued₃, ?_, runout₃, fun ne => ?_, fun eq => ?_, ?_, ?_⟩
  · refine (moved₁₂.trans moved₃.of_clear_runout).congr fun x =>
      moved₁₂.sleepsOn_or.trans (or_congr_right ⟨?_, ?_⟩)
    · rintro (rfl | ⟨mem, wchan⟩)
      · exact ⟨by simp, d.wchan, chanNe⟩
      · exact ⟨mem_append_left _ mem, wchan, chanNe⟩
    · rintro ⟨mem, wchan, -⟩
      exact (mem_append.mp mem).symm.imp mem_singleton.mp (⟨·, wchan⟩)
  · rw [update_of_ne ne.symm, update_self]
  · rw [← eq, update_self, eq, update_self]
    exact others_congr fun x mem => asleep₂ x (hash chan) (by rwa [update_self])
  · obtain ⟨front, rfl, mem⟩ := moved₃.new
    refine ⟨front, R₁, rfl, fun x sleeps ne => (mem x).mpr ?_⟩
    have out : ¬ (x = p ∨ x ∈ pre ∧ (t.proc x).wchan = chan) := by
      rintro (rfl | ⟨-, wchan⟩)
      · exact ne (sleeps.1.symm.trans d.wchan)
      · exact ne (sleeps.1.symm.trans wchan)
    exact ⟨(moved₁₂.same x out).2.trans sleeps.1, sleeps.2⟩
  · refine ⟨N₁ + N₃ + R₁.length + 1, pre.length + 1, fun n le => ?_⟩
    obtain ⟨m, rfl⟩ : ∃ m, n = m + 1 := ⟨n - 1, by omega⟩
    have load₁ : (t₁.proc p).load = false := (moved₁.load p).trans d.load
    have round := wakeLoop_hit ro (n := m) queued₁ (update_self ..) wchan₁ (by omega)
    rw [if_pos ⟨runout₁ ▸ d.runout, load₁⟩] at round
    have inner : wakeLoop ro m ro none
        ((wakeOne chan (others t chan pre).getLast? p t₁).slpque (hash ro))
        { wakeOne chan (others t chan pre).getLast? p t₁ with runout := 0 } = .ok t₃ :=
      ends₃ m (by omega)
    have start : wakeup ro (m + 2 + pre.length) chan t =
        wakeLoop ro (m + 2) chan (others t chan pre).getLast? (some p) t₁ := by
      unfold wakeup
      rw [(queued.bucket (hash chan)).head, d.bucket]
      exact steps₁ (m + 2) (by omega)
    rw [show m + 1 + (pre.length + 1) = m + 2 + pre.length by omega, start]
    exact round.trans (by rw [inner]; rfl)

/-! ### When the walk recovers -/

/-- The disturbance does harm: the process behind `p` has gone to the run queue
and a sleeper further on is never reached, or the next one to unlink is behind
a process that has gone to the run queue. -/
def Tangled (ro chan : Nat) (t : Table) (B : Fin SQSIZE → List Slot) : Prop :=
  ro ≠ chan ∧ ∃ pre p z rest, Disturbs t B chan pre p (z :: rest) ∧
    ((t.proc z).wchan = ro ∧ (∃ y ∈ rest, (t.proc y).wchan = chan) ∨
      (t.proc z).wchan = chan ∧ ∃ q, (others t chan pre).getLast? = some q ∧ (t.proc q).wchan = ro)

variable {q : Option Slot}

/-- With nobody left to wake the walk comes to an end on whichever queue it is. -/
theorem finishes_of_queued (queued : Queued t B R) (ne : chan ≠ 0)
    (on : ∀ z ∈ post.head?, z ∈ R ∨ ∃ i, z ∈ B i) (quiet : ∀ x, ¬ SleepsOn t chan x) :
    Finishes ro chan q post.head? t R := by
  have miss : ∀ x : Slot, (t.proc x).wchan ≠ chan := fun x wchan => quiet x ⟨wchan, ne⟩
  cases post with
  | nil => exact finishes_of_quiet (l := []) queued rfl (by simp) quiet
  | cons z rest =>
    obtain ⟨h, l, c, mem⟩ : ∃ h l, Chain t.link h l ∧ z ∈ l := by
      rcases on z rfl with mem | ⟨i, mem⟩
      · exact ⟨_, R, queued.runq, mem⟩
      · exact ⟨_, B i, queued.bucket i, mem⟩
    obtain ⟨front, back, rfl⟩ := append_of_mem mem
    exact finishes_of_quiet (l := z :: back) queued ⟨rfl, c.split⟩ (fun x _ => miss x) quiet

theorem getLast?_others {l : List Slot} (stays : ∀ q ∈ l.getLast?, (t.proc q).wchan ≠ ro) :
    (others t ro l).getLast? = l.getLast? := by
  rcases eq_nil_or_concat l with rfl | ⟨front, q, rfl⟩
  · rfl
  · have keep := stays q (by simp)
    simp [others, keep]

variable {B' : Fin SQSIZE → List Slot}

/-- Unless it is tangled, the walk recovers from the disturbance. -/
theorem Disturbs.finishes (d : Disturbs t B chan pre p post) (queued : Queued t B R)
    (fine : ¬ Tangled ro chan t B) (queued' : Queued t' B' R')
    (moved : Moved (WokenBy t ro chan pre p) t R t' R') (runout : t'.runout = 0)
    (apart : hash ro ≠ hash chan → B' (hash chan) = others t chan pre ++ post)
    (same : hash ro = hash chan → B' (hash chan) = others t ro (others t chan pre ++ post)) :
    Finishes ro chan (others t chan pre).getLast? post.head? t' R' := by
  have chanNe := d.chan_ne_zero queued
  have inB : ∀ x ∈ pre ++ p :: post, x ∈ B (hash chan) := fun x mem => d.bucket ▸ mem
  by_cases left : ∃ y ∈ post, (t.proc y).wchan = chan ∧ ro ≠ chan
  · obtain ⟨y, ymem, ychan, ne⟩ := left
    obtain ⟨z, rest, rfl⟩ := exists_cons_of_ne_nil (ne_nil_of_mem ymem)
    -- Behind the walk nobody sleeps on `chan`.
    have behind : ∀ x ∈ B' (hash chan), x ∈ others t chan pre → (t'.proc x).wchan ≠ chan := by
      intro x mem mem'
      rw [(moved.waits (queued'.asleep _ x mem).1).2]
      exact (mem_others.mp mem').2
    by_cases collide : hash ro = hash chan
    · have bucket := same collide
      have zne : (t.proc z).wchan ≠ ro := by
        intro zro
        have yrest : y ∈ rest := (mem_cons.mp ymem).resolve_left
          fun e => ne (zro.symm.trans (e ▸ ychan))
        exact fine ⟨ne, pre, p, z, rest, d, .inl ⟨zro, y, yrest, ychan⟩⟩
      rw [others_append, others_cons_of_ne zne] at bucket
      have zmem : z ∈ B' (hash chan) := by simp [bucket]
      by_cases stays : ∀ q ∈ (others t chan pre).getLast?, (t.proc q).wchan ≠ ro
      · rw [← getLast?_others stays]
        show Finishes ro chan _ (z :: others t ro rest).head? t' R'
        exact finishes_of_calm ro queued' bucket (.inl runout)
          fun x mem => behind x (by simp [bucket, mem]) (mem_others.mp mem).1
      -- The predecessor is gone, but `z` stays and becomes the new one.
      push Not at stays
      obtain ⟨q, last, qro⟩ := stays
      have zchan : (t.proc z).wchan ≠ chan := fun zchan =>
        fine ⟨ne, pre, p, z, rest, d, .inr ⟨zchan, q, last, qro⟩⟩
      have zwchan : (t'.proc z).wchan ≠ chan := by
        rwa [(moved.waits (queued'.asleep _ z zmem).1).2]
      have next : t'.link z = (others t ro rest).head? :=
        (bucket ▸ queued'.bucket (hash chan)).split.head
      rw [append_cons] at bucket
      obtain ⟨t'', B'', R'', ⟨N, ends⟩, after⟩ := finishes_of_calm ro queued' bucket
        (.inl runout) (by
          intro x mem
          rcases mem_append.mp mem with mem | mem
          · exact behind x (by simp [bucket, mem]) (mem_others.mp mem).1
          · exact mem_singleton.mp mem ▸ zwchan)
      refine ⟨t'', B'', R'', ⟨N + 1, fun n le => ?_⟩, after⟩
      obtain ⟨m, rfl⟩ : ∃ m, n = m + 1 := ⟨n - 1, by omega⟩
      have := ends m (by omega)
      rw [List.getLast?_append] at this
      show wakeLoop ro (m + 1) chan _ (some z) t' = _
      rwa [wakeLoop_miss zwchan, next]
    · exact finishes_of_calm ro queued' (apart collide) (.inl runout)
        fun x mem => behind x (by simp [apart collide, mem]) mem
  · -- Nobody is left to wake, so it does not matter where the walk is.
    refine finishes_of_queued queued' chanNe (fun z zmem => ?_) (fun x sleeps => ?_)
    · have mem : z ∈ B (hash chan) := inB z (by simp [mem_of_mem_head? zmem])
      by_cases woken : WokenBy t ro chan pre p z
      · exact .inl ((moved.mem z).mpr (.inl woken))
      · refine .inr ⟨_, queued'.all z ?_⟩
        rw [(moved.same z woken).2]
        exact (queued.asleep _ z mem).1
    · obtain ⟨out, wchan⟩ := moved.waits (sleeps.1 ▸ sleeps.2)
      have xchan : (t.proc x).wchan = chan := wchan ▸ sleeps.1
      have mem := queued.all x (xchan ▸ chanNe)
      rw [xchan, d.bucket, append_cons] at mem
      rcases mem_append.mp mem with mem | mem
      · exact out (.inr ⟨mem, xchan, chanNe⟩)
      · refine left ⟨x, mem, xchan, ?_⟩
        rintro rfl
        exact out (.inl ⟨xchan, chanNe⟩)

/-! ### When it does not -/

/-- The links of `D` stay in `D`, and the run queue starts there. -/
structure Closed (D : Slot → Prop) (t : Table) : Prop where
  link : ∀ x y, D x → t.link x = some y → D y
  runq : ∀ y, t.runq = some y → D y

theorem Closed.chain {D : Slot → Prop} {h : Option Slot} {l : List Slot} (closed : Closed D t)
    (start : ∀ y, h = some y → D y) (c : Chain t.link h l) : ∀ x ∈ l, D x := by
  induction l generalizing h with
  | nil => simp
  | cons a l ih =>
    have da := start a c.1
    intro x mem
    rcases mem_cons.mp mem with rfl | mem
    · exact da
    · exact ih (fun y => closed.link a y da) c.2 x mem

variable {n : Nat} {D : Slot → Prop}

theorem setrq_cases (done : t.setrq n p = .ok t') :
    t' = t ∨ t' = { t.setLink p t.runq with runq := some p } := by
  unfold Table.setrq at done
  cases found : t.onQueue p n t.runq with
  | error => simp [found, Except.map] at done
  | ok b =>
    simp only [found, Except.map, Except.ok.injEq] at done
    cases b with
    | true => exact .inl done.symm
    | false => exact .inr done.symm

/-- What `setrun` did, if it returned, to a process that waits for nothing. -/
theorem setrun_cases (ready : (t.proc p).wchan = 0) (runout : t.runout = 0)
    (done : setrun ro n p t = .ok t') : t'.runout = 0 ∧
      (t'.link = t.link ∧ t'.runq = t.runq ∨
        t'.link = update t.link p t.runq ∧ t'.runq = some p) := by
  have keep := link_set t p (fun r => { r with stat := .run }) fun _ => rfl
  cases n with
  | zero => simp [setrun] at done
  | succ n =>
    rw [setrun] at done
    split at done
    · cases done
    rw [if_neg (by simp [ready])] at done
    cases pushed : (t.set p fun r => { r with stat := .run }).setrq n p with
    | error => simp [pushed, Except.bind] at done
    | ok s =>
      have clear : s.runout = 0 := by
        rcases setrq_cases pushed with rfl | rfl <;> exact runout
      simp only [pushed, Except.bind, runout_preempt, clear, ne_eq, not_true_eq_false,
        false_and, if_false, Except.ok.injEq] at done
      subst done
      refine ⟨by rw [runout_preempt, clear], ?_⟩
      have link : (preempt p s).link = s.link := by
        funext x
        rw [Table.link, proc_preempt, Table.link]
      rw [link, runq_preempt]
      rcases setrq_cases pushed with rfl | rfl
      · exact .inl ⟨keep, rfl⟩
      · exact .inr ⟨(link_setLink ..).trans (by rw [keep]; rfl), rfl⟩

theorem Closed.of_setrun (closed : Closed D t) (dp : D p)
    (ready : (t.proc p).wchan = 0) (runout : t.runout = 0)
    (done : setrun ro n p t = .ok t') : Closed D t' ∧ t'.runout = 0 := by
  obtain ⟨clear, ⟨link, runq⟩ | ⟨link, runq⟩⟩ := setrun_cases ready runout done
  · exact ⟨⟨link ▸ closed.link, runq ▸ closed.runq⟩, clear⟩
  refine ⟨⟨fun x y dx next => ?_, fun y e => ?_⟩, clear⟩
  · rw [link] at next
    by_cases e : x = p
    · subst e
      rw [update_self] at next
      exact closed.runq y next
    · rw [update_of_ne e] at next
      exact closed.link x y dx next
  · rw [runq] at e
    exact Option.some.inj e ▸ dp

/-- Unlinking a member of `D` behind a member of `D`. -/
theorem Closed.of_takeOff
    (link : ∀ x y, D x → some x ≠ q → t.link x = some y → D y) (next : ∀ y, t.link p = some y → D y)
    (runq : ∀ y, t.runq = some y → D y) :
    Closed D (takeOff chan q p t) := by
  refine ⟨fun x y dx e => ?_, fun y e => runq y (runq_takeOff chan q p t ▸ e)⟩
  rw [link_takeOff] at e
  cases q with
  | none => exact link x y dx (by simp) e
  | some q =>
    by_cases eq : x = q
    · subst eq
      simp only [update_self] at e
      exact next y e
    · simp only [update_of_ne eq] at e
      exact link x y dx (by simpa using eq) e

theorem wakeLoop_cases (done : wakeLoop ro n chan q (some p) t = .ok t') : ∃ m, n = m + 1 ∧
      ((∃ s, setrun ro m p (takeOff chan q p t) = .ok s ∧
          wakeLoop ro m chan q (t.link p) s = .ok t') ∨
        ((t.proc p).wchan ≠ chan ∨ (t.proc p).stat = .zomb) ∧
          wakeLoop ro m chan (some p) (t.link p) t = .ok t') := by
  cases n with
  | zero => simp [wakeLoop] at done
  | succ n =>
    refine ⟨n, rfl, ?_⟩
    rw [wakeLoop] at done
    split at done
    · change (setrun ro n p (takeOff chan q p t)).bind (wakeLoop ro n chan q (t.link p)) = _ at done
      cases ran : setrun ro n p (takeOff chan q p t) with
      | error =>
        rw [ran] at done
        cases done
      | ok s => exact .inl ⟨s, rfl, by rw [ran] at done; exact done⟩
    · rename_i miss
      exact .inr ⟨by rw [not_and_or] at miss; simpa using miss, done⟩

/-- The round that takes `p` off, and whatever follows it. -/
theorem Closed.after_hit {s : Table} (off : Closed D (takeOff chan q p t))
    (dp : D p) (runout : t.runout = 0)
    (ran : setrun ro n p (takeOff chan q p t) = .ok s) : Closed D s ∧ s.runout = 0 :=
  off.of_setrun dp (by simp [(proc_takeOff chan q p p t).2.1]) (by rw [runout_takeOff, runout]) ran

/-- A walk that cannot be disturbed never leaves `D`. -/
theorem Closed.of_wakeLoop {h : Option Slot} (closed : Closed D t)
    (runout : t.runout = 0) (start : ∀ y, h = some y → D y)
    (done : wakeLoop ro n chan q h t = .ok t') : Closed D t' := by
  induction n generalizing t q h with
  | zero => simp [wakeLoop] at done
  | succ n ih =>
    cases h with
    | none =>
      exact Except.ok.inj done ▸ closed
    | some p =>
      have next : ∀ y, t.link p = some y → D y := fun y => closed.link p y (start p rfl)
      obtain ⟨m, e, ⟨s, ran, rest⟩ | ⟨-, rest⟩⟩ := wakeLoop_cases done
      · obtain rfl := Nat.succ.inj e
        have off : Closed D (takeOff chan q p t) :=
          .of_takeOff (fun x y dx _ => closed.link x y dx) next closed.runq
        obtain ⟨closed', runout'⟩ := off.after_hit (start p rfl) runout ran
        exact ih closed' runout' next rest
      · obtain rfl := Nat.succ.inj e
        exact ih closed runout next rest

/-- The first tangle: the walk follows the run queue to its end and misses the
sleeper further on. -/
theorem Disturbs.missed {z y : Slot} {rest : List Slot} (d : Disturbs t B chan pre p (z :: rest))
    (queued : Queued t B R) (queued' : Queued t' B' R')
    (moved : Moved (WokenBy t ro chan pre p) t R t' R') (ne : ro ≠ chan)
    (zro : (t.proc z).wchan = ro) (mem : y ∈ rest) (ychan : (t.proc y).wchan = chan) :
    Ends (fun n => wakeLoop ro n chan q (some z) t') t' ∧ (t'.proc y).wchan = chan := by
  have chanNe := d.chan_ne_zero queued
  have zmem : z ∈ B (hash chan) := by simp [d.bucket]
  have roNe : ro ≠ 0 := zro ▸ (queued.asleep _ z zmem).1
  obtain ⟨front, back, split⟩ := append_of_mem ((moved.mem z).mpr (.inl (.inl ⟨zro, roNe⟩)))
  have c : Chain t'.link (some z) (z :: back) := ⟨rfl, (split ▸ queued'.runq).split⟩
  refine ⟨⟨back.length + 2, fun n le => wakeLoop_stray c (fun x mem => ?_) le⟩, ?_⟩
  · rw [queued'.awake x (by rw [split]; exact mem_append_right _ mem)]
    exact chanNe.symm
  · have out := d.not_woken queued ne (mem_cons_of_mem _ mem) ychan
    exact (moved.same y out).2.trans ychan

/-- The second tangle: the walk unlinks the next sleeper behind a process of
the run queue, and cuts `p` off. -/
theorem Disturbs.cut {t'' : Table} {z q : Slot} {rest : List Slot}
    (d : Disturbs t B chan pre p (z :: rest)) (queued : Queued t B R) (queued' : Queued t' B' R')
    (moved : Moved (WokenBy t ro chan pre p) t R t' R') (runout : t'.runout = 0) (ne : ro ≠ chan)
    (zchan : (t.proc z).wchan = chan) (order : ∃ front old, R' = front ++ p :: old ∧ q ∈ front)
    (done : wakeLoop ro n chan (some q) (some z) t' = .ok t'') :
    ∃ D : Slot → Prop, Closed D t'' ∧ ¬ D p := by
  have chanNe := d.chan_ne_zero queued
  have zout := d.not_woken queued ne mem_cons_self zchan
  have zwchan : (t'.proc z).wchan = chan := (moved.same z zout).2.trans zchan
  have zmem := queued'.all z (zwchan ▸ chanNe)
  rw [zwchan] at zmem
  obtain ⟨behind, ahead, bucket⟩ := append_of_mem zmem
  obtain ⟨front, old, rfl, qmem⟩ := order
  obtain ⟨newer, older, rfl⟩ := append_of_mem qmem
  have runq := queued'.runq
  rw [append_assoc, cons_append] at runq
  have ahead' := bucket ▸ queued'.bucket (hash chan)
  have next : ∀ y, t'.link z = some y → y ∈ z :: ahead := fun y e =>
    mem_cons_of_mem _ (mem_of_mem_head? (ahead'.split.head ▸ e))
  -- The part of the run queue up to `q`, and the bucket from `z` on.
  refine ⟨fun x => x ∈ newer ++ [q] ∨ x ∈ z :: ahead, ?_, ?_⟩
  · obtain ⟨m, rfl, ⟨s, ran, rest⟩ | ⟨miss, -⟩⟩ := wakeLoop_cases done
    · have off : Closed (fun x => x ∈ newer ++ [q] ∨ x ∈ z :: ahead)
          (takeOff chan (some q) z t') := by
        refine .of_takeOff (fun x y dx ne e => ?_) (fun y e => .inr (next y e)) (fun y e => .inl ?_)
        · rcases dx with mem | mem
          · have mem : x ∈ newer := by
              rcases mem_append.mp mem with mem | mem
              · exact mem
              · exact absurd (congrArg some (mem_singleton.mp mem)) ne
            rcases runq.next_mem mem e with mem | mem
            · exact .inl (mem_append_left _ mem)
            · exact .inl (by simp_all)
          · have c : Chain t'.link (some z) ((z :: ahead) ++ []) := by
              rw [append_nil]
              exact ⟨rfl, ahead'.split⟩
            exact .inr ((c.next_mem mem e).resolve_right (by simp))
        · rw [runq.head] at e
          cases newer with
          | nil => simp_all
          | cons a newer => simp_all
      obtain ⟨closed, runout'⟩ := off.after_hit (Or.inr mem_cons_self) runout ran
      exact closed.of_wakeLoop runout' (fun y e => .inr (next y e)) rest
    · exact absurd zwchan (miss.resolve_right (queued'.asleep _ z zmem).2.2.2)
  · have pmem : p ∈ newer ++ q :: older ++ p :: old := by simp
    rintro (mem | mem)
    · have nodup' := queued'.runq.nodup
      refine (nodup_append.mp nodup').2.2 p ?_ p mem_cons_self rfl
      rcases mem_append.mp mem with mem | mem <;> simp_all
    · have inB : p ∈ B' (hash chan) := by rw [bucket]; exact mem_append_right _ mem
      exact (queued'.asleep _ p inB).1 (queued'.awake p pmem)

/-! ### Every case -/

/-- A return with exactly the processes to wake moved is what is asked. -/
theorem woke_of_moved {W : Slot → Prop} (queued : Queued t B R) (queued' : Queued t' B' R')
    (moved : Moved W t R t' R') (iff : ∀ x, W x ↔ ToWake ro chan t x) : Woke ro chan t B R t' := by
  obtain rfl : W = ToWake ro chan t := funext fun x => propext (iff x)
  refine ⟨moved.run, moved.same, B', R', queued', ?_, ?_, ?_⟩
  · exact fun p w => (moved.mem p).mpr (.inl w)
  · exact fun p mem => (moved.mem p).mpr (.inr mem)
  · intro i p mem out
    obtain ⟨asleep, bucket, -⟩ := queued.asleep i p mem
    have same := (moved.same p out).2
    rw [← bucket, ← same]
    exact queued'.all p (same ▸ asleep)

/-- Either the walk cannot be disturbed or there is a first process that
disturbs it. -/
theorem calm_or_disturbs (t : Table) (B : Fin SQSIZE → List Slot) (chan : Nat) :
    (t.runout = 0 ∨ ∀ x ∈ B (hash chan), (t.proc x).wchan = chan → (t.proc x).load = true) ∨
      ∃ pre p post, Disturbs t B chan pre p post := by
  by_cases runout : t.runout = 0
  · exact .inl (.inl runout)
  cases found : (B (hash chan)).find? fun x =>
      decide ((t.proc x).wchan = chan ∧ (t.proc x).load = false) with
  | none =>
    refine .inl (.inr fun x mem wchan => ?_)
    have := List.find?_eq_none.mp found x mem
    simpa [wchan] using this
  | some p =>
    obtain ⟨hit, pre, post, split, before⟩ := List.find?_eq_some_iff_append.mp found
    simp only [decide_eq_true_eq] at hit
    refine .inr ⟨pre, p, post, runout, split, fun x mem wchan => ?_, hit.1, hit.2⟩
    simpa [wchan] using before x mem

/-- A tangled walk does not do its work. -/
theorem not_woke_of_tangled (queued : Queued t B R) (tangled : Tangled ro chan t B) :
    ¬ ∃ t', Ends (fun n => wakeup ro n chan t) t' ∧ Woke ro chan t B R t' := by
  rintro ⟨t'', ends, woke⟩
  obtain ⟨ne, pre, p, z, rest, d, tangle⟩ := tangled
  have chanNe := d.chan_ne_zero queued
  obtain ⟨t', B', R', queued', moved, runout, -, -, ⟨front, old, order, early⟩, N, k, steps⟩ :=
    d.reach ro queued
  have ends' : Ends (fun n => wakeLoop ro n chan (others t chan pre).getLast? (some z) t') t'' := by
    obtain ⟨N', ends⟩ := ends
    refine ⟨max N N', fun n le => ?_⟩
    exact (steps n (by omega)).symm.trans (ends (n + k) (by omega))
  rcases tangle with ⟨zro, y, ymem, ychan⟩ | ⟨zchan, q, last, qro⟩
  · obtain ⟨stray, ywchan⟩ := d.missed queued queued' moved ne zro ymem ychan
    obtain rfl := ends'.unique stray
    exact chanNe (ywchan.symm.trans (woke.run y (.inl ⟨ychan, chanNe⟩)).2)
  have qmem : q ∈ B (hash chan) := by
    have := (mem_others.mp (mem_of_getLast? last)).1
    simp [d.bucket, this]
  have qsleeps : SleepsOn t ro q := ⟨qro, qro ▸ (queued.asleep _ q qmem).1⟩
  obtain ⟨N', ends'⟩ := ends'
  have done := ends' N' (Nat.le_refl _)
  simp only [last] at done
  obtain ⟨D, closed, pout⟩ := d.cut queued queued' moved runout ne zchan
    ⟨front, old, order, early q qsleeps ne⟩ done
  obtain ⟨B'', R'', queued'', run, -⟩ := woke.queued
  exact pout (closed.chain closed.runq queued''.runq p (run p (.inl ⟨d.wchan, chanNe⟩)))

theorem woke_of_not_tangled (queued : Queued t B R) (fine : ¬ Tangled ro chan t B) :
    ∃ t', Ends (fun n => wakeup ro n chan t) t' ∧ Woke ro chan t B R t' := by
  rcases calm_or_disturbs t B chan with calm | ⟨pre, p, post, d⟩
  · obtain ⟨t', R', queued', moved, -, ends⟩ := wakeup_of_calm ro chan queued calm
    refine ⟨t', ends, woke_of_moved queued queued' moved fun x => ?_⟩
    refine ⟨.inl, fun w => w.resolve_right ?_⟩
    rintro ⟨-, set, y, ⟨ychan, ne⟩, out⟩
    have := (calm.resolve_left set) y (ychan ▸ queued.all y (ychan ▸ ne)) ychan
    simp [this] at out
  · have chanNe := d.chan_ne_zero queued
    obtain ⟨t', B', R', queued', moved, runout, apart, same, -, N, k, steps⟩ := d.reach ro queued
    obtain ⟨t'', B'', R'', ⟨N', ends⟩, queued'', moved'⟩ :=
      d.finishes queued fine queued' moved runout apart same
    refine ⟨t'', ⟨max N N' + k, fun n le => ?_⟩,
      woke_of_moved queued queued'' (moved.trans moved') fun x => ?_⟩
    · obtain ⟨m, rfl⟩ : ∃ m, n = m + k := ⟨n - k, by omega⟩
      exact (steps m (by omega)).trans (ends m (by omega))
    refine moved.sleepsOn_or.trans ⟨?_, Or.imp_right fun runs => .inl runs.1⟩
    rintro (sleeps | sleeps | ⟨-, sleeps⟩)
    · exact .inl sleeps
    · exact .inr ⟨sleeps, d.runout, p, ⟨d.wchan, chanNe⟩, d.load⟩
    · exact .inl sleeps

/-- `wakeup` wakes exactly its channel, and the scheduler if it has to, unless
the walk gets tangled. -/
theorem wakeup_woke_iff (queued : Queued t B R) :
    (∃ t', Ends (fun n => wakeup ro n chan t) t' ∧ Woke ro chan t B R t') ↔ ¬ Tangled ro chan t B :=
  ⟨fun woke tangled => not_woke_of_tangled queued tangled woke, woke_of_not_tangled queued⟩

/-! ### A collision -/

/-- Process 1, which is swapped out, and process 2 sleep on 33; process 0
sleeps on `runout`, whose address 32 is in the same bucket, between the two. -/
def collided : Table where
  proc p :=
    if p = 0 then ⟨.sleep, 32, true, 0, some 2⟩
    else if p = 1 then ⟨.sleep, 33, false, 0, some 0⟩
    else if p = 2 then ⟨.sleep, 33, true, 0, none⟩
    else ⟨.free, 0, false, 0, none⟩
  slpque i := if i = 1 then some 1 else none
  runq := none
  runout := 1
  runrun := 0
  curpri := 0

def collidedBuckets (i : Fin SQSIZE) : List Slot := if i = 1 then [1, 0, 2] else []

theorem collided_queued : Queued collided collidedBuckets [] where
  bucket i := by
    by_cases e : i = 1
    · subst e
      exact ⟨rfl, rfl, rfl, rfl⟩
    · simp [collided, collidedBuckets, e, Links.Chain]
  runq := rfl
  asleep i p mem := by
    by_cases e : i = 1
    · subst e
      have : p = 1 ∨ p = 0 ∨ p = 2 := by simpa [collidedBuckets] using mem
      rcases this with rfl | rfl | rfl <;> decide
    · simp [collidedBuckets, e] at mem
  awake := by simp
  all p asleep := by
    by_cases small : p = 0 ∨ p = 1 ∨ p = 2
    · rcases small with rfl | rfl | rfl <;> decide
    · rw [not_or, not_or] at small
      simp [collided, small] at asleep

theorem collided_tangled : Tangled 32 33 collided collidedBuckets :=
  ⟨by decide, [], 1, 0, [2], ⟨by decide, rfl, by simp, rfl, rfl⟩, .inl ⟨rfl, 2, by simp, rfl⟩⟩

/-- The call returns and process 2 sleeps on. -/
theorem collided_sleeps_on :
    Queued collided collidedBuckets [] ∧ SleepsOn collided 33 2 ∧
      ((wakeup 32 8 33 collided).map fun t => ((t.proc 2).stat, (t.proc 2).wchan)) =
        .ok (.sleep, 33) ∧
      ¬ ∃ t', Ends (fun n => wakeup 32 n 33 collided) t' ∧
        Woke 32 33 collided collidedBuckets [] t' :=
  ⟨collided_queued, by decide, by decide, not_woke_of_tangled collided_queued collided_tangled⟩

/-- With `runout` clear the same queues are no trouble. -/
theorem wakeup_woke_collided_clear :
    ∃ t', Ends (fun n => wakeup 32 n 33 { collided with runout := 0 }) t' ∧
      Woke 32 33 { collided with runout := 0 } collidedBuckets [] t' :=
  (wakeup_woke_iff collided_queued.clear_runout).mpr
    fun ⟨_, _, _, _, _, d, _⟩ => d.runout rfl

end V7Besm.Slp

import V7Besm.Swap.Calls

/-!
Whole runs of the machine: every call keeps the invariant, so it holds whenever nobody runs.
-/

namespace V7Besm.Swap

open Coop Coop.Proto Map V7Besm.Count

variable {p q : Pid} {x : Xid} {g : Hold} {s s' : World} {T : Pid → Hold} {k : Call}

/-! ### The calls -/

theorem back_of_now (now : Now p none g s T) (idle : { g with know := none } = ({} : Hold)) :
    proto.back p () s T := by
  have forgot := now.forget
  rw [idle] at forgot
  exact ⟨{}, holds_of_now forgot ⟨nofun, nofun⟩, rfl⟩

theorem pages_big (image : Nat) : 512 ≤ pages image := by
  unfold pages USIZE
  omega

theorem system_spec (system : k.system = true) (now : Now 0 none {} s T)
    (live : (s.proc 0).stat = .live) : proto.wp 0 k.code (proto.back 0) s T := by
  apply wp_bind
  apply wp_step now
  cases k with
  | newproc =>
    refine wp_mono ?_ (newproc_spec now live now.on_system)
    rintro _ s T ⟨know, now⟩
    exact back_of_now now rfl
  | swapin q =>
    apply wp_bind
    apply wp_read now
    split
    · rename_i wants
      apply wp_seq (swapin_spec now wants)
      intro _ s T now
      exact back_of_now now rfl
    · exact back_of_now now rfl
  | swapout q => exact wp_mono (fun _ _ _ now => back_of_now now rfl) (swapout_spec now)
  | _ => cases system

theorem user_spec (user : p ≠ 0) (system : k.system = false) (now : Now p none {} s T)
    (live : (s.proc p).stat = .live) (on : On p s) : proto.wp p k.code (proto.back p) s T := by
  have known := now.learn (.inl live)
  rw [live] at known
  have u : User p { know := some (.live, (s.proc p).textp) } (s.proc p).textp := ⟨user, rfl, rfl⟩
  have calm : Calm {} := ⟨nofun, nofun⟩
  apply wp_bind
  apply wp_step now
  cases k with
  | fork =>
    refine wp_mono ?_ (fork_spec now live on)
    rintro _ s T ⟨know, now⟩
    exact back_of_now now rfl
  | exec ip text image bad =>
    refine wp_mono ?_ (exece_spec u known rfl rfl (pages_big image) (by unfold PGSZ; omega))
    rintro _ s T ⟨tp, now⟩
    exact back_of_now now rfl
  | exit rv utime =>
    exact wp_mono (fun _ _ _ now => back_of_now now rfl) (exit_spec u known rfl)
  | wait c =>
    have buried := now.bury live (c := c)
    exact wp_modify buried (back_of_now buried rfl)
  | expand image =>
    refine wp_mono ?_ (expand_spec u known rfl on (pages_big image))
    rintro _ s T ⟨now, -⟩
    exact back_of_now now rfl
  | xrele ip =>
    refine wp_mono ?_ (xrele_spec now rfl calm on)
    rintro _ s T ⟨now, -⟩
    exact back_of_now now rfl
  | xumount dev =>
    refine wp_mono ?_ (sweep_spec _ now rfl calm on)
    rintro _ s T ⟨now, -⟩
    exact back_of_now now rfl
  | chmod ip sticky =>
    exact wp_mono (fun _ _ _ now => back_of_now now rfl) (chmod_spec now rfl calm on)
  | _ => cases system

theorem call_spec (inv : proto.inv s T) (idle : T p = {}) (entry : machine.entry p s k = true) :
    proto.wp p k.code (proto.back p) s T := by
  obtain ⟨⟨⟨live, on⟩, -⟩, who⟩ : (((s.proc p).stat = .live ∧ (s.proc p).load = true) ∧ _) ∧
      k.system = (p == 0) := by
    simpa [machine] using entry
  apply wp_ok
  intro ok
  have now := now_of_inv inv idle ok
  by_cases e : p = 0
  · subst e
    exact system_spec who now live
  · exact user_spec e (by rw [who]; simpa using e) now live on

/-! ### The invariant of the runs -/

theorem done_eq (taken : done p s = some s') : ∃ w, s' = { s with wchan := w } := by
  unfold done at taken
  split at taken
  · cases taken
    exact ⟨_, rfl⟩
  · cases taken

theorem env_of_done (taken : machine.Env s s') : proto.env s s' := by
  induction taken with
  | refl => exact .inl rfl
  | tail _ step ih =>
    obtain ⟨p, step⟩ := step
    obtain ⟨w, rfl⟩ := done_eq step
    rcases ih with rfl | ⟨w', rfl⟩
    · exact .inr ⟨w, rfl⟩
    · exact .inr ⟨w, rfl⟩

theorem inv_wchan {w : Pid → Option Chan} (inv : proto.inv s T) :
    proto.inv { s with wchan := w } T := by
  intro ok
  have now : Now 0 none (T 0) s T := now_of_inv inv rfl ok
  have same : Now 0 none (T 0) { s with wchan := w } T := now.of_eq rfl rfl rfl rfl rfl rfl
  refine ⟨?_, (inv ok).2⟩
  have base := same.base
  rwa [Function.update_eq_self] at base

theorem sound : proto.Sound machine where
  env _ _ := env_of_done
  trans s₁ s₂ s₃ first second := by
    rcases env_of_done first with rfl | ⟨w, rfl⟩
    · exact second
    · rcases second with rfl | ⟨w', rfl⟩
      · exact .inr ⟨w, rfl⟩
      · exact .inr ⟨w', rfl⟩
  intr p s s' T inv taken := by
    obtain ⟨w, rfl⟩ := done_eq taken
    exact inv_wchan inv
  call p k s T inv idle entry := call_spec inv idle entry

/-- Nothing goes on with an entry that has been given up, and the maps stay within their
arrays. -/
def InOrder (c : Config Pid World) (_ : Event Pid Call Pid) : Prop :=
  c.st.slipped = false ∧ (live c.st.coremap).length < CMAPSIZ ∧ (live c.st.swapmap).length < SMAPSIZ

instance (c : Config Pid World) (e : Event Pid Call Pid) : Decidable (InOrder c e) :=
  inferInstanceAs (Decidable (_ ∧ _))

theorem meets : proto.Meets InOrder := by
  intro c p code order _ _
  cases code.head <;> first | exact order.1 | trivial

variable {dev : Ino → Dev} {sticky : Ino → Bool}

theorem booted_maps : Maps (booted dev sticky) := by
  refine ⟨?_, ?_⟩
  · show Shared coreBase coreSize corePool.map (booted dev sticky).coreRun
    apply Shared.start (by decide) (by decide) (by decide)
    intro o
    cases o <;> rfl
  · show Shared swapBase nswap swapPool.map (booted dev sticky).swapRun
    apply Shared.start (by decide) (by decide) (by decide)
    intro o
    cases o <;> rfl

theorem booted_refs : Refs none (booted dev sticky) := by
  refine ⟨⟨nofun, ?_⟩, ⟨nofun, ?_⟩, fun q => .inl rfl⟩
  · intro x there
    exact absurd rfl there
  · intro x there
    exact absurd rfl there

theorem booted_proc (q : Pid) : ProcOk q ((booted dev sticky).proc q) := by
  refine ⟨?_, fun somewhere => absurd rfl somewhere⟩
  by_cases e : q = 0
  · subst e
    exact ⟨rfl, rfl, .inl ⟨rfl, rfl, .inl rfl, (by decide : 512 ≤ USIZE)⟩⟩
  · refine ⟨rfl, rfl, .inr ⟨e, .inl ?_⟩⟩
    simp [booted, e]

theorem booted_tells (t : Pid) : Tells t {} (booted dev sticky) := by
  refine ⟨?_, ?_, nofun, rfl⟩
  · intro x k
    refine ⟨nofun, ?_⟩
    rintro ⟨rfl, owner⟩
    cases owner
  · intro q k
    refine ⟨nofun, ?_⟩
    rintro ⟨rfl, mover⟩
    cases mover

theorem booted_inv : proto.inv (booted dev sticky) fun _ => {} := by
  intro _
  refine ⟨⟨booted_maps, booted_proc, ?_, booted_refs, booted_tells, rfl⟩, fun t => ⟨nofun, nofun⟩⟩
  intro x
  exact ⟨fun _ => ⟨rfl, rfl⟩, fun there => absurd rfl there, by simp [booted],
    fun there => absurd rfl there⟩

theorem base_of_reach {c : Config Pid World}
    (run : machine.Reach InOrder (System.quiet (booted dev sticky)) c) (free : c.cpu = none)
    (order : c.st.slipped = false) : ∃ T, Base none c.st T ∧ ∀ t, Calm (T t) := by
  have good := (Good.quiet booted_inv fun _ => rfl).reach sound meets run
  obtain ⟨T, inv, -⟩ := good.inv free
  exact ⟨T, inv order⟩

/-! ### Core and blocks -/

/-- Nobody sleeps between marking an image for a move and taking what the move needs. -/
theorem place_of_calm (base : Base none s T) (calm : ∀ t, Calm (T t)) (q : Pid) :
    (s.proc q).place ≠ .shared ∧ ∀ n, (s.proc q).place ≠ .leaving n := by
  cases moves : (s.proc q).mover with
  | none =>
    have placed := (base.procs q).placed
    unfold Placed at placed
    constructor
    · intro place
      simp [place, moves] at placed
    · intro n place
      simp [place, moves] at placed
  | some t =>
    have mine := ((base.own t).move q _).mpr ⟨rfl, moves⟩
    exact (calm t).move q _ mine

/-- Core isolation, and the same for the blocks. Whenever nobody runs, every unit of a pool is
free or in the run of one owner, and `ProcOk` and `TextOk` say which flags go with which run. -/
theorem isolation_of_run (c : Config Pid World)
    (run : machine.Reach InOrder (System.quiet (booted dev sticky)) c) (free : c.cpu = none)
    (order : c.st.slipped = false) :
    Shared coreBase coreSize c.st.coremap c.st.coreRun ∧
    Shared swapBase nswap c.st.swapmap c.st.swapRun ∧
    (∀ q, ProcOk q (c.st.proc q) ∧
      (c.st.proc q).place ≠ .shared ∧ ∀ n, (c.st.proc q).place ≠ .leaving n) ∧
    ∀ x, TextOk (c.st.text x) := by
  obtain ⟨T, base, calm⟩ := base_of_reach run free order
  refine ⟨base.maps.core, base.maps.swap, ?_, base.texts⟩
  intro q
  exact ⟨base.procs q, place_of_calm base calm q⟩

/-- `p` gets what it waits for, `n` times over. -/
def resume (p : Pid) (n : Nat) : List (Event Pid Call Pid) :=
  (List.replicate n [.intr p, .dispatch p]).flatten

/-- No text is sticky. -/
def fresh : Config Pid World := System.quiet (booted (fun _ => 0) fun _ => false)

/-- While `sched` writes an image out, its core is not free and `SLOAD` is off already; and
what `exit` lays over the entry of a process that still has `SLOAD` can look like the
image of another. -/
theorem loaded_not_isolated :
    (∃ c, machine.Reach (fun _ _ => True) fresh c ∧ c.cpu = none ∧
      Entry.Has ⟨coreSize, coreBase⟩ coreBase ∧ ¬ Free c.st.coremap coreBase ∧
      (∀ q < Slp.NPROC, (c.st.proc q).load = true →
        ¬ Entry.Has ⟨(c.st.proc q).size, (c.st.proc q).addr⟩ coreBase) ∧
      ∀ x < NTEXT, 0 < (c.st.text x).ccount →
        ¬ Entry.Has ⟨(c.st.text x).size, (c.st.text x).caddr⟩ coreBase) ∧
    ∃ c, machine.Reach (fun _ _ => True) fresh c ∧ c.cpu = none ∧
      (c.st.proc 1).load = true ∧ (c.st.proc 2).load = true ∧
      Entry.Has ⟨(c.st.proc 1).size, (c.st.proc 1).addr⟩ (c.st.proc 2).addr ∧
      Entry.Has ⟨(c.st.proc 2).size, (c.st.proc 2).addr⟩ (c.st.proc 2).addr := by
  constructor
  · exact machine.exists_of_play 60 fresh [.call 0 .newproc, .call 0 (.swapout 1)] _
      (by decide +kernel)
  · exact machine.exists_of_play 60 fresh
      ([.call 0 .newproc, .call 1 .fork, .call 1 (.exit (0x88 * 256) 1)] ++ resume 1 2) _
      (by decide +kernel)

/-- Two processes run one text, and one of them has been swapped out and in again. -/
def sharing : List (Event Pid Call Pid) :=
  [.call 0 .newproc, .call 1 (.exec 7 2 3 false)] ++ resume 1 5 ++
    [.call 1 .fork, .call 0 (.swapout 2)] ++ resume 0 1 ++ [.call 0 (.swapin 2)] ++ resume 0 1

theorem isolation_of_run_sharing :
    ∃ c, machine.Reach InOrder fresh c ∧ c.cpu = none ∧ c.st.slipped = false ∧
      (c.st.proc 1).place = .core ∧ (c.st.proc 2).place = .core ∧ (c.st.text 0).held = true ∧
      Shared coreBase coreSize c.st.coremap c.st.coreRun ∧
      Shared swapBase nswap c.st.swapmap c.st.swapRun := by
  obtain ⟨c, run, free, order, first, second, held⟩ := machine.exists_of_playIf InOrder 60 fresh sharing
    (fun c => c.cpu = none ∧ c.st.slipped = false ∧ (c.st.proc 1).place = .core ∧
      (c.st.proc 2).place = .core ∧ (c.st.text 0).held = true) (by decide +kernel)
  have shared := isolation_of_run c run free order
  exact ⟨c, run, free, order, first, second, held, shared.1, shared.2.1⟩

/-! ### The counts of a text -/

/-- `q` is in core, and its image is not being written out; or its image is being read in,
and its text is there already. -/
def World.resident (s : World) (q : Pid) : Prop :=
  (s.proc q).load = true ∧ (∀ os a, (s.proc q).place ≠ .out os a) ∧
      (∀ a, (s.proc q).place ≠ .copy a) ∨ ∃ a, (s.proc q).place = .inn a true

theorem resident_iff (base : Base none s T) (calm : ∀ t, Calm (T t))
    (names : (s.proc q).textp = some x) :
    s.resident q ↔ (s.proc q).place.inCore = true := by
  have settled := place_of_calm base calm q
  have placed := (base.procs q).placed
  unfold Placed at placed
  unfold World.resident
  cases place : (s.proc q).place with
  | nowhere => simp [place, names] at placed
  | leaving n => exact absurd place (settled.2 n)
  | shared => exact absurd place settled.1
  | inn a told => cases told <;> simp_all [Place.inCore]
  | _ => simp_all [Place.inCore]

/-- A text that nobody has locked counts every process it should. -/
theorem counted_iff (base : Base none s T) (calm : ∀ t, Calm (T t))
    (unlocked : (s.text x).lock = false) :
    (s.proc q).textp = some x ∧ s.resident q ↔ (s.proc q).counted = some x := by
  constructor
  · rintro ⟨names, resident⟩
    have inCore := (resident_iff base calm names).mp resident
    rcases base.refs.linked q with same | ⟨-, y, names', owner⟩
    · simpa [Proc.expects, inCore, names] using same
    · rw [names] at names'
      cases names'
      have locked := (base.texts x).lock.mpr (by rw [owner]; exact nofun)
      rw [unlocked] at locked
      cases locked
  · intro told
    rcases base.refs.linked q with same | ⟨free, -⟩
    · rw [told] at same
      unfold Proc.expects at same
      split at same
      · rename_i inCore
        exact ⟨same.symm, (resident_iff base calm same.symm).mpr inCore⟩
      · cases same
    · rw [told] at free
      cases free

/-- Every run that keeps to the order stays clear of a fault, and whenever nobody is in the
kernel the two counts of an unlocked text are those of the processes that name it. -/
theorem accounting_of_run (c : Config Pid World)
    (run : machine.Reach InOrder (System.quiet (booted dev sticky)) c) :
    c.st.foul = false ∧
    (c.cpu = none → c.st.slipped = false → ∀ x, (c.st.text x).iptr ≠ none →
      (c.st.text x).lock = false →
        Numbers (fun q => (c.st.proc q).textp = some x) (c.st.text x).count ∧
        Numbers (fun q => (c.st.proc q).textp = some x ∧ c.st.resident q) (c.st.text x).ccount ∧
        ((c.st.text x).held = true ↔ 0 < (c.st.text x).ccount)) := by
  constructor
  · refine Good.always sound meets (Good.quiet booted_inv fun _ => rfl) (A := fun s => s.foul = false)
      ?_ ?_ rfl run
    · intro p s s' _ fair
      exact fair
    · intro p s s' fair taken
      obtain ⟨w, rfl⟩ := done_eq taken
      exact fair
  · intro free order x there unlocked
    obtain ⟨T, base, calm⟩ := base_of_reach run free order
    have names := base.refs.names.numbers x there
    have cores := base.refs.cores.numbers x there
    rw [hit_none, sub_zero] at cores
    refine ⟨names, ?_, (base.texts x).held there unlocked⟩
    exact cores.congr fun q => counted_iff base calm unlocked

/-- While `sched` reads an image in, its text counts a process without `SLOAD`. And a process
that waits in `xalloc` for a text goes on with it when the last one that used it has exited:
then the next program gets the same entry, with a count of 1 for two processes. -/
theorem counts_not_loaded :
    (∃ c, machine.Reach (fun _ _ => True) fresh c ∧ c.cpu = none ∧
      (c.st.text 0).iptr ≠ none ∧ (c.st.text 0).lock = false ∧ (c.st.text 0).ccount = 1 ∧
      ∀ q < Slp.NPROC, (c.st.proc q).textp = some 0 → (c.st.proc q).load = false) ∧
    ∃ c, machine.Reach (fun _ _ => True) fresh c ∧ c.cpu = none ∧
      (c.st.text 0).iptr ≠ none ∧ (c.st.text 0).lock = false ∧ (c.st.text 0).count = 1 ∧
      (c.st.proc 2).textp = some 0 ∧ (c.st.proc 3).textp = some 0 := by
  constructor
  · exact machine.exists_of_play 60 fresh
      ([.call 0 .newproc, .call 1 (.exec 7 2 3 false)] ++ resume 1 5 ++ [.call 0 (.swapout 1)] ++
        resume 0 2 ++ [.call 0 (.swapin 1)] ++ resume 0 1) _ (by decide +kernel)
  · exact machine.exists_of_play 60 fresh
      ([.call 0 .newproc, .call 1 .fork, .call 1 .fork, .call 1 (.exec 7 2 3 false)] ++ resume 1 5 ++
        [.call 0 (.swapout 1)] ++ resume 0 2 ++
        [.call 0 (.swapin 1), .call 2 (.exec 7 2 3 false)] ++ resume 2 1 ++ resume 0 2 ++
        [.call 1 (.exit 0 0)] ++ resume 1 3 ++ [.dispatch 2, .call 3 (.exec 8 2 3 false)] ++ resume 3 4)
      _ (by decide +kernel)

theorem accounting_of_run_sharing :
    ∃ c, machine.Reach InOrder fresh c ∧ (c.st.text 0).count = 2 ∧ (c.st.text 0).ccount = 2 ∧
      c.st.foul = false ∧ Numbers (fun q => (c.st.proc q).textp = some 0) 2 ∧
      Numbers (fun q => (c.st.proc q).textp = some 0 ∧ c.st.resident q) 2 := by
  obtain ⟨c, run, free, order, there, unlocked, count, ccount⟩ :=
    machine.exists_of_playIf InOrder 60 fresh sharing (fun c => c.cpu = none ∧ c.st.slipped = false ∧
      (c.st.text 0).iptr ≠ none ∧ (c.st.text 0).lock = false ∧ (c.st.text 0).count = 2 ∧
      (c.st.text 0).ccount = 2) (by decide +kernel)
  obtain ⟨fair, counts⟩ := accounting_of_run c run
  obtain ⟨names, cores, -⟩ := counts free order 0 there unlocked
  rw [count] at names
  rw [ccount] at cores
  exact ⟨c, run, count, ccount, fair, names, cores⟩

end V7Besm.Swap

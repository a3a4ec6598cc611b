import V7Besm.Swap.Share

/-!
The swapper, and the calls that make, change and end processes.
-/

namespace V7Besm.Swap

open Coop Coop.Proto Map V7Besm.Count

variable {p q t c me : Pid} {x y : Xid} {d d' : Option Xid} {g g' : Hold} {s s' : World}
  {T : Pid → Hold} {k : Proc} {l : Text} {a n os ts : Nat} {ip : Ino} {tp : Option Xid}
  {counted : Bool}

/-! ### Swapping in -/

/-- Process 0 is always in core. -/
theorem Now.on_system (now : Now p d g s T) : On 0 s := by
  have ok := now.procs 0
  have nowhere : (s.proc 0).place = .nowhere := by
    by_contra some
    exact (ok.big some).1 rfl
  have placed := ok.placed
  unfold Placed at placed
  rw [nowhere] at placed
  obtain ⟨-, -, ⟨-, load, -⟩ | ⟨user, -⟩⟩ := placed
  · exact load
  · exact absurd rfl user

theorem textIn_spec (now : Now 0 none g s T) (mine : g.text = some (x, l))
    (move : ∀ q k, g.move = some (q, k) → k.place ≠ .shared ∧ ∀ n, k.place ≠ .leaving n)
    (held : l.held = true ↔ 0 < l.ccount) :
    proto.wp 0 (textIn 0 x) (fun there s' T' => ∃ l', 0 ≤ l'.ccount ∧ l'.held = there ∧
      (there = false → l'.ccount = 0) ∧ Now 0 none { g with text := some (x, l') } s' T') s T := by
  have eq := now.text_eq mine
  have nonneg : 0 ≤ l.ccount := by
    have := (now.refs.cores.numbers x (eq ▸ now.there mine)).nonneg
    rw [eq] at this
    simpa using this
  have same : Now 0 none { g with text := some (x, l) } s T := by
    rwa [← mine]
  apply wp_bind
  apply wp_read now
  rw [eq]
  split
  · rename_i zero
    have empty : l.held = false := by
      rw [zero] at held
      simpa using held
    apply wp_bind
    by_cases room : (malloc s.coremap l.size).1 = 0
    · intro _
      simp only [eq, room, if_true]
      exact ⟨now.fair, l, nonneg, empty, fun _ => zero, same⟩
    obtain ⟨pair, core⟩ := now.coreText mine empty room
    intro _
    simp only [eq, room, if_false]
    refine ⟨core.base.fair, ?_⟩
    rw [congrArg Prod.fst pair]
    simp only [room, if_false]
    generalize (malloc s.coremap l.size).1 = a at core
    apply wp_bind
    apply wp_read core
    have calm : Calm { g with text := some (x, { l with caddr := a, held := true }) } := by
      refine ⟨?_, move⟩
      rintro x l ⟨⟩
      exact zero
    split
    · apply wp_seq (sleep_spec core calm)
      rintro _ s T ⟨now, -⟩
      exact ⟨{ l with caddr := a, held := true }, nonneg, rfl, by simp, now⟩
    · exact ⟨{ l with caddr := a, held := true }, nonneg, rfl, by simp, core⟩
  · rename_i more
    exact ⟨l, nonneg, held.mpr (by omega), by simp, same⟩

theorem imageIn_spec (now : Now 0 none g s T) (moves : g.move = some (q, k))
    (place : k.place = .inn a counted) (told : k.textp = none ∨ counted = true)
    (quiet : g.text = none) :
    proto.wp 0 (imageIn 0 q a) (fun _ s' T' => Now 0 none { g with move := none } s' T') s T := by
  have calm : Calm g := by
    refine ⟨?_, ?_⟩
    · intro x l mine
      rw [quiet] at mine
      cases mine
    · intro q' k' moves'
      rw [moves] at moves'
      cases moves'
      rw [place]
      exact ⟨nofun, nofun⟩
  apply wp_seq (sleep_spec now calm)
  rintro _ s T ⟨now, -⟩
  have done := now.finishIn moves place told
  exact wp_bind (wp_modify done done)

/-- Nobody else moves an image that `sched` finds out of core. -/
theorem Now.place_disk (now : Now 0 none g s T) (still : g.move = none)
    (live : (s.proc q).stat = .live) (out : (s.proc q).load = false) :
    (s.proc q).place = .disk := by
  have placed := (now.procs q).placed
  have free : (s.proc q).mover ≠ some 0 := by
    have := now.tells.move
    rw [still] at this
    exact this.free q
  unfold Placed at placed
  cases place : (s.proc q).place <;> simp_all [Stat.runs]

theorem swapin_spec (now : Now 0 none {} s T) (wants : s.wantsIn q = true) :
    proto.wp 0 (swapin 0 q) (fun _ s' T' => Now 0 none {} s' T') s T := by
  obtain ⟨⟨live, -⟩, out⟩ : ((s.proc q).stat = .live ∧ _) ∧ (s.proc q).load = false := by
    simpa [World.wantsIn] using wants
  have place := now.place_disk rfl live out
  have before := (now.disk_linked place).1
  apply wp_bind
  by_cases room : (malloc s.coremap (s.proc q).size).1 = 0
  · intro _
    simp only [World.startIn, if_pos room]
    exact ⟨now.fair, now⟩
  obtain ⟨pair, came⟩ := now.startIn rfl place live rfl room
  generalize (malloc s.coremap (s.proc q).size).1 = a at room pair came
  apply wp_step came
  rw [congrArg Prod.fst pair]
  rw [if_neg room]
  have entry := came.move_eq rfl
  generalize (s.startIn 0 q).2 = s₁ at came entry
  apply wp_bind
  apply wp_read came
  rw [entry]
  cases names : (s.proc q).textp with
  | none => exact imageIn_spec came rfl rfl (.inl names) rfl
  | some x =>
    have calm : Calm { move := some (q, { s.proc q with place := .inn a false, mover := some 0 }) } := by
      refine ⟨by simp, ?_⟩
      rintro q k ⟨⟩
      simp
    apply wp_seq (xlock_spec came calm came.on_system)
    rintro _ _ T ⟨s₂, now, -, unlocked, rfl⟩
    have names' : (s₂.proc q).textp = some x := by
      rwa [now.move_eq rfl]
    have there := now.refs.names.target q x names'
    have locked := now.takeLock rfl unlocked there
    apply wp_seq (textIn_spec locked rfl calm.move ((now.texts x).held there unlocked))
    rintro b s T ⟨l, nonneg, held, short, now⟩
    cases b with
    | true =>
      have told := now.countIn rfl rfl rfl names before
      apply wp_bind
      apply wp_modify told
      have opened := told.xunlock rfl (by simp only [held, true_iff]; omega) told.system_linked
      apply wp_bind
      apply wp_step opened
      exact imageIn_spec opened rfl rfl (.inr rfl) rfl
    | false =>
      have opened := now.xunlock rfl (by simp [held, short rfl]) now.system_linked
      apply wp_bind
      apply wp_step opened
      have back := opened.cancelIn rfl rfl
      exact wp_bind (wp_modify back back)

/-! ### Swapping out -/

/-- An image that may go is in core, and its text, if it has one, counts it. -/
theorem Now.can_go (now : Now 0 none g s T) (can : s.canGo q = true) :
    (s.proc q).place = .core ∧ (s.proc q).stat = .live ∧ (s.proc q).counted = (s.proc q).textp := by
  obtain ⟨⟨⟨⟨user, live⟩, load⟩, unlocked⟩, text⟩ : (((q ≠ 0 ∧ (s.proc q).stat = .live) ∧
      (s.proc q).load = true) ∧ (s.proc q).lock = false) ∧
      (s.proc q).textp.any (fun x => (s.text x).lock) = false := by
    simpa [World.canGo] using can
  have placed := (now.procs q).placed
  have place : (s.proc q).place = .core := by
    unfold Placed at placed
    cases place : (s.proc q).place with
    | core => rfl
    | leaving n =>
      -- whoever is about to write it out does not sleep
      rw [place] at placed
      have mover : (s.proc q).mover = some q := by simpa [load] using placed.1
      have moves := ((now.others user).move q _).mpr ⟨rfl, mover⟩
      exact absurd place (((now.calm q user).move q _ moves).2 n)
    | _ => simp_all [Stat.runs]
  refine ⟨place, live, ?_⟩
  rcases now.refs.linked q with same | ⟨-, x, names, owner⟩
  · simpa [Proc.expects, place, Place.inCore] using same
  · have locked := (now.texts x).lock.mpr (by rw [owner]; exact nofun)
    rw [names] at text
    exact absurd locked (Bool.eq_false_iff.mp text)

theorem parting_of_eq (free : g.text = none) (same : k.counted = k.textp) : Parting g k := by
  cases names : k.textp with
  | none => exact .bare names (same.trans names)
  | some x => exact .counted x names (same.trans names) free

theorem swapout_spec (now : Now 0 none {} s T) :
    proto.wp 0 (swapout 0 q) (fun _ s' T' => Now 0 none {} s' T') s T := by
  apply wp_bind
  apply wp_read now
  split
  · rename_i can
    obtain ⟨place, live, told⟩ := now.can_go can
    have user := (now.procs q).big (by simp [place])
    have gone := now.evict rfl place live
    have entry := gone.move_eq rfl
    apply wp_bind
    apply wp_step gone
    refine wp_mono ?_ (xswap_spec true 0 gone ?_ (.inr (by rw [entry])) ?_ ?_ (by simp) ?_
      gone.on_system (.inr (.inl rfl)))
    · rintro _ s T ⟨now, -⟩
      exact now
    · rwa [entry]
    · rw [entry]
      rfl
    · rw [entry]
      exact ⟨rfl, live, rfl⟩
    · rw [entry]
      exact parting_of_eq rfl told
  · exact now

/-! ### Sizes -/

theorem expand_spec (u : User p g tp) (now : Now p none g s T) (free : g.text = none) (on : On p s)
    (big : 512 ≤ n) :
    proto.wp p (expand p n) (fun _ s' T' => Now p none g s' T' ∧ On p s') s T := by
  have place := u.place now on
  obtain ⟨mover, load, -, user, -⟩ := now.core_facts place
  apply wp_bind
  apply wp_read now
  split
  · rename_i le
    have less := now.shrink place big le
    refine wp_modify less ⟨less, ?_⟩
    simpa [On, World.shrink] using on
  apply wp_bind
  apply wp_read now
  apply wp_bind
  by_cases room : (malloc s.coremap n).1 = 0
  · obtain ⟨pair, grown⟩ := now.grow_none place u.still (u.stat now) big room
    have entry := grown.move_eq rfl
    have linked : (s.proc p).counted = (s.proc p).textp := by
      simpa [Proc.expects, place, Place.inCore] using now.linked free
    have size : (s.proc p).size ≠ 0 := by
      have := (now.core_facts place).2.2.2.2
      omega
    apply wp_step grown
    rw [congrArg Prod.fst pair]
    generalize (s.grow p p n).2 = s₁ at grown entry
    apply wp_seq (xswap_spec true (s.proc p).size grown ?_ (.inr (by rw [entry])) ?_ ?_
      ?_ ?_ ?_ (.inl rfl))
    · rintro _ s T ⟨now, -⟩
      have still : ({ g with move := none } : Hold) = g := Hold.without_move u.still
      rw [still] at now
      exact pause_spec now (u.calm free)
    · rw [entry]
      exact ⟨user, big⟩
    · rw [entry]
      rfl
    · rw [entry, if_neg size]
      exact ⟨rfl, u.stat now, by simp [load]⟩
    · intro x l mine
      rw [free] at mine
      cases mine
    · rw [entry]
      exact parting_of_eq free linked
    · rwa [On, entry]
  · obtain ⟨pair, grown⟩ := now.grow place big rfl room
    apply wp_step grown
    rw [congrArg Prod.fst pair]
    rw [if_neg room]
    refine ⟨grown, ?_⟩
    simpa [On, World.grow, room] using on

/-! ### Making processes -/

theorem freeSlot_null (slot : s.freeSlot = some c) : (s.proc c).stat = .null := by
  simpa using List.find?_some slot

theorem startChild_spec (now : Now p none g s T) (born : (s.proc c).stat = .born)
    (place : (s.proc c).place = .core ∨ (s.proc c).place = .disk) (other : c ≠ p) :
    proto.wp p (.modify (World.setStat c .live)) (fun _ s' T' => Now p none g s' T') s T := by
  have started := now.startChild born place other
  exact wp_modify started started

/-- The arm of `newproc` that writes the image of the parent out for the child. -/
theorem writeChild_spec (now : Now p none { move := some (c, childOf p k) } s T) (other : c ≠ p)
    (user : c ≠ 0) (big : 512 ≤ k.size) (mover : (s.proc p).mover = none)
    (here : (s.proc p).place = .core ∨ (s.proc p).place = .nowhere ∧ p = 0)
    (told : (s.proc p).counted = k.textp) :
    proto.wp p (do
        .modify (World.setStat p .idl)
        xswap c c false 0
        .modify (World.setStat p .live)
        .modify (World.setStat c .live))
      (fun _ s' T' => ∃ know, Now p none { know } s' T') s T := by
  have idle := now.setStat .idl (.inr rfl) mover here
  have entry := idle.move_eq rfl
  have told' : ((s.setStat p .idl).proc p).counted = k.textp := by
    simpa [World.setStat, World.onProc] using told
  generalize (s.proc p).textp = tp at idle
  apply wp_bind
  apply wp_modify idle
  generalize s.setStat p .idl = s₁ at idle entry told'
  apply wp_seq (xswap_spec false 0 idle ?_ (.inr (by rw [entry])) ?_ ?_ nofun ?_ ?_ ?_)
  · rintro _ s T ⟨now, place, born⟩
    have idl := (now.tells.know _ _ rfl).1
    have settled := now.settled nofun (.inr idl) (.inr idl)
    have live := now.setStat .live (.inl rfl) settled.1 settled.2
    apply wp_bind
    apply wp_modify live
    rw [entry] at born
    refine wp_mono (fun _ _ _ now => ⟨_, now⟩) (startChild_spec live ?_ (.inr ?_) other)
    · simpa [World.setStat, World.onProc, other, childOf] using born
    · simpa [World.setStat, World.onProc, other] using place
  · rw [entry]
    exact ⟨user, big⟩
  · rw [entry]
    rfl
  · rw [entry]
    exact ⟨rfl, rfl, rfl⟩
  · rw [entry]
    exact parting_of_eq rfl rfl
  · rw [On, entry]
    rfl
  · refine .inr (.inr ⟨p, other.symm, ?_⟩)
    rw [told', entry]
    rfl

theorem newproc_spec (now : Now p none {} s T) (live : (s.proc p).stat = .live) (on : On p s) :
    proto.wp p (newproc p) (fun _ s' T' => ∃ know, Now p none { know } s' T') s T := by
  apply wp_bind
  apply wp_read now
  cases slot : s.freeSlot with
  | none => trivial
  | some c =>
    have null := freeSlot_null slot
    have user := (now.null_facts null).2.2.2.2
    have other : c ≠ p := by
      rintro rfl
      rw [live] at null
      cases null
    obtain ⟨mover, here⟩ := now.settled nofun (.inl live) (.inl on)
    obtain ⟨told, big, core⟩ := now.parent_facts here
    have made := now.makeChild rfl rfl null core (.inl live) big
    have parent : (s.makeChild p c).proc p = s.proc p := by
      unfold World.makeChild
      dsimp only
      split <;> simp [other.symm]
    have entry := made.move_eq rfl
    apply wp_bind
    apply wp_modify made
    apply wp_bind
    generalize s.makeChild p c = s₁ at made parent entry
    by_cases room : (malloc s₁.coremap (childOf p (s.proc p)).size).1 = 0
    · intro _
      simp only [World.childCore, entry, room, if_true]
      refine ⟨made.base.fair, writeChild_spec made other user big ?_ ?_ ?_⟩
      · rwa [parent]
      · rwa [parent]
      · rwa [parent]
    · obtain ⟨pair, copied, place, born⟩ := made.childCore rfl rfl rfl room
      apply wp_step copied
      rw [congrArg Prod.fst pair]
      rw [if_neg room]
      exact wp_mono (fun _ _ _ now => ⟨_, now⟩) (startChild_spec copied born (.inl place) other)

theorem fork_spec (now : Now p none {} s T) (live : (s.proc p).stat = .live) (on : On p s) :
    proto.wp p (fork p) (fun _ s' T' => ∃ know, Now p none { know } s' T') s T := by
  apply wp_bind
  by_cases room : (malloc s.swapmap (wtodb MAXMEM)).1 = 0
  · intro _
    simp only [room, if_true]
    exact ⟨now.fair, none, now⟩
  have same := now.borrow (by decide : wtodb MAXMEM ≠ 0) room
  intro _
  simp only [room, if_false]
  refine ⟨same.base.fair, ?_⟩
  apply wp_bind
  apply wp_read same
  split
  · exact ⟨none, same⟩
  · exact newproc_spec same live on

/-! ### Ending processes, and new programs -/

section

variable (u : User p g tp) (now : Now p none g s T) (free : g.text = none)
include u now free

theorem exit_spec {rv utime : Nat} :
    proto.wp p (exit p rv utime) (fun _ s' T' => Now p none { g with know := none } s' T') s T := by
  apply wp_seq (sleep_spec now (u.calm free))
  rintro _ s T ⟨now, on⟩
  apply wp_seq (xfree_spec u now free on)
  rintro _ s T ⟨now, on⟩
  have u' : User p { g with know := some (.live, none) } none := ⟨u.user, u.still, rfl⟩
  apply wp_seq (sleep_spec now (u'.calm free))
  rintro _ s T ⟨now, on⟩
  have gone := now.endProc (u'.place now on) rv utime (u'.textp now)
  exact wp_modify gone gone

theorem getxfile_spec (on : On p s) (big : 512 ≤ n) (size : ts = 0 ∨ 512 ≤ ts) :
    proto.wp p (getxfile p ip ts n) (fun _ s' T' =>
      ∃ tp, Now p none { g with know := some (.live, tp) } s' T' ∧ On p s') s T := by
  have user {tp : Option Xid} : User p { g with know := some (.live, tp) } tp :=
    ⟨u.user, u.still, rfl⟩
  apply wp_seq (xfree_spec u now free on)
  rintro _ s T ⟨now, on⟩
  apply wp_seq (expand_spec user now free on big)
  rintro _ s T ⟨now, on⟩
  apply wp_seq (xalloc_spec user now free on size)
  rintro _ s T ⟨tp, now, on⟩
  refine wp_mono ?_ (sleep_spec now (user.calm free))
  rintro _ s T ⟨now, on⟩
  exact ⟨tp, now, on⟩

theorem exece_spec {bad : Bool} (bare : g.args = none) (big : 512 ≤ n) (size : ts = 0 ∨ 512 ≤ ts) :
    proto.wp p (exece p ip ts n bad) (fun _ s' T' =>
      ∃ tp, Now p none { g with know := some (.live, tp) } s' T') s T := by
  apply wp_bind
  by_cases room : (malloc s.swapmap NARGBLK).1 = 0
  · intro _
    simp only [World.takeArgs, room, if_true]
    exact ⟨now.fair, trivial⟩
  obtain ⟨pair, staged⟩ := now.takeArgs bare rfl room
  generalize (malloc s.swapmap NARGBLK).1 = a at room pair staged
  refine wp_step staged ?_
  rw [congrArg Prod.fst pair]
  rw [if_neg room]
  have user (tp : Option Xid) :
      User p { g with know := some (.live, tp), args := some ⟨NARGBLK, a⟩ } tp :=
    ⟨u.user, u.still, rfl⟩
  -- the blocks are given back, whatever has become of the image
  have rest : ∀ tp s T, Now p none { g with know := some (.live, tp), args := some ⟨NARGBLK, a⟩ } s T →
      proto.wp p (do .modify (World.giveArgs p a); iput p) (fun _ s' T' =>
        ∃ tp, Now p none { g with know := some (.live, tp) } s' T') s T := by
    intro tp s T now
    have given := now.giveArgs rfl
    have same : ({ g with know := some (.live, tp), args := none } : Hold) =
        { g with know := some (.live, tp) } := by rw [← bare]
    rw [same] at given
    apply wp_bind
    apply wp_modify given
    have calm := (user tp).calm free
    refine wp_mono ?_ (sleep_spec given ⟨calm.text, calm.move⟩)
    rintro _ s T ⟨now, -⟩
    exact ⟨tp, now⟩
  have first : Now p none { g with know := some (.live, tp), args := some ⟨NARGBLK, a⟩ }
      (s.takeArgs p).2 T := by
    rwa [← u.know]
  apply wp_seq (sleep_spec first ((user tp).calm free))
  rintro _ s T ⟨now, on⟩
  split
  · apply wp_seq (getxfile_spec (user tp) now free on big size)
    rintro _ s T ⟨tp, now, on⟩
    apply wp_seq (sleep_spec now ((user tp).calm free))
    rintro _ s T ⟨now, on⟩
    exact rest tp s T now
  · exact rest tp s T now

end

theorem chmod_spec {sticky : Bool} (now : Now p none g s T) (free : g.text = none) (calm : Calm g)
    (on : On p s) :
    proto.wp p (chmod p ip sticky) (fun _ s' T' => Now p none g s' T') s T := by
  have set : Now p none g { s with sticky := Function.update s.sticky ip sticky } T :=
    now.of_eq rfl rfl rfl rfl rfl rfl
  have rest : ∀ s T, Now p none g s T →
      proto.wp p (iput p) (fun _ s' T' => Now p none g s' T') s T := by
    intro s T now
    exact wp_mono (fun _ _ _ post => post.1) (sleep_spec now calm)
  apply wp_bind
  apply wp_modify set
  split
  · apply wp_seq (xrele_spec set free calm on)
    rintro _ s T ⟨now, -⟩
    exact rest s T now
  · exact rest _ T set

end V7Besm.Swap

import V7Besm.Swap.Spec

/-!
The routines that attach processes to shared texts and part them.
-/

namespace V7Besm.Swap

open Coop Coop.Proto Map V7Besm.Count

variable {p q t c me : Pid} {x y : Xid} {d d' : Option Xid} {g g' : Hold} {s s' : World}
  {T : Pid → Hold} {k : Proc} {l : Text} {a n os ts : Nat} {ip : Ino} {tp : Option Xid}

/-- A process outside `exit`, which runs and moves no image. -/
structure User (p : Pid) (g : Hold) (tp : Option Xid) : Prop where
  user : p ≠ 0
  still : g.move = none
  know : g.know = some (.live, tp)

namespace User

section

variable (u : User p g tp)

include u

theorem stat (now : Now p d g s T) : (s.proc p).stat = .live := (now.tells.know _ _ u.know).1

theorem textp (now : Now p d g s T) : (s.proc p).textp = tp := (now.tells.know _ _ u.know).2.1

theorem place (now : Now p d g s T) (on : On p s) : (s.proc p).place = .core :=
  now.place_core u.still (u.stat now) on u.user

theorem with_text {o : Option (Xid × Text)} : User p { g with text := o } tp := { u with }

theorem calm (free : g.text = none) : Calm g := by
  refine ⟨?_, ?_⟩
  · intro x l mine
    rw [free] at mine
    cases mine
  · intro q k moves
    rw [u.still] at moves
    cases moves

theorem calm_text (zero : l.ccount = 0) : Calm { g with text := some (x, l) } := by
  refine ⟨?_, ?_⟩
  · rintro x l ⟨⟩
    exact zero
  · intro q k moves
    rw [u.still] at moves
    cases moves

end

end User

/-- A process that no text counts can only be about to join one. -/
theorem Now.uncounted (now : Now p none g s T) (names : (s.proc p).textp = some x)
    (zero : (s.text x).ccount = 0) : (s.proc p).counted = none := by
  cases counted : (s.proc p).counted with
  | none => rfl
  | some y =>
    have names' := now.refs.textp_of_counted counted
    obtain rfl : x = y := Option.some.inj (names.symm.trans names')
    have := now.ccount_pos counted
    omega

/-- A process without a text is not about to join one. -/
theorem Now.bare_linked (now : Now p d g s T) (bare : (s.proc p).textp = none) :
    (s.proc p).counted = (s.proc p).expects := by
  rcases now.refs.linked p with same | ⟨-, x, names, -⟩
  · exact same
  · rw [bare] at names
    cases names

theorem Now.bare_counted (now : Now p d g s T) (bare : (s.proc p).textp = none) :
    (s.proc p).counted = none := by
  rw [now.bare_linked bare, Proc.expects, bare]
  split <;> rfl

attribute [local simp] On World.onProc World.onText World.takeLock Proc.expects Place.inCore

/-- An image on the disk is counted by no text. -/
theorem Now.disk_linked (now : Now p d g s T) (place : (s.proc q).place = .disk) :
    (s.proc q).counted = none ∧ (s.proc q).counted = (s.proc q).expects := by
  have expects : (s.proc q).expects = none := by simp [place]
  rcases now.refs.linked q with same | ⟨nobody, -⟩
  · exact ⟨same.trans expects, same⟩
  · exact ⟨nobody, nobody.trans expects.symm⟩

/-! ### Core for a text -/

theorem counted_spec (u : User p g (some x)) (on : On p s)
    (now : Now p none { g with text := some (x, l) } s T) (before : (s.proc p).counted = none)
    (nonneg : 0 ≤ l.ccount) (held : l.held = true) :
    proto.wp p (do .modify (World.countText p x); xunlock x) (fun _ s' T' =>
      Now p none { g with text := none } s' T' ∧ On p s') s T := by
  have place := u.with_text.place now on
  have names := u.with_text.textp now
  have counted := now.countText rfl place names before
  have load : On p (s.countText p x) := by simpa [World.countText] using on
  apply wp_bind
  apply wp_modify counted
  have opened := counted.xunlock rfl (by simp only [held, true_iff]; omega) (by
    simp [World.countText, place, names])
  exact wp_step opened ⟨opened, on_xunlock load⟩

theorem xexpand_spec (u : User p g (some x)) (now : Now p none g s T)
    (mine : g.text = some (x, l)) (zero : l.ccount = 0) (empty : l.held = false) (on : On p s) :
    proto.wp p (xexpand p x) (fun _ s' T' => Now p none { g with text := none } s' T' ∧ On p s')
      s T := by
  have eq := now.text_eq mine
  apply wp_bind
  by_cases room : (malloc s.coremap l.size).1 = 0
  · -- no core: the process goes out itself, and gets the text when it comes back
    obtain ⟨pair, now₁⟩ := now.coreText_none mine empty room
    have on₁ : On p (s.coreText x).2 := by simpa [World.coreText, eq, room] using on
    apply wp_step now₁
    rw [congrArg Prod.fst pair]
    generalize (s.coreText x).2 = s₁ at now₁ on₁
    have place := u.with_text.place now₁ on₁
    have names := u.with_text.textp now₁
    have live := u.with_text.stat now₁
    have eq₁ := now₁.text_eq rfl
    obtain ⟨mover, load, -, user, big⟩ := now₁.core_facts place
    apply wp_seq (xswap_spec true 0 now₁ ⟨user, big⟩ (.inl ⟨u.still, mover⟩) ?_ ?_ ?_ ?_
      on₁ (.inl rfl))
    · rintro _ s T ⟨now, place, -⟩
      have opened := now.xunlock rfl (by simp [zero, empty]) (now.disk_linked place).2
      apply wp_bind
      apply wp_step opened
      have calm : Calm { g with text := none, move := none } := ⟨by simp, by simp⟩
      refine wp_mono ?_ (pause_spec opened calm)
      rintro _ s T ⟨now, on⟩
      rw [← u.still] at now
      exact ⟨now, on⟩
    · simp [Proc.swapRun, place]
    · simp [Proc.coreRun, place, live, load]
    · rintro x l ⟨⟩
      exact zero
    · exact .joining x _ names (now₁.uncounted names (by rw [eq₁, zero])) rfl zero
  · obtain ⟨pair, now₁⟩ := now.coreText mine empty room
    have on₁ : On p (s.coreText x).2 := by simpa [World.coreText, eq, room, World.setCore] using on
    apply wp_step now₁
    rw [congrArg Prod.fst pair]
    rw [if_pos room]
    generalize (malloc s.coremap l.size).1 = a at now₁
    apply wp_bind
    apply wp_read now₁
    have rest : ∀ s T, On p s → Now p none { g with text := some (x, { l with
        caddr := a, held := true }) } s T →
        proto.wp p (do .modify (World.countText p x); xunlock x) (fun _ s' T' =>
          Now p none { g with text := none } s' T' ∧ On p s') s T := by
      intro s T on now
      have eq := now.text_eq rfl
      exact counted_spec u on now (now.uncounted (u.with_text.textp now) (by rw [eq, zero]))
        (Int.le_of_eq zero.symm) rfl
    split
    · apply wp_seq (sleep_spec now₁ (u.calm_text zero))
      rintro _ s T ⟨now, on⟩
      exact rest s T on now
    · exact rest _ T on₁ now₁

/-! ### Joining and loading -/

/-- The second `xunlock` of `xalloc`, on a text that counts the process. -/
theorem unlock_again_spec (u : User p g (some x)) (now : Now p none g s T) (free : g.text = none)
    (on : On p s) : proto.wp p (xunlock x) (fun _ s' T' => Now p none g s' T' ∧ On p s') s T := by
  obtain ⟨-, -, unlocked, -⟩ := now.own_text free (u.place now on) (u.textp now)
  have again := now.xunlock_again unlocked
  exact wp_step again ⟨again, on_xunlock on⟩

theorem xattach_spec (u : User p g none) (free : g.text = none)
    (now : Now p none { g with text := some (x, l) } s T) (held : l.held = true ↔ 0 < l.ccount)
    (on : On p s) :
    proto.wp p (xattach p x) (fun _ s' T' =>
      Now p none { g with know := some (.live, some x) } s' T' ∧ On p s') s T := by
  have u' : User p { g with know := some (.live, some x) } (some x) := ⟨u.user, u.still, rfl⟩
  have textp := u.with_text.textp now
  have before := now.bare_counted textp
  have attached := now.attach (u.with_text.place now on) (u.with_text.stat now) textp before rfl
  have on' : On p (s.attach p x) := by simpa [World.attach] using on
  have before' : ((s.attach p x).proc p).counted = none := by
    simpa [World.attach] using before
  apply wp_bind
  apply wp_modify attached
  generalize s.attach p x = s₁ at attached on' before'
  apply wp_bind
  apply wp_read attached
  rw [attached.text_eq rfl]
  dsimp only
  split
  · rename_i zero
    have empty : l.held = false := by
      rw [zero] at held
      simpa using held
    apply wp_seq (xexpand_spec u'.with_text attached rfl zero empty on')
    rintro _ s T ⟨now, on⟩
    have now' : Now p none { g with know := some (.live, some x) } s T := by
      rwa [← Hold.without_text free]
    exact unlock_again_spec u' now' free on
  · rename_i more
    have nonneg : 0 ≤ l.ccount := by
      have := (now.refs.cores.numbers x (now.text_eq rfl ▸ now.there rfl)).nonneg
      rw [now.text_eq rfl] at this
      simpa using this
    refine wp_mono ?_ (counted_spec u' on' attached before' nonneg (held.mpr (by omega)))
    rintro _ s T ⟨now, on⟩
    refine ⟨?_, on⟩
    rwa [← Hold.without_text free]

section

variable (u : User p g none) (now : Now p none g s T) (free : g.text = none) (on : On p s)
include u now free on

theorem xjoin_spec :
    proto.wp p (xjoin p ip x) (fun _ s' T' =>
      Now p none { g with know := some (.live, some x) } s' T' ∧ On p s') s T := by
  apply wp_seq (xlock_spec now (u.calm free) on)
  rintro _ _ T ⟨s, now, on, unlocked, rfl⟩
  apply wp_bind
  intro _
  refine ⟨now.fair, wp_ok fun same => ?_⟩
  -- the run goes on only if the entry is still that of the file
  have there : (s.text x).iptr ≠ none := by
    intro gone
    simp [World.slip, gone] at same
  have held := (now.texts x).held there unlocked
  have locked : Now p none _ ((s.takeLock p x).slip (((s.takeLock p x).text x).iptr != some ip)) T :=
    (now.takeLock free unlocked there).of_eq rfl rfl rfl rfl rfl rfl
  exact xattach_spec u free locked held on

theorem xload_spec (gone : (s.text x).iptr = none) (big : 512 ≤ ts) :
    proto.wp p (xload p ip ts x) (fun _ s' T' =>
      Now p none { g with know := some (.live, some x) } s' T' ∧ On p s') s T := by
  have u' : User p { g with know := some (.live, some x) } (some x) := ⟨u.user, u.still, rfl⟩
  have textp := u.textp now
  apply wp_bind
  by_cases room : (malloc s.swapmap (wtodb ts)).1 = 0
  · intro _
    simp only [World.newText, if_pos room]
    exact ⟨now.fair, trivial⟩
  obtain ⟨pair, fresh⟩ := now.newText (u.place now on) (u.stat now) textp
    (now.bare_counted textp) ip free gone big rfl room
  have on₁ : On p (s.newText p x ip ts).2 := by
    simpa [World.newText, room, World.setSwap] using on
  have empty : (s.text x).held = false := ((now.texts x).gone gone).1
  apply wp_step fresh
  rw [congrArg Prod.fst pair]
  rw [if_neg room]
  apply wp_seq (xexpand_spec u'.with_text fresh rfl rfl empty on₁)
  rintro _ s T ⟨now, on⟩
  replace now : Now p none { g with know := some (.live, some x) } s T := by
    rwa [← Hold.without_text free]
  have fixed := now.setLock (u'.place now on) true
  apply wp_bind
  apply wp_modify fixed
  apply wp_seq (sleep_spec fixed (u'.calm free))
  rintro _ s T ⟨now, on⟩
  have freed := now.setLock (u'.place now on) false
  have on' : On p (s.onProc p fun k => { k with lock := false }) := by
    simpa using on
  apply wp_bind
  apply wp_modify freed
  obtain ⟨-, -, unlocked, nobody⟩ := freed.own_text free (u'.place freed on') (u'.textp freed)
  have done := freed.loaded unlocked nobody
  exact wp_modify done ⟨done, on'⟩

theorem xalloc_spec (size : ts = 0 ∨ 512 ≤ ts) :
    proto.wp p (xalloc p ip ts) (fun _ s' T' =>
      ∃ tp, Now p none { g with know := some (.live, tp) } s' T' ∧ On p s') s T := by
  have same : Now p none { g with know := some (.live, none) } s T := by
    rw [← u.know]
    exact now
  unfold xalloc
  split
  · exact ⟨none, same, on⟩
  rename_i some
  apply wp_bind
  apply wp_read now
  cases s.findText ip with
  | some x => exact wp_mono (fun _ s T post => ⟨_, post⟩) (xjoin_spec u now free on)
  | none =>
    apply wp_bind
    apply wp_read now
    cases entry : s.freeEntry with
    | some x =>
      have gone : (s.text x).iptr = none := by
        simpa using List.find?_some entry
      exact wp_mono (fun _ s T post => ⟨_, post⟩)
        (xload_spec u now free on gone (size.resolve_left some))
    | none => exact ⟨none, same, on⟩

end

/-! ### Leaving -/

section

variable (now : Now p d g s T) (unlocked : (s.text x).lock = false)
include now unlocked

theorem Now.text_relock : ((s.takeLock p x).dropLock x).text = s.text := by
  have nobody := now.unowned unlocked
  have same : { s.text x with lock := false, owner := none } = s.text x := by
    rw [← unlocked, ← nobody]
  simp only [World.takeLock, World.dropLock, World.onText, text_setText, Function.update_self,
    Function.update_idem]
  rw [same]
  exact Function.update_eq_self x s.text

theorem Now.drop_again : Now p d g ((s.takeLock p x).dropLock x) T :=
  now.of_eq rfl (now.text_relock unlocked) rfl rfl rfl rfl

theorem Now.unlock_again : Now p d g ((s.takeLock p x).xunlock p x) T := by
  obtain ⟨proc, text, args, coremap, swapmap⟩ := xunlock_fields
  refine now.of_eq proc (text.trans (now.text_relock unlocked)) args coremap swapmap ?_
  simp [World.xunlock, World.setText]

end

theorem xfree_spec (u : User p g tp) (now : Now p none g s T) (free : g.text = none) (on : On p s) :
    proto.wp p (xfree p) (fun _ s' T' =>
      Now p none { g with know := some (.live, none) } s' T' ∧ On p s') s T := by
  have u' : User p { g with know := some (.live, none) } none := ⟨u.user, u.still, rfl⟩
  apply wp_bind
  apply wp_read now
  have textp := u.textp now
  cases tp with
  | none =>
    rw [textp]
    refine ⟨?_, on⟩
    rwa [← u.know]
  | some x =>
    rw [textp]
    obtain ⟨-, -, unlocked, -⟩ := now.own_text free (u.place now on) textp
    have opened := now.drop_again unlocked
    apply wp_bind
    apply xlock_now now unlocked
    apply wp_bind
    apply wp_modify opened
    have on₁ : On p ((s.takeLock p x).dropLock x) := on
    generalize (s.takeLock p x).dropLock x = s₁ at opened on₁
    apply wp_bind
    have place := u.place opened on₁
    have names := u.textp opened
    have there := opened.base.refs.names.target p x names
    by_cases last : (s₁.text x).count - 1 = 0 ∧ ((s₁.text x).iptr.map s₁.sticky).getD false = false
    · obtain ⟨pair, left⟩ := opened.detach_last free place (u.stat opened) names last
      apply wp_step left
      rw [congrArg Prod.fst pair]
      exact sleep_spec left (u'.calm free)
    obtain ⟨pair, left⟩ := opened.detach free place (u.stat opened) names last
    have there' : ((s₁.detach p x).2.text x).iptr ≠ none := by
      simpa [World.detach, last] using there
    have on₂ : On p (s₁.detach p x).2 := by
      simpa [World.detach, last] using on₁
    apply wp_step left
    rw [congrArg Prod.fst pair]
    refine xccdec_spec left there' free (u'.calm free) on₂ (.inl fun s T l now => ?_)
    exact now.bare_linked (u'.with_text.textp now)

/-! ### Giving entries up -/

theorem xuntext_spec (now : Now p none g s T) (free : g.text = none) (calm : Calm g) (on : On p s) :
    proto.wp p (xuntext p x) (fun _ s' T' => Now p none g s' T' ∧ On p s') s T := by
  apply wp_seq (xlock_spec now calm on)
  rintro _ _ T ⟨s, now, on, unlocked, rfl⟩
  apply wp_bind
  intro _
  refine ⟨now.fair, ?_⟩
  dsimp only
  split
  · have again := now.unlock_again unlocked
    exact wp_step again ⟨again, on_xunlock on⟩
  rename_i unused
  apply wp_bind
  intro _
  refine ⟨now.fair, wp_ok fun same => ?_⟩
  have there : (s.text x).iptr ≠ none := by
    intro gone
    simp [World.slip, gone] at same
  have zero : (s.text x).count = 0 := by
    simpa using unused
  have held := (now.texts x).held there unlocked
  have locked : Now p none _ ((s.takeLock p x).slip ((s.takeLock p x).text x).iptr.isNone) T :=
    (now.takeLock free unlocked there).of_eq rfl rfl rfl rfl rfl rfl
  have gone := locked.untext rfl zero held
  rw [show ({ g with text := none } : Hold) = g from Hold.without_text free] at gone
  exact wp_bind (wp_modify gone (sleep_spec gone calm))

theorem sweep_spec {hit : World → Xid → Bool} (xs : List Xid) (now : Now p none g s T)
    (free : g.text = none) (calm : Calm g) (on : On p s) :
    proto.wp p (sweep p hit xs) (fun _ s' T' => Now p none g s' T' ∧ On p s') s T := by
  induction xs generalizing s T with
  | nil => exact ⟨now, on⟩
  | cons x xs ih =>
    apply wp_bind
    apply wp_read now
    split
    · apply wp_seq (xuntext_spec now free calm on)
      rintro _ s T ⟨now, on⟩
      exact ih now on
    · exact ih now on

theorem xrele_spec (now : Now p none g s T) (free : g.text = none) (calm : Calm g) (on : On p s) :
    proto.wp p (xrele p ip) (fun _ s' T' => Now p none g s' T' ∧ On p s') s T := by
  apply wp_bind
  apply wp_read now
  split
  · exact sweep_spec _ now free calm on
  · exact ⟨now, on⟩

end V7Besm.Swap

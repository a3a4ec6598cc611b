import V7Besm.Swap.Inv

/-!
The steps on the tables, one by one.

Each step of the running process changes one entry of `proc`, or one of `text`, and the maps
(`Now.proc_step`, `Now.text_step`); the lemmas say which, and what the process owns then.
-/

namespace V7Besm.Swap

open Coop Coop.Proto Map V7Besm.Count Function

variable {p q t c me : Pid} {x y : Xid} {d d' : Option Xid} {g g' : Hold} {s s' : World}
  {T : Pid → Hold} {k : Proc} {l : Text} {a n os : Nat} {r : Entry}

/-! ### Counts, after a change of one entry -/

namespace Refs

/-- One entry of `proc` changes, and the texts as they have to. -/
theorem change (refs : Refs d s) (proc : s'.proc = update s.proc q k)
    (target : ∀ y, k.textp = some y ∨ k.counted = some y → (s'.text y).iptr ≠ none)
    (gone : ∀ y, (s.text y).iptr ≠ none → (s'.text y).iptr = none → ∀ i, i ≠ q →
      (s.proc i).textp ≠ some y ∧ (s.proc i).counted ≠ some y)
    (kept : ∀ y, (s.text y).iptr ≠ none → (s'.text y).iptr ≠ none →
      (s'.text y).count = (s.text y).count - hit (s.proc q).textp y + hit k.textp y ∧
      (s'.text y).ccount - hit d' y =
        (s.text y).ccount - hit d y - hit (s.proc q).counted y + hit k.counted y)
    (new : ∀ y, (s.text y).iptr = none → (s'.text y).iptr ≠ none →
      (s'.text y).count = hit k.textp y ∧ (s'.text y).ccount - hit d' y = hit k.counted y)
    (link : k.counted = k.expects ∨
      k.counted = none ∧ ∃ y, k.textp = some y ∧ (s'.text y).owner = some q)
    (owner : ∀ i y, i ≠ q → (s.text y).owner = some i → (s'.text y).owner = some i) :
    Refs d' s' := by
  have textp : (fun i => (s'.proc i).textp) = update (fun i => (s.proc i).textp) q k.textp := by
    rw [proc]
    exact comp_update Proc.textp s.proc q k
  have counted : (fun i => (s'.proc i).counted) =
      update (fun i => (s.proc i).counted) q k.counted := by
    rw [proc]
    exact comp_update Proc.counted s.proc q k
  refine ⟨?_, ?_, ?_⟩
  · rw [textp]
    exact refs.names.update q k.textp (fun y names => target y (.inl names))
      (fun y was is i ne => (gone y was (not_not.mp is) i ne).1) (fun y was is => (kept y was is).1)
      (fun y was is => (new y (not_not.mp was) is).1)
  · rw [counted]
    exact refs.cores.update q k.counted (fun y counts => target y (.inr counts))
      (fun y was is i ne => (gone y was (not_not.mp is) i ne).2) (fun y was is => (kept y was is).2)
      (fun y was is => (new y (not_not.mp was) is).2)
  intro i
  unfold Joining
  rw [proc]
  by_cases e : i = q
  · subst e
    rwa [update_self]
  · rw [update_of_ne e]
    refine (refs.linked i).imp_right ?_
    rintro ⟨none, y, names, owned⟩
    exact ⟨none, y, names, owner i y e owned⟩

/-- One entry of `proc` and one of `text` change; to the other texts the process refers as
before. -/
theorem change_at (refs : Refs d s) (proc : s'.proc = update s.proc q k)
    (text : s'.text = update s.text x l)
    (others : ∀ y, y ≠ x → hit d' y = hit d y ∧ hit k.textp y = hit (s.proc q).textp y ∧
      hit k.counted y = hit (s.proc q).counted y)
    (target : k.textp = some x ∨ k.counted = some x → l.iptr ≠ none)
    (gone : l.iptr = none → ∀ i, i ≠ q → (s.proc i).textp ≠ some x ∧ (s.proc i).counted ≠ some x)
    (kept : (s.text x).iptr ≠ none → l.iptr ≠ none →
      l.count = (s.text x).count - hit (s.proc q).textp x + hit k.textp x ∧
      l.ccount - hit d' x =
        (s.text x).ccount - hit d x - hit (s.proc q).counted x + hit k.counted x)
    (new : (s.text x).iptr = none → l.iptr ≠ none →
      l.count = hit k.textp x ∧ l.ccount - hit d' x = hit k.counted x)
    (link : k.counted = k.expects ∨
      k.counted = none ∧ ∃ y, k.textp = some y ∧ (update s.text x l y).owner = some q)
    (owner : ∀ i, i ≠ q → (s.text x).owner = some i → l.owner = some i) : Refs d' s' := by
  have here : s'.text x = l := by rw [text, update_self]
  have rest : ∀ y, y ≠ x → s'.text y = s.text y := fun y ne => by rw [text, update_of_ne ne]
  refine refs.change proc (fun y refers => ?_) (fun y was is => ?_) (fun y was is => ?_)
    (fun y was is => ?_) (text ▸ link) fun i y ne owned => ?_
  all_goals by_cases e : y = x
  · exact (e ▸ here) ▸ target (e ▸ refers)
  · obtain ⟨-, names, counts⟩ := others y e
    rw [rest y e]
    rcases refers with refers | refers
    · exact refs.names.target q y (by simpa [hit, refers] using names)
    · exact refs.cores.target q y (by simpa [hit, refers] using counts)
  · subst e
    exact gone (here ▸ is)
  · exact absurd (rest y e ▸ is) was
  · subst e
    rw [here] at is ⊢
    exact kept was is
  · obtain ⟨owed, names, counts⟩ := others y e
    rw [rest y e, owed, names, counts]
    exact ⟨by ring, by ring⟩
  · subst e
    rw [here] at is ⊢
    exact new was is
  · exact absurd was (rest y e ▸ is)
  · subst e
    rw [here]
    exact owner i ne owned
  · rwa [rest y e]

/-- A text counts only processes that name it. -/
theorem textp_of_counted (refs : Refs d s) (counts : (s.proc q).counted = some x) :
    (s.proc q).textp = some x := by
  rcases refs.linked q with same | ⟨none, -⟩
  · rw [counts, Proc.expects] at same
    split at same
    · exact same.symm
    · cases same
  · rw [none] at counts
    cases counts

/-- An entry that names the same text, and is counted the same way. -/
theorem proc_same (refs : Refs d s) (textp : k.textp = (s.proc q).textp)
    (counted : k.counted = (s.proc q).counted) (expects : k.expects = (s.proc q).expects) :
    Refs d (s.setProc q k) := by
  refine refs.change rfl ?_ (fun y was is => absurd is was) ?_ (fun y was is => absurd was is) ?_
    (fun _ _ _ owned => owned)
  · rintro y (names | counts)
    · exact refs.names.target q y (textp ▸ names)
    · exact refs.cores.target q y (counted ▸ counts)
  · intro y _ _
    simp [textp, counted]
  · rw [textp, counted, expects]
    exact refs.linked q

/-- An image leaves core: its text is to be told. -/
theorem proc_leaves (refs : Refs none s) (textp : k.textp = (s.proc q).textp)
    (counted : k.counted = none) (expects : k.expects = none) :
    Refs (s.proc q).counted (s.setProc q k) := by
  refine refs.change rfl ?_ (fun y was is => absurd is was) ?_ (fun y was is => absurd was is)
    (.inl (counted.trans expects.symm)) (fun _ _ _ owned => owned)
  · rintro y (names | counts)
    · exact refs.names.target q y (textp ▸ names)
    · rw [counted] at counts
      cases counts
  · intro y _ _
    simp [textp, counted]

/-- A text whose count in core, with what is owed, stays right, and whose owner is no less
bound to it. -/
theorem text_step (refs : Refs d s) (p : Pid) (iptr : l.iptr = (s.text x).iptr)
    (count : l.count = (s.text x).count)
    (ccount : ∀ y, (update s.text x l y).ccount - hit d' y = (s.text y).ccount - hit d y)
    (owner : (s.text x).owner = l.owner ∨
      (s.text x).owner = none ∨ (s.text x).owner = some p ∧ (s.proc p).counted = (s.proc p).expects) :
    Refs d' (s.setText x l) := by
  have owner' : ∀ i, (s.text x).owner = some i →
      l.owner = some i ∨ i = p ∧ (s.proc p).counted = (s.proc p).expects := by
    intro i owned
    rcases owner with same | none | ⟨mine, linked⟩
    · exact .inl (same ▸ owned)
    · rw [none] at owned
      cases owned
    · exact .inr ⟨Option.some.inj (owned.symm.trans mine), linked⟩
  have here := ccount x
  rw [update_self] at here
  refine refs.change_at (update_eq_self p s.proc).symm rfl (fun y ne => ⟨?_, rfl, rfl⟩) ?_ ?_
    (fun _ _ => ⟨by omega, by omega⟩) (fun was is => absurd (iptr.trans was) is) ?_ ?_
  · have := ccount y
    rw [update_of_ne ne] at this
    omega
  · rintro (names | counts)
    · exact iptr ▸ refs.names.target p x names
    · exact iptr ▸ refs.cores.target p x counts
  · intro gone i _
    have gone := iptr.symm.trans gone
    exact ⟨fun names => refs.names.target i x names gone,
      fun counts => refs.cores.target i x counts gone⟩
  · rcases refs.linked p with same | ⟨none, y, names, owned⟩
    · exact .inl same
    · by_cases e : y = x
      · subst e
        rcases owner' p owned with still | ⟨-, linked⟩
        · exact .inr ⟨none, y, names, by simpa using still⟩
        · exact .inl linked
      · exact .inr ⟨none, y, names, by simpa [e] using owned⟩
  · intro i ne owned
    exact (owner' i owned).resolve_right fun both => ne both.1

theorem text_same (refs : Refs d s) (p : Pid) (iptr : l.iptr = (s.text x).iptr)
    (count : l.count = (s.text x).count) (ccount : l.ccount = (s.text x).ccount)
    (owner : (s.text x).owner = l.owner ∨
      (s.text x).owner = none ∨ (s.text x).owner = some p ∧ (s.proc p).counted = (s.proc p).expects) :
    Refs d (s.setText x l) :=
  refs.text_step p iptr count (fun y => by rw [proj_update Text.ccount ccount]) owner

end Refs

/-! ### A step on one entry -/

theorem Maps.core_same (maps : Maps s) (same : k.coreRun = (s.proc q).coreRun) :
    Shared coreBase coreSize s.coremap (update s.coreRun (.proc q) k.coreRun) := by
  rw [same]
  exact (update_eq_self (Owner.proc q) s.coreRun).symm ▸ maps.core

theorem Maps.swap_same (maps : Maps s) (same : k.swapRun = (s.proc q).swapRun) :
    Shared swapBase nswap s.swapmap (update s.swapRun (.proc q) k.swapRun) := by
  rw [same]
  exact (update_eq_self (Owner.proc q) s.swapRun).symm ▸ maps.swap

theorem Maps.text_core_same (maps : Maps s) (same : l.coreRun = (s.text x).coreRun) :
    Shared coreBase coreSize s.coremap (update s.coreRun (.text x) l.coreRun) := by
  rw [same]
  exact (update_eq_self (Owner.text x) s.coreRun).symm ▸ maps.core

theorem Maps.text_swap_same (maps : Maps s) (same : l.swapRun = (s.text x).swapRun) :
    Shared swapBase nswap s.swapmap (update s.swapRun (.text x) l.swapRun) := by
  rw [same]
  exact (update_eq_self (Owner.text x) s.swapRun).symm ▸ maps.swap

variable {move : Option (Pid × Proc)}

/-- Of what matters `xunlock` changes the lock alone. -/
theorem xunlock_fields : (s.xunlock p x).proc = s.proc ∧
    (s.xunlock p x).text = update s.text x { s.text x with lock := false, owner := none } ∧
    (s.xunlock p x).args = s.args ∧ (s.xunlock p x).coremap = s.coremap ∧
    (s.xunlock p x).swapmap = s.swapmap := by
  unfold World.xunlock
  split <;> exact ⟨rfl, rfl, rfl, rfl, rfl⟩

/-- What a process knows of its entry is right. -/
def Knows (know : Option (Stat × Option Xid)) (k : Proc) : Prop :=
  ∀ st tp, know = some (st, tp) → k.stat = st ∧ k.textp = tp ∧ st.runs

namespace Now

/-- Nobody moves the image, before and after. -/
theorem unmoved (now : Now p d g s T) (before : (s.proc q).mover = none) (after : k.mover = none) :
    Sole (update s.proc q k) Proc.mover p g.move :=
  now.tells.move.skip (by rw [before]; exact nofun) (by rw [after]; exact nofun)

section ProcStep

variable {know : Option (Stat × Option Xid)} (now : Now p d g s T)
  (proc : s'.proc = update s.proc q k) (text : s'.text = s.text) (args : s'.args = s.args)
  (foul : s'.foul = s.foul)
  (core : Shared coreBase coreSize s'.coremap (update s.coreRun (.proc q) k.coreRun))
  (swap : Shared swapBase nswap s'.swapmap (update s.swapRun (.proc q) k.swapRun))
  (ok : ProcOk q k) (refs : Refs d' (s.setProc q k))

include now proc text args foul core swap ok refs

/-- The running process changes an entry of `proc`, and the maps. -/
theorem proc_step (before : Mine p (s.proc q).mover)
    (after : Mine p k.mover) (stable : q = p ∨ ¬ (s.proc q).stat.runs ∨
      k.stat = (s.proc q).stat ∧ k.textp = (s.proc q).textp)
    (moves : Sole (update s.proc q k) Proc.mover p move)
    (knows : Knows know (update s.proc q k p)) :
    Now p d' { g with move, know } s' T := by
  have there : Now p d' { g with move, know }
      { s.setProc q k with coremap := s'.coremap, swapmap := s'.swapmap } T := by
    refine now.step ⟨?_, ?_⟩ ?_ now.texts (refs.of_eq rfl rfl) ?_
      ⟨now.tells.text, moves, knows, now.tells.args⟩ now.fair
    · exact coreRun_setProc ▸ core
    · exact swapRun_setProc ▸ swap
    · exact (forall_update_iff s.proc ProcOk).mpr ⟨ok, fun i _ => now.procs i⟩
    · exact (Kept.setProc before after stable).trans (.of_eq rfl rfl rfl)
  exact there.of_eq proc text args rfl rfl foul

omit proc text args foul core swap ok refs in
/-- What a process knows of its own entry, if a step leaves that alone. -/
theorem know_same (same : q = p → k.stat = (s.proc q).stat ∧ k.textp = (s.proc q).textp) :
    Knows g.know (update s.proc q k p) := by
  intro st tp knows
  obtain ⟨stat, textp, runs⟩ := now.tells.know st tp knows
  by_cases e : q = p
  · subst e
    rw [update_self]
    exact ⟨(same rfl).1.trans stat, (same rfl).2.trans textp, runs⟩
  · rw [update_of_ne (Ne.symm e)]
    exact ⟨stat, textp, runs⟩

/-- The entry changes only in what does not concern its process. -/
theorem image_step (same : k.stat = (s.proc q).stat ∧ k.textp = (s.proc q).textp)
    (before : Mine p (s.proc q).mover) (after : Mine p k.mover)
    (moves : Sole (update s.proc q k) Proc.mover p move) : Now p d' { g with move } s' T :=
  now.proc_step proc text args foul core swap ok refs before after (.inr (.inr same)) moves
    (now.know_same fun _ => same)

/-- The running process is done with the image that it moved. -/
theorem end_step (same : k.stat = (s.proc q).stat ∧ k.textp = (s.proc q).textp)
    (moves : g.move = some (q, s.proc q)) (after : k.mover = none) :
    Now p d' { g with move := none } s' T := by
  have mine := now.tells.move
  rw [moves] at mine
  exact now.image_step proc text args foul core swap ok refs same (.inr (now.move_mover moves))
    (.inl after) (mine.drop (by rw [after]; exact nofun))

theorem own_step (own : q = p) (before : (s.proc q).mover = none) (after : k.mover = none)
    (knows : Knows know (update s.proc q k p)) : Now p d' { g with know } s' T :=
  now.proc_step proc text args foul core swap ok refs (.inl before) (.inl after) (.inl own)
    (now.unmoved before after) knows

end ProcStep

section

variable (now : Now p d g s T)
include now

/-- The running process changes an entry of `text`, and the maps. -/
theorem text_step {locks : Option (Xid × Text)}
    (text : s'.text = update s.text x l) (proc : s'.proc = s.proc)
    (args : s'.args = s.args) (foul : s'.foul = s.foul)
    (core : Shared coreBase coreSize s'.coremap (update s.coreRun (.text x) l.coreRun))
    (swap : Shared swapBase nswap s'.swapmap (update s.swapRun (.text x) l.swapRun))
    (ok : TextOk l) (refs : Refs d' (s.setText x l)) (before : Mine p (s.text x).owner)
    (after : Mine p l.owner) (owns : Sole (update s.text x l) Text.owner p locks) :
    Now p d' { g with text := locks } s' T := by
  have there : Now p d' { g with text := locks }
      { s.setText x l with coremap := s'.coremap, swapmap := s'.swapmap } T := by
    refine now.step ⟨?_, ?_⟩ now.procs ?_ (refs.of_eq rfl rfl) ?_
      { now.tells with text := owns } now.fair
    · exact coreRun_setText (s := s) ▸ core
    · exact swapRun_setText (s := s) ▸ swap
    · exact (forall_update_iff s.text fun _ => TextOk).mpr ⟨ok, fun y _ => now.texts y⟩
    · exact (Kept.setText before after).trans (.of_eq rfl rfl rfl)
  exact there.of_eq proc text args rfl rfl foul

/-- The running process changes an entry of `proc` and one of `text`, and the maps. -/
theorem both_step {locks : Option (Xid × Text)} {know : Option (Stat × Option Xid)}
    (proc : s'.proc = update s.proc q k) (text : s'.text = update s.text x l)
    (args : s'.args = s.args) (foul : s'.foul = s.foul) (coreRun : k.coreRun = (s.proc q).coreRun)
    (swapRun : k.swapRun = (s.proc q).swapRun)
    (core : Shared coreBase coreSize s'.coremap (update s.coreRun (.text x) l.coreRun))
    (swap : Shared swapBase nswap s'.swapmap (update s.swapRun (.text x) l.swapRun))
    (okP : ProcOk q k) (okT : TextOk l) (refs : Refs d' s') (owner : Mine p (s.text x).owner)
    (owner' : Mine p l.owner) (owns : Sole (update s.text x l) Text.owner p locks)
    (mover : Mine p (s.proc q).mover) (mover' : Mine p k.mover)
    (stable : q = p ∨ ¬ (s.proc q).stat.runs ∨
      k.stat = (s.proc q).stat ∧ k.textp = (s.proc q).textp)
    (moves : Sole (update s.proc q k) Proc.mover p move)
    (knows : Knows know (update s.proc q k p)) :
    Now p d' { g with text := locks, move, know } s' T := by
  have maps : Maps { s.setText x l with coremap := s'.coremap, swapmap := s'.swapmap } :=
    ⟨coreRun_setText (s := s) ▸ core, swapRun_setText (s := s) ▸ swap⟩
  have there : Now p d' { g with text := locks, move, know }
      ({ s.setText x l with coremap := s'.coremap, swapmap := s'.swapmap }.setProc q k) T := by
    refine now.step ⟨?_, ?_⟩ ?_ ?_ (refs.of_eq proc.symm text.symm) ?_
      ⟨owns, moves, knows, now.tells.args⟩ now.fair
    · rw [coreRun_setProc]
      exact maps.core_same coreRun
    · rw [swapRun_setProc]
      exact maps.swap_same swapRun
    · exact (forall_update_iff s.proc ProcOk).mpr ⟨okP, fun i _ => now.procs i⟩
    · exact (forall_update_iff s.text fun _ => TextOk).mpr ⟨okT, fun y _ => now.texts y⟩
    · have first : Kept p s (s.setText x l) := .setText owner owner'
      exact (first.trans (.setProc mover mover' stable)).trans (.of_eq rfl rfl rfl)
  exact there.of_eq proc text args rfl rfl foul

/-! ### Locks -/

theorem there (mine : g.text = some (x, l)) : l.iptr ≠ none := by
  intro gone
  have eq := now.text_eq mine
  have owner := now.text_owner mine
  subst eq
  rw [((now.texts x).gone gone).2] at owner
  cases owner

theorem unowned (unlocked : (s.text x).lock = false) : (s.text x).owner = none :=
  not_not.mp ((now.texts x).lock.not.mp (by simp [unlocked]))

theorem takeLock (free : g.text = none) (unlocked : (s.text x).lock = false)
    (there : (s.text x).iptr ≠ none) :
    Now p d { g with text := some (x, { s.text x with lock := true, owner := some p }) }
      (s.takeLock p x) T := by
  have ok := now.texts x
  have nobody := now.unowned unlocked
  refine now.text_step rfl rfl rfl rfl
    (now.maps.text_core_same rfl) (now.maps.text_swap_same rfl) ?_ ?_ (.inl nobody)
    (.inr rfl) (now.tells.text.put (.inl free) rfl)
  · exact ⟨fun gone => absurd gone there, ok.big, by simp, fun _ locked => by simp at locked⟩
  · exact now.refs.text_same p rfl rfl rfl (.inr (.inl nobody))

section

variable (mine : g.text = some (x, l)) (held : l.held = true ↔ 0 < l.ccount)
  (linked : (s.proc p).counted = (s.proc p).expects)
include mine held linked

theorem dropLock : Now p d { g with text := none } (s.dropLock x) T := by
  have eq := now.text_eq mine
  have owner := now.text_owner mine
  subst eq
  have ok := now.texts x
  have there := now.there mine
  have owns := now.tells.text
  rw [mine] at owns
  refine now.text_step rfl rfl rfl rfl
    (now.maps.text_core_same rfl) (now.maps.text_swap_same rfl) ?_ ?_ (.inr owner)
    (.inl rfl) (owns.drop nofun)
  · exact ⟨fun gone => absurd gone there, ok.big, by simp, fun _ _ => held⟩
  · exact now.refs.text_same p rfl rfl rfl (.inr (.inr ⟨owner, linked⟩))

/-- `xunlock` by the process that has set the lock. -/
theorem xunlock : Now p d { g with text := none } (s.xunlock p x) T := by
  have owner := now.text_owner mine
  have eq := now.text_eq mine
  subst eq
  obtain ⟨proc, text, args, coremap, swapmap⟩ := xunlock_fields
  refine (now.dropLock mine held linked).of_eq proc text args coremap swapmap ?_
  simp [World.xunlock, owner, World.dropLock, World.onText, World.setText]

end

theorem xunlock_again (unlocked : (s.text x).lock = false) : Now p d g (s.xunlock p x) T := by
  have nobody := now.unowned unlocked
  have same : update s.text x { s.text x with lock := false, owner := none } = s.text := by
    rw [← unlocked, ← nobody]
    exact update_eq_self x s.text
  obtain ⟨proc, text, args, coremap, swapmap⟩ := xunlock_fields
  refine now.of_eq proc (text.trans same) args coremap swapmap ?_
  simp [World.xunlock, unlocked]

/-! ### The text that is locked -/

/-- A change of the locked text, and of the core map. -/
theorem alter {l' : Text} (mine : g.text = some (x, l))
    (text : s'.text = update s.text x l') (proc : s'.proc = s.proc)
    (args : s'.args = s.args) (foul : s'.foul = s.foul) (swapmap : s'.swapmap = s.swapmap)
    (core : Shared coreBase coreSize s'.coremap (update s.coreRun (.text x) l'.coreRun))
    (iptr : l'.iptr = l.iptr) (size : l'.size = l.size) (daddr : l'.daddr = l.daddr)
    (lock : l'.lock = l.lock) (owner : l'.owner = l.owner)
    (refs : Refs d' (s.setText x l')) : Now p d' { g with text := some (x, l') } s' T := by
  have there := now.there mine
  have owned := now.text_owner mine
  have eq := now.text_eq mine
  have swapRun : l'.swapRun = (s.text x).swapRun := by
    rw [eq, Text.swapRun, Text.swapRun, iptr, size, daddr]
  have ok := now.texts x
  rw [eq] at ok
  have locked : l.lock = true := ok.lock.mpr (by rw [owned]; exact nofun)
  refine now.text_step text proc args foul core ?_ ?_ refs (.inr (by rw [eq, owned]))
    (.inr (owner.trans owned)) (now.tells.text.put (.inr ⟨l, mine⟩) (owner.trans owned))
  · rw [swapmap]
    exact now.maps.text_swap_same swapRun
  · refine ⟨fun gone => absurd (iptr ▸ gone) there, fun _ => size ▸ ok.big there, ?_, ?_⟩
    · rw [lock, owner]
      exact ok.lock
    · intro _ unlocked
      rw [lock, locked] at unlocked
      cases unlocked

/-- A flag of the locked text, or its core address while it has no core. -/
theorem flag (l' : Text) (mine : g.text = some (x, l))
    (core : l'.coreRun = l.coreRun) (iptr : l'.iptr = l.iptr) (size : l'.size = l.size)
    (daddr : l'.daddr = l.daddr) (lock : l'.lock = l.lock) (owner : l'.owner = l.owner)
    (count : l'.count = l.count) (ccount : l'.ccount = l.ccount) :
    Now p d { g with text := some (x, l') } (s.setText x l') T := by
  have eq := now.text_eq mine
  refine now.alter mine rfl rfl rfl rfl rfl ?_ iptr size daddr lock owner ?_
  · exact now.maps.text_core_same (by rw [eq, core])
  · exact now.refs.text_same p (by rw [eq, iptr]) (by rw [eq, count]) (by rw [eq, ccount])
      (.inl (by rw [eq, owner]))

end

/-- The decrement that is owed is made. -/
theorem pay (now : Now p (some x) g s T) (mine : g.text = some (x, l)) :
    Now p none { g with text := some (x, { l with ccount := l.ccount - 1 }) }
      (s.setText x { l with ccount := l.ccount - 1 }) T := by
  have eq := now.text_eq mine
  subst eq
  refine now.alter mine rfl rfl rfl rfl rfl ?_ rfl rfl rfl rfl rfl ?_
  · exact now.maps.text_core_same rfl
  · refine now.refs.text_step 0 rfl rfl (fun y => ?_) (.inl rfl)
    by_cases e : y = x
    · subst e
      simp
    · simp [e, hit, Ne.symm e]

section

variable (now : Now p d g s T) (mine : g.text = some (x, l))
include now mine

theorem freeText (held : l.held = true) :
    Now p d { g with text := some (x, { l with held := false }) } (s.freeText x) T := by
  have eq := now.text_eq mine
  subst eq
  have run : s.coreRun (.text x) = some ⟨(s.text x).size, (s.text x).caddr⟩ := by
    simp [World.coreRun, Text.coreRun, held]
  refine now.alter mine rfl rfl rfl rfl rfl (now.maps.core.mfree run) rfl rfl rfl rfl rfl ?_
  exact now.refs.text_same p rfl rfl rfl (.inl rfl)

theorem coreText (free : l.held = false) (got : (malloc s.coremap l.size).1 ≠ 0) :
    s.coreText x = ((malloc s.coremap l.size).1, (s.coreText x).2) ∧
    Now p d { g with text := some (x, { l with caddr := (malloc s.coremap l.size).1, held := true }) }
      (s.coreText x).2 T := by
  have big := (now.texts x).big
  have eq := now.text_eq mine
  have there := now.there mine
  subst eq
  have none : s.coreRun (.text x) = none := by simp [World.coreRun, Text.coreRun, free]
  have pos : (s.text x).size ≠ 0 := by
    have := big there
    omega
  have run := now.maps.core.malloc none pos got
  simp only [World.coreText, if_neg got]
  refine ⟨trivial, ?_⟩
  refine now.alter mine rfl rfl rfl rfl rfl run rfl rfl rfl rfl rfl ?_
  exact now.refs.text_same p rfl rfl rfl (.inl rfl)

theorem coreText_none (free : l.held = false) (full : (malloc s.coremap l.size).1 = 0) :
    s.coreText x = (0, (s.coreText x).2) ∧
    Now p d { g with text := some (x, { l with caddr := 0 }) } (s.coreText x).2 T := by
  have eq := now.text_eq mine
  subst eq
  simp only [World.coreText, if_pos full]
  refine ⟨trivial, ?_⟩
  exact now.flag _ mine (by simp [Text.coreRun, free]) rfl rfl rfl rfl rfl rfl rfl

end

/-- The locked text counts `q` in core. -/
theorem count_step (now : Now p none g s T) (mine : g.text = some (x, l))
    (proc : s'.proc = update s.proc q k)
    (text : s'.text = update s.text x { l with ccount := l.ccount + 1 }) (args : s'.args = s.args)
    (foul : s'.foul = s.foul) (coremap : s'.coremap = s.coremap) (swapmap : s'.swapmap = s.swapmap)
    (names : (s.proc q).textp = some x) (before : (s.proc q).counted = none)
    (counted : k.counted = some x) (inCore : k.place.inCore = true)
    (textp : k.textp = (s.proc q).textp) (stat : k.stat = (s.proc q).stat)
    (core : k.coreRun = (s.proc q).coreRun) (swap : k.swapRun = (s.proc q).swapRun)
    (ok : ProcOk q k) (mover : k.mover = (s.proc q).mover) (moved : Mine p k.mover)
    (moves : Sole (update s.proc q k) Proc.mover p move) :
    Now p none { g with text := some (x, { l with ccount := l.ccount + 1 }), move } s' T := by
  have eq := now.text_eq mine
  have owned := now.text_owner mine
  have oks := now.texts x
  subst eq
  have locked : (s.text x).lock = true := oks.lock.mpr (by rw [owned]; exact nofun)
  have expects : k.expects = some x := by simp [Proc.expects, inCore, textp, names]
  have there := now.refs.names.target q x names
  have refs : Refs none s' := by
    refine now.refs.change_at proc text (fun y ne => ⟨rfl, by rw [textp], ?_⟩)
      (fun _ => there) (fun gone => absurd gone there) (fun _ _ => ?_)
      (fun was => absurd was there) (.inl (counted.trans expects.symm)) fun _ _ => id
    · simp [hit, before, counted, Ne.symm ne]
    · simp [textp, before, counted]
  refine now.both_step proc text args foul core swap ?_ ?_ ok ?_ refs
    (.inr owned) (.inr owned) (now.tells.text.put (.inr ⟨_, mine⟩) owned) (mover ▸ moved) moved
    (.inr (.inr ⟨stat, textp⟩)) moves (now.know_same fun _ => ⟨stat, textp⟩)
  · rw [coremap]
    exact now.maps.text_core_same rfl
  · rw [swapmap]
    exact now.maps.text_swap_same rfl
  · refine { oks with held := fun _ unlocked => ?_ }
    simp only [locked] at unlocked
    cases unlocked

end Now

end V7Besm.Swap

import V7Besm.Swap.Moves

/-!
Processes that come and go, and the texts they attach to and leave.
-/

namespace V7Besm.Swap

open Coop Coop.Proto Map V7Besm.Count
open Function (update update_self update_of_ne update_eq_self)

variable {p q t c me : Pid} {x y : Xid} {d d' : Option Xid} {g g' : Hold} {s s' : World}
  {T : Pid → Hold} {k : Proc} {l : Text} {a n ts : Nat} {ip : Ino} {st : Stat} {tp : Option Xid}

/-! ### Counts -/

namespace Refs

/-- Nobody but `p` names a text with `x_count` 1, and nobody else is counted by it. -/
theorem only (refs : Refs d s) (names : (s.proc p).textp = some x) (one : (s.text x).count = 1)
    (ne : q ≠ p) : (s.proc q).textp ≠ some x ∧ (s.proc q).counted ≠ some x := by
  have numbers := refs.names.numbers x (refs.names.target p x names)
  rw [one] at numbers
  have other : (s.proc q).textp ≠ some x := fun too => ne (numbers.unique too names)
  refine ⟨other, fun counts => other ?_⟩
  exact refs.textp_of_counted counts

end Refs

attribute [local simp] Proc.coreRun Proc.swapRun Proc.expects Place.inCore Stat.runs

namespace Now

/-! ### Children -/

/-- A free entry is bare. -/
theorem null_facts (now : Now p d g s T) (null : (s.proc c).stat = .null) :
    (s.proc c).place = .nowhere ∧ (s.proc c).mover = none ∧ (s.proc c).textp = none ∧
      (s.proc c).counted = none ∧ c ≠ 0 := by
  have placed := (now.procs c).placed
  have linked := now.refs.linked c
  unfold Placed at placed
  unfold Joining Proc.expects at linked
  cases place : (s.proc c).place <;> simp_all

/-- The text of a process in core is not locked. -/
theorem own_text (now : Now p none g s T) (free : g.text = none) (place : (s.proc p).place = .core)
    (names : (s.proc p).textp = some x) :
    (s.proc p).counted = some x ∧ 0 < (s.text x).ccount ∧ (s.text x).lock = false ∧
      (s.text x).owner = none := by
  have counted : (s.proc p).counted = some x := by
    rw [now.linked free, Proc.expects, place, names]
    rfl
  have pos := now.ccount_pos counted
  have unlocked := now.unlocked_of_ccount free pos
  exact ⟨counted, pos, unlocked, now.unowned unlocked⟩

end Now

/-- The entry that `makeChild` makes. -/
def childOf (p : Pid) (k : Proc) : Proc where
  stat := .born
  load := true
  lock := false
  addr := k.addr
  size := k.size
  textp := k.textp
  place := .shared
  mover := some p
  counted := k.textp

namespace Now

theorem makeChild (now : Now p none g s T) (free : g.text = none) (still : g.move = none)
    (null : (s.proc c).stat = .null)
    (here : (s.proc p).place = .core ∨ (s.proc p).textp = none)
    (live : (s.proc p).stat.runs) (big : 512 ≤ (s.proc p).size) :
    Now p none { g with move := some (c, childOf p (s.proc p)) } (s.makeChild p c) T := by
  obtain ⟨nowhere, mover, bare, counted, user⟩ := now.null_facts null
  have core : (childOf p (s.proc p)).coreRun = (s.proc c).coreRun := by
    simp [nowhere, childOf]
  have swap : (childOf p (s.proc p)).swapRun = (s.proc c).swapRun := by
    simp [nowhere, childOf]
  have ok : ProcOk c (childOf p (s.proc p)) := ⟨⟨rfl, rfl, rfl⟩, fun _ => ⟨user, big⟩⟩
  have stopped : ¬ (s.proc c).stat.runs := by simp [null]
  have other : c ≠ p := by
    rintro rfl
    exact stopped live
  have know := now.know_same (k := childOf p (s.proc p)) fun e => absurd e other
  cases names : (s.proc p).textp with
  | none =>
    have state : s.makeChild p c = s.setProc c (childOf p (s.proc p)) := by
      unfold World.makeChild
      simp [childOf, names]
    rw [state]
    refine now.proc_step rfl rfl rfl rfl (now.maps.core_same core)
      (now.maps.swap_same swap) ok (now.refs.proc_same ?_ ?_ ?_) (.inl mover) (.inr rfl)
      (.inr (.inl stopped)) (now.tells.move.put (.inl still) rfl) know
    · simp [childOf, names, bare]
    · simp [childOf, names, counted]
    · simp [childOf, names, bare]
  | some x =>
    obtain ⟨-, pos, unlocked, nobody⟩ := now.own_text free (here.resolve_right (by simp [names])) names
    have there := now.refs.names.target p x names
    have okx := now.texts x
    have state : s.makeChild p c = (s.setProc c (childOf p (s.proc p))).setText x
        { s.text x with count := (s.text x).count + 1, ccount := (s.text x).ccount + 1 } := by
      unfold World.makeChild
      simp [childOf, names, World.onText]
    rw [state]
    refine now.both_step rfl rfl rfl rfl core swap (now.maps.text_core_same rfl)
      (now.maps.text_swap_same rfl) ok ?_ ?_ (.inl nobody) (.inl nobody)
      (now.tells.text.skip (by rw [nobody]; exact nofun) (by simp [nobody])) (.inl mover)
      (.inr rfl) (.inr (.inl stopped)) (now.tells.move.put (.inl still) rfl) know
    · refine { okx with held := fun there unlocked => ?_ }
      rw [okx.held there unlocked]
      simp only
      omega
    refine now.refs.change_at rfl rfl (fun y ne => ?_) (fun _ => there)
      (fun is => absurd is there) (fun _ _ => ?_) (fun was => absurd was there) ?_ ?_
    · simp [hit, bare, counted, childOf, names, Ne.symm ne]
    · simp [bare, counted, childOf, names]
    · simp [childOf, names]
    · intro i _ owned
      rw [nobody] at owned
      cases owned

theorem childCore (now : Now p d g s T) (moves : g.move = some (c, k)) (place : k.place = .shared)
    (got : (malloc s.coremap k.size).1 = a) (room : a ≠ 0) :
    s.childCore c = (a, (s.childCore c).2) ∧ Now p d { g with move := none } (s.childCore c).2 T ∧
      ((s.childCore c).2.proc c).place = .core ∧ ((s.childCore c).2.proc c).stat = .born := by
  have eq := now.move_eq moves
  subst eq got
  obtain ⟨placed, big⟩ := now.image_at place
  have pos : (s.proc c).size ≠ 0 := by
    have := (big nofun).2
    omega
  have empty : s.coreRun (.proc c) = none := by simp [World.coreRun, place]
  have taken := now.maps.core.malloc empty pos room
  simp only [World.childCore, if_neg room]
  refine ⟨trivial, ?_, by simp, by simp [placed.2.2]⟩
  refine now.end_step (k := { s.proc c with
    addr := (malloc s.coremap (s.proc c).size).1, place := .core, mover := none }) rfl rfl rfl rfl
    taken (now.maps.swap_same ?_) ⟨⟨rfl, placed.2.1, .inr placed.2.2⟩, fun _ => big nofun⟩
    (now.refs.proc_same rfl rfl ?_) ⟨rfl, rfl⟩ moves rfl
  · simp [place]
  · simp [place]

/-- A process that runs, with its image in core or none to move. -/
theorem settled (now : Now p d g s T) (still : ∀ k, g.move ≠ some (p, k))
    (runs : (s.proc p).stat.runs) (on : (s.proc p).load = true ∨ (s.proc p).stat = .idl) :
    (s.proc p).mover = none ∧ ((s.proc p).place = .core ∨ (s.proc p).place = .nowhere ∧ p = 0) := by
  have placed := (now.procs p).placed
  have free : (s.proc p).mover ≠ some p := by
    intro mine
    exact still _ ((now.tells.move p _).mpr ⟨rfl, mine⟩)
  unfold Placed at placed
  cases place : (s.proc p).place with
  | nowhere =>
    rw [place] at placed
    obtain ⟨mover, -, ⟨boot, -⟩ | ⟨-, stopped⟩⟩ := placed
    · exact ⟨mover, .inr ⟨rfl, boot⟩⟩
    · rcases runs with runs | runs <;> simp [runs] at stopped
  | core =>
    rw [place] at placed
    exact ⟨placed.1, .inl rfl⟩
  | _ => rcases on with on | on <;> simp_all

/-- The image of a process that may have children. -/
theorem parent_facts (now : Now p none {} s T)
    (here : (s.proc p).place = .core ∨ (s.proc p).place = .nowhere ∧ p = 0) :
    (s.proc p).counted = (s.proc p).textp ∧ 512 ≤ (s.proc p).size ∧
      ((s.proc p).place = .core ∨ (s.proc p).textp = none) := by
  have linked := now.linked rfl
  rcases here with place | ⟨place, rfl⟩
  · refine ⟨?_, (now.core_facts place).2.2.2.2, .inl place⟩
    simpa [place] using linked
  · obtain ⟨-, bare, ⟨-, -, -, big⟩ | ⟨user, -⟩⟩ := (now.image_at place).1
    · refine ⟨?_, big, .inr bare⟩
      rw [linked, Proc.expects, bare]
      split <;> rfl
    · exact absurd rfl user

theorem setStat (now : Now p d g s T) (st : Stat) (runs : st.runs)
    (mover : (s.proc p).mover = none)
    (here : (s.proc p).place = .core ∨ (s.proc p).place = .nowhere ∧ p = 0) :
    Now p d { g with know := some (st, (s.proc p).textp) } (s.setStat p st) T := by
  refine now.own_step rfl rfl rfl rfl
    (now.maps.core_same rfl) (now.maps.swap_same rfl) ⟨?_, (now.procs p).big⟩
    (now.refs.proc_same rfl rfl rfl) rfl mover mover ?_
  · rcases here with place | ⟨place, boot⟩
    · have load := (now.core_facts place).2.1
      simp only [Placed, place]
      exact ⟨mover, load, .inl runs⟩
    · obtain ⟨-, bare, ⟨-, load, -, big⟩ | ⟨user, -⟩⟩ := (now.image_at place).1
      all_goals simp only [Placed, place]
      · exact ⟨mover, bare, .inl ⟨boot, load, runs, big⟩⟩
      · exact absurd boot user
  · rintro st tp ⟨⟩
    simpa using runs

theorem startChild (now : Now p d g s T) (born : (s.proc c).stat = .born)
    (place : (s.proc c).place = .core ∨ (s.proc c).place = .disk) (other : c ≠ p) :
    Now p d g (s.setStat c .live) T := by
  have mover : (s.proc c).mover = none :=
    place.elim (fun place => (now.image_at place).1.1) fun place => (now.image_at place).1.1
  refine now.proc_step rfl rfl rfl rfl
    (now.maps.core_same rfl) (now.maps.swap_same rfl) ⟨?_, (now.procs c).big⟩
    (now.refs.proc_same rfl rfl rfl) (.inl mover) (.inl mover)
    (.inr (.inl (by simp [born]))) (now.unmoved mover mover)
    (now.know_same fun e => absurd e other)
  rcases place with place | place
  · have load := (now.image_at place).1.2.1
    simp only [Placed, place]
    exact ⟨mover, load, .inl (.inl rfl)⟩
  · have load := (now.image_at place).1.2.1
    simp only [Placed, place]
    exact ⟨mover, load, .inl trivial⟩

theorem bury (now : Now p d g s T) (runs : (s.proc p).stat = .live) : Now p d g (s.bury c) T := by
  unfold World.bury
  split
  · rename_i zomb
    have ok := now.procs c
    have placed := ok.placed
    have other : c ≠ p := by
      rintro rfl
      rw [runs] at zomb
      cases zomb
    have nowhere : (s.proc c).place = .nowhere ∧ (s.proc c).mover = none ∧
        (s.proc c).textp = none ∧ c ≠ 0 := by
      unfold Placed at placed
      cases place : (s.proc c).place <;> simp_all
    obtain ⟨place, mover, bare, user⟩ := nowhere
    refine now.proc_step
      rfl rfl rfl rfl (now.maps.core_same rfl) (now.maps.swap_same rfl) ⟨?_, ok.big⟩
      (now.refs.proc_same rfl rfl rfl) (.inl mover) (.inl mover)
      (.inr (.inl (by simp [zomb]))) (now.unmoved mover mover)
      (now.know_same fun e => absurd e other)
    simp only [Placed, place]
    exact ⟨mover, bare, .inr ⟨user, .inl trivial⟩⟩
  · exact now

/-! ### Leaving a text -/

/-- A live process names another text or none, and one entry of `text` changes with that. -/
theorem name_step {c : Option Xid} {locks : Option (Xid × Text)} (now : Now p d g s T)
    (place : (s.proc p).place = .core) (live : (s.proc p).stat = .live)
    (proc : s'.proc = update s.proc p { s.proc p with textp := tp, counted := c })
    (text : s'.text = update s.text x l) (args : s'.args = s.args) (foul : s'.foul = s.foul)
    (core : Shared coreBase coreSize s'.coremap (update s.coreRun (.text x) l.coreRun))
    (swap : Shared swapBase nswap s'.swapmap (update s.swapRun (.text x) l.swapRun))
    (ok : TextOk l) (refs : Refs d' s') (before : Mine p (s.text x).owner) (after : Mine p l.owner)
    (owns : Sole (update s.text x l) Text.owner p locks) :
    Now p d' { g with text := locks, know := some (.live, tp) } s' T := by
  obtain ⟨mover, load, -⟩ := now.core_facts place
  refine now.both_step proc text args foul rfl rfl core swap
    (now.core_ok place (.inl rfl) place mover load (.inl (.inl live))) ok refs before after owns
    (.inl mover) (.inl mover) (.inl rfl) (now.unmoved mover mover) ?_
  rintro st tp ⟨⟩
  simp [live]

section Leave

variable (now : Now p none g s T) (free : g.text = none) (place : (s.proc p).place = .core)
  (live : (s.proc p).stat = .live) (names : (s.proc p).textp = some x)

include now free place live names

/-- Others still use the text, or it is to be saved. -/
theorem detach (more : ¬ ((s.text x).count - 1 = 0 ∧
      ((s.text x).iptr.map s.sticky).getD false = false)) :
    s.detach p x = (false, (s.detach p x).2) ∧
      Now p (some x) { g with know := some (.live, none) } (s.detach p x).2 T := by
  obtain ⟨counted, pos, unlocked, nobody⟩ := now.own_text free place names
  have there := now.refs.names.target p x names
  have okx := now.texts x
  simp only [World.detach, if_neg more]
  refine ⟨trivial, now.name_step place live
    rfl rfl rfl rfl
    (now.maps.text_core_same rfl) (now.maps.text_swap_same rfl)
    { okx with } ?_ (.inl nobody) (.inl nobody)
    (now.tells.text.skip (by rw [nobody]; exact nofun) (by simp [nobody]))⟩
  refine now.refs.change_at rfl rfl (fun y ne => ?_) (fun _ => there)
    (fun is => absurd is there) (fun _ _ => ?_) (fun was => absurd was there) ?_ ?_
  · simp [hit, names, counted, Ne.symm ne]
  · simp [names, counted]
  · simp [place]
  · intro i _ owned
    rw [nobody] at owned
    cases owned

/-- The last process leaves, and the entry is given up. -/
theorem detach_last (last : (s.text x).count - 1 = 0 ∧
      ((s.text x).iptr.map s.sticky).getD false = false) :
    s.detach p x = (true, (s.detach p x).2) ∧
      Now p none { g with know := some (.live, none) } (s.detach p x).2 T := by
  obtain ⟨counted, pos, unlocked, nobody⟩ := now.own_text free place names
  have there := now.refs.names.target p x names
  have okx := now.texts x
  have held := (okx.held there unlocked).mpr pos
  have core : s.coreRun (.text x) = some ⟨(s.text x).size, (s.text x).caddr⟩ := by
    simp [World.coreRun, Text.coreRun, held]
  have swap : s.swapRun (.text x) = some ⟨wtodb (s.text x).size, (s.text x).daddr⟩ := by
    simp [World.swapRun, Text.swapRun, Option.isSome_iff_ne_none.mpr there]
  simp only [World.detach, if_pos last]
  have one : (s.text x).count = 1 := by omega
  refine ⟨trivial, now.name_step place live
    rfl rfl rfl rfl (now.maps.core.mfree core) (now.maps.swap.mfree swap)
    ⟨fun _ => ⟨rfl, nobody⟩, fun h => absurd rfl h, okx.lock, fun h => absurd rfl h⟩ ?_
    (.inl nobody) (.inl nobody)
    (now.tells.text.skip (by simp [nobody]) (by simp [nobody]))⟩
  refine now.refs.change_at rfl rfl (fun y ne => ?_) (by simp)
    (fun _ i ne => now.refs.only names one ne) (fun _ is => absurd rfl is)
    (fun _ is => absurd rfl is) ?_ ?_
  · simp [hit, names, counted, Ne.symm ne]
  · simp [place]
  · intro i _
    simp [nobody]

end Leave

/-! ### Attaching to a text -/

section Join

variable (now : Now p none g s T) (place : (s.proc p).place = .core)
  (live : (s.proc p).stat = .live) (bare : (s.proc p).textp = none)
  (before : (s.proc p).counted = none)

include now place live bare before

theorem attach (mine : g.text = some (x, l)) :
    Now p none { g with
        text := some (x, { l with count := l.count + 1 }), know := some (.live, some x) }
      (s.attach p x) T := by
  have there := now.there mine
  have owner := now.text_owner mine
  have eq := now.text_eq mine
  subst eq
  have okx := now.texts x
  refine now.name_step place live
    rfl rfl rfl rfl
    (now.maps.text_core_same rfl) (now.maps.text_swap_same rfl)
    { okx with } ?_ (.inr owner) (.inr owner)
    (now.tells.text.put (.inr ⟨_, mine⟩) owner)
  refine now.refs.change_at rfl rfl (fun y ne => ?_) (fun _ => there)
    (fun is => absurd is there) (fun _ _ => ?_) (fun was => absurd was there)
    (.inr ⟨before, x, rfl, by simp [owner]⟩) fun _ _ => id
  · simp [hit, bare, before, World.onText, Ne.symm ne]
  · simp [bare, before, World.onText]

theorem newText (ip : Ino) {ts : Nat} (free : g.text = none) (gone : (s.text x).iptr = none)
    (big : 512 ≤ ts) (got : (malloc s.swapmap (wtodb ts)).1 = a) (room : a ≠ 0) :
    s.newText p x ip ts = (a, (s.newText p x ip ts).2) ∧
    Now p none { g with
        text := some (x, { s.text x with
          daddr := a, size := ts, iptr := some ip, count := 1, ccount := 0, load := true, lock := true,
          writ := false, owner := some p }), know := some (.live, some x) }
      (s.newText p x ip ts).2 T := by
  have okx := now.texts x
  obtain ⟨held, nobody⟩ := okx.gone gone
  subst got
  have none : s.swapRun (.text x) = none := by simp [World.swapRun, Text.swapRun, gone]
  have taken := now.maps.swap.malloc none (wtodb_ne_zero big) room
  simp only [World.newText, if_neg room]
  refine ⟨trivial, now.name_step place live rfl rfl rfl rfl
    (now.maps.text_core_same ?_) taken ⟨by simp, fun _ => big, by simp, by simp⟩ ?_
    (.inl nobody) (.inr rfl) (now.tells.text.put (.inl free) rfl)⟩
  · simp [Text.coreRun, World.setSwap, held]
  · refine now.refs.change_at rfl rfl (fun y ne => ?_) (by simp) (by simp)
      (fun was => absurd gone was) (fun _ _ => ?_) (.inr ⟨before, x, rfl, by simp⟩) ?_
    · simp [hit, bare, before, Ne.symm ne, World.setSwap]
    · simp [before, World.setSwap]
    · simp [nobody]

end Join

/-- The text counts the process that has locked it. -/
theorem countText (now : Now p none g s T) (mine : g.text = some (x, l))
    (place : (s.proc p).place = .core) (names : (s.proc p).textp = some x)
    (before : (s.proc p).counted = none) :
    Now p none { g with text := some (x, { l with ccount := l.ccount + 1 }) }
      (s.countText p x) T := by
  obtain ⟨mover, load, stat, -⟩ := now.core_facts place
  have eq := now.text_eq mine
  subst eq
  exact now.count_step mine rfl rfl rfl rfl
    rfl rfl names before rfl (by simp [place]) rfl rfl rfl rfl
    (now.core_ok place (.inl rfl) place mover load stat) rfl (.inl mover) (now.unmoved mover mover)

theorem loaded (now : Now p none g s T) (unlocked : (s.text x).lock = false)
    (nobody : (s.text x).owner = none) : Now p none g (s.loaded x) T := by
  have okx := now.texts x
  refine now.text_step (l := { s.text x with
    load := false, lock := false, writ := true, owner := none }) rfl rfl rfl rfl
    (now.maps.text_core_same rfl) (now.maps.text_swap_same rfl) ?_ ?_ (.inl nobody)
    (.inl rfl) (now.tells.text.skip (by rw [nobody]; exact nofun) nofun)
  · exact ⟨fun gone => ⟨(okx.gone gone).1, rfl⟩, okx.big, by simp, fun there _ => okx.held there unlocked⟩
  · exact now.refs.text_same p rfl rfl rfl (.inr (.inl nobody))

theorem untext (now : Now p none g s T) (mine : g.text = some (x, l)) (unused : l.count = 0)
    (held : l.held = true ↔ 0 < l.ccount) : Now p none { g with text := none } (s.untext x) T := by
  have there := now.there mine
  have owner := now.text_owner mine
  have eq := now.text_eq mine
  subst eq
  have names := (now.refs.names.numbers x there).eq_zero_iff.mp unused
  have counts : ∀ i, (s.proc i).counted ≠ some x :=
    fun i counts => names i (now.refs.textp_of_counted counts)
  have zero : (s.text x).ccount = 0 := by
    have := (now.refs.cores.numbers x there).eq_zero_iff.mpr counts
    simpa using this
  have empty : (s.text x).held = false := by
    rw [zero] at held
    simpa using held
  have swap : s.swapRun (.text x) = some ⟨wtodb (s.text x).size, (s.text x).daddr⟩ := by
    simp [World.swapRun, Text.swapRun, Option.isSome_iff_ne_none.mpr there]
  have owns := now.tells.text
  rw [mine] at owns
  refine now.text_step
    rfl rfl rfl rfl (now.maps.text_core_same ?_) (now.maps.swap.mfree swap) ?_ ?_
    (.inr owner) (.inl rfl) (owns.drop (by simp))
  · simp [Text.coreRun]
  · exact ⟨fun _ => ⟨empty, rfl⟩, fun h => absurd rfl h, by simp, fun h => absurd rfl h⟩
  refine now.refs.change_at (update_eq_self p s.proc).symm rfl
    (fun _ _ => ⟨rfl, rfl, rfl⟩) (fun refers => (refers.elim (names p) (counts p)).elim)
    (fun _ i _ => ⟨names i, counts i⟩) (fun _ is => absurd rfl is) (fun _ is => absurd rfl is)
    (.inl ?_) ?_
  · rcases now.refs.linked p with same | ⟨-, y, namesy, ownedy⟩
    · exact same
    · -- `p` has locked `x` alone, and does not name it
      have mine' := (owns y _).mpr ⟨rfl, ownedy⟩
      obtain ⟨rfl, -⟩ : x = y ∧ _ := by simpa using mine'
      exact absurd namesy (names p)
  · intro i ne owned
    exact absurd (Option.some.inj (owned.symm.trans owner)) ne

/-! ### Blocks for arguments, and for a moment -/

theorem takeArgs (now : Now p d g s T) (none : g.args = none)
    (got : (malloc s.swapmap NARGBLK).1 = a) (room : a ≠ 0) :
    s.takeArgs p = (a, (s.takeArgs p).2) ∧
      Now p d { g with args := some ⟨NARGBLK, a⟩ } (s.takeArgs p).2 T := by
  subst got
  have empty : s.swapRun (.args p) = Option.none := now.tells.args.symm.trans none
  have taken := now.maps.swap.malloc empty (by decide : NARGBLK ≠ 0) room
  simp only [World.takeArgs, if_neg room]
  refine ⟨trivial, now.step ⟨now.maps.core, ?_⟩ now.procs now.texts
    (now.refs.of_eq rfl rfl) (.of_args rfl rfl fun t ne => update_of_ne ne _ _) ?_
    now.fair⟩
  · rwa [swapRun_setArgs]
  · exact { now.tells with args := by simp [World.setArgs] }

theorem giveArgs (now : Now p d g s T) (mine : g.args = some ⟨NARGBLK, a⟩) :
    Now p d { g with args := none } (s.giveArgs p a) T := by
  have run : s.swapRun (.args p) = some ⟨NARGBLK, a⟩ := now.tells.args.symm.trans mine
  have given := now.maps.swap.mfree run
  refine now.step ⟨now.maps.core, ?_⟩ now.procs now.texts
    (now.refs.of_eq rfl rfl) (.of_args rfl rfl fun t ne => update_of_ne ne _ _) ?_
    now.fair
  · rwa [World.giveArgs, swapRun_setArgs]
  · exact { now.tells with args := by simp [World.giveArgs, World.setArgs] }

theorem borrow (now : Now p d g s T) (pos : n ≠ 0) (got : (malloc s.swapmap n).1 ≠ 0) :
    Now p d g ((s.setSwap (malloc s.swapmap n).2).giveSwap n (malloc s.swapmap n).1) T :=
  now.step ⟨now.maps.core, now.maps.swap.borrow pos got⟩ now.procs now.texts
    (now.refs.of_eq rfl rfl) (.of_eq rfl rfl rfl) (now.tells.of_eq rfl rfl rfl) now.fair

end Now

end V7Besm.Swap

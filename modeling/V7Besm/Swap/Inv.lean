import V7Besm.Coop.Cells
import V7Besm.Coop.Logic
import V7Besm.Count.Numbers
import V7Besm.Map.Share
import V7Besm.Swap.Code

/-!
What holds of the tables whenever nobody runs.

The core and the blocks are shared out among the images, the texts and the arguments
(`Maps`); the flags of a process go with the place of its image (`ProcOk`); the two counts of a
text number the processes that name it, and those whose image is in core (`Refs`). A
process that sleeps with `XLOCK` set does so with `x_ccount` 0 (`Calm`), so a process in core never
finds its own text locked by another. That is what the second `xunlock` of `xalloc` relies on.
-/

namespace V7Besm.Swap

open Coop Coop.Proto Map V7Besm.Count Function

/-- What a process owns: the text it has locked, the image it moves, what it knows of its
own entry, and the blocks for its arguments. -/
structure Hold where
  text : Option (Xid × Text) := none
  move : Option (Pid × Proc) := none
  know : Option (Stat × Option Xid) := none
  args : Option Entry := none

abbrev coreBase : Nat := NPAGE * PGSZ + USIZE
abbrev coreSize : Nat := phymem - coreBase
abbrev swapBase : Nat := 1

structure Maps (s : World) : Prop where
  core : Shared coreBase coreSize s.coremap s.coreRun
  swap : Shared swapBase nswap s.swapmap s.swapRun

def Stat.runs (st : Stat) : Prop := st = .live ∨ st = .idl

/-- The flags of `q` go with the place of its image. An image that leaves without its process
noticing is moved by process 0. -/
def Placed (q : Pid) (k : Proc) : Prop :=
  match k.place with
  | .nowhere => k.mover = none ∧ k.textp = none ∧
      (q = 0 ∧ k.load = true ∧ k.stat.runs ∧ 512 ≤ k.size ∨
        q ≠ 0 ∧ (k.stat = .null ∨ k.stat = .zomb))
  | .core => k.mover = none ∧ k.load = true ∧ (k.stat.runs ∨ k.stat = .born)
  | .disk => k.mover = none ∧ k.load = false ∧ (k.stat = .live ∨ k.stat = .born)
  | .leaving _ => k.mover = some (if k.load then q else 0) ∧ k.stat = .live
  | .out _ _ => k.mover = some (if k.load then q else 0) ∧ k.stat = .live ∧ k.lock = true
  | .shared => k.mover.isSome ∧ k.load = true ∧ k.stat = .born
  | .copy _ => k.mover.isSome ∧ k.load = true ∧ k.stat = .born ∧ k.lock = true
  | .inn _ _ => k.mover = some 0 ∧ k.load = false ∧ k.stat = .live

structure ProcOk (q : Pid) (k : Proc) : Prop where
  placed : Placed q k
  big : k.place ≠ .nowhere → q ≠ 0 ∧ 512 ≤ k.size

structure TextOk (k : Text) : Prop where
  gone : k.iptr = none → k.held = false ∧ k.owner = none
  big : k.iptr ≠ none → 512 ≤ k.size
  lock : k.lock = true ↔ k.owner ≠ none
  held : k.iptr ≠ none → k.lock = false → (k.held = true ↔ 0 < k.ccount)

/-- The text that counts the process, if all is done. -/
def Proc.expects (k : Proc) : Option Xid := if k.place.inCore then k.textp else none

/-- `q` has locked a text that does not count it yet. -/
def Joining (s : World) (q : Pid) : Prop :=
  (s.proc q).counted = none ∧ ∃ x, (s.proc q).textp = some x ∧ (s.text x).owner = some q

/-- The two counts of every text; the decrement of the `x_ccount` of `d` is still to be made. -/
structure Refs (d : Option Xid) (s : World) : Prop where
  names : Tally (fun q => (s.proc q).textp) (fun x => (s.text x).iptr ≠ none)
    fun x => (s.text x).count
  cores : Tally (fun q => (s.proc q).counted) (fun x => (s.text x).iptr ≠ none)
    fun x => (s.text x).ccount - hit d x
  linked : ∀ q, (s.proc q).counted = (s.proc q).expects ∨ Joining s q

/-- What `t` owns is there. -/
structure Tells (t : Pid) (g : Hold) (s : World) : Prop where
  text : Sole s.text Text.owner t g.text
  move : Sole s.proc Proc.mover t g.move
  know : ∀ st tp, g.know = some (st, tp) → (s.proc t).stat = st ∧ (s.proc t).textp = tp ∧ st.runs
  args : g.args = s.args t

structure Base (d : Option Xid) (s : World) (T : Pid → Hold) : Prop where
  maps : Maps s
  procs : ∀ q, ProcOk q (s.proc q)
  texts : ∀ x, TextOk (s.text x)
  refs : Refs d s
  own : ∀ t, Tells t (T t) s
  fair : s.foul = false

/-- With this a process may sleep. -/
structure Calm (g : Hold) : Prop where
  text : ∀ x k, g.text = some (x, k) → k.ccount = 0
  move : ∀ q k, g.move = some (q, k) → k.place ≠ .shared ∧ ∀ n, k.place ≠ .leaving n

/-- `p` runs, and owns `g`. -/
structure Now (p : Pid) (d : Option Xid) (g : Hold) (s : World) (T : Pid → Hold) : Prop where
  base : Base d s (update T p g)
  calm : ∀ t, t ≠ p → Calm (T t)

def proto : Proto Pid World Hold where
  inv s T := s.slipped = false → Base none s T ∧ ∀ t, Calm (T t)
  rest _ g := g = {}
  env s s' := s' = s ∨ ∃ w, s' = { s with wchan := w }
  guar _ _ s' := s'.foul = false
  may _ s := s.slipped = false
  sleeps _ s := s.slipped = false

variable {p q t me : Pid} {x y : Xid} {d d' : Option Xid} {g g' : Hold} {s s' s'' : World}
  {T : Pid → Hold} {k : Proc} {l : Text} {α : Type} {Q : α → World → (Pid → Hold) → Prop}

/-! ### Runs of the maps -/

@[simp] theorem proc_setProc : (s.setProc q k).proc = update s.proc q k := rfl
@[simp] theorem text_setText : (s.setText x l).text = update s.text x l := rfl
@[simp] theorem text_setProc : (s.setProc q k).text = s.text := rfl
@[simp] theorem proc_setText : (s.setText x l).proc = s.proc := rfl
@[simp] theorem proc_onText {f : Text → Text} : (s.onText x f).proc = s.proc := rfl

attribute [local simp] World.swapRun World.coreRun

theorem coreRun_setProc : (s.setProc q k).coreRun = update s.coreRun (.proc q) k.coreRun := by
  funext o
  cases o with
  | proc q' => by_cases e : q' = q <;> simp [e]
  | _ => simp

theorem swapRun_setProc : (s.setProc q k).swapRun = update s.swapRun (.proc q) k.swapRun := by
  funext o
  cases o with
  | proc q' => by_cases e : q' = q <;> simp [e]
  | _ => simp [World.setProc]

theorem coreRun_setText : (s.setText x l).coreRun = update s.coreRun (.text x) l.coreRun := by
  funext o
  cases o with
  | text x' => by_cases e : x' = x <;> simp [e]
  | _ => simp

theorem swapRun_setText : (s.setText x l).swapRun = update s.swapRun (.text x) l.swapRun := by
  funext o
  cases o with
  | text x' => by_cases e : x' = x <;> simp [e]
  | _ => simp [World.setText]

theorem swapRun_setArgs {r : Option Entry} :
    (s.setArgs p r).swapRun = update s.swapRun (.args p) r := by
  funext o
  cases o with
  | args p' => by_cases e : p' = p <;> simp [World.setArgs, e]
  | _ => simp [World.setArgs]

/-! ### What the others own -/

/-- Nobody's, or that of `p`. -/
def Mine (p : Pid) (o : Option Pid) : Prop := o = none ∨ o = some p

theorem Mine.ne {o : Option Pid} (mine : Mine p o) (other : t ≠ p) : o ≠ some t := by
  rcases mine with rfl | rfl
  · exact nofun
  · exact fun e => other (Option.some.inj e).symm

theorem Tells.of_eq (tells : Tells t g s) (proc : s'.proc = s.proc) (text : s'.text = s.text)
    (args : s'.args t = s.args t) : Tells t g s' := by
  refine ⟨?_, ?_, ?_, ?_⟩
  · rw [text]
    exact tells.text
  · rw [proc]
    exact tells.move
  · rw [proc]
    exact tells.know
  · rw [args]
    exact tells.args

/-- What the processes other than `p` own is still there. -/
def Kept (p : Pid) (s s' : World) : Prop := ∀ t g, t ≠ p → Tells t g s → Tells t g s'

namespace Kept

theorem refl : Kept p s s := fun _ _ _ tells => tells

theorem trans (first : Kept p s s') (second : Kept p s' s'') : Kept p s s'' :=
  fun t g other tells => second t g other (first t g other tells)

/-- Nothing changes but the blocks for the arguments of `p`. -/
theorem of_args (proc : s'.proc = s.proc) (text : s'.text = s.text)
    (args : ∀ t, t ≠ p → s'.args t = s.args t) : Kept p s s' :=
  fun t _ other tells => tells.of_eq proc text (args t other)

theorem of_eq (proc : s'.proc = s.proc) (text : s'.text = s.text) (args : s'.args = s.args) :
    Kept p s s' := of_args proc text fun t _ => congrFun args t

theorem setText (before : Mine p (s.text x).owner) (after : Mine p l.owner) :
    Kept p s (s.setText x l) := by
  intro t g other tells
  exact { tells with text := tells.text.skip (before.ne other) (after.ne other) }

theorem setProc (before : Mine p (s.proc q).mover) (after : Mine p k.mover)
    (know : q = p ∨ ¬ (s.proc q).stat.runs ∨
      k.stat = (s.proc q).stat ∧ k.textp = (s.proc q).textp) :
    Kept p s (s.setProc q k) := by
  intro t g other tells
  refine ⟨tells.text, tells.move.skip (before.ne other) (after.ne other), ?_, tells.args⟩
  intro st tp knows
  obtain ⟨stat, textp, runs⟩ := tells.know st tp knows
  by_cases e : t = q
  · subst e
    rcases know with rfl | stopped | ⟨stat', textp'⟩
    · exact absurd rfl other
    · exact absurd (stat ▸ runs) stopped
    · simp only [proc_setProc, update_self]
      exact ⟨stat'.trans stat, textp'.trans textp, runs⟩
  · simp only [proc_setProc, update_of_ne e]
    exact ⟨stat, textp, runs⟩

end Kept

/-! ### What the running process owns -/

namespace Now

section

variable (now : Now p d g s T)

include now

theorem maps : Maps s := now.base.maps
theorem procs : ∀ q, ProcOk q (s.proc q) := now.base.procs
theorem texts : ∀ x, TextOk (s.text x) := now.base.texts
theorem refs : Refs d s := now.base.refs
theorem fair : s.foul = false := now.base.fair

theorem tells : Tells p g s := by
  have := now.base.own p
  rwa [update_self] at this

theorem others (other : t ≠ p) : Tells t (T t) s := by
  have := now.base.own t
  rwa [update_of_ne other] at this

theorem step (maps : Maps s') (procs : ∀ q, ProcOk q (s'.proc q)) (texts : ∀ x, TextOk (s'.text x))
    (refs : Refs d' s') (kept : Kept p s s') (tells : Tells p g' s')
    (fair : s'.foul = false) : Now p d' g' s' T := by
  refine ⟨⟨maps, procs, texts, refs, ?_, fair⟩, now.calm⟩
  intro t
  by_cases e : t = p
  · subst e
    rwa [update_self]
  · rw [update_of_ne e]
    exact kept t _ e (now.others e)

theorem text_eq (mine : g.text = some (x, l)) : s.text x = l := by
  have := now.tells.text
  rw [mine] at this
  exact this.eq

theorem text_owner (mine : g.text = some (x, l)) : l.owner = some p := by
  have := now.tells.text
  rw [mine] at this
  exact this.owned

theorem move_eq (mine : g.move = some (q, k)) : s.proc q = k := by
  have := now.tells.move
  rw [mine] at this
  exact this.eq

theorem move_mover (mine : g.move = some (q, k)) : k.mover = some p := by
  have := now.tells.move
  rw [mine] at this
  exact this.owned

/-- Whoever has locked a text is this process, or sleeps with `x_ccount` 0. -/
theorem ccount_of_locked (locked : (s.text x).lock = true) :
    (s.text x).owner = some p ∨ (s.text x).ccount = 0 := by
  have owner := (now.texts x).lock.mp locked
  obtain ⟨t, owner⟩ := Option.ne_none_iff_exists'.mp owner
  by_cases e : t = p
  · exact .inl (e ▸ owner)
  · have mine := ((now.others e).text x _).mpr ⟨rfl, owner⟩
    exact .inr ((now.calm t e).text x _ mine)

/-- A text that counts somebody is not locked by anybody else. -/
theorem mine_of_ccount (some : 0 < (s.text x).ccount) : Mine p (s.text x).owner := by
  by_cases locked : (s.text x).lock = true
  · rcases now.ccount_of_locked locked with owner | zero
    · exact .inr owner
    · omega
  · have := (now.texts x).lock.not.mp locked
    exact .inl (not_not.mp this)

theorem unlocked_of_ccount (free : g.text = none)
    (some : 0 < (s.text x).ccount) : (s.text x).lock = false := by
  rcases now.mine_of_ccount some with none | owner
  · exact Bool.eq_false_iff.mpr fun locked => (now.texts x).lock.mp locked none
  · have := now.tells.text
    rw [free] at this
    exact absurd owner (this.free x)

/-- A process that has locked no text is not about to join one. -/
theorem linked (free : g.text = none) : (s.proc p).counted = (s.proc p).expects := by
  rcases now.refs.linked p with same | ⟨-, x, -, owner⟩
  · exact same
  · have := now.tells.text
    rw [free] at this
    exact absurd owner (this.free x)

theorem ccount_pos (counted : (s.proc q).counted = some x) : 0 < (s.text x).ccount := by
  have := (now.refs.cores.numbers x (now.refs.cores.target q x counted)).pos counted
  have := hit_nonneg (o := d) (y := x)
  omega

/-- A running process finds its image in core. -/
theorem place_core (still : g.move = none) (live : (s.proc p).stat = .live)
    (load : (s.proc p).load = true) (user : p ≠ 0) : (s.proc p).place = .core := by
  have placed := (now.procs p).placed
  have free : (s.proc p).mover ≠ some p := by
    have := now.tells.move
    rw [still] at this
    exact this.free p
  unfold Placed at placed
  cases place : (s.proc p).place <;> simp_all [Stat.runs]

/-- What a process knows of its own entry, it may know. -/
theorem learn (runs : (s.proc p).stat.runs) :
    Now p d { g with know := some ((s.proc p).stat, (s.proc p).textp) } s T := by
  refine now.step now.maps now.procs now.texts now.refs .refl ?_ now.fair
  refine { now.tells with know := ?_ }
  rintro st tp ⟨⟩
  exact ⟨rfl, rfl, runs⟩

theorem forget : Now p d { g with know := none } s T := by
  refine now.step now.maps now.procs now.texts now.refs .refl ?_ now.fair
  exact { now.tells with know := nofun }

end

end Now

/-! ### Changes that do not matter -/

theorem Refs.of_eq (refs : Refs d s) (proc : s'.proc = s.proc) (text : s'.text = s.text) :
    Refs d s' := by
  refine ⟨?_, ?_, ?_⟩
  · rw [proc, text]
    exact refs.names
  · rw [proc, text]
    exact refs.cores
  · unfold Joining
    rw [proc, text]
    exact refs.linked

theorem Maps.of_eq (maps : Maps s) (proc : s'.proc = s.proc) (text : s'.text = s.text)
    (args : s'.args = s.args) (coremap : s'.coremap = s.coremap)
    (swapmap : s'.swapmap = s.swapmap) : Maps s' := by
  have core : s'.coreRun = s.coreRun := by
    funext o
    cases o <;> simp [proc, text]
  have swap : s'.swapRun = s.swapRun := by
    funext o
    cases o <;> simp [proc, text, args]
  refine ⟨?_, ?_⟩
  · rw [coremap, core]
    exact maps.core
  · rw [swapmap, swap]
    exact maps.swap

/-- The flags of inodes, the wait channels and `XWANT` are nobody's. -/
theorem Now.of_eq (now : Now p d g s T) (proc : s'.proc = s.proc) (text : s'.text = s.text)
    (args : s'.args = s.args) (coremap : s'.coremap = s.coremap) (swapmap : s'.swapmap = s.swapmap)
    (foul : s'.foul = s.foul) : Now p d g s' T := by
  refine now.step (now.maps.of_eq proc text args coremap swapmap) ?_ ?_
    (now.refs.of_eq proc text) (.of_eq proc text args) (now.tells.of_eq proc text (congrFun args p))
    (foul.trans now.fair)
  · rw [proc]
    exact now.procs
  · rw [text]
    exact now.texts

end V7Besm.Swap

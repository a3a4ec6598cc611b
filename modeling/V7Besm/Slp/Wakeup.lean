import V7Besm.Links.Chain

/-!
The sleep queues and the run queue (`kernel/slp.c`).

A process is on at most one queue, linked through `p_link`: the bucket of
`slpque` its channel hashes to while it sleeps, or `runq` while it waits for
the processor. `wakeup` unlinks the sleepers of a channel from their bucket and
`setrun` puts each on `runq`; when one of them is swapped out and the scheduler
sleeps on `runout`, `setrun` calls `wakeup` again, from inside the walk.
-/

namespace V7Besm.Slp

open Links

abbrev NPROC : Nat := 150
abbrev SQSIZE : Nat := 64

/-- A slot of the process table. -/
abbrev Slot := Fin NPROC

/-- The bucket of a channel: `((int)x >> 5) & (SQSIZE - 1)`. -/
def hash (x : Nat) : Fin SQSIZE := ⟨x / 32 % SQSIZE, Nat.mod_lt _ (by decide)⟩

/-- `p_stat`; `free` is an unused slot. -/
inductive Stat where
  | free | sleep | wait | run | idl | zomb | stop
  deriving DecidableEq, Repr

/-- The fields of `struct proc` that the queues read: `load` is the `SLOAD` bit. -/
structure Proc where
  stat : Stat
  wchan : Nat
  load : Bool
  pri : Int
  link : Option Slot
  deriving DecidableEq, Repr

structure Table where
  proc : Slot → Proc
  slpque : Fin SQSIZE → Option Slot
  runq : Option Slot
  (runout runrun curpri : Int)

/-- Why a routine does not return: a panic, or the walk of a queue that has
no end. -/
inductive Stop where
  | panic (message : String)
  | endless
  deriving DecidableEq, Repr

namespace Table

def link (t : Table) (p : Slot) : Option Slot := (t.proc p).link

def set (t : Table) (p : Slot) (f : Proc → Proc) : Table :=
  { t with proc := Function.update t.proc p (f (t.proc p)) }

def setLink (t : Table) (p : Slot) (l : Option Slot) : Table :=
  t.set p fun r => { r with link := l }

/-- Is `p` on the queue that starts at the given slot? -/
def onQueue (t : Table) (p : Slot) : Nat → Option Slot → Except Stop Bool
  | _, none => .ok false
  | 0, some _ => .error .endless
  | n + 1, some q => if q = p then .ok true else t.onQueue p n (t.link q)

/-- Push a process on `runq`, unless it is there (`proc on q`). -/
def setrq (n : Nat) (p : Slot) (t : Table) : Except Stop Table :=
  (t.onQueue p n t.runq).map fun found =>
    if found then t else { t.setLink p t.runq with runq := some p }

end Table

/-- Ask for the processor if the process set running deserves it more. -/
def preempt (p : Slot) (t : Table) : Table :=
  if (t.proc p).pri < t.curpri then { t with runrun := t.runrun + 1 } else t

/-- Unlink the process whose successor is `sp`: `q` is the one before it in
the bucket of `chan`. -/
def unlink (t : Table) (chan : Nat) (q sp : Option Slot) : Table :=
  match q with
  | none => { t with slpque := Function.update t.slpque (hash chan) sp }
  | some q => t.setLink q sp

/-! `ro` is the address of `runout`, the channel the scheduler sleeps on. The
number bounds the steps of all the walks together. -/

mutual

/-- The `while` of `wakeup`: `p` is the process looked at, `q` the last one
that stays in the bucket. -/
def wakeLoop (ro : Nat) : Nat → Nat → Option Slot → Option Slot → Table → Except Stop Table
  | 0, _, _, _, _ => .error .endless
  | _ + 1, _, _, none, t => .ok t
  | n + 1, chan, q, some p, t =>
    if (t.proc p).wchan = chan ∧ (t.proc p).stat ≠ .zomb then
      let sp := t.link p
      let t := (unlink t chan q sp).set p fun r => { r with wchan := 0 }
      (setrun ro n p t).bind fun t => wakeLoop ro n chan q sp t
    else wakeLoop ro n chan (some p) (t.link p) t

/-- Set the process running; arrange for it to be swapped in if necessary. -/
def setrun (ro : Nat) : Nat → Slot → Table → Except Stop Table
  | 0, _, _ => .error .endless
  | n + 1, p, t =>
    if (t.proc p).stat = .free ∨ (t.proc p).stat = .zomb then
      .error (.panic "Running a dead proc")
    else if (t.proc p).wchan ≠ 0 then
      let w := (t.proc p).wchan
      wakeLoop ro n w none (t.slpque (hash w)) t
    else
      ((t.set p fun r => { r with stat := .run }).setrq n p).bind fun t =>
        let t := preempt p t
        if t.runout ≠ 0 ∧ (t.proc p).load = false then
          let t := { t with runout := 0 }
          wakeLoop ro n ro none (t.slpque (hash ro)) t
        else .ok t

end

/-- Wake up all processes sleeping on `chan`. -/
def wakeup (ro n chan : Nat) (t : Table) : Except Stop Table :=
  wakeLoop ro n chan none (t.slpque (hash chan)) t

/-! ### The queues -/

/-- `p` sleeps on `chan`. -/
def SleepsOn (t : Table) (chan : Nat) (p : Slot) : Prop := (t.proc p).wchan = chan ∧ chan ≠ 0

instance (t : Table) (chan : Nat) (p : Slot) : Decidable (SleepsOn t chan p) :=
  inferInstanceAs (Decidable (_ ∧ _))

/-- The buckets hold the lists `B` and the run queue the list `R`: every
process that waits for a channel is on the bucket of the channel, and nobody
else is. -/
structure Queued (t : Table) (B : Fin SQSIZE → List Slot) (R : List Slot) : Prop where
  bucket : ∀ i, Chain t.link (t.slpque i) (B i)
  runq : Chain t.link t.runq R
  asleep : ∀ i, ∀ p ∈ B i, (t.proc p).wchan ≠ 0 ∧ hash (t.proc p).wchan = i ∧
    (t.proc p).stat ≠ .free ∧ (t.proc p).stat ≠ .zomb
  awake : ∀ p ∈ R, (t.proc p).wchan = 0
  all : ∀ p, (t.proc p).wchan ≠ 0 → p ∈ B (hash (t.proc p).wchan)

/-- The processes `wakeup chan` has to set running: the sleepers of `chan`, and
the scheduler when one of them is not in core and `runout` is set. -/
def ToWake (ro chan : Nat) (t : Table) (p : Slot) : Prop :=
  SleepsOn t chan p ∨
    SleepsOn t ro p ∧ t.runout ≠ 0 ∧ ∃ x, SleepsOn t chan x ∧ (t.proc x).load = false

/-- `t'` is `t` after a `wakeup` that did its work: the processes to wake run
and are on the run queue, everybody else is where they were. -/
structure Woke (ro chan : Nat) (t : Table) (B : Fin SQSIZE → List Slot) (R : List Slot)
    (t' : Table) : Prop where
  run : ∀ p, ToWake ro chan t p → (t'.proc p).stat = .run ∧ (t'.proc p).wchan = 0
  same : ∀ p, ¬ ToWake ro chan t p →
    (t'.proc p).stat = (t.proc p).stat ∧ (t'.proc p).wchan = (t.proc p).wchan
  queued : ∃ B' R', Queued t' B' R' ∧ (∀ p, ToWake ro chan t p → p ∈ R') ∧ (∀ p ∈ R, p ∈ R') ∧
    ∀ i, ∀ p ∈ B i, ¬ ToWake ro chan t p → p ∈ B' i

end V7Besm.Slp

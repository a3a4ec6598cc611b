import Mathlib.Logic.Function.Basic
import Mathlib.Logic.Relation

/-!
Cooperative processes over a shared state.

A process runs its code until it gives the processor up; the only places where
it can are the `yield` points. Interrupts are taken at the `window` points and
while no process has the processor. `Code` is the code of one process,
`System.exec` the scheduler: it is a function of the configuration and of the
event the environment picks, so a run is a list of events and can be replayed.
-/

namespace V7Besm.Coop

open Function

/-- Code run by one process of `π` on shared states `σ`, returning an `α`.
Loops are a constructor, so code that never returns is code too. -/
inductive Code (π σ : Type) : Type → Type 1 where
  | ret {α : Type} (a : α) : Code π σ α
  /-- One indivisible action; it knows which process runs it. -/
  | act {α : Type} (f : π → σ → α × σ) : Code π σ α
  /-- Give the processor up. -/
  | yield : Code π σ Unit
  /-- A point at which interrupts are taken. -/
  | window : Code π σ Unit
  /-- Stop the machine. -/
  | halt {α : Type} : Code π σ α
  | bind {α β : Type} (c : Code π σ α) (k : α → Code π σ β) : Code π σ β
  /-- Repeat `body` from `b` until it answers `inr`. -/
  | loop {α β : Type} (body : β → Code π σ (β ⊕ α)) (b : β) : Code π σ α

namespace Code

variable {π σ α β : Type}

instance : Monad (Code π σ) where
  pure := .ret
  bind := .bind

@[simp] theorem pure_eq (a : α) : (pure a : Code π σ α) = .ret a := rfl

@[simp] theorem bind_eq (c : Code π σ α) (k : α → Code π σ β) : c >>= k = .bind c k := rfl

/-- Read the state. -/
def read (f : σ → α) : Code π σ α := .act fun _ s => (f s, s)

/-- Change the state. -/
def modify (f : σ → σ) : Code π σ Unit := .act fun _ s => ((), f s)

/-- The process that is running. -/
def self : Code π σ π := .act fun p s => (p, s)

/-- What a loop does with the answer of its body. -/
def again (body : β → Code π σ (β ⊕ α)) : β ⊕ α → Code π σ α
  | .inl b => .loop body b
  | .inr a => .ret a

end Code

/-- The first thing a piece of code does. -/
inductive Head (π σ : Type) (α : Type) : Type 1 where
  | ret (a : α)
  | act {β : Type} (f : π → σ → β × σ) (k : β → Code π σ α)
  | yield (k : Code π σ α)
  | window (k : Code π σ α)
  | tau (c : Code π σ α)
  | halt

/-- Put a continuation behind the head of a piece of code. -/
def Head.andThen {π σ α β : Type} (k : α → Code π σ β) : Head π σ α → Head π σ β
  | .ret a => .tau (k a)
  | .act f k' => .act f fun b => .bind (k' b) k
  | .yield c => .yield (.bind c k)
  | .window c => .window (.bind c k)
  | .tau c => .tau (.bind c k)
  | .halt => .halt

def Code.head {π σ : Type} : {α : Type} → Code π σ α → Head π σ α
  | _, .ret a => .ret a
  | _, .act f => .act f .ret
  | _, .yield => .yield (.ret ())
  | _, .window => .window (.ret ())
  | _, .halt => .halt
  | _, .bind c k => c.head.andThen k
  | _, .loop body b => .tau (.bind (body b) (Code.again body))

/-! ### Systems of processes -/

/-- What the processes of a system can be asked to do: the code behind each
call, which process may make which call, which processes are awake, and what
the interrupts do. -/
structure System (π σ κ ι : Type) where
  code : κ → Code π σ Unit
  entry : π → σ → κ → Bool
  awake : π → σ → Bool
  intr : ι → σ → Option σ

/-- A shared state, the code each process still has to run (none outside the
kernel), and the process that has the processor. -/
structure Config (π σ : Type) : Type 1 where
  st : σ
  thr : π → Option (Code π σ Unit)
  cpu : Option π

/-- What happens next: process `p` makes call `k`, a sleeping process gets the
processor back, the running process takes a step, or an interrupt arrives. -/
inductive Event (π κ ι : Type) where
  | call (p : π) (k : κ)
  | dispatch (p : π)
  | tick
  | intr (i : ι)

namespace System

variable {π σ κ ι : Type} [DecidableEq π] (S : System π σ κ ι) {x y : Config π σ}

/-- One step of the process that has the processor. -/
def tick (p : π) (c : Code π σ Unit) (x : Config π σ) : Option (Config π σ) :=
  match c.head with
  | .ret _ => some ⟨x.st, update x.thr p none, none⟩
  | .act f k => some ⟨(f p x.st).2, update x.thr p (some (k (f p x.st).1)), x.cpu⟩
  | .yield k => some ⟨x.st, update x.thr p (some k), none⟩
  | .window k => some ⟨x.st, update x.thr p (some k), x.cpu⟩
  | .tau k => some ⟨x.st, update x.thr p (some k), x.cpu⟩
  | .halt => none

/-- Interrupts are taken when nobody runs, or at a window of who runs. -/
def open? (x : Config π σ) : Bool :=
  match x.cpu with
  | none => true
  | some p => match x.thr p with
    | none => false
    | some c => match c.head with
      | .window _ => true
      | _ => false

def exec (x : Config π σ) : Event π κ ι → Option (Config π σ)
  | .call p k =>
    match x.cpu, x.thr p with
    | none, none => if S.entry p x.st k then
        some ⟨x.st, update x.thr p (some (S.code k)), some p⟩ else none
    | _, _ => none
  | .dispatch p =>
    match x.cpu, x.thr p with
    | none, some _ => if S.awake p x.st then some ⟨x.st, x.thr, some p⟩ else none
    | _, _ => none
  | .tick =>
    match x.cpu with
    | none => none
    | some p => match x.thr p with
      | none => none
      | some c => tick p c x
  | .intr i => if open? x then (S.intr i x.st).map fun s => ⟨s, x.thr, x.cpu⟩ else none

/-- Let the running process go on until it gives the processor up. -/
def drain : Nat → Config π σ → Option (Config π σ)
  | 0, _ => none
  | n + 1, x =>
    match x.cpu with
    | none => some x
    | some _ => (S.exec x .tick).bind (drain n)

/-- Replay a run in which nothing happens while a process has the processor, for
at most `n` steps at a time. -/
def play (n : Nat) : Config π σ → List (Event π κ ι) → Option (Config π σ)
  | x, [] => some x
  | x, e :: es => ((S.exec x e).bind (S.drain n)).bind fun y => play n y es

/-- The configurations of the runs all of whose steps meet `C`. -/
inductive Reach (C : Config π σ → Event π κ ι → Prop) (x : Config π σ) : Config π σ → Prop where
  | refl : Reach C x x
  | step {y z : Config π σ} {e : Event π κ ι} :
      Reach C x y → C y e → S.exec y e = some z → Reach C x z

/-- Nobody is inside the kernel. -/
def quiet (s : σ) : Config π σ := ⟨s, fun _ => none, none⟩

theorem Reach.trans {C : Config π σ → Event π κ ι → Prop} {z : Config π σ}
    (first : S.Reach C x y) (second : S.Reach C y z) : S.Reach C x z := by
  induction second with
  | refl => exact first
  | step _ allowed taken ih => exact .step ih allowed taken

theorem reach_of_drain {n : Nat} (run : S.drain n x = some y) : S.Reach (fun _ _ => True) x y := by
  induction n generalizing x with
  | zero => cases run
  | succ n ih =>
    rw [drain] at run
    split at run
    · cases run
      exact .refl
    · obtain ⟨z, taken, rest⟩ := Option.bind_eq_some_iff.mp run
      exact (Reach.step .refl trivial taken).trans S (ih rest)

theorem reach_of_play {n : Nat} {es : List (Event π κ ι)}
    (run : S.play n x es = some y) : S.Reach (fun _ _ => True) x y := by
  induction es generalizing x with
  | nil =>
    cases run
    exact .refl
  | cons e es ih =>
    obtain ⟨z, first, rest⟩ := Option.bind_eq_some_iff.mp run
    obtain ⟨w, taken, drained⟩ := Option.bind_eq_some_iff.mp first
    exact ((Reach.step .refl trivial taken).trans S (S.reach_of_drain drained)).trans S (ih rest)

/-- A replayed run ends in a configuration that passes a test. -/
theorem exists_of_play (n : Nat) (x : Config π σ) (es : List (Event π κ ι))
    (P : Config π σ → Prop) [DecidablePred P] (passes : (S.play n x es).any (P ·) = true) :
    ∃ y, S.Reach (fun _ _ => True) x y ∧ P y := by
  cases run : S.play n x es with
  | none => simp [run] at passes
  | some y => exact ⟨y, S.reach_of_play run, by simpa [run] using passes⟩

/-- `drain`, as long as the steps pass `ok`. -/
def drainIf (ok : Config π σ → Event π κ ι → Bool) : Nat → Config π σ → Option (Config π σ)
  | 0, _ => none
  | n + 1, x =>
    match x.cpu with
    | none => some x
    | some _ => if ok x .tick then (S.exec x .tick).bind (drainIf ok n) else none

/-- `play`, as long as the steps pass `ok`. -/
def playIf (ok : Config π σ → Event π κ ι → Bool) (n : Nat) :
    Config π σ → List (Event π κ ι) → Option (Config π σ)
  | x, [] => some x
  | x, e :: es =>
    if ok x e then ((S.exec x e).bind (S.drainIf ok n)).bind fun y => playIf ok n y es else none

theorem reach_of_drainIf {C : Config π σ → Event π κ ι → Prop} [∀ x e, Decidable (C x e)] {n : Nat}
    (run : S.drainIf (C · ·) n x = some y) : S.Reach C x y := by
  induction n generalizing x with
  | zero => cases run
  | succ n ih =>
    rw [drainIf] at run
    split at run
    · cases run
      exact .refl
    · split at run
      · rename_i passes
        obtain ⟨z, taken, rest⟩ := Option.bind_eq_some_iff.mp run
        exact (Reach.step .refl (of_decide_eq_true passes) taken).trans S (ih rest)
      · cases run

/-- A replayed run whose steps meet `C` ends in a configuration that passes a test. -/
theorem exists_of_playIf (C : Config π σ → Event π κ ι → Prop) [∀ x e, Decidable (C x e)] (n : Nat)
    (x : Config π σ) (es : List (Event π κ ι)) (P : Config π σ → Prop) [DecidablePred P]
    (passes : (S.playIf (C · ·) n x es).any (P ·) = true) : ∃ y, S.Reach C x y ∧ P y := by
  induction es generalizing x with
  | nil => exact ⟨x, .refl, by simpa [playIf] using passes⟩
  | cons e es ih =>
    rw [playIf] at passes
    split at passes
    · rename_i allowed
      cases first : (S.exec x e).bind (S.drainIf (C · ·) n) with
      | none => simp [first] at passes
      | some z =>
        obtain ⟨w, taken, drained⟩ := Option.bind_eq_some_iff.mp first
        obtain ⟨y, rest, good⟩ := ih z (by simpa [first] using passes)
        have here := Reach.step .refl (of_decide_eq_true allowed) taken
        exact ⟨y, (here.trans S (S.reach_of_drainIf drained)).trans S rest, good⟩
    · simp at passes

/-- The system in which only the calls that pass `ok` are made. -/
def only (ok : κ → Bool) : System π σ κ ι := { S with entry := fun p s k => S.entry p s k && ok k }

/-- Runs in which only the calls that pass `ok` are made. -/
def Calls (ok : κ → Bool) : Config π σ → Event π κ ι → Prop
  | _, .call _ k => ok k = true
  | _, _ => True

theorem reach_only_iff {ok : κ → Bool} :
    (S.only ok).Reach (fun _ _ => True) x y ↔ S.Reach (Calls ok) x y := by
  constructor
  · intro run
    induction run with
    | refl => exact .refl
    | @step y z e _ _ taken ih =>
      suffices here : Calls ok y e ∧ S.exec y e = some z from .step ih here.1 here.2
      cases e with
      | call p k =>
        simp only [exec, only, Bool.and_eq_true] at taken
        split at taken
        · split at taken
          · rename_i cpu thr entry
            exact ⟨entry.2, by simpa [exec, cpu, thr, entry.1] using taken⟩
          · cases taken
        · cases taken
      | _ => exact ⟨trivial, taken⟩
  · intro run
    induction run with
    | refl => exact .refl
    | @step y z e _ meets taken ih =>
      refine .step (e := e) ih trivial ?_
      cases e with
      | call p k =>
        have ok : ok k = true := meets
        simpa [exec, only, ok] using taken
      | _ => exact taken

/-- What one interrupt does, any number of times. -/
def Env : σ → σ → Prop := Relation.ReflTransGen fun s s' => ∃ i, S.intr i s = some s'

end System

end V7Besm.Coop

import V7Besm.Libc.Serve
import V7Besm.Links.Chain

/-!
A program that uses the allocator.

It holds the blocks that it got and has not given back, and stores words in them. A block that
`realloc` is called for is given back by that call, whether or not another one is returned;
`realloc` is also defined for a block that was given back after the last request.
-/

namespace V7Besm.Libc

open Tiles Words Links Function

/-- Memory and the allocator; the blocks held, each with the words that its owner has left in it;
and those given back since the last request. -/
structure State where
  heap : Heap
  live : Nat → Option (List Nat)
  recent : Nat → Option (List Nat)

inductive Call where
  | malloc (nbytes : Nat)
  | calloc (num size : Nat)
  | realloc (p nbytes : Nat)
  | free (p : Nat)
  | store (p i w : Nat)

variable (env : Env)

/-- The words of a request, without the header. -/
def payload (nbytes : Nat) : Nat := blockWords nbytes - 1

/-- The program gets the block `p` (or the null pointer), the first words of which are `old`. -/
def State.get (st : State) (p nbytes : Nat) (old : List Nat) (heap : Heap) : State where
  heap := heap
  live := if p = 0 then st.live else
    let kept := old.take (payload nbytes)
    update st.live p (some (kept ++
      wordsAt heap.mem (p + kept.length) (payload nbytes - kept.length)))
  recent := fun _ => none

/-- The program gives the block `p` back. -/
def State.drop (st : State) (p : Nat) : State :=
  { st with live := update st.live p none, recent := update st.recent p (st.live p) }

/-- The words of a block held or just given back. -/
def State.words (st : State) (p : Nat) : List Nat := ((st.live p).or (st.recent p)).getD []

/-- What the program may do. -/
def Legal (st : State) : Call → Prop
  | .malloc _ => True
  | .calloc _ _ => True
  | .realloc p _ => p = 0 ∨ (∃ ws, st.live p = some ws) ∨ ∃ ws, st.recent p = some ws
  | .free p => p = 0 ∨ ∃ ws, st.live p = some ws
  | .store p i _ => ∃ ws, st.live p = some ws ∧ i < ws.length

/-- A call, or an owner's store; `none` if a loop in it does not end. -/
def step (st : State) : Call → Option State
  | .malloc nbytes => (malloc env nbytes st.heap).map fun r => st.get r.1 nbytes [] r.2
  | .calloc num size => (calloc env num size st.heap).map fun r => st.get r.1 (num * size) [] r.2
  | .realloc p nbytes => (realloc env p nbytes st.heap).map fun r =>
    (st.drop p).get r.1 nbytes (st.words p) r.2
  | .free p => some (if p = 0 then st else { st.drop p with heap := free p st.heap })
  | .store p i w => some { st with
      heap := st.heap.store (p + i) w
      live := update st.live p ((st.live p).map fun ws => ws.set i w) }

/-! ### What is claimed -/

/-- The next header of the chain, until it is back at the arena base. -/
def around (s : Heap) (x : Nat) : Option Nat :=
  if clearbusy (s.load x) = s.allocb then none else some (clearbusy (s.load x))

/-- The chain from the arena base is the ring `l`. -/
def IsRing (s : Heap) (l : List Nat) : Prop := Chain (around s) (some s.allocb) l

/-- The blocks held are disjoint and keep their words, and the chain is a ring through all their
headers; before the first block it is not there yet. -/
structure Safe (st : State) : Prop where
  disjoint : ∀ p ws p' ws', st.live p = some ws → st.live p' = some ws' → p < p' →
    p + ws.length < p'
  words : ∀ p ws, st.live p = some ws → At st.heap.mem p ws
  ring : (st.heap.load env.alloca = 0 ∧ ∀ p, st.live p = none) ∨
    ∃ l, IsRing st.heap l ∧ l.Nodup ∧ ∀ p ws, st.live p = some ws → 0 < p ∧ p - 1 ∈ l

/-- The search pointer names a header of the ring, or the block it names is too small for the
request. -/
def Serves (s : Heap) (nbytes : Nat) : Prop :=
  s.load env.alloca = 0 ∨ (∃ l, IsRing s l ∧ s.allocp ∈ l) ∨
    s.load s.allocp < s.allocp + blockWords nbytes

/-- What has to hold before a call that searches the arena from where the search pointer is. -/
def Sound (st : State) : Call → Prop
  | .malloc nbytes => nbytes < NWORDS * WORD → Serves env st.heap nbytes
  | .calloc num size => (size = 0 ∨ num ≤ SIZE_MAX / size) → num * size < NWORDS * WORD →
      Serves env st.heap (num * size)
  | .realloc p nbytes => p = 0 → nbytes < NWORDS * WORD → Serves env st.heap nbytes
  | .free _ => True
  | .store _ _ _ => True

/-- May the program do it? -/
def legal (st : State) : Call → Bool
  | .malloc _ => true
  | .calloc _ _ => true
  | .realloc p _ => p = 0 || (st.live p).isSome || (st.recent p).isSome
  | .free p => p = 0 || (st.live p).isSome
  | .store p i _ => (st.live p).any fun ws => i < ws.length

theorem legal_iff {st : State} {call : Call} : legal st call = true ↔ Legal st call := by
  cases call with
  | malloc nbytes | calloc num size => exact ⟨fun _ => trivial, fun _ => rfl⟩
  | realloc p nbytes => simp [legal, Legal, Option.isSome_iff_exists, or_assoc]
  | free p => simp [legal, Legal, Option.isSome_iff_exists]
  | store p i w =>
    cases live : st.live p with
    | none | some ws => simp [legal, Legal, live]

/-- The state behind some calls that are allowed. -/
def runs (st : State) : List Call → Option State
  | [] => some st
  | call :: calls => if legal st call then (step env st call).bind fun st' => runs st' calls else none

/-- Each call that is allowed returns, and each state on the way is safe. -/
def AllSafe (st : State) : List Call → Prop
  | [] => Safe env st
  | call :: calls => Safe env st ∧
    (Legal st call → ∃ st', step env st call = some st' ∧ AllSafe st' calls)

/-- Each call that is allowed is made when it may. -/
def AllSound (st : State) : List Call → Prop
  | [] => True
  | call :: calls => Legal st call →
    Sound env st call ∧ ∀ st', step env st call = some st' → AllSound st' calls

/-- The start of a program: nothing is held, and `alloca` is 0. -/
def start (mem : Nat → Nat) (brk : Nat) : State where
  heap := ⟨mem, env.alloca, env.alloca, 0, brk, 0⟩
  live := fun _ => none
  recent := fun _ => none

end V7Besm.Libc

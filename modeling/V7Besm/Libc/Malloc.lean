import Mathlib.Algebra.GroupWithZero.Nat
import Mathlib.Logic.Function.Basic

/-!
The storage allocator of the C library (`malloc.c`, `calloc.c`, and `sbrk` of `sbrk.c`).

Memory has 2^15 words, of which a pointer names one by its lower 15 bits. A header is a
pointer to the next header, with the bit 16 set in those of busy blocks. The sum of a pointer and a
number is not cut to 15 bits; the break, a `char *`, is. The loops follow links that a
program could have destroyed, so each has a bound, far above the number of words; that it is
never used up is proved about them.
-/

namespace V7Besm.Libc

/-- Characters in a word. -/
def WORD : Nat := 6

/-- Words that the arena grows by. -/
def BLOCK : Nat := 1024

def FRAG : Nat := 1024

def BUSY : Nat := 32768

def NWORDS : Nat := 32768

def testbusy (w : Nat) : Bool := w / BUSY % 2 = 1

def setbusy (w : Nat) : Nat := if testbusy w then w else w + BUSY

def clearbusy (w : Nat) : Nat := if testbusy w then w - BUSY else w

/-- Where the first block of the arena is, and which of the calls of `break` succeed. -/
structure Env where
  alloca : Nat
  grants : Nat → Bool

/-- Memory, the variables of the allocator, the break, and the number of calls of `break`. -/
structure Heap where
  mem : Nat → Nat
  (allocb allocp allocx curbrk calls : Nat)

/-- `p->ptr`. -/
def Heap.load (s : Heap) (p : Nat) : Nat := s.mem (p % NWORDS)

/-- `p->ptr = v`. -/
def Heap.store (s : Heap) (p v : Nat) : Heap :=
  { s with mem := Function.update s.mem (p % NWORDS) v }

variable (env : Env)

/-- `sbrk`; 0 is the null pointer. -/
def sbrk (incr : Nat) (s : Heap) : Nat × Heap :=
  let old := s.curbrk
  let new := (old + (incr + 5) / WORD) % NWORDS
  if 0 < incr ∧ new ≤ old then (0, s)
  else if env.grants s.calls then (old, { s with curbrk := new, calls := s.calls + 1 })
  else (0, { s with calls := s.calls + 1 })

/-! ### `ialloc` -/

def limit : Nat := 2 * NWORDS + 2

/-- The loop of `ialloc`: the last cell of the arena before the new block, and the first
behind it. -/
def place (s : Heap) (q r : Nat) : Nat → Nat → Option (Nat × Nat)
  | 0, _ => none
  | fuel + 1, p =>
    let next := clearbusy (s.load p)
    if next = s.allocb ∨ next > r ∧ p < q then some (p, next) else place s q r fuel next

/-- `ialloc`, with the number of words. -/
def ialloc (q words : Nat) (s : Heap) : Option Heap :=
  let r := q + words - 1
  let s := s.store q r
  let s := if s.load env.alloca = 0 then s.store env.alloca env.alloca else s
  match place s q r limit s.allocb with
  | none => none
  | some (p, next) =>
    let s := s.store p (if q = p + 1 then q else setbusy q)
    let s := s.store r (if next = r + 1 then next else setbusy next)
    some { s with allocb := if s.allocb > q then q else s.allocb }

/-! ### `malloc` -/

/-- The idle blocks behind the block `p` become parts of it; what is behind them then? -/
def coalesce (p : Nat) : Nat → Heap → Option (Nat × Heap)
  | 0, _ => none
  | fuel + 1, s =>
    let q := s.load p
    if testbusy (s.load q) then some (q, s) else coalesce p fuel (s.store p (s.load q))

/-- How a search for `nw` words ends: at the block `p`, which reaches to `q`; with a null pointer,
since the arena is destroyed; or without a block. -/
inductive Outcome where
  | found (p q : Nat)
  | null
  | full
deriving DecidableEq, Repr

/-- Is there room at the block `p`? -/
def tryBlock (nw p : Nat) (s : Heap) : Option (Option Nat × Heap) :=
  if testbusy (s.load p) then some (none, s)
  else (coalesce p limit s).map fun r =>
    (if r.1 ≥ p + nw ∧ p + nw ≥ p then some r.1 else none, r.2)

/-- The search of `malloc`, from the block `p` on. -/
def search (nw : Nat) : Nat → Nat → Nat → Heap → Option (Outcome × Heap)
  | 0, _, _, _ => none
  | fuel + 1, temp, p, s =>
    match tryBlock nw p s with
    | none => none
    | some (some q, s) => some (.found p q, s)
    | some (none, s) =>
      let next := clearbusy (s.load p)
      if next ≤ p then
        if next ≠ s.allocb then some (.null, s)
        else if temp + 1 > 1 then some (.full, s)
        else search nw fuel (temp + 1) next s
      else search nw fuel temp next s

/-- The search, which an arena that is empty does not need. -/
def searchArena (nw : Nat) (s : Heap) : Option (Outcome × Heap) :=
  if s.load env.alloca ≠ 0 then search nw limit 0 s.allocp s else some (.full, s)

/-- The loop around `sbrk`, from `pages` pages down: the new block and the number of its words. -/
def askPages (nw : Nat) : Nat → Heap → Option (Nat × Nat) × Heap
  | 0, s => (none, s)
  | pages + 1, s =>
    let r := sbrk env ((pages + 1) * BLOCK * WORD) s
    if r.1 ≠ 0 then (some (r.1, (pages + 1) * BLOCK), r.2)
    else if pages * FRAG ≤ nw then (none, r.2)
    else askPages nw pages r.2

/-- The arena grows; `false` stands for the null pointer that `malloc` returns then. -/
def grow (nw : Nat) (s : Heap) : Option (Bool × Heap) :=
  let pages := (nw + BLOCK) / BLOCK
  let r := sbrk env 0 s
  if r.1 + pages * BLOCK ≤ r.1 then some (false, r.2)
  else
    match askPages env nw pages r.2 with
    | (none, s) => some (false, s)
    | (some (q, temp), s) =>
      (ialloc env q temp s).map fun s => (true, { s with allocp := s.allocb })

/-- The block at `p`, which reaches to `q`, is taken. -/
def take (nw p q : Nat) (s : Heap) : Heap :=
  let s := { s with allocp := p + nw }
  let s := if q > s.allocp then
      { s with allocx := s.load s.allocp }.store s.allocp (s.load p)
    else s
  s.store p (setbusy s.allocp)

/-- The outer loop of `malloc`. -/
def attempt (nw : Nat) : Nat → Heap → Option (Nat × Heap)
  | 0, _ => none
  | fuel + 1, s =>
    match searchArena env nw s with
    | none => none
    | some (.found p q, s) => some (p + 1, take nw p q s)
    | some (.null, s) => some (0, s)
    | some (.full, s) =>
      match grow env nw s with
      | none => none
      | some (false, s) => some (0, s)
      | some (true, s) => attempt nw fuel s

/-- The words of a block for `nbytes`, with its header. -/
def blockWords (nbytes : Nat) : Nat := (nbytes + WORD + WORD - 1) / WORD

def malloc (nbytes : Nat) (s : Heap) : Option (Nat × Heap) :=
  if nbytes ≥ NWORDS * WORD then some (0, s) else attempt env (blockWords nbytes) limit s

/-! ### `free`, `calloc`, `realloc` -/

def free (ap : Nat) (s : Heap) : Heap :=
  if ap = 0 then s
  else
    let p := ap - 1
    { s with allocp := p }.store p (clearbusy (s.load p))

/-- The word with its byte `i`, counted from the upper end, cleared. -/
def clearByte (w i : Nat) : Nat := w - w / 2 ^ (8 * (5 - i)) % 256 * 2 ^ (8 * (5 - i))

/-- `memset(p, 0, n)`. -/
def clear (p n : Nat) (s : Heap) : Heap :=
  (List.range n).foldl (fun s i =>
    s.store (p + i / WORD) (clearByte (s.load (p + i / WORD)) (i % WORD))) s

def SIZE_MAX : Nat := 2 ^ 48 - 1

def calloc (num size : Nat) (s : Heap) : Option (Nat × Heap) :=
  if size ≠ 0 ∧ num > SIZE_MAX / size then some (0, s)
  else (malloc env (num * size) s).map fun r =>
    if r.1 = 0 then (0, r.2) else (r.1, clear r.1 (num * size) r.2)

/-- `*t++ = *s++`, for the given number of words. -/
def copy (t p n : Nat) (s : Heap) : Heap :=
  (List.range n).foldl (fun s i => s.store (t + i) (s.load (p + i))) s

/-- `realloc` behind its `malloc`, for a block that has moved; `onw` is the old number of words. -/
def move (p q onw nbytes : Nat) (s : Heap) : Heap :=
  let nw := (nbytes + WORD - 1) / WORD
  let s := copy q p (if nw < onw then nw else onw) s
  if q < p ∧ q + nw ≥ p then s.store (q + (q + nw - p)) s.allocx else s

def realloc (p nbytes : Nat) (s : Heap) : Option (Nat × Heap) :=
  if p = 0 then malloc env nbytes s
  else
    let s := if testbusy (s.load (p - 1)) then free p s else s
    let onw := s.load (p - 1) - p
    (malloc env nbytes s).map fun r =>
      if r.1 = 0 then (0, r.2) else if r.1 = p then (p, r.2) else (r.1, move p r.1 onw nbytes r.2)

end V7Besm.Libc

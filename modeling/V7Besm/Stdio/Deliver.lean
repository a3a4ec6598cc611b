import Mathlib.Logic.Function.Iterate
import V7Besm.Stdio.Table
import V7Besm.Stdio.Write

/-!
Does a stream deliver the bytes put into it?

A stream is opened for writing on a slot that has been in use before. Its buffer may be set, then
bytes are put, and in the end it is closed. The caller's memory is what is not a buffer of this
stream: the caller stores there at any time, and takes from there what is written.

The slot keeps the buffer it had, and the cursor in it, unless the buffer came from `malloc` or the
stream had none. What was delivered is what was put exactly if nothing of that is left over: the
cursor is at the start, and the buffer is one of the library's.
-/

namespace V7Besm.Stdio

open Words List

inductive Opening where
  | fopen
  | freopen (i : Nat)

/-- An opening for which the kernel gives the descriptor `fd`. -/
structure Request where
  opening : Opening
  mode : Mode
  fd : Nat
  ans : Answers

def Request.run (r : Request) (w : World) : Option Nat × World :=
  match r.opening with
  | .fopen => fopen r.mode (some r.fd) w
  | .freopen i => freopen r.ans r.mode (some r.fd) i w

/-- The stream is opened for writing. -/
def Mode.Writes (mode : Mode) : Prop :=
  mode.first = 'w' ∨ mode.first = 'a' ∨ (mode.first = 'r' ∧ mode.plus = true)

/-- What is done about the buffer before anything is written. -/
inductive Setup where
  | asIs
  | setbuf (buf : Nat)
  | setvbuf (buf : Nat) (mode : Option Buffering) (size : Nat)
  | setbuffer (buf : Nat) (size : Int)
  | setlinebuf

def Setup.run (ans : Answers) (i : Nat) (w : World) : Setup → World
  | .asIs => w
  | .setbuf buf => Stdio.setbuf buf i w
  | .setvbuf buf mode size => (Stdio.setvbuf ans buf mode size i w).2
  | .setbuffer buf size => Stdio.setbuffer ans buf size i w
  | .setlinebuf => Stdio.setlinebuf i w

/-- The bytes from `p` on, `n` of them, if `p` is not null. -/
def Within (p n a : Nat) : Prop := p ≠ 0 ∧ p ≤ a ∧ a < p + n

/-- The buffer that is set. -/
def Setup.Buffer (ans : Answers) (a : Nat) : Setup → Prop
  | .setbuf buf => Within buf BUFSIZ a
  | .setvbuf buf (some .full) size | .setvbuf buf (some .line) size =>
    Within (if buf = 0 then ans.malloc else buf) size a
  | .setbuffer buf size => Within buf size.toNat a
  | .asIs | .setvbuf _ (some .no) _ | .setvbuf _ none _ | .setlinebuf => False

/-- The buffers of the library. -/
def Static (lay : Layout) (a : Nat) : Prop :=
  Within lay.sibuf BUFSIZ a ∨ Within lay.sobuf BUFSIZ a ∨ Within lay.smallbuf NFILE a

/-- How a stream is used: what is done about the buffer, and what is answered then and later. -/
structure Use where
  setup : Setup
  atSetup : Answers
  ans : Answers

/-- The caller's memory. -/
def Use.Own (lay : Layout) (u : Use) (a : Nat) : Prop :=
  ¬ Static lay a ∧ ¬ u.setup.Buffer u.atSetup a ∧ ¬ Within u.ans.malloc BUFSIZ a

inductive Put where
  | putc (c : Nat)
  | fputs (s len : Nat)
  | fwrite (p size count : Nat)
  | fflush
  | store (a : Nat) (c : UInt8)

def Put.Allowed (own : Nat → Prop) (w : World) : Put → Prop
  | .putc _ => True
  | .fputs s len => Text w.mem s len ∧ ∀ a, s ≤ a → a < s + (len + 1) → own a
  | .fwrite p size count => ∀ a, p ≤ a → a < p + size * count → own a
  | .fflush => True
  | .store a _ => own a

/-- The bytes put. -/
def Put.bytes (w : World) : Put → List UInt8
  | .putc c => [UInt8.ofNat c]
  | .fputs s len => stretch w.mem s len
  | .fwrite p size count => stretch w.mem p (size * count)
  | .fflush => []
  | .store _ _ => []

variable (lay : Layout)

def Put.run (ans : Answers) (i : Nat) (w : World) : Put → Option World
  | .putc c => some (Stdio.putc lay ans c i w).2
  | .fputs s len => (Stdio.fputs lay ans i (len + 1) s w).map Prod.snd
  | .fwrite p size count => some (Stdio.fwrite lay ans p size count i w).2
  | .fflush => some (Stdio.fflush ans i w).2
  | .store a c => some (w.store a c)

/-- Each call returns, and what is handed to the descriptor `fd` up to the end of `fclose` is `put`
and behind it the bytes of the calls. -/
def Delivers (u : Use) (i fd k : Nat) (w : World) (put : List UInt8) : List Put → Prop
  | [] => sent fd k (fclose u.ans i w).2 = put
  | call :: calls => call.Allowed (u.Own lay) w →
      ∃ w', call.run lay u.ans i w = some w' ∧ Delivers u i fd k w' (put ++ call.bytes w) calls

/-- The stream that is opened is one of the table, and delivers the bytes put into it if every
`write` is complete. -/
def Faithful (w : World) (r : Request) : Prop :=
  ∀ i w', r.run w = (some i, w') → i < NFILE ∧ ∀ u : Use, u.ans.write = none → ∀ calls,
    Delivers lay u i r.fd w'.wrote.length (u.setup.run u.atSetup i w') [] calls

/-! ### The condition -/

/-- The whole buffer is one of the library's. -/
def Ours (f : FILE) : Prop := ∀ a, f.base ≤ a → a < f.base + f.bufsiz → Static lay a

/-- A slot that is not in use has nothing left over. -/
def Clean (f : FILE) : Prop := f.base = 0 ∨ (f.ptr = f.base ∧ Ours lay f)

/-- A slot has nothing left over once it is closed: the buffer is given up then, or it is one of
the library's and has been written from, or not been used. -/
def Released (f : FILE) : Prop :=
  f.flag.mem = true ∨ f.flag.mybuf = true ∨ f.flag.unbuf = true ∨ f.base = 0 ∨
    ((f.ptr = f.base ∨ f.flag.wrt = true) ∧ Ours lay f)

/-- The first slot that is not in use is one of the table and has nothing left over, or for
`freopen` the slot has nothing left over when it is closed. -/
def Ready (w : World) : Opening → Prop
  | .fopen => ∀ i ≤ NFILE, (w.iob i).busy = false → (∀ j < i, (w.iob j).busy = true) →
      i < NFILE ∧ Clean lay (w.iob i)
  | .freopen i => Released lay (w.iob i)

/-! ### Opening -/

variable {lay}

/-- A slot that has just been opened for writing. -/
def opened (mode : Mode) (fd : Nat) (f : FILE) : FILE :=
  { f with cnt := 0, file := fd, flag := if mode.plus then { rw := true } else { wrt := true } }

theorem endopen_eq {mode : Mode} (writes : mode.Writes) (fd i : Nat) {w : World}
    (none : (w.iob i).flag = {}) :
    endopen mode (some fd) i w = (some i, w.set i (opened mode fd (w.iob i))) := by
  unfold endopen opened
  dsimp only
  rw [none]
  obtain h | h | ⟨h, plus⟩ := writes
  · simp [h]
  · simp [h]
  · simp [h, plus]

theorem endopen_fst {mode : Mode} (writes : mode.Writes) (fd i : Nat) (w : World) :
    (endopen mode (some fd) i w).1 = some i := by
  unfold endopen
  obtain h | h | ⟨h, -⟩ := writes
  · simp [h]
  · simp [h]
  · simp [h]

section Slot

variable {C : Nat → Prop} {mode : Mode} {fd : Nat} {f : FILE}

/-- A slot at the start: it has no buffer, or an empty one that is no part of `C`. -/
structure FILE.New (C : Nat → Prop) (fd : Nat) (f : FILE) : Prop where
  file : f.file = fd
  dir : f.flag.wrt = true ∨ f.flag.rw = true
  plain : f.flag.strg = false
  noMem : f.flag.mem = false
  ok : f.flag.err = false
  zero : f.cnt = 0
  empty : f.base = 0 ∨ (f.ptr = f.base ∧ 0 < f.bufsiz ∧
    ∀ a, f.base ≤ a → a < f.base + f.bufsiz → ¬ C a)

theorem FILE.New.writes (new : f.New C fd) : f.Writes C fd := by
  have busy : f.busy = true := by
    unfold FILE.busy
    obtain wrt | rw_ := new.dir
    · simp [wrt]
    · simp [rw_]
  have strg : f.flag.strg = f.flag.mem := new.plain.trans new.noMem.symm
  have zero := new.zero
  have live : f.Live := by
    obtain null | ⟨start, size, -⟩ := new.empty
    · exact FILE.live_of_null null (Int.le_of_eq zero) busy strg
    · exact FILE.live_of_empty start zero (fun _ => size) busy strg
  refine ⟨live, new.file, new.dir, new.plain, new.ok, fun _ => ⟨Int.le_of_eq zero, ?_⟩,
    fun _ => Int.le_of_eq zero, fun _ => Int.le_of_eq zero, fun _ some => ?_, fun some => ?_⟩
  · exact Or.inr (new.empty.imp_right And.left)
  · obtain ⟨start, size, -⟩ := new.empty.resolve_left some
    omega
  · exact (new.empty.resolve_left some).2.2

theorem FILE.New.pending (new : f.New C fd) (mem : Nat → UInt8) : pending f mem = [] := by
  obtain null | ⟨start, -⟩ := new.empty
  · exact pending_of_none (Or.inr null) mem
  · exact pending_of_start start mem

theorem FILE.New.taking {i : Nat} {w : World} (new : (w.iob i).New C fd) :
    Taking C i fd w.wrote.length [] w := by
  refine ⟨new.writes, Nat.le_refl _, ?_⟩
  rw [new.pending, sent, drop_length]
  rfl

/-- The flags of a slot just opened say nothing about the buffer. -/
theorem opened_new (empty : f.base = 0 ∨ (f.ptr = f.base ∧ 0 < f.bufsiz ∧
    ∀ a, f.base ≤ a → a < f.base + f.bufsiz → ¬ C a)) : (opened mode fd f).New C fd := by
  unfold opened
  cases mode.plus with
  | false => exact ⟨rfl, Or.inl rfl, rfl, rfl, rfl, rfl, empty⟩
  | true => exact ⟨rfl, Or.inr rfl, rfl, rfl, rfl, rfl, empty⟩

theorem setvbuf_wrote (ans : Answers) (buf : Nat) (mode : Option Buffering) (size i : Nat) (w : World) :
    (setvbuf ans buf mode size i w).2.wrote = w.wrote := by
  unfold setvbuf
  cases mode with
  | none => rfl
  | some mode =>
    dsimp only
    generalize (if buf = 0 then ans.malloc else buf) = p
    split
    · rfl
    · split
      · rfl
      · split
        · rfl
        · rfl

theorem Setup.run_wrote (setup : Setup) (ans : Answers) (i : Nat) (w : World) :
    (setup.run ans i w).wrote = w.wrote := by
  cases setup with
  | asIs => rfl
  | setbuf buf =>
    unfold Setup.run Stdio.setbuf
    dsimp only
    split
    · rfl
    · rfl
  | setvbuf buf mode size | setbuffer buf size => exact setvbuf_wrote ..
  | setlinebuf => rfl

theorem setvbuf_new {ans : Answers} {buf size i : Nat} {kind : Buffering} {w : World}
    (new : (w.iob i).New C fd)
    (apart : kind ≠ .no → ∀ a, Within (if buf = 0 then ans.malloc else buf) size a → ¬ C a) :
    ((setvbuf ans buf (some kind) size i w).2.iob i).New C fd := by
  unfold setvbuf
  dsimp only
  generalize (if buf = 0 then ans.malloc else buf) = p at apart ⊢
  split_ifs with no none failed
  all_goals rw [set_iob_self]
  iterate 3 exact { new with zero := rfl, empty := Or.inl rfl }
  exact { new with
    zero := rfl
    empty := Or.inr ⟨rfl, Nat.pos_of_ne_zero none, fun a low high => apart no a ⟨failed, low, high⟩⟩ }

/-- Whatever is done about the buffer, the stream is at the start then. -/
theorem Use.new (u : Use) {i : Nat} {w : World} (slot : w.iob i = opened mode fd f)
    (clean : Clean lay f) (size : f.base ≠ 0 → 0 < f.bufsiz) :
    ((u.setup.run u.atSetup i w).iob i).New (u.Own lay) fd := by
  have new : (w.iob i).New (u.Own lay) fd := by
    rw [slot]
    by_cases null : f.base = 0
    · exact opened_new (Or.inl null)
    · obtain ⟨start, ours⟩ := clean.resolve_left null
      exact opened_new (Or.inr ⟨start, size null, fun a low high own => own.1 (ours a low high)⟩)
  have set_apart : ∀ a, u.setup.Buffer u.atSetup a → ¬ u.Own lay a := fun _ set own => own.2.1 set
  revert set_apart
  cases u.setup with
  | asIs => exact fun _ => new
  | setbuf buf =>
    intro apart
    unfold Setup.run Stdio.setbuf
    dsimp only
    split
    · rw [set_iob_self]
      exact { new with zero := rfl, empty := Or.inl rfl }
    · rename_i some
      rw [set_iob_self]
      exact { new with
        zero := rfl
        empty := Or.inr ⟨rfl, BUFSIZ_pos, fun a low high => apart a ⟨some, low, high⟩⟩ }
  | setvbuf buf kind size =>
    intro apart
    match kind, apart with
    | none, _ => exact new
    | some .no, _ => exact setvbuf_new new fun no => absurd rfl no
    | some .full, apart => exact setvbuf_new new fun _ => apart
    | some .line, apart => exact setvbuf_new new fun _ => apart
  | setbuffer buf size =>
    intro apart
    refine setvbuf_new new fun buffered => ?_
    by_cases set : buf ≠ 0 ∧ 0 < size
    · rwa [if_neg set.1]
    · rw [if_neg set] at buffered
      exact absurd rfl buffered
  | setlinebuf =>
    intro _
    unfold Setup.run Stdio.setlinebuf
    rw [set_iob_self]
    refine { new with zero := ?_ }
    split
    · rfl
    · exact new.zero

end Slot

/-! ### The bytes that are delivered -/

section Calls

variable {u : Use} {i fd k : Nat} {w : World} {put : List UInt8}

theorem Use.spared (u : Use) : Spared lay u.ans (u.Own lay) where
  sobuf := fun _ low high own =>
    own.1 (Or.inr (Or.inl ⟨Nat.ne_of_gt lay.sobuf_pos, low, high⟩))
  heap := fun got _ low high own => own.2.2 ⟨got, low, high⟩

theorem Taking.call {call : Put} (taking : Taking (u.Own lay) i fd k put w)
    (full : u.ans.write = none) (allowed : call.Allowed (u.Own lay) w) :
    ∃ w', call.run lay u.ans i w = some w' ∧ Taking (u.Own lay) i fd k (put ++ call.bytes w) w' := by
  cases call with
  | putc c => exact ⟨_, rfl, (taking.putc full u.spared).1⟩
  | fputs s len =>
    obtain ⟨w', done, all, -⟩ := taking.fputs full u.spared allowed.1 allowed.2
    refine ⟨w', ?_, all⟩
    show (Stdio.fputs lay u.ans i (len + 1) s w).map Prod.snd = some w'
    rw [done]
    rfl
  | fwrite p size count => exact ⟨_, rfl, (taking.fwrite full u.spared allowed).1⟩
  | fflush => exact ⟨_, rfl, by simpa [Put.bytes] using (taking.fflush full).1⟩
  | store a c =>
    refine ⟨_, rfl, taking.slot, taking.since, ?_⟩
    -- the caller does not store in the buffer
    have same : pending (w.iob i) (w.store a c).mem = pending (w.iob i) w.mem := by
      unfold pending
      split
      · rfl
      · rename_i buffered
        have some : (w.iob i).base ≠ 0 := fun null => buffered (Or.inr null)
        refine stretch_congr fun b low high => Function.update_of_ne ?_ ..
        rintro rfl
        have top := taking.slot.high some
        exact taking.slot.apart some b low (by omega) allowed
    show sent fd k w ++ pending (w.iob i) (w.store a c).mem = put ++ []
    rw [same, taking.bytes, append_nil]

theorem Taking.delivers {calls : List Put} (taking : Taking (u.Own lay) i fd k put w)
    (full : u.ans.write = none) : Delivers lay u i fd k w put calls := by
  induction calls generalizing w put with
  | nil => exact taking.fclose full
  | cons call calls ih =>
    intro allowed
    obtain ⟨w', done, next⟩ := taking.call full allowed
    exact ⟨w', done, ih next⟩

end Calls

/-! ### The bytes that are left over -/

section Stale

variable {C : Nat → Prop} {ans : Answers} {mode : Mode} {i fd : Nat} {f : FILE} {w : World}

theorem set_set (w : World) (i : Nat) (f g : FILE) : (w.set i f).set i g = w.set i g := by
  simp [World.set]

/-- The first byte of a stream turns it to writing anyway. -/
theorem putc_turned {c : Nat} (none : (w.iob i).cnt ≤ 0) :
    putc lay ans c i w = putc lay ans c i (w.set i (turnToWrite (w.iob i))) := by
  have slow : ¬ 0 ≤ (w.iob i).cnt - 1 := by omega
  have cnt : (turnToWrite (w.iob i)).cnt = (w.iob i).cnt := by
    unfold turnToWrite
    split
    · rfl
    · rfl
  have twice : turnToWrite { turnToWrite (w.iob i) with cnt := (w.iob i).cnt - 1 } =
      turnToWrite { w.iob i with cnt := (w.iob i).cnt - 1 } := by
    unfold turnToWrite
    split
    · rename_i both
      simp [both]
    · simp
  unfold putc
  simp only [set_iob_self, cnt, if_neg slow]
  unfold flsbuf
  simp only [set_iob_self, set_set, twice]

/-- The slot just opened, turned to writing, with all that is left over from before. -/
def turned (mode : Mode) (fd : Nat) (f : FILE) : FILE :=
  { f with cnt := 0, file := fd, flag := { wrt := true, rw := mode.plus } }

theorem turnToWrite_opened : turnToWrite (opened mode fd f) = turned mode fd f := by
  unfold opened turned turnToWrite
  cases mode.plus with
  | false => rfl
  | true => rfl

theorem turned_writes (wf : f.Wf) (some : f.base ≠ 0) :
    (turned mode fd f).Writes (fun _ => False) fd where
  low := wf.low
  high := wf.high
  room := fun _ => by
    have := wf.high some
    dsimp only [turned]
    omega
  size := wf.size
  none := fun _ => Int.le_refl _
  busy := rfl
  strg := rfl
  file := rfl
  dir := Or.inl rfl
  plain := rfl
  ok := rfl
  fresh := nofun
  unbuf := fun _ => Int.le_refl _
  line := fun _ => Int.le_refl _
  lineRoom := nofun
  apart := fun _ _ _ _ no => no

/-- The plainest use of a stream: the buffer is left as it is. -/
def plainUse : Use := ⟨.asIs, {}, {}⟩

theorem Taking.putc_plain {k c : Nat} {put : List UInt8} (taking : Taking (fun _ => False) i fd k put w) :
    Taking (fun _ => False) i fd k (put ++ [UInt8.ofNat c]) (Stdio.putc lay plainUse.ans c i w).2 := by
  have spared : Spared lay plainUse.ans fun _ => False := ⟨fun _ _ _ no => no, fun _ _ _ _ no => no⟩
  exact (taking.putc rfl spared).1

/-- The slot after `j` bytes into a buffer that was empty. -/
def filled (g : FILE) (j : Nat) : FILE := { g with ptr := g.base + j, cnt := (g.bufsiz : Int) - j }

theorem putc_next {g : FILE} {j c : Nat} (slot : w.iob i = filled g j) (room : j < g.bufsiz) :
    (putc lay plainUse.ans c i w).2.iob i = filled g (j + 1) := by
  have more : 0 ≤ (filled g j).cnt - 1 := by
    unfold filled
    dsimp only
    omega
  unfold putc
  simp only [slot, if_pos more, set_iob_self]
  unfold filled
  dsimp only
  congr 1
  omega

/-- Some null bytes. -/
def putZeros (lay : Layout) (i m : Nat) (w : World) : World :=
  (fun w => (putc lay plainUse.ans 0 i w).2)^[m] w

theorem Delivers.zeros {k m : Nat} {put : List UInt8} {calls : List Put}
    (delivers : Delivers lay plainUse i fd k w put (List.replicate m (.putc 0) ++ calls)) :
    Delivers lay plainUse i fd k (putZeros lay i m w) (put ++ List.replicate m 0) calls := by
  induction m generalizing w put with
  | zero => simpa [putZeros] using delivers
  | succ m ih =>
    obtain ⟨w', done, rest⟩ := delivers trivial
    cases done
    have all := ih rest
    rwa [append_assoc] at all

variable (slot : w.iob i = opened mode fd f) (wf : f.Wf) (some : f.base ≠ 0)

include slot wf some

/-- What is left over counts as taken in. -/
theorem turned_taking :
    Taking (fun _ => False) i fd w.wrote.length (stretch w.mem f.base (f.ptr - f.base))
      (w.set i (turnToWrite (w.iob i))) := by
  rw [slot, turnToWrite_opened]
  refine Taking.of_slot (set_iob_self ..) (turned_writes wf some) (Nat.le_refl _) ?_
  rw [pending_of_some (f := turned mode fd f) rfl some, sent, set_wrote, drop_length]
  rfl

/-- The first byte goes behind what is left over. -/
theorem opened_putc (lay : Layout) (c : Nat) :
    Taking (fun _ => False) i fd w.wrote.length
      (stretch w.mem f.base (f.ptr - f.base) ++ [UInt8.ofNat c])
      (Stdio.putc lay plainUse.ans c i w).2 := by
  have none : (w.iob i).cnt ≤ 0 := by
    rw [slot]
    exact Int.le_refl _
  rw [putc_turned none]
  exact (turned_taking slot wf some).putc_plain

/-- The cursor is not at the start: the bytes in front of it are delivered first. -/
theorem start_of_delivers
    (delivers : Delivers lay plainUse i fd w.wrote.length w [] [.putc 0]) : f.ptr = f.base := by
  obtain ⟨w', done, all⟩ := delivers trivial
  cases done
  have full : plainUse.ans.write = none := rfl
  have both := ((opened_putc slot wf some lay 0).fclose full).symm.trans all
  have length := congrArg List.length both
  have low := wf.low some
  simp only [length_append, length_stretch, length_singleton, Put.bytes, nil_append] at length
  omega

omit wf in
theorem putc_first {c : Nat} (start : f.ptr = f.base) :
    (putc lay plainUse.ans c i w).2.iob i = filled (turned mode fd f) 1 := by
  have none : (w.iob i).cnt ≤ 0 := by
    rw [slot]
    exact Int.le_refl _
  rw [putc_turned none, slot, turnToWrite_opened]
  have slow : ¬ (0 : Int) ≤ (turned mode fd f).cnt - 1 := by
    show ¬ (0 : Int) ≤ 0 - 1
    decide
  have again : turnToWrite { turned mode fd f with cnt := (turned mode fd f).cnt - 1 } =
      { turned mode fd f with cnt := (turned mode fd f).cnt - 1 } := by
    unfold turnToWrite
    split
    · rfl
    · rfl
  have chosen : choose lay plainUse.ans i { turned mode fd f with cnt := (turned mode fd f).cnt - 1 } =
      { turned mode fd f with cnt := (turned mode fd f).cnt - 1 } := if_neg fun first => some first.1
  have nothing : (turned mode fd f).ptr - (turned mode fd f).base = 0 := by
    show f.ptr - f.base = 0
    omega
  unfold putc flsbuf
  simp only [set_iob_self, if_neg slow, set_set, again, chosen]
  rw [if_neg (by simp [turned]), if_neg (by simp [turned]), if_neg (by simp [turned])]
  unfold putFull
  simp only [set_iob_self, nothing]
  unfold drain putFirst
  simp only [set_iob_self, Nat.lt_irrefl, if_false, set_set]
  rw [if_neg (show (0 : Int) ≠ EOF by decide)]
  simp only [set_iob_self]
  rfl

/-- They fill a buffer that was empty. -/
theorem putZeros_filled (lay : Layout) (start : f.ptr = f.base) {m : Nat} (room : m < f.bufsiz) :
    (putZeros lay i (m + 1) w).iob i = filled (turned mode fd f) (m + 1) ∧
      Taking (fun _ => False) i fd w.wrote.length (List.replicate (m + 1) 0)
        (putZeros lay i (m + 1) w) := by
  induction m with
  | zero =>
    have first := opened_putc slot wf some lay 0
    rw [start, Nat.sub_self, stretch_zero] at first
    exact ⟨putc_first slot some start, first⟩
  | succ m ih =>
    obtain ⟨before, taking⟩ := ih (by omega)
    rw [putZeros, Function.iterate_succ_apply']
    refine ⟨putc_next before room, ?_⟩
    rw [replicate_succ']
    exact taking.putc_plain

/-- The buffer is not the library's: the caller stores in it, and that is what is delivered. -/
theorem ours_of_delivers (start : f.ptr = f.base)
    (delivers : ∀ calls, Delivers lay plainUse i fd w.wrote.length w [] calls) : Ours lay f := by
  intro a low high
  by_contra theirs
  obtain ⟨n, rfl⟩ : ∃ n, a = f.base + n := ⟨a - f.base, by omega⟩
  have room : n < f.bufsiz := by omega
  have own : plainUse.Own lay (f.base + n) := ⟨theirs, fun no => no, fun no => no.1 rfl⟩
  obtain ⟨before, taking⟩ := putZeros_filled slot wf some lay start room
  have stored := Delivers.zeros
    (delivers (List.replicate (n + 1) (.putc 0) ++ [.store (f.base + n) 1]))
  obtain ⟨w', done, all⟩ := stored own
  cases done
  generalize putZeros lay i (n + 1) w = v at before taking all
  have bytes := taking.bytes
  have buffer : ∀ mem, pending (v.iob i) mem = stretch mem f.base (n + 1) := by
    intro mem
    rw [before, pending_of_some (f := filled (turned mode fd f) (n + 1)) rfl some]
    congr 1
    exact Nat.add_sub_cancel_left ..
  have changed : Taking (fun _ => False) i fd w.wrote.length
      (sent fd w.wrote.length v ++ (stretch v.mem f.base (n + 1)).set n 1)
      (v.store (f.base + n) 1) := by
    refine ⟨taking.slot, taking.since, ?_⟩
    rw [store_iob, buffer, store_mem, stretch_update]
    rfl
  have full : plainUse.ans.write = none := rfl
  have both := (changed.fclose full).symm.trans all
  rw [buffer] at bytes
  simp only [Put.bytes, nil_append, append_nil, ← bytes] at both
  have same := append_cancel_left both
  have one : (1 : UInt8) ∈ stretch v.mem f.base (n + 1) := by
    rw [← same]
    exact mem_set (by simp) 1
  have zero : (1 : UInt8) ∈ List.replicate (n + 1) 0 := by
    rw [← bytes]
    exact mem_append_right _ one
  exact absurd (eq_of_mem_replicate zero) (by decide)

end Stale

/-! ### The slots -/

section Slots

variable {i : Nat} {w : World}

theorem delivers_iff_clean (mode : Mode) (fd : Nat) (wf : (w.iob i).Wf) :
    (∀ u : Use, u.ans.write = none → ∀ calls, Delivers lay u i fd w.wrote.length
      (u.setup.run u.atSetup i (w.set i (opened mode fd (w.iob i)))) [] calls) ↔
      Clean lay (w.iob i) := by
  have slot : (w.set i (opened mode fd (w.iob i))).iob i = opened mode fd (w.iob i) :=
    set_iob_self ..
  constructor
  · intro delivers
    by_cases null : (w.iob i).base = 0
    · exact Or.inl null
    have plain := delivers plainUse rfl
    have start := start_of_delivers slot wf null (plain _)
    exact Or.inr ⟨start, ours_of_delivers slot wf null start plain⟩
  · intro clean u full calls
    have taking := (u.new slot clean wf.size).taking
    rw [u.setup.run_wrote] at taking
    exact taking.delivers full

/-- Flushing moves the cursor of a stream that is written through a buffer to the start. -/
theorem fflush_slot (ans : Answers) (i : Nat) (w : World) :
    let f := w.iob i
    let f' := (fflush ans i w).2.iob i
    f'.base = f.base ∧ f'.bufsiz = f.bufsiz ∧ f'.flag.mybuf = f.flag.mybuf ∧
      f'.flag.unbuf = f.flag.unbuf ∧ f'.ptr =
        if f.flag.wrt = true ∧ f.flag.unbuf = false ∧ f.flag.strg = false ∧ f.base ≠ 0 then f.base
        else f.ptr := by
  unfold fflush
  dsimp only
  by_cases out : (w.iob i).flag.wrt = true ∧ (w.iob i).flag.unbuf = false ∧
      (w.iob i).flag.strg = false ∧ (w.iob i).base ≠ 0
  · rw [if_pos out, if_pos out]
    obtain ⟨err, iob⟩ := drain_iob ans w i (w.iob i).base ((w.iob i).ptr - (w.iob i).base)
    have slot := congrFun iob i
    rw [Function.update_self] at slot
    split
    · rw [slot]
      exact ⟨rfl, rfl, rfl, rfl, rfl⟩
    · split
      · rw [slot]
        exact ⟨rfl, rfl, rfl, rfl, rfl⟩
      · rw [set_iob_self, slot]
        exact ⟨rfl, rfl, rfl, rfl, rfl⟩
  · rw [if_neg out, if_neg out]
    exact ⟨rfl, rfl, rfl, rfl, rfl⟩

theorem clean_fclose_iff (ans : Answers) (wf : (w.iob i).Wf) :
    Clean lay ((fclose ans i w).2.iob i) ↔ Released lay (w.iob i) := by
  unfold fclose
  by_cases mem : (w.iob i).flag.mem = true
  · rw [if_pos mem, set_iob_self]
    exact ⟨fun _ => Or.inl mem, fun _ => Or.inl rfl⟩
  rw [if_neg mem]
  by_cases busy : (w.iob i).busy = true ∧ (w.iob i).flag.strg = false
  · rw [if_pos busy, set_iob_self]
    obtain ⟨base, bufsiz, mybuf, unbuf, ptr⟩ := fflush_slot ans i w
    unfold Clean Released Ours retire
    dsimp only
    rw [base, bufsiz, mybuf, unbuf, ptr]
    by_cases given : (w.iob i).flag.mybuf = true ∨ (w.iob i).flag.unbuf = true
    · rw [if_pos (by simpa using given)]
      exact ⟨fun _ => Or.inr (given.elim Or.inl fun h => Or.inr (Or.inl h)), fun _ => Or.inl rfl⟩
    obtain ⟨noMybuf, noUnbuf⟩ := not_or.mp given
    simp only [mem, noMybuf, noUnbuf, busy.2, true_and]
    by_cases null : (w.iob i).base = 0
    · simp [null]
    · by_cases wrt : (w.iob i).flag.wrt = true
      · simp [null, wrt]
      · simp [null, wrt]
  · rw [if_neg busy, set_iob_self]
    have idle : (w.iob i).busy = false := by
      by_contra yes
      refine busy ⟨by simpa using yes, ?_⟩
      rw [wf.strg]
      simpa using mem
    have none := wf.idle idle
    unfold Clean Released Ours retire
    simp [none]

end Slots

/-! ### Every history -/

/-- In every state that a program can bring the streams to, and for every opening for writing: the
stream is one of the table and delivers the bytes put into it, whatever is done about its buffer
and in whatever way they are put, exactly if nothing is left over from before. -/
theorem faithful_iff_ready {mem : Nat → UInt8} {behind : FILE} {calls : List (Call × Answers)}
    {w : World} (history : runs lay (start lay mem behind) calls = some w) (r : Request)
    (writes : r.mode.Writes) (table : ∀ i, r.opening = .freopen i → i < NFILE) :
    Faithful lay w r ↔ Ready lay w r.opening := by
  have wf : w.Wf := (start_wf lay mem behind).runs lay history
  unfold Faithful Request.run
  cases opening : r.opening with
  | fopen =>
    constructor
    · intro faithful i le idle first
      have found : findiop w = some i := findiop_eq_some.mpr ⟨idle, le, first⟩
      have done : fopen r.mode (some r.fd) w = (some i, (endopen r.mode (some r.fd) i w).2) := by
        rw [fopen, found]
        exact Prod.ext (endopen_fst writes r.fd i w) rfl
      obtain ⟨lt, delivers⟩ := faithful i _ done
      refine ⟨lt, ?_⟩
      rw [endopen_eq writes r.fd i ((wf i lt).idle idle)] at delivers
      exact (delivers_iff_clean r.mode r.fd (wf i lt)).mp delivers
    · intro ready i w' done
      cases found : findiop w with
      | none =>
        rw [fopen, found] at done
        cases done
      | some j =>
        obtain ⟨idle, le, first⟩ := findiop_eq_some.mp found
        obtain ⟨lt, clean⟩ := ready j le idle first
        rw [fopen, found] at done
        dsimp only at done
        rw [endopen_eq writes r.fd j ((wf j lt).idle idle)] at done
        cases done
        exact ⟨lt, (delivers_iff_clean r.mode r.fd (wf _ lt)).mpr clean⟩
  | freopen i =>
    have lt := table i opening
    have closed := wf.fclose r.ans lt
    have eq := endopen_eq writes r.fd i (fclose_idle r.ans (w := w))
    dsimp only [freopen, Ready]
    rw [eq, ← clean_fclose_iff r.ans (wf i lt), ← delivers_iff_clean r.mode r.fd (closed i lt)]
    constructor
    · exact fun faithful => (faithful i _ rfl).2
    · rintro delivers _ _ ⟨⟩
      exact ⟨lt, delivers⟩

/-- The buffers at some addresses. -/
def somewhere : Layout := ⟨6000, 12000, 18000, by decide, by decide, by decide⟩

/-- A file is opened for writing after a byte has been put to the standard output and that has been
closed: the slot is used again, with `_sobuf` still in it. -/
theorem faithful_iff_ready_start : ∃ w, runs somewhere (start somewhere (fun _ => 0) {})
      [(.putc 97 1, {}), (.fclose 1, {})] = some w ∧
    (w.iob 1).busy = false ∧ (w.iob 1).base = somewhere.sobuf ∧
    Faithful somewhere w ⟨.fopen, ⟨'w', false⟩, 3, {}⟩ := by
  have history : runs somewhere (start somewhere (fun _ => 0) {})
      [(.putc 97 1, {}), (.fclose 1, {})] =
    some (fclose {} 1 (putc somewhere {} 97 1 (start somewhere (fun _ => 0) {})).2).2 := rfl
  refine ⟨_, history, rfl, rfl, ?_⟩
  refine (faithful_iff_ready history _ (Or.inl rfl) (fun _ no => by cases no)).mpr ?_
  intro i le idle first
  match i, idle with
  | 0, no => cases no
  | 1, _ => exact ⟨by decide, Or.inr ⟨rfl, fun a low high => Or.inr (Or.inl ⟨by decide, low, high⟩)⟩⟩
  | i + 2, _ => exact absurd (first 1 (by omega)) (by decide)

/-- A byte is read from the standard input, which is then reopened for writing: the byte that was
read is delivered in front of the one that is put. -/
theorem not_faithful_reopened : ∃ w, runs somewhere (start somewhere (fun _ => 0) {})
      [(.getc 0, { read := fun _ => some [97, 98] })] = some w ∧
    ¬ Faithful somewhere w ⟨.freopen 0, ⟨'w', false⟩, 0, {}⟩ := by
  refine ⟨_, rfl, fun faithful => ?_⟩
  obtain ⟨-, delivers⟩ := faithful 0 _ rfl
  obtain ⟨w', done, all⟩ := delivers plainUse rfl [.putc 120] trivial
  cases done
  rw [Delivers] at all
  exact absurd all (by decide +kernel)

end V7Besm.Stdio

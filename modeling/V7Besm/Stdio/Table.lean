import V7Besm.Stdio.Slots

/-!
What a program can do to the stream table.

A call on a stream is for a slot that is in use; `fclose` and `freopen` may be called for any. Over
every sequence of calls a slot that is not in use has no flags, and the cursor of a slot with a
buffer is in the buffer.
-/

namespace V7Besm.Stdio

inductive Call where
  | fopen (mode : Mode) (fd : Option Nat)
  | freopen (mode : Mode) (fd : Option Nat) (i : Nat)
  | fdopen (fd : Nat) (mode : Mode)
  | openMemstream
  | fclose (i : Nat)
  | fflush (i : Nat)
  | fflushAll
  | putc (c i : Nat)
  | fputs (s len i : Nat)
  | fwrite (p size count i : Nat)
  | getc (i : Nat)
  | fread (p size count i : Nat)
  | ungetc (c : Option Nat) (i : Nat)
  | fseek (offset : Int) (whence i : Nat)
  | rewind (i : Nat)
  | setbuf (buf i : Nat)
  | setvbuf (buf : Nat) (mode : Option Buffering) (size i : Nat)
  | setbuffer (buf : Nat) (size : Int) (i : Nat)
  | setlinebuf (i : Nat)
  | store (a : Nat) (c : UInt8)

/-- The slot a call is for that has to be in use. -/
def Call.stream : Call → Option Nat
  | .fflush i | .putc _ i | .fputs _ _ i | .fwrite _ _ _ i | .getc i | .fread _ _ _ i
  | .ungetc _ i | .fseek _ _ i | .rewind i | .setbuf _ i | .setvbuf _ _ _ i | .setbuffer _ _ i
  | .setlinebuf i => some i
  | _ => none

/-- May the program make the call? An opening that hands out what is behind the table is not
followed further. -/
def legal (w : World) : Call → Bool
  | .fopen _ _ | .fdopen _ _ => findiop w ≠ some NFILE
  | .freopen _ _ i | .fclose i => i < NFILE
  | call => call.stream.all fun i => i < NFILE && (w.iob i).busy

variable (lay : Layout)

/-- The state behind a call; `none` if it does not return. -/
def step (w : World) (ans : Answers) : Call → Option World
  | .fopen mode fd => some (fopen mode fd w).2
  | .freopen mode fd i => some (freopen ans mode fd i w).2
  | .fdopen fd mode => some (fdopen fd mode w).2
  | .openMemstream => some (openMemstream ans w).2
  | .fclose i => some (fclose ans i w).2
  | .fflush i => some (fflush ans i w).2
  | .fflushAll => some (fflushAll ans w).2
  | .putc c i => some (putc lay ans c i w).2
  | .fputs s len i => (fputs lay ans i (len + 1) s w).map Prod.snd
  | .fwrite p size count i => some (fwrite lay ans p size count i w).2
  | .getc i => some (getc lay ans i 1 w).2
  | .fread p size count i => some (fread lay ans p size count i w).2
  | .ungetc c i => some (ungetc c i w).2
  | .fseek offset whence i => some (fseek ans offset whence i w).2
  | .rewind i => some (rewind ans i w)
  | .setbuf buf i => some (setbuf buf i w)
  | .setvbuf buf mode size i => some (setvbuf ans buf mode size i w).2
  | .setbuffer buf size i => some (setbuffer ans buf size i w)
  | .setlinebuf i => some (setlinebuf i w)
  | .store a c => some (w.store a c)

/-- The state behind some calls that are allowed. -/
def runs (w : World) : List (Call × Answers) → Option World
  | [] => some w
  | (call, ans) :: calls =>
    if legal w call then (step lay w ans call).bind fun w' => runs w' calls else none

/-- The table as `data.c` has it, with `behind` in memory behind it. -/
def start (mem : Nat → UInt8) (behind : FILE) : World where
  iob := fun i => match i with
    | 0 => { ptr := lay.sibuf, base := lay.sibuf, bufsiz := BUFSIZ, flag := { read := true } }
    | 1 => { flag := { wrt := true }, file := 1 }
    | 2 => { flag := { wrt := true, unbuf := true }, file := 2 }
    | i => if i < NFILE then {} else behind
  mem := mem
  wrote := []
  membuf := fun _ => 0
  memsize := fun _ => 0

/-! ### The table -/

def World.Wf (w : World) : Prop := ∀ i < NFILE, (w.iob i).Wf

variable {mode : Mode} {fd : Option Nat}

section Runs

variable (ans : Answers) {w w' : World} {i : Nat}

theorem World.Wf.change (wf : w.Wf) (others : ∀ j, j ≠ i → w'.iob j = w.iob j)
    (here : i < NFILE → (w'.iob i).Wf) : w'.Wf := by
  intro j lt
  by_cases at_i : j = i
  · subst at_i
    exact here lt
  · rw [others j at_i]
    exact wf j lt

theorem World.Wf.set (wf : w.Wf) {f : FILE} (here : i < NFILE → f.Wf) : (w.set i f).Wf := by
  refine wf.change (fun j ne => set_iob_of_ne w i f ne) fun lt => ?_
  rw [set_iob_self]
  exact here lt

theorem World.Wf.keeps (wf : w.Wf) (keeps : Keeps i w w') : w'.Wf :=
  wf.change keeps.others fun _ => keeps.live.wf

theorem FILE.Fits.attach {f : FILE} (fits : f.Fits) (fd : Nat) (flag : Flag) :
    FILE.Fits { f with cnt := 0, file := fd, flag := flag } := by
  refine ⟨fits.low, fits.high, fun some => ?_, fits.size, fun _ => Int.le_refl _⟩
  have high := fits.high some
  dsimp only at *
  omega

theorem World.Wf.fclose (wf : w.Wf) (lt : i < NFILE) : (fclose ans i w).2.Wf := by
  unfold Stdio.fclose
  dsimp only
  have null : FILE.Wf (retire { w.iob i with base := 0, ptr := 0, bufsiz := 0 }) := by
    refine ⟨⟨?_, ?_, ?_, ?_, fun _ => Int.le_refl _⟩, fun _ => rfl, rfl⟩
    all_goals exact fun no => absurd rfl no
  split
  · exact wf.set fun _ => null
  split
  · rename_i open_
    have flushed := Keeps.fflush ans ((wf i lt).live open_.1)
    refine (wf.keeps flushed).set fun _ => ?_
    split
    · refine ⟨⟨?_, ?_, ?_, ?_, fun _ => Int.le_refl _⟩, fun _ => rfl, rfl⟩
      all_goals exact fun no => absurd rfl no
    · exact ⟨flushed.live.attach _ _, fun _ => rfl, rfl⟩
  · exact wf.set fun _ => ⟨(wf i lt).attach _ _, fun _ => rfl, rfl⟩

/-- Attaching a descriptor to a slot that is not in use. -/
theorem World.Wf.endopen (wf : w.Wf) (lt : i < NFILE)
    (idle : (w.iob i).busy = false) : (endopen mode fd i w).2.Wf := by
  have slot := wf i lt
  have none := slot.idle idle
  unfold Stdio.endopen
  split
  · cases fd with
    | none => exact wf
    | some fd =>
      refine wf.set fun _ => ?_
      rw [none]
      split
      · exact ⟨slot.attach fd _, nofun, rfl⟩
      · split
        · exact ⟨slot.attach fd _, nofun, rfl⟩
        · exact ⟨slot.attach fd _, nofun, rfl⟩
  · exact wf

theorem findiop_eq_some : findiop w = some i ↔
    (w.iob i).busy = false ∧ i ≤ NFILE ∧ ∀ j < i, (w.iob j).busy = true := by
  rw [findiop, List.find?_range_eq_some, List.mem_range, Nat.lt_add_one_iff]
  simp

theorem lt_of_findiop (found : findiop w = some i) (inside : findiop w ≠ some NFILE) : i < NFILE := by
  have le := (findiop_eq_some.mp found).2.1
  refine Nat.lt_of_le_of_ne le fun eq => inside ?_
  rw [found, eq]

theorem World.Wf.fopen (wf : w.Wf) (inside : findiop w ≠ some NFILE) : (fopen mode fd w).2.Wf := by
  unfold Stdio.fopen
  cases found : findiop w with
  | none => exact wf
  | some i => exact wf.endopen (lt_of_findiop found inside) (findiop_eq_some.mp found).1

/-- A slot is not in use any more once it is closed. -/
theorem fclose_idle : ((fclose ans i w).2.iob i).flag = {} := by
  unfold Stdio.fclose
  dsimp only
  split
  · rw [set_iob_self, retire]
  · split
    · rw [set_iob_self, retire]
    · rw [set_iob_self, retire]

theorem World.Wf.freopen (wf : w.Wf) (lt : i < NFILE) : (freopen ans mode fd i w).2.Wf := by
  refine (wf.fclose ans lt).endopen lt ?_
  rw [FILE.busy, fclose_idle]
  rfl

theorem World.Wf.fdopen {fd : Nat} (wf : w.Wf) (inside : findiop w ≠ some NFILE) :
    (fdopen fd mode w).2.Wf := by
  unfold Stdio.fdopen
  cases found : findiop w with
  | none => exact wf
  | some i =>
    have lt := lt_of_findiop found inside
    have idle := (findiop_eq_some.mp found).1
    have fits := (wf i lt).attach fd
    have none := (wf i lt).idle idle
    dsimp only
    rw [none]
    split
    · refine wf.set fun _ => ?_
      split
      · exact ⟨fits _, nofun, rfl⟩
      · split
        · exact ⟨fits _, nofun, rfl⟩
        · exact ⟨fits _, nofun, rfl⟩
    · refine wf.set fun _ => ?_
      exact ⟨fits _, fun _ => rfl, rfl⟩

theorem World.Wf.openMemstream (wf : w.Wf) : (openMemstream ans w).2.Wf := by
  unfold Stdio.openMemstream
  split
  · exact wf
  · split
    · exact wf
    · rename_i i _ got
      refine wf.keeps (Keeps.of_iob rfl ?_)
      exact FILE.live_of_empty rfl rfl (fun _ => MEMSTART_pos) rfl rfl

theorem World.Wf.fflush (wf : w.Wf) (lt : i < NFILE) : (fflush ans i w).2.Wf := by
  by_cases busy : (w.iob i).busy = true
  · exact wf.keeps (Keeps.fflush ans ((wf i lt).live busy))
  · have none := (wf i lt).idle (by simpa using busy)
    have unwritten : Stdio.fflush ans i w = (0, w) := by
      unfold Stdio.fflush
      simp [none]
    rwa [unwritten]

theorem World.Wf.fflushAll (wf : w.Wf) : (fflushAll ans w).2.Wf := by
  unfold Stdio.fflushAll
  refine List.foldlRecOn (motive := fun r : Int × World => r.2.Wf) _ _ wf fun r wf i within => ?_
  exact wf.fflush ans (List.mem_range.mp within)

theorem World.Wf.step {call : Call} (wf : w.Wf) (ok : legal w call = true)
    (done : step lay w ans call = some w') : w'.Wf := by
  have live : ∀ i, call.stream = some i → (legal w call = (decide (i < NFILE) && (w.iob i).busy)) →
      (w.iob i).Live := by
    intro i _ same
    rw [same] at ok
    simp only [Bool.and_eq_true, decide_eq_true_eq] at ok
    exact (wf i ok.1).live ok.2
  cases call with
  | fopen mode fd =>
    cases done
    exact wf.fopen (by simpa [legal] using ok)
  | freopen mode fd i =>
    cases done
    exact wf.freopen ans (by simpa [legal] using ok)
  | fdopen fd mode =>
    cases done
    exact wf.fdopen (by simpa [legal] using ok)
  | openMemstream =>
    cases done
    exact wf.openMemstream ans
  | fclose i =>
    cases done
    exact wf.fclose ans (by simpa [legal] using ok)
  | fflush i =>
    cases done
    exact wf.keeps (Keeps.fflush ans (live i rfl rfl))
  | fflushAll =>
    cases done
    exact wf.fflushAll ans
  | putc c i =>
    cases done
    exact wf.keeps (Keeps.putc lay ans (live i rfl rfl))
  | fputs s len i =>
    obtain ⟨⟨r, w₁⟩, ran, rfl⟩ := Option.map_eq_some_iff.mp done
    exact wf.keeps (Keeps.fputs lay ans (live i rfl rfl) ran)
  | fwrite p size count i =>
    cases done
    exact wf.keeps (Keeps.fwrite lay ans (live i rfl rfl))
  | getc i =>
    cases done
    exact wf.keeps (Keeps.getc lay ans (live i rfl rfl) 1)
  | fread p size count i =>
    cases done
    exact wf.keeps (Keeps.fread lay ans (live i rfl rfl))
  | ungetc c i =>
    cases done
    exact wf.keeps (Keeps.ungetc (live i rfl rfl))
  | fseek offset whence i =>
    cases done
    exact wf.keeps (Keeps.fseek ans (live i rfl rfl))
  | rewind i =>
    cases done
    exact wf.keeps (Keeps.rewind ans (live i rfl rfl))
  | setbuf buf i =>
    cases done
    exact wf.keeps (Keeps.setbuf (live i rfl rfl))
  | setvbuf buf mode size i | setbuffer buf size i =>
    cases done
    exact wf.keeps (Keeps.setvbuf ans (live i rfl rfl))
  | setlinebuf i =>
    cases done
    exact wf.keeps (Keeps.setlinebuf (live i rfl rfl))
  | store a c =>
    cases done
    exact wf

theorem start_wf (mem : Nat → UInt8) (behind : FILE) : (start lay mem behind).Wf := by
  intro i lt
  match i, lt with
  | 0, _ => exact (FILE.live_of_empty rfl rfl (fun _ => BUFSIZ_pos) rfl rfl).wf
  | 1, _ => exact (FILE.live_of_null rfl (Int.le_refl _) rfl rfl).wf
  | 2, _ => exact (FILE.live_of_null rfl (Int.le_refl _) rfl rfl).wf
  | i + 3, lt =>
    have empty : (start lay mem behind).iob (i + 3) = {} := if_pos lt
    rw [empty]
    refine ⟨⟨?_, ?_, ?_, ?_, fun _ => Int.le_refl _⟩, fun _ => rfl, rfl⟩
    all_goals exact fun no => absurd rfl no

theorem World.Wf.runs {calls : List (Call × Answers)} (wf : w.Wf)
    (done : runs lay w calls = some w') : w'.Wf := by
  induction calls generalizing w with
  | nil =>
    cases done
    exact wf
  | cons call calls ih =>
    obtain ⟨call, ans⟩ := call
    unfold Stdio.runs at done
    split at done
    · rename_i ok
      obtain ⟨w₁, first, rest⟩ := Option.bind_eq_some_iff.mp done
      exact ih (wf.step lay ans ok first) rest
    · cases done

end Runs

end V7Besm.Stdio

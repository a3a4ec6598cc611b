import Mathlib.Tactic.SplitIfs
import V7Besm.Stdio.Code

/-!
One stream.

Whatever the kernel and the allocator answer, a call on a stream leaves the other slots of the
table alone, and leaves the cursor of its own in the buffer, with no more room counted than there
is.
-/

namespace V7Besm.Stdio

open Words Function

variable (lay : Layout)

section Fields

variable (w : World) (i : Nat) (f : FILE) (a : Nat) (c : UInt8)

@[simp]
theorem set_iob_self : (w.set i f).iob i = f := update_self ..

theorem set_iob_of_ne {j : Nat} (ne : j ≠ i) : (w.set i f).iob j = w.iob j := update_of_ne ne ..

@[simp]
theorem set_mem : (w.set i f).mem = w.mem := rfl

@[simp]
theorem set_wrote : (w.set i f).wrote = w.wrote := rfl

@[simp]
theorem store_iob : (w.store a c).iob = w.iob := rfl

@[simp]
theorem store_mem : (w.store a c).mem = update w.mem a c := rfl

end Fields

variable {f : FILE}

/-- The cursor is in the buffer, and the count goes no further than its end. -/
structure FILE.Fits (f : FILE) : Prop where
  low : f.base ≠ 0 → f.base ≤ f.ptr
  high : f.base ≠ 0 → f.ptr ≤ f.base + f.bufsiz
  room : f.base ≠ 0 → f.ptr + f.cnt ≤ f.base + f.bufsiz
  size : f.base ≠ 0 → 0 < f.bufsiz
  none : f.base = 0 → f.cnt ≤ 0

/-- A slot in use. -/
structure FILE.Live (f : FILE) : Prop extends f.Fits where
  busy : f.busy = true
  strg : f.flag.strg = f.flag.mem

/-- A slot, in use or not. -/
structure FILE.Wf (f : FILE) : Prop extends f.Fits where
  idle : f.busy = false → f.flag = {}
  strg : f.flag.strg = f.flag.mem

theorem FILE.Wf.live (wf : f.Wf) (busy : f.busy = true) : f.Live :=
  { toFits := wf.toFits, busy := busy, strg := wf.strg }

theorem FILE.Fits.withFlag (fits : f.Fits) (flag : Flag) :
    FILE.Fits { f with flag := flag } := { fits with }

theorem FILE.Live.wf (live : f.Live) : f.Wf :=
  { toFits := live.toFits, idle := fun no => by simp [live.busy] at no, strg := live.strg }

theorem FILE.live_of_some (some : f.base ≠ 0)
    (within : f.base ≤ f.ptr ∧ f.ptr ≤ f.base + f.bufsiz ∧ f.ptr + f.cnt ≤ f.base + f.bufsiz ∧
      0 < f.bufsiz) (busy : f.busy = true) (strg : f.flag.strg = f.flag.mem) : f.Live :=
  ⟨⟨fun _ => within.1, fun _ => within.2.1, fun _ => within.2.2.1, fun _ => within.2.2.2,
    fun null => absurd null some⟩, busy, strg⟩

theorem FILE.live_of_empty (start : f.ptr = f.base) (zero : f.cnt = 0)
    (size : f.base ≠ 0 → 0 < f.bufsiz) (busy : f.busy = true) (strg : f.flag.strg = f.flag.mem) :
    f.Live := by
  refine ⟨⟨fun _ => ?_, fun _ => ?_, fun _ => ?_, size, fun _ => ?_⟩, busy, strg⟩
  all_goals omega

theorem FILE.live_of_null (null : f.base = 0) (none : f.cnt ≤ 0)
    (busy : f.busy = true) (strg : f.flag.strg = f.flag.mem) : f.Live := by
  refine ⟨⟨?_, ?_, ?_, ?_, fun _ => none⟩, busy, strg⟩
  all_goals exact fun some => absurd null some

theorem BUFSIZ_pos : 0 < BUFSIZ := by decide

theorem MEMSTART_pos : 0 < MEMSTART := by decide

/-- The slot `i` is in use, and the others have been left alone. -/
structure Keeps (i : Nat) (w w' : World) : Prop where
  others : ∀ j, j ≠ i → w'.iob j = w.iob j
  live : (w'.iob i).Live

namespace Keeps

variable {i : Nat} {w w' w'' : World}

theorem trans (first : Keeps i w w') (second : Keeps i w' w'') : Keeps i w w'' :=
  ⟨fun j ne => (second.others j ne).trans (first.others j ne), second.live⟩

theorem of_iob (iob : w'.iob = update w.iob i f) (live : f.Live) : Keeps i w w' := by
  refine ⟨fun j ne => ?_, ?_⟩
  · rw [iob, update_of_ne ne]
  · rwa [iob, update_self]

theorem set (live : f.Live) : Keeps i w (w.set i f) := of_iob rfl live

end Keeps

/-! ### One slot -/

section Stream

variable (ans : Answers) {w : World} {i : Nat}

/-- The slot with the cursor at the start of its buffer. -/
theorem FILE.Live.rewound (live : f.Live) (err : Bool) :
    FILE.Live { f with ptr := f.base, flag := { f.flag with err := err } } := by
  refine ⟨⟨fun _ => Nat.le_refl _, fun _ => Nat.le_add_right _ _, fun some => ?_, live.size,
    live.none⟩, live.busy, live.strg⟩
  have low := live.low some
  have room := live.room some
  dsimp only at low room ⊢
  omega

/-- A memory stream that has grown has room for one more byte. -/
theorem grow_ok {len : Nat} (ok : (grow ans i len w).1 ≠ EOF) (size : 0 < (w.iob i).bufsiz)
    (within : len ≤ (w.iob i).bufsiz) :
    let f := (grow ans i len w).2.iob i
    f.cnt = (w.iob i).cnt ∧ f.ptr + 1 ≤ f.base + f.bufsiz := by
  unfold grow at ok ⊢
  by_cases failed : ans.malloc = 0
  · simp [failed] at ok
  · simp only [failed, if_false, set_iob_self, true_and]
    omega

theorem choose_live (live : f.Live) : (choose lay ans i f).Live := by
  unfold choose
  split
  · split
    · exact FILE.live_of_empty rfl rfl (fun _ => BUFSIZ_pos) live.busy live.strg
    · split
      · exact FILE.live_of_null rfl (Int.le_refl _) live.busy live.strg
      · exact FILE.live_of_empty rfl rfl (fun _ => BUFSIZ_pos) live.busy live.strg
  · exact live

/-- A stream that is written through a buffer has one. -/
theorem choose_base (buffered : (choose lay ans i f).flag.unbuf = false) :
    (choose lay ans i f).base ≠ 0 := by
  unfold choose at buffered ⊢
  by_cases first : f.base = 0 ∧ f.flag.unbuf = false
  · rw [if_pos first] at buffered ⊢
    by_cases out : i = 1
    · rw [if_pos out]
      exact Nat.ne_of_gt lay.sobuf_pos
    · rw [if_neg out] at buffered ⊢
      by_cases failed : ans.malloc = 0
      · rw [if_pos failed] at buffered
        cases buffered
      · rwa [if_neg failed]
  · rw [if_neg first] at buffered ⊢
    exact fun null => first ⟨null, buffered⟩

theorem FILE.Live.atZero (live : f.Live) : FILE.Live { f with cnt := 0 } := by
  refine ⟨⟨live.low, live.high, fun some => ?_, live.size, fun _ => Int.le_refl _⟩, live.busy,
    live.strg⟩
  have high := live.high some
  dsimp only at high ⊢
  omega

theorem FILE.Live.withErr (live : f.Live) (err : Bool) :
    FILE.Live { f with flag := { f.flag with err := err } } :=
  ⟨live.withFlag _, live.busy, live.strg⟩

theorem turnToWrite_live (live : f.Live) : (turnToWrite f).Live := by
  unfold turnToWrite
  split
  · exact ⟨live.withFlag _, by simp [FILE.busy], live.strg⟩
  · exact live

/-- The macros count down first. -/
theorem FILE.Live.countDown (live : f.Live) : FILE.Live { f with cnt := f.cnt - 1 } := by
  refine ⟨⟨live.low, live.high, fun some => ?_, live.size, fun null => ?_⟩, live.busy, live.strg⟩
  · have room := live.room some
    dsimp only at room ⊢
    omega
  · have none := live.none null
    dsimp only at none ⊢
    omega

/-- Moving the cursor over some of what is counted. -/
theorem FILE.Live.advance (live : f.Live) {n : Nat} (within : n ≤ f.cnt) (pos : 0 < n) :
    FILE.Live { f with ptr := f.ptr + n, cnt := f.cnt - n } := by
  have some : f.base ≠ 0 := by
    intro null
    have := live.none null
    omega
  have low := live.low some
  have room := live.room some
  exact FILE.live_of_some some (by dsimp only; omega) live.busy live.strg

/-- The words a transfer moves are within what is counted. -/
theorem moved_le {n : Nat} {cnt : Int} (cnt_ge : (NBPW : Int) ≤ cnt) (n_ge : NBPW ≤ n) :
    0 < min n cnt.toNat / NBPW * NBPW ∧ ((min n cnt.toNat / NBPW * NBPW : Nat) : Int) ≤ cnt := by
  have one : 1 ≤ min n cnt.toNat / NBPW := by
    rw [Nat.le_div_iff_mul_le (by decide)]
    omega
  unfold NBPW at *
  omega

theorem chooseIn_live (live : f.Live) :
    FILE.Live { chooseIn lay ans f with ptr := (chooseIn lay ans f).base, cnt := 0 } ∧
      (chooseIn lay ans f).base ≠ 0 := by
  have small : lay.smallbuf + f.file ≠ 0 := by
    have := lay.smallbuf_pos
    omega
  unfold chooseIn
  split
  · rename_i some
    exact ⟨FILE.live_of_empty rfl rfl live.size live.busy live.strg, some⟩
  · split
    · exact ⟨FILE.live_of_empty rfl rfl (fun _ => Nat.one_pos) live.busy live.strg, small⟩
    · split
      · exact ⟨FILE.live_of_empty rfl rfl (fun _ => Nat.one_pos) live.busy live.strg, small⟩
      · rename_i got
        exact ⟨FILE.live_of_empty rfl rfl (fun _ => BUFSIZ_pos) live.busy live.strg, got⟩

theorem turnToRead_live (live : f.Live) :
    FILE.Live (if f.flag.rw then { f with flag := { f.flag with read := true } } else f) := by
  split
  · exact ⟨live.withFlag _, by simp [FILE.busy], live.strg⟩
  · exact live

theorem atEnd_live (live : FILE.Live { f with cnt := 0 }) : (atEnd f).Live := by
  refine ⟨live.withFlag _, ?_, live.strg⟩
  have busy := live.busy
  unfold FILE.busy at busy ⊢
  unfold atEnd
  revert busy
  cases f.flag.rw with
  | false => simp
  | true => simp

theorem FILE.Live.noEof (live : f.Live) :
    FILE.Live { f with flag := { f.flag with eof := false } } :=
  ⟨live.withFlag _, live.busy, live.strg⟩

theorem turn_live (live : f.Live) : FILE.Live { turn f with cnt := 0 } := by
  unfold turn
  split
  · rename_i both
    exact FILE.live_of_empty rfl rfl live.size (by simp [FILE.busy, both]) live.strg
  · exact live.atZero

/-! ### One stream -/

theorem Keeps.refl (live : (w.iob i).Live) : Keeps i w w := ⟨fun _ _ => rfl, live⟩

@[simp]
theorem write_iob (fd : Nat) (bytes : List UInt8) : (write ans fd bytes w).2.iob = w.iob := rfl

/-- Draining moves the cursor to the start; the error flag may be set. -/
theorem drain_iob (w : World) (i base n : Nat) : ∃ err, (drain ans i base n w).2.iob =
    update w.iob i
      { w.iob i with ptr := base, flag := { (w.iob i).flag with err := err } } := by
  unfold drain
  dsimp only
  split
  · split
    · refine ⟨true, ?_⟩
      simp [World.set]
    · exact ⟨(w.iob i).flag.err, rfl⟩
  · exact ⟨(w.iob i).flag.err, rfl⟩

variable (live : (w.iob i).Live)

include live

theorem Keeps.drain (n : Nat) : Keeps i w (drain ans i (w.iob i).base n w).2 := by
  obtain ⟨err, iob⟩ := drain_iob ans w i (w.iob i).base n
  exact Keeps.of_iob iob (live.rewound err)

theorem Keeps.append {c len : Nat} (none : (w.iob i).cnt ≤ 0)
    (fits : (w.iob i).ptr + 1 ≤ (w.iob i).base + (w.iob i).bufsiz) :
    Keeps i w (append c i len w).2 := by
  refine Keeps.of_iob rfl ?_
  refine ⟨⟨fun some => ?_, fun _ => fits, fun _ => ?_, live.size, live.none⟩, live.busy, live.strg⟩
  · exact Nat.le_succ_of_le (live.low some)
  · dsimp only
    omega

theorem Keeps.grow (some : (w.iob i).base ≠ 0) (none : (w.iob i).cnt ≤ 0) :
    Keeps i w (grow ans i ((w.iob i).ptr - (w.iob i).base) w).2 := by
  have high := live.high some
  have size := live.size some
  unfold Stdio.grow
  by_cases failed : ans.malloc = 0
  · rw [if_pos failed]
    exact Keeps.of_iob rfl (FILE.live_of_null rfl none live.busy live.strg)
  · rw [if_neg failed]
    exact Keeps.of_iob rfl (FILE.live_of_some failed (by dsimp only; omega) live.busy live.strg)

theorem Keeps.memputc {c : Nat} (none : (w.iob i).cnt ≤ 0) : Keeps i w (memputc ans c i w).2 := by
  unfold Stdio.memputc
  dsimp only
  by_cases null : (w.iob i).base = 0
  · rw [if_pos null]
    exact Keeps.refl live
  rw [if_neg null]
  by_cases full : (w.iob i).bufsiz ≤ (w.iob i).ptr - (w.iob i).base + 1
  · rw [if_pos full]
    have grown := Keeps.grow ans live null none
    by_cases failed : (Stdio.grow ans i ((w.iob i).ptr - (w.iob i).base) w).1 = EOF
    · rwa [if_pos failed]
    · rw [if_neg failed]
      have high := live.high null
      obtain ⟨cnt, fits⟩  := grow_ok ans failed (live.size null) (by omega)
      exact grown.trans (Keeps.append grown.live (cnt ▸ none) fits)
  · rw [if_neg full]
    exact Keeps.append live none (by omega)

theorem Keeps.putUnbuffered {c : Nat} : Keeps i w (putUnbuffered ans c i w).2 := by
  unfold Stdio.putUnbuffered
  dsimp only
  split
  · refine Keeps.of_iob ?_ (live.atZero.withErr true)
    simp [World.set]
  · exact Keeps.of_iob rfl live.atZero

theorem Keeps.putLine {c : Nat} (some : (w.iob i).base ≠ 0) : Keeps i w (putLine ans c i w).2 := by
  unfold Stdio.putLine
  dsimp only
  have low := live.low some
  by_cases out : c = newline ∨ (w.iob i).base + (w.iob i).bufsiz ≤ (w.iob i).ptr + 1
  · rw [if_pos out]
    -- the cursor may be past the end here, and is at the start again behind the drain
    generalize stored : (w.store (w.iob i).ptr (UInt8.ofNat c)).set i
      { w.iob i with ptr := (w.iob i).ptr + 1, cnt := 0 } = w₁
    obtain ⟨err, iob⟩ := drain_iob ans w₁ i (w.iob i).base ((w.iob i).ptr + 1 - (w.iob i).base)
    have drained : Keeps i w (Stdio.drain ans i (w.iob i).base
        ((w.iob i).ptr + 1 - (w.iob i).base) w₁).2 := by
      refine Keeps.of_iob ?_ (live.atZero.rewound err)
      rw [iob, ← stored]
      simp [World.set, World.store]
    split
    · exact drained
    · exact drained
  · rw [if_neg out]
    exact Keeps.of_iob rfl (FILE.live_of_some some (by dsimp only; omega) live.busy live.strg)

theorem Keeps.putFirst {c : Nat} (start : (w.iob i).ptr = (w.iob i).base)
    (some : (w.iob i).base ≠ 0) : Keeps i w (putFirst c i w).2 := by
  have size := live.size some
  exact Keeps.of_iob rfl (FILE.live_of_some some (by dsimp only; omega) live.busy live.strg)

theorem Keeps.putFull {c : Nat} (some : (w.iob i).base ≠ 0) : Keeps i w (putFull ans c i w).2 := by
  unfold Stdio.putFull
  dsimp only
  have drained := Keeps.drain ans live ((w.iob i).ptr - (w.iob i).base)
  obtain ⟨err, iob⟩ := drain_iob ans w i (w.iob i).base ((w.iob i).ptr - (w.iob i).base)
  split
  · exact drained.trans (Keeps.set drained.live.atZero)
  · refine drained.trans (Keeps.putFirst drained.live ?_ ?_)
    · rw [iob, update_self]
    · rwa [iob, update_self]

theorem Keeps.flsbuf {c : Nat} : Keeps i w (flsbuf lay ans c i w).2 := by
  have turned := turnToWrite_live live
  unfold Stdio.flsbuf
  dsimp only
  split
  · have zero := Keeps.set (w := w) (i := i) turned.atZero
    split
    · refine zero.trans (Keeps.memputc ans zero.live ?_)
      simp only [set_iob_self]
      exact Int.le_refl _
    · exact zero
  · have chosen : Keeps i w (w.set i (choose lay ans i (turnToWrite (w.iob i)))) :=
      Keeps.set (choose_live lay ans turned)
    refine chosen.trans ?_
    split
    · exact Keeps.putUnbuffered ans chosen.live
    · rename_i buffered
      have some : ((w.set i (choose lay ans i (turnToWrite (w.iob i)))).iob i).base ≠ 0 := by
        rw [set_iob_self]
        exact choose_base lay ans (by simpa using buffered)
      split
      · exact Keeps.putLine ans chosen.live some
      · exact Keeps.putFull ans chosen.live some

theorem Keeps.putc {c : Nat} : Keeps i w (putc lay ans c i w).2 := by
  unfold Stdio.putc
  dsimp only
  split
  · rename_i more
    exact Keeps.of_iob rfl (live.advance (by omega) Nat.one_pos)
  · have down := Keeps.set (w := w) (i := i) live.countDown
    exact down.trans (Keeps.flsbuf lay ans down.live)

theorem Keeps.fputs {fuel s : Nat} {r : Int} {w' : World}
    (done : fputs lay ans i fuel s w = some (r, w')) : Keeps i w w' := by
  induction fuel generalizing s w with
  | zero => cases done
  | succ fuel ih =>
    unfold Stdio.fputs at done
    dsimp only at done
    split at done
    · cases done
      exact Keeps.refl live
    · have first := Keeps.putc lay ans (c := (w.mem s).toNat) live
      exact first.trans (ih first.live done)

theorem Keeps.wrbytes {rounds p n : Nat} : Keeps i w (wrbytes lay ans i rounds p n w).2 := by
  induction rounds generalizing p n w with
  | zero => exact Keeps.refl live
  | succ rounds ih =>
    unfold Stdio.wrbytes
    dsimp only
    split
    · rename_i words
      obtain ⟨pos, within⟩ := moved_le words.2.1 words.1
      refine Keeps.trans (Keeps.of_iob rfl (live.advance within pos)) (ih ?_)
      rw [set_iob_self]
      exact live.advance within pos
    · split
      · exact Keeps.refl live
      · have first := Keeps.putc lay ans (c := (w.mem p).toNat) live
        split
        · exact first
        · exact first.trans (ih first.live)

theorem Keeps.fwrite {p size count : Nat} : Keeps i w (fwrite lay ans p size count i w).2 := by
  unfold Stdio.fwrite
  dsimp only
  split
  · exact Keeps.refl live
  · split
    · exact Keeps.wrbytes lay ans live
    · exact Keeps.wrbytes lay ans live

theorem Keeps.fflush : Keeps i w (fflush ans i w).2 := by
  unfold Stdio.fflush
  dsimp only
  split
  · rename_i pending
    have drained := Keeps.drain ans live ((w.iob i).ptr - (w.iob i).base)
    obtain ⟨err, iob⟩ := drain_iob ans w i (w.iob i).base ((w.iob i).ptr - (w.iob i).base)
    split
    · exact drained
    split
    · exact drained
    · refine drained.trans (Keeps.set ?_)
      have rewound := live.rewound err
      rw [iob, update_self]
      refine ⟨{ rewound with room := fun _ => ?_, none := fun null => absurd null pending.2.2.2 },
        rewound.busy, rewound.strg⟩
      dsimp only
      omega
  · exact Keeps.refl live

/-! ### Reading and positions -/

theorem Keeps.filbuf {left : Nat} : Keeps i w (filbuf lay ans i left w).2 := by
  have turned := turnToRead_live live
  unfold Stdio.filbuf
  dsimp only
  generalize (if (w.iob i).flag.rw = true then
    { w.iob i with flag := { (w.iob i).flag with read := true } } else w.iob i) = f at turned ⊢
  obtain ⟨empty, some⟩ := chooseIn_live lay ans turned
  split
  · exact Keeps.set turned
  generalize chooseIn lay ans f = f at empty some ⊢
  cases ans.read left with
  | none => exact Keeps.set (empty.withErr true)
  | some bytes =>
    dsimp only
    split
    · exact Keeps.set (atEnd_live empty)
    rename_i c rest got
    have size := empty.size some
    have most : rest.length + 1 ≤ f.bufsiz := by
      have := congrArg List.length got
      rw [List.length_take, List.length_cons] at this
      split at this
      · dsimp only at size
        omega
      · omega
    exact Keeps.of_iob rfl (FILE.live_of_some some (by dsimp only; omega) empty.busy empty.strg)

theorem Keeps.getc (left : Nat) : Keeps i w (getc lay ans i left w).2 := by
  unfold Stdio.getc
  dsimp only
  split
  · rename_i more
    exact Keeps.of_iob rfl (live.advance (by omega) Nat.one_pos)
  · have down := Keeps.set (w := w) (i := i) live.countDown
    exact down.trans (Keeps.filbuf lay ans down.live)

theorem Keeps.rdbytes {rounds p n : Nat} : Keeps i w (rdbytes lay ans i rounds p n w).2 := by
  induction rounds generalizing p n w with
  | zero => exact Keeps.refl live
  | succ rounds ih =>
    unfold Stdio.rdbytes
    dsimp only
    split
    · rename_i words
      obtain ⟨pos, within⟩ := moved_le words.2.1 words.1
      refine Keeps.trans (Keeps.of_iob rfl (live.advance within pos)) (ih ?_)
      rw [set_iob_self]
      exact live.advance within pos
    · split
      · exact Keeps.refl live
      · have first := Keeps.getc lay ans live n
        split
        · exact first
        · have stored : Keeps i w ((Stdio.getc lay ans i n w).2.store p
              (UInt8.ofNat (Stdio.getc lay ans i n w).1.toNat)) := ⟨first.others, first.live⟩
          exact stored.trans (ih stored.live)

theorem Keeps.fread {p size count : Nat} : Keeps i w (fread lay ans p size count i w).2 := by
  unfold Stdio.fread
  dsimp only
  split
  · exact Keeps.refl live
  · split
    · exact Keeps.rdbytes lay ans live
    · exact Keeps.rdbytes lay ans live

theorem Keeps.ungetc {c : Option Nat} : Keeps i w (ungetc c i w).2 := by
  unfold Stdio.ungetc
  cases c with
  | none => exact Keeps.refl live
  | some c =>
    dsimp only
    by_cases null : (w.iob i).base = 0
    · rw [if_pos null]
      exact Keeps.refl live
    rw [if_neg null]
    have high := live.high null
    have room := live.room null
    have size := live.size null
    split
    · split
      · exact Keeps.of_iob rfl (FILE.live_of_some null (by dsimp only; omega) live.busy live.strg)
      · exact Keeps.refl live
    · exact Keeps.of_iob rfl (FILE.live_of_some null (by dsimp only; omega) live.busy live.strg)

theorem Keeps.fseek {offset : Int} {whence : Nat} : Keeps i w (fseek ans offset whence i w).2 := by
  have ready := live.noEof
  unfold Stdio.fseek
  dsimp only
  generalize (if whence = 0 then offset + ((w.iob i).cnt - ans.tell) else offset) = p
  split
  · split
    · rename_i near
      obtain ⟨-, buffer, -, -, -, le, ge⟩ := near
      have room := live.room buffer
      have size := live.size buffer
      exact Keeps.set (FILE.live_of_some buffer (by dsimp only at *; omega) ready.busy ready.strg)
    · refine Keeps.set ?_
      exact turn_live ready
  · split
    · have before := Keeps.set (w := w) (i := i) ready
      have flushed := before.trans (Keeps.fflush ans before.live)
      refine flushed.trans (Keeps.set ?_)
      split
      · rename_i both
        exact FILE.live_of_empty rfl rfl flushed.live.size (by simp [FILE.busy, both])
          flushed.live.strg
      · exact flushed.live
    · exact Keeps.set ready

theorem Keeps.rewind : Keeps i w (rewind ans i w) := by
  have flushed := Keeps.fflush ans live
  unfold Stdio.rewind
  dsimp only
  refine flushed.trans (Keeps.set ?_)
  split
  · rename_i both
    exact FILE.live_of_empty rfl rfl flushed.live.size (by simp [FILE.busy, both]) flushed.live.strg
  · exact FILE.live_of_empty rfl rfl flushed.live.size flushed.live.busy flushed.live.strg

theorem Keeps.setbuf {buf : Nat} : Keeps i w (setbuf buf i w) := by
  unfold Stdio.setbuf
  split
  · exact Keeps.set (FILE.live_of_null rfl (Int.le_refl _) live.busy live.strg)
  · exact Keeps.set (FILE.live_of_empty rfl rfl (fun _ => BUFSIZ_pos) live.busy live.strg)

theorem Keeps.setvbuf {buf size : Nat} {mode : Option Buffering} :
    Keeps i w (setvbuf ans buf mode size i w).2 := by
  unfold Stdio.setvbuf
  cases mode with
  | none => exact Keeps.refl live
  | some mode =>
    dsimp only
    generalize (if buf = 0 then ans.malloc else buf) = p
    split_ifs with no none failed
    iterate 3 exact Keeps.set (FILE.live_of_null rfl (Int.le_refl _) live.busy live.strg)
    exact Keeps.set (FILE.live_of_empty rfl rfl (fun _ => Nat.pos_of_ne_zero none) live.busy live.strg)

theorem Keeps.setlinebuf : Keeps i w (setlinebuf i w) := by
  unfold Stdio.setlinebuf
  dsimp only
  split
  · exact Keeps.set ⟨live.atZero.withFlag _, live.busy, live.strg⟩
  · exact Keeps.set ⟨live.withFlag _, live.busy, live.strg⟩

end Stream

end V7Besm.Stdio

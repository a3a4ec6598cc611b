import Mathlib.Data.List.Chain
import V7Besm.Tty.Line

/-!
The delimiter count of a terminal line.

`t_delct` is the number of delimiters on the raw queue as long as the queue is filled and
emptied in one mode. The modes share it, though: raw input may put the byte on the queue
as a character of its own, and a reader in raw or cbreak mode takes it off as one.
-/

namespace V7Besm.Tty.Line

open Tty.Clists List

/-- The characters on the raw queue. -/
def rawq (t : Line) : List Nat := t.lists.contents .raw

/-- The count is right. -/
def Balanced (t : Line) : Prop := t.delct = t.rawq.count DELIM

/-! ### What leaves the raw queue alone -/

/-- `t'` differs from `t` in what has nothing to do with raw input. -/
structure Frame (t t' : Line) : Prop where
  valid : Valid t'.lists
  rawq : t'.rawq = t.rawq
  delct : t'.delct = t.delct
  modes : t'.modes = t.modes

variable {t t' t'' : Line} {c n : Nat} {q : Queue} {m : Modes}

theorem Frame.refl (valid : Valid t.lists) : Frame t t := ⟨valid, rfl, rfl, rfl⟩

theorem Frame.trans (first : Frame t t') (second : Frame t' t'') : Frame t t'' :=
  ⟨second.valid, second.rawq.trans first.rawq, second.delct.trans first.delct,
    second.modes.trans first.modes⟩

theorem Frame.set (frame : Frame t t') (lists : t''.lists = t'.lists) (delct : t''.delct = t'.delct)
    (modes : t''.modes = t'.modes) : Frame t t'' :=
  ⟨lists ▸ frame.valid, by rw [Line.rawq, lists]; exact frame.rawq, delct.trans frame.delct,
    modes.trans frame.modes⟩

theorem Frame.ite {p : Prop} [Decidable p] (yes : Frame t t') (no : Frame t t'') :
    Frame t (if p then t' else t'') := by
  split
  · exact yes
  · exact no

section

variable (valid : Valid t.lists)

include valid

theorem frame_putc (ne : q ≠ .raw) : Frame t (t.putc c q).2 :=
  ⟨(valid.putc c q).2, (valid.putc c q).1.others _ ne.symm, rfl, rfl⟩

theorem frame_getc (ne : q ≠ .raw) : Frame t (t.getc q).2 :=
  ⟨(valid.getc q).2, (valid.getc q).1.others _ ne.symm, rfl, rfl⟩

theorem frame_drain (ne : q ≠ .raw) : Frame t (t.drain q) :=
  ⟨(valid.qToB q _).2, (valid.qToB q _).1.others _ ne.symm, rfl, rfl⟩

theorem frame_scstart : Frame t t.scstart := by
  have frame : Frame t (t.getc .out).2 := frame_getc valid (by decide)
  refine .ite (.refl valid) ?_
  rcases got : t.getc .out with ⟨_ | c, t'⟩
  all_goals
    rw [got] at frame
    exact frame.set rfl rfl rfl

theorem frame_ttstart : Frame t t.ttstart := .ite (.refl valid) (frame_scstart valid)

theorem frame_print (c : Nat) : Frame t (t.print c) :=
  .ite (frame_putc valid (by decide)) <| .ite (.refl valid) <|
    (frame_putc valid (by decide)).set rfl rfl rfl

theorem frame_tab : Frame t (tab n t) := by
  have frame : Frame t (t.print 32) := frame_print valid 32
  induction n generalizing t with
  | zero => exact frame
  | succ n ih => exact .ite frame (frame.trans (ih frame.valid (frame_print frame.valid 32)))

theorem frame_ttyoutput (c : Nat) : Frame t (t.ttyoutput c) := by
  have print (c : Nat) : Frame t (t.print c) := frame_print valid c
  refine .ite (print c) (.ite (frame_tab valid) ?_)
  split
  · exact (print 92).trans (frame_print (print 92).valid _)
  · have crlf {p : Prop} [Decidable p] : Frame t (if p then t.print 13 else t) :=
      .ite (print 13) (.refl valid)
    exact crlf.trans (frame_print crlf.valid _)

end

theorem Frame.ttyoutput (frame : Frame t t') (c : Nat) : Frame t (t'.ttyoutput c) :=
  frame.trans (frame_ttyoutput frame.valid c)

theorem Frame.ttstart (frame : Frame t t') : Frame t t'.ttstart :=
  frame.trans (frame_ttstart frame.valid)

theorem frame_echo (valid : Valid t.lists) : Frame t (t.echo m c) := by
  have rubout : Frame t (((t.ttyoutput 8).ttyoutput 32).ttyoutput 8) :=
    (((Frame.refl valid).ttyoutput 8).ttyoutput 32).ttyoutput 8
  have print {p : Prop} [Decidable p] :
      Frame t (if p then (t.ttyoutput c).ttyoutput 10 else t.ttyoutput c) :=
    .ite (((Frame.refl valid).ttyoutput c).ttyoutput 10) ((Frame.refl valid).ttyoutput c)
  refine Frame.ttstart (.ite (.ite (rubout.set rfl rfl rfl) (.refl valid)) ?_)
  exact .ite (print.set rfl rfl rfl) (.ite (print.set rfl rfl rfl) print)

/-! ### Input -/

/-- What a line with a right count keeps: no two delimiters are neighbours on the raw
queue, and the queue is not long, so that the count fits its `char`. -/
structure Counted (t : Line) : Prop where
  valid : Valid t.lists
  balanced : Balanced t
  spaced : t.rawq.IsChain fun a b => ¬ (a = DELIM ∧ b = DELIM)
  short : t.rawq.length ≤ TTYHOG + 2

theorem Counted.frame (counted : Counted t) (frame : Frame t t') : Counted t' := by
  obtain ⟨-, balanced, spaced, short⟩ := counted
  refine ⟨frame.valid, ?_, ?_, ?_⟩
  · rw [Balanced, frame.delct, frame.rawq, balanced]
  · rwa [frame.rawq]
  · rwa [frame.rawq]

theorem counted_of_empty (valid : Valid t.lists) (empty : t.rawq = []) (zero : t.delct = 0) :
    Counted t := ⟨valid, by simp [Balanced, empty, zero], by simp [empty], by simp [empty]⟩

theorem cc_eq (t : Line) : t.cc .raw = t.rawq.length := by
  simp [cc, rawq, contents, chars]

theorem counted_flushtty (valid : Valid t.lists) : Counted t.flushtty := by
  have can : Frame t { t.drain .can with ttstop := false } :=
    (frame_drain valid (by decide)).set rfl rfl rfl
  have out : Valid ({ t.drain .can with ttstop := false }.drain .out).lists :=
    (frame_drain can.valid (by decide)).valid
  obtain ⟨gets, valid'⟩ := out.qToB .raw
    (({ t.drain .can with ttstop := false }.drain .out).cc .raw + 1)
  refine counted_of_empty valid' ?_ rfl
  refine gets.self.trans (drop_of_length_le ?_)
  rw [cc_eq]
  exact Nat.le_succ _

theorem counted_ttyblock (counted : Counted t) : Counted t.ttyblock := by
  have first : Counted (if t.cc .raw > TTYHOG then { t.flushtty with tblock := false } else t) := by
    split
    · have flushed := counted_flushtty counted.valid
      exact flushed.frame ((Frame.refl flushed.valid).set rfl rfl rfl)
    · exact counted
  rw [ttyblock]
  generalize (if t.cc .raw > TTYHOG then { t.flushtty with tblock := false } else t) = t₁ at first
  split
  · have frame : Frame t₁ (t₁.putc t₁.tc.stopc .out).2 := frame_putc first.valid (by decide)
    rcases put : t₁.putc t₁.tc.stopc .out with ⟨_ | _, t₂⟩
    · rw [put] at frame
      exact first.frame frame
    · rw [put] at frame
      exact first.frame (Frame.ttstart (frame.set rfl rfl rfl))
  · exact first

/-- A character that `control` lets pass is a byte, and the delimiter only in raw mode. -/
structure Passed (m : Modes) (c : Nat) (r : Line × Option Nat) : Prop where
  counted : Counted r.1
  byte : ∀ c' ∈ r.2, c' < 256 ∧ (c' = DELIM → m.raw = true ∧ c = DELIM)

theorem passed_none (counted : Counted t) : Passed m c (t, none) := ⟨counted, by simp⟩

theorem passed_interrupt (counted : Counted t) (lt : c < 256) (ne : c ≠ DELIM) :
    Passed m c (t.interrupt m c) := by
  rw [interrupt]
  split
  · exact passed_none (counted_flushtty counted.valid)
  · refine ⟨counted, fun c' mem => ?_⟩
    obtain rfl : (if (c = 13 && m.crmod) = true then 10 else c) = c' := by simpa using mem
    split
    · exact ⟨by decide, fun eq => absurd eq (by decide)⟩
    · exact ⟨lt, fun eq => absurd eq ne⟩

theorem passed_control (counted : Counted t) (lt : c < 256) : Passed m c (t.control m c) := by
  have start : Counted { t with ttstop := false }.ttstart :=
    counted.frame (Frame.ttstart ((Frame.refl counted.valid).set rfl rfl rfl))
  rw [control]
  split
  · rename_i raw
    refine ⟨counted, fun c' mem => ?_⟩
    obtain rfl : c = c' := by simpa using mem
    exact ⟨lt, fun eq => ⟨raw, eq⟩⟩
  split
  · exact passed_none counted
  rename_i ne
  split
  · split
    · exact passed_none start
    split
    · exact passed_none counted
    · exact passed_interrupt start lt ne
  split
  · exact passed_none (counted.frame ((Frame.refl counted.valid).set rfl rfl rfl))
  split
  · exact passed_none counted
  · exact passed_interrupt counted lt ne

/-- No two neighbours: at most every other character is a delimiter. -/
theorem count_le_of_spaced {l : List Nat}
    (spaced : l.IsChain fun a b => ¬ (a = DELIM ∧ b = DELIM)) :
    2 * l.count DELIM ≤ l.length + 1 := by
  induction l using List.twoStepInduction with
  | nil => simp
  | singleton a =>
    rw [count_singleton]
    split <;> simp
  | cons_cons a b l ih₁ ih₂ =>
    obtain ⟨apart, rest⟩ := isChain_cons_cons.mp spaced
    have after := ih₁ rest.tail
    have behind := ih₂ b rest
    rw [count_cons, length_cons]
    by_cases first : a = DELIM
    · have second : b ≠ DELIM := fun eq => apart ⟨first, eq⟩
      simp only [count_cons_of_ne second, first, beq_self_eq_true, if_true, length_cons] at after ⊢
      omega
    · simp only [beq_iff_eq, first, if_false, length_cons] at behind ⊢
      omega

/-- A byte goes on the end of the raw queue, or finds no block. -/
theorem putc_cases (valid : Valid t.lists) (lt : c < 256) :
    t.putc c .raw = (false, t) ∨
      (t.putc c .raw).1 = true ∧ (t.putc c .raw).2.rawq = t.rawq ++ [c] := by
  obtain ⟨puts, -⟩ := valid.putc c .raw
  cases done : (t.lists.putc c .raw).1 with
  | false =>
    left
    rw [Line.putc, done, puts.fails done]
  | true =>
    refine .inr ⟨done, (puts.self done).trans ?_⟩
    rw [Nat.mod_eq_of_lt lt]
    rfl

section

variable (counted : Counted t)

include counted

theorem Counted.putc (lt : c < 256) (ne : c ≠ DELIM)
    (room : t.rawq.length ≤ TTYHOG) : Counted (t.putc c .raw).2 := by
  obtain ⟨valid, balanced, spaced, short⟩ := counted
  rcases putc_cases valid lt with fails | ⟨-, stored⟩
  · rw [fails]
    exact ⟨valid, balanced, spaced, short⟩
  refine ⟨(valid.putc c .raw).2, ?_, ?_, ?_⟩
  · rwa [Balanced, stored, count_append, count_singleton, if_neg (by simpa using ne)]
  · rw [stored]
    exact spaced.append (.singleton c) (by simp [ne])
  · rw [stored, length_append]
    simp only [TTYHOG, length_singleton] at room ⊢
    omega

/-- A delimiter goes behind a character that is none. -/
theorem counted_delimit (last : ∀ x ∈ t.rawq.getLast?, x ≠ DELIM)
    (room : t.rawq.length ≤ TTYHOG + 1) : Counted t.delimit := by
  obtain ⟨valid, balanced, spaced, short⟩ := counted
  rcases putc_cases valid (show DELIM < 256 by decide) with fails | ⟨done, stored⟩
  · rw [delimit, fails]
    exact ⟨valid, balanced, spaced, short⟩
  have few := count_le_of_spaced spaced
  have delimited : t.delimit = { (t.putc DELIM .raw).2 with delct := (t.delct + 1) % 256 } := by
    rw [delimit]
    rcases put : t.putc DELIM .raw with ⟨_ | _, t'⟩
    · simp [put] at done
    · rw [Line.putc, Prod.mk.injEq] at put
      simp [← put.2]
  rw [delimited]
  rw [Balanced] at balanced
  refine ⟨(valid.putc DELIM .raw).2, ?_, ?_, ?_⟩
  · refine Eq.trans (b := t.rawq.count DELIM + 1) ?_ ?_
    · simp only [TTYHOG] at room
      simp only [balanced]
      omega
    · refine Eq.symm ((congrArg (List.count DELIM) stored).trans ?_)
      simp
  · refine Eq.mpr (congrArg _ stored) (spaced.append (.singleton _) ?_)
    intro x mem y _ both
    exact last x mem both.1
  · refine Nat.le_trans (Nat.le_of_eq (congrArg List.length stored)) ?_
    simpa using room

theorem counted_enqueue (lt : c < 256) (ne : c ≠ DELIM)
    (room : t.rawq.length ≤ TTYHOG) : Counted (t.enqueue m c) := by
  have first : Counted (t.putc c .raw).2 := counted.putc lt ne room
  rw [enqueue]
  split
  · rcases putc_cases counted.valid lt with fails | ⟨-, stored⟩
    · -- the pool is as empty for the delimiter
      have dry := (counted.valid.putc c .raw).1.answer.mp (congrArg Prod.fst fails)
      have fails' := (counted.valid.putc DELIM .raw).1.answer.mpr dry
      have same := (counted.valid.putc DELIM .raw).1.fails fails'
      have idle : t.putc DELIM .raw = (false, t) := by rw [Line.putc, fails', same]
      rwa [fails, delimit, idle]
    · refine counted_delimit first ?_ ?_
      · simpa [stored] using ne
      · rw [stored, length_append]
        simpa using room
  · exact first

theorem counted_accept (lt : c < 256) (ne : c ≠ DELIM) : Counted (t.accept m c) := by
  rw [accept]
  split
  · exact counted_flushtty counted.valid
  rename_i room
  rw [cc_eq, Nat.not_lt] at room
  have lower : (if m.lcase && 65 ≤ c && c ≤ 90 then c + 32 else c) < 256 ∧
      (if m.lcase && 65 ≤ c && c ≤ 90 then c + 32 else c) ≠ DELIM := by
    split
    · rename_i upper
      simp only [Bool.and_eq_true, decide_eq_true_eq, DELIM] at upper ⊢
      omega
    · exact ⟨lt, ne⟩
  generalize (if m.lcase && 65 ≤ c && c ≤ 90 then c + 32 else c) = d at lower
  have queued : Counted (t.enqueue m d) := counted_enqueue counted lower.1 lower.2 room
  split
  · exact queued.frame (frame_echo queued.valid)
  · exact queued

/-- A character typed keeps the count right, unless it is the delimiter typed in raw mode. -/
theorem counted_ttyinput (clean : t.modes.raw = true → c % 256 ≠ DELIM) :
    Counted (t.ttyinput c) := by
  have first : Counted (if t.modes.tandem then t.ttyblock else t) := by
    split
    · exact counted_ttyblock counted
    · exact counted
  have passed := passed_control (m := t.modes) first (Nat.mod_lt c (by decide))
  rw [ttyinput]
  rcases control : (if t.modes.tandem then t.ttyblock else t).control t.modes (c % 256) with
    ⟨t', _ | c'⟩
  · rw [control] at passed
    exact passed.counted
  · rw [control] at passed
    obtain ⟨lt, only⟩ := passed.byte c' rfl
    exact counted_accept passed.counted lt fun eq => clean (only eq).1 (only eq).2

end

/-! ### Reading -/

/-- `t'` is `t` after `c` has come off the raw queue. -/
structure Popped (t t' : Line) (c : Nat) : Prop where
  valid : Valid t'.lists
  rawq : t.rawq = c :: t'.rawq
  delct : t'.delct = t.delct
  modes : t'.modes = t.modes

theorem getc_cases (valid : Valid t.lists) :
    (∃ t', t.getc .raw = (none, t') ∧ Frame t t') ∨
      ∃ c t', t.getc .raw = (some c, t') ∧ Popped t t' c := by
  obtain ⟨gets, valid'⟩ := valid.getc .raw
  have answer : (t.getc .raw).1 = t.rawq.head? := gets.answer
  have self : (t.getc .raw).2.rawq = t.rawq.tail := gets.self
  rcases got : t.getc .raw with ⟨r, t'⟩
  have same : t' = { t with lists := (t.lists.getc .raw).2 } := (congrArg Prod.snd got).symm
  rw [got] at answer self
  cases queue : t.rawq with
  | nil =>
    obtain rfl : r = none := by simpa [queue] using answer
    exact .inl ⟨t', rfl, same ▸ valid', self.trans (by simp [queue]), same ▸ rfl, same ▸ rfl⟩
  | cons c q =>
    obtain rfl : r = some c := by simpa [queue] using answer
    exact .inr ⟨c, t', rfl, same ▸ valid', by simp [self, queue], same ▸ rfl, same ▸ rfl⟩

theorem Counted.pop (counted : Counted t) (popped : Popped t t' c) (ne : c ≠ DELIM) :
    Counted t' := by
  obtain ⟨-, balanced, spaced, short⟩ := counted
  rw [Balanced, popped.rawq, count_cons_of_ne ne] at balanced
  rw [popped.rawq] at spaced short
  exact ⟨popped.valid, popped.delct.trans balanced, spaced.tail, Nat.le_trans (Nat.le_succ _) short⟩

theorem Counted.pop_delim (counted : Counted t) (popped : Popped t t' DELIM) :
    Counted { t' with delct := (t'.delct + 255) % 256 } := by
  obtain ⟨-, balanced, spaced, short⟩ := counted
  have few := count_le_of_spaced spaced
  rw [Balanced, popped.rawq, count_cons_self] at balanced
  rw [popped.rawq] at spaced short few
  refine ⟨popped.valid, ?_, spaced.tail, Nat.le_trans (Nat.le_succ _) short⟩
  have count : ({ t' with delct := (t'.delct + 255) % 256 } : Line).rawq.count DELIM =
      t'.rawq.count DELIM := rfl
  rw [Balanced, count]
  simp only [popped.delct, balanced]
  simp only [count_cons_self, TTYHOG] at few short
  omega

/-- The loop of `canon` in cooked mode: it counts the delimiter it takes. -/
theorem counted_canonLoop (line : List Nat) (counted : Counted t)
    (cooked : t.modes.cooked = true) : Counted (canonLoop n t line).1 := by
  induction n generalizing t line with
  | zero => exact counted
  | succ n ih =>
    rw [canonLoop]
    rcases getc_cases counted.valid with ⟨t', got, frame⟩ | ⟨c, t', got, popped⟩
    · rw [got]
      exact counted.frame frame
    rw [got]
    have cooked' : t'.modes.cooked = true := popped.modes ▸ cooked
    simp only [cooked', Bool.true_and, if_true]
    split
    · rename_i delim
      obtain rfl : c = DELIM := by simpa using delim
      exact counted.pop_delim popped
    · rename_i ne
      have counted' := counted.pop popped (by simpa using ne)
      split
      · exact counted'
      · exact ih _ counted' cooked'

/-- The loop of `canon` in raw or cbreak mode: it takes what is there as characters. -/
theorem counted_canonLoop_raw (line : List Nat) (counted : Counted t)
    (raw : t.modes.cooked = false) (room : line.length + 2 < CANBSIZ)
    (clean : DELIM ∉ t.rawq.take (CANBSIZ - 2 - line.length)) :
    Counted (canonLoop n t line).1 := by
  induction n generalizing t line with
  | zero => exact counted
  | succ n ih =>
    rw [canonLoop]
    rcases getc_cases counted.valid with ⟨t', got, frame⟩ | ⟨c, t', got, popped⟩
    · rw [got]
      exact counted.frame frame
    rw [got]
    have raw' : t'.modes.cooked = false := popped.modes ▸ raw
    have more : CANBSIZ - 2 - line.length = CANBSIZ - 2 - (c :: line).length + 1 := by
      rw [length_cons]
      omega
    rw [popped.rawq, more, take_succ_cons, mem_cons, not_or] at clean
    have counted' := counted.pop popped (Ne.symm clean.1)
    simp only [raw', Bool.false_and, Bool.false_eq_true, if_false]
    split
    · exact counted'
    · rename_i room'
      exact ih _ counted' raw' (Nat.lt_of_not_le room') clean.2

theorem frame_canonEnd (valid : Valid t.lists) (line : List Nat) : Frame t (t.canonEnd line) := by
  have moved : Frame t { t with lists := (t.lists.bToQ .can line.reverse).2 } :=
    ⟨(valid.bToQ .can _).2, (valid.bToQ .can _).1.others .raw (by decide), rfl, rfl⟩
  rw [canonEnd]
  generalize ({ t with lists := (t.lists.bToQ .can line.reverse).2 } : Line) = t₁ at moved
  refine .ite ?_ moved
  have frame : Frame t (t₁.putc t₁.tc.startc .out).2 :=
    moved.trans (frame_putc moved.valid (by decide))
  rcases put : t₁.putc t₁.tc.startc .out with ⟨_ | _, t₂⟩
  · rwa [put] at frame
  · rw [put] at frame
    exact Frame.ttstart (frame.set rfl rfl rfl)

/-- No delimiter is among the characters that a reader in raw or cbreak mode takes. -/
def CleanRead (t : Line) : Prop := t.modes.cooked = false → DELIM ∉ t.rawq.take (CANBSIZ - 2)

theorem counted_canon {k : Nat} (counted : Counted t) (clean : CleanRead t)
    (done : t.canon = some (k, t')) : Counted t' := by
  rw [canon] at done
  split at done
  · split at done
    · cases done
    · simp only [Option.some.injEq, Prod.mk.injEq] at done
      exact done.2 ▸ counted
  · simp only [Option.some.injEq, Prod.mk.injEq] at done
    have looped : Counted (canonLoop (t.cc .raw + 1) t []).1 := by
      cases mode : t.modes.cooked with
      | true => exact counted_canonLoop [] counted mode
      | false => exact counted_canonLoop_raw [] counted mode (by decide) (clean mode)
    exact done.2 ▸ looped.frame (frame_canonEnd looped.valid _)

theorem counted_ttread (counted : Counted t) (clean : t.cc .can = 0 → CleanRead t)
    (done : t.ttread n = some t') : Counted t' := by
  have pass {t : Line} (counted : Counted t) :
      Counted { t with lists := (t.lists.qToB .can n).2 } :=
    counted.frame ⟨(counted.valid.qToB .can n).2,
      (counted.valid.qToB .can n).1.others .raw (by decide), rfl, rfl⟩
  rw [ttread] at done
  split at done
  · exact Option.some.inj done ▸ counted
  split at done
  · exact Option.some.inj done ▸ pass counted
  rename_i empty
  rcases read : t.canon with _ | ⟨k, t₁⟩
  · simp [read] at done
  · have counted₁ := counted_canon counted (clean (by simpa using empty)) read
    rw [read] at done
    simp only [Option.some.injEq] at done
    rw [← done]
    split
    · exact pass counted₁
    · exact counted₁

/-! ### Runs -/

/-- The step does not mix up the modes: raw input is not the delimiter, and a reader in raw
or cbreak mode does not take one. -/
def Clean (t : Line) : Op → Prop
  | .input c => t.modes.raw = true → c % 256 ≠ DELIM
  | .read _ => t.cc .can = 0 → CleanRead t
  | _ => True

instance : (op : Op) → Decidable (Clean t op)
  | .input c => inferInstanceAs (Decidable (t.modes.raw = true → c % 256 ≠ DELIM))
  | .read _ => inferInstanceAs (Decidable (t.cc .can = 0 → t.modes.cooked = false →
      DELIM ∉ t.rawq.take (CANBSIZ - 2)))
  | .flush | .setp _ | .setn _ | .setc _ | .write _ | .done | .otherPutc _ _ | .otherGetc _ =>
    isTrue trivial

theorem counted_step {op : Op} (counted : Counted t) (clean : Clean t op) :
    Counted (t.step op) := by
  have refl := Frame.refl counted.valid
  cases op with
  | input c => exact counted_ttyinput counted clean
  | read n =>
    rw [step]
    cases done : t.ttread n with
    | none => exact counted
    | some t' => exact counted_ttread counted clean done
  | flush => exact counted_flushtty counted.valid
  | setp p =>
    rw [step, setp]
    split
    · exact counted.frame ((frame_scstart counted.valid).set rfl rfl rfl)
    · exact { (counted_flushtty counted.valid) with }
  | setn p => exact { counted with }
  | setc tc => exact counted.frame (refl.set rfl rfl rfl)
  | write c => exact counted.frame (refl.ttyoutput c).ttstart
  | done => exact counted.frame (Frame.ttstart (refl.set rfl rfl rfl))
  | otherPutc c n => exact counted.frame (frame_putc counted.valid (by simp))
  | otherGetc n => exact counted.frame (frame_getc counted.valid (by simp))

/-- Every step of the run is clean. -/
def CleanRun : Line → List Op → Prop
  | _, [] => True
  | t, op :: ops => Clean t op ∧ CleanRun (t.step op) ops

instance decidableCleanRun : (t : Line) → (ops : List Op) → Decidable (CleanRun t ops)
  | _, [] => isTrue trivial
  | t, op :: ops =>
    have := decidableCleanRun (t.step op) ops
    inferInstanceAs (Decidable (Clean t op ∧ CleanRun (t.step op) ops))

theorem counted_of_run {ops : List Op} (counted : Counted t) (clean : CleanRun t ops) :
    Counted (ops.foldl step t) := by
  induction ops generalizing t with
  | nil => exact counted
  | cons op ops ih => exact ih (counted_step counted clean.1) clean.2

/-- In a clean run the count is right in every state; so a reader that goes to sleep in
cooked mode has no complete line, and the count is right when it comes back. -/
theorem delct_of_run (p : Sgttyb) (tc : Tchars) (ops : List Op)
    (clean : CleanRun (opened p tc) ops) :
    let t := ops.foldl step (opened p tc)
    t.delct = t.rawq.count DELIM ∧
      (t.modes.cooked = true → t.canon = none → DELIM ∉ t.rawq) ∧
      ∀ k t', t.modes.cooked = true → t.canon = some (k, t') → t'.delct = t'.rawq.count DELIM := by
  have start : Counted (opened p tc) := by
    refine counted_of_empty valid_cinit ?_ rfl
    simp [rawq, opened, contents, chars, cinit_list]
  have counted := counted_of_run start clean
  refine ⟨counted.balanced, fun cooked sleeps mem => ?_, fun k t' cooked done => ?_⟩
  · have waits : (ops.foldl step (opened p tc)).waits = true := by
      by_contra proceeds
      simp [canon, proceeds] at sleeps
    have none : (ops.foldl step (opened p tc)).delct = 0 := by
      rw [Line.waits, cooked] at waits
      simpa using waits
    exact absurd (none.symm.trans counted.balanced) (Nat.ne_of_lt (count_pos_iff.mpr mem))
  · exact (counted_canon counted (fun raw => by simp [raw] at cooked) done).balanced

/-- A line that has been opened with the usual characters. -/
def console : Line := opened ⟨{}, 0o177, 0o25⟩ {}

/-- A line is typed, with an erase, and read; then the line goes to raw mode. -/
theorem delct_of_run_typed :
    let ops : List Op := [.input 97, .input 98, .input 0o177, .input 10, .read 5, .input 10,
      .read 1, .setn ⟨{ raw := true }, 0, 0⟩, .input 99]
    let t := ops.foldl step console
    CleanRun console ops ∧ t.delct = t.rawq.count DELIM ∧
      (t.modes.cooked = true → t.canon = none → DELIM ∉ t.rawq) ∧
      ∀ k t', t.modes.cooked = true → t.canon = some (k, t') → t'.delct = t'.rawq.count DELIM :=
  have clean : CleanRun console [.input 97, .input 98, .input 0o177, .input 10, .read 5,
      .input 10, .read 1, .setn ⟨{ raw := true }, 0, 0⟩, .input 99] := by decide +kernel
  ⟨clean, delct_of_run _ _ _ clean⟩

/-- The byte 0377 is typed in raw mode. -/
def typedRaw : Line :=
  [.setn ⟨{ raw := true }, 0, 0⟩, .input 0o377, .setn ⟨{}, 0, 0⟩].foldl step console

/-- A line is typed in cooked mode and read in cbreak mode. -/
def readCbreak : Line :=
  [.input 97, .input 10, .setn ⟨{ cbreak := true }, 0, 0⟩, .read 9, .setn ⟨{}, 0, 0⟩].foldl step
    console

/-- `TIOCSETN` leaves the queue as it is. A byte 0377 typed in raw mode is a delimiter in
cooked mode that is not counted, and once it has been taken for the next line the reader
sleeps over that line; a delimiter read in cbreak mode is gone, but still counted. -/
theorem setn_unbalances :
    typedRaw.modes.cooked = true ∧ typedRaw.delct = 0 ∧ typedRaw.rawq = [DELIM] ∧
      ([.input 10, .read 1].foldl step typedRaw).rawq = [10, DELIM] ∧
      ([.input 10, .read 1].foldl step typedRaw).canon.isNone = true ∧
      readCbreak.modes.cooked = true ∧ readCbreak.delct = 1 ∧ readCbreak.rawq = [] := by
  decide +kernel

end V7Besm.Tty.Line

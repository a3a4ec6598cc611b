import V7Besm.Stdio.Slots

/-!
A stream that is being written.

What it has taken in is what has been handed to the kernel and, behind it, what is in its buffer.
Each call appends its bytes to that and changes no memory outside of the buffer; flushing changes
nothing about it, and closing leaves it all handed over.
-/

namespace V7Besm.Stdio

open Words List

/-- The bytes handed to the descriptor `fd` since the log had `k` entries. -/
def sent (fd k : Nat) (w : World) : List UInt8 :=
  (w.wrote.drop k).flatMap fun entry => if entry.1 = fd then entry.2 else []

/-- The bytes in the buffer. -/
def pending (f : FILE) (mem : Nat → UInt8) : List UInt8 :=
  if f.flag.unbuf = true ∨ f.base = 0 then [] else stretch mem f.base (f.ptr - f.base)

/-- A slot whose stream is being written; its buffer is no part of `C`. -/
structure FILE.Writes (C : Nat → Prop) (fd : Nat) (f : FILE) : Prop extends f.Live where
  file : f.file = fd
  dir : f.flag.wrt = true ∨ f.flag.rw = true
  plain : f.flag.strg = false
  ok : f.flag.err = false
  -- nothing has been written yet
  fresh : f.flag.wrt = false → f.cnt ≤ 0 ∧ (f.flag.unbuf = true ∨ f.base = 0 ∨ f.ptr = f.base)
  unbuf : f.flag.unbuf = true → f.cnt ≤ 0
  line : f.flag.lbuf = true → f.cnt ≤ 0
  lineRoom : f.flag.lbuf = true → f.base ≠ 0 → f.ptr < f.base + f.bufsiz
  apart : f.base ≠ 0 → ∀ a, f.base ≤ a → a < f.base + f.bufsiz → ¬ C a

/-- The stream of slot `i` has taken in `put` since the log had `k` entries. -/
structure Taking (C : Nat → Prop) (i fd k : Nat) (put : List UInt8) (w : World) : Prop where
  slot : (w.iob i).Writes C fd
  since : k ≤ w.wrote.length
  bytes : sent fd k w ++ pending (w.iob i) w.mem = put

/-- Memory outside of the buffers is the same. -/
def Frame (C : Nat → Prop) (w w' : World) : Prop := ∀ a, C a → w'.mem a = w.mem a

/-- The buffers a stream may get are no part of `C`. -/
structure Spared (lay : Layout) (ans : Answers) (C : Nat → Prop) : Prop where
  sobuf : ∀ a, lay.sobuf ≤ a → a < lay.sobuf + BUFSIZ → ¬ C a
  heap : ans.malloc ≠ 0 → ∀ a, ans.malloc ≤ a → a < ans.malloc + BUFSIZ → ¬ C a

variable {C : Nat → Prop} {lay : Layout} {ans : Answers} {i fd k : Nat} {put : List UInt8} {w : World}

/-! ### Handing over -/

variable {w' : World}

theorem sent_append {bytes : List UInt8} (since : k ≤ w.wrote.length)
    (log : w'.wrote = w.wrote ++ [(fd, bytes)]) : sent fd k w' = sent fd k w ++ bytes := by
  rw [sent, log, drop_append_of_le_length since, flatMap_append]
  simp [sent]

theorem write_full (full : ans.write = none) (bytes : List UInt8) :
    write ans fd bytes w = (bytes.length, { w with wrote := w.wrote ++ [(fd, bytes)] }) := by
  simp [write, full]

theorem drain_full (full : ans.write = none) (base n : Nat) :
    ∃ w', drain ans i base n w = (0, w') ∧ w'.iob = (w.set i { w.iob i with ptr := base }).iob ∧
      w'.mem = w.mem ∧ (k ≤ w.wrote.length → k ≤ w'.wrote.length ∧
        sent (w.iob i).file k w' = sent (w.iob i).file k w ++ stretch w.mem base n) := by
  unfold drain
  by_cases some : 0 < n
  · rw [if_pos some, write_full full]
    simp only [set_mem, length_stretch, ne_eq, not_true_eq_false, if_false]
    refine ⟨_, rfl, rfl, rfl, fun since => ⟨?_, ?_⟩⟩
    · simp only [set_wrote, length_append]
      omega
    · exact sent_append since rfl
  · obtain rfl : n = 0 := by omega
    refine ⟨_, rfl, rfl, rfl, fun since => ⟨since, ?_⟩⟩
    rw [stretch_zero, append_nil]
    rfl

/-! ### One slot -/

variable {f : FILE}

theorem FILE.Writes.countDown (f_ok : f.Writes C fd) (none : f.cnt ≤ 0) :
    FILE.Writes C fd { f with cnt := f.cnt - 1 } :=
  have le : f.cnt - 1 ≤ 0 := by omega
  { f_ok with
    toLive := f_ok.toLive.countDown
    fresh := fun no => ⟨le, (f_ok.fresh no).2⟩
    unbuf := fun _ => le
    line := fun _ => le }

theorem FILE.Writes.turnToWrite (f_ok : f.Writes C fd) :
    (turnToWrite f).Writes C fd ∧ (Stdio.turnToWrite f).flag.wrt = true ∧
      ∀ mem, pending (Stdio.turnToWrite f) mem = pending f mem := by
  have live := turnToWrite_live f_ok.toLive
  unfold Stdio.turnToWrite at live ⊢
  split at live
  · rename_i both
    rw [if_pos both]
    exact ⟨{ f_ok with toLive := live, dir := Or.inl rfl, fresh := nofun }, rfl, fun _ => rfl⟩
  · rename_i one
    rw [if_neg one]
    exact ⟨f_ok, f_ok.dir.resolve_right one, fun _ => rfl⟩

theorem pending_of_start (start : f.ptr = f.base) (mem : Nat → UInt8) : pending f mem = [] := by
  unfold pending
  rw [start, Nat.sub_self, stretch_zero]
  split
  · rfl
  · rfl

theorem pending_of_none (none : f.flag.unbuf = true ∨ f.base = 0) (mem : Nat → UInt8) :
    pending f mem = [] := if_pos none

theorem FILE.Writes.choose (f_ok : f.Writes C fd) (spared : Spared lay ans C) :
    (choose lay ans i f).Writes C fd ∧ (Stdio.choose lay ans i f).flag.wrt = f.flag.wrt ∧
      ∀ mem, pending (Stdio.choose lay ans i f) mem = pending f mem := by
  have live := choose_live lay ans (i := i) f_ok.toLive
  unfold Stdio.choose at live ⊢
  by_cases first : f.base = 0 ∧ f.flag.unbuf = false
  · have zero {P : Prop} (_ : P) : (0 : Int) ≤ 0 := Int.le_refl 0
    have nothing {g : FILE} (start : g.ptr = g.base) (mem) : pending g mem = pending f mem :=
      (pending_of_start start mem).trans (pending_of_none (.inr first.1) mem).symm
    rw [if_pos first] at live ⊢
    by_cases out : i = 1
    · rw [if_pos out] at live ⊢
      exact ⟨{ f_ok with
        toLive := live
        fresh := fun _ => ⟨Int.le_refl _, .inr (.inr rfl)⟩
        unbuf := zero
        line := zero
        lineRoom := fun _ _ => Nat.lt_add_of_pos_right BUFSIZ_pos
        apart := fun _ => spared.sobuf }, rfl, nothing rfl⟩
    · rw [if_neg out] at live ⊢
      by_cases failed : ans.malloc = 0
      · rw [if_pos failed] at live ⊢
        exact ⟨{ f_ok with
          toLive := live
          fresh := fun _ => ⟨Int.le_refl _, .inl rfl⟩
          unbuf := zero
          line := zero
          lineRoom := fun _ no => absurd rfl no
          apart := fun no => absurd rfl no }, rfl, nothing rfl⟩
      · rw [if_neg failed] at live ⊢
        exact ⟨{ f_ok with
          toLive := live
          fresh := fun _ => ⟨Int.le_refl _, .inr (.inr rfl)⟩
          unbuf := zero
          line := zero
          lineRoom := fun _ _ => Nat.lt_add_of_pos_right BUFSIZ_pos
          apart := fun _ => spared.heap failed }, rfl, nothing rfl⟩
  · rw [if_neg first] at live ⊢
    exact ⟨f_ok, rfl, fun _ => rfl⟩

/-- The slot may be changed if the bytes in the buffer are the same. -/
theorem Taking.set (taking : Taking C i fd k put w) (f_ok : f.Writes C fd)
    (same : pending f w.mem = pending (w.iob i) w.mem) : Taking C i fd k put (w.set i f) := by
  refine ⟨?_, taking.since, ?_⟩
  · rwa [set_iob_self]
  · rw [set_iob_self, set_mem, same]
    exact taking.bytes

/-! ### The arms of `_flsbuf` -/

/-- The bytes of a stream that is written through a buffer. -/
theorem pending_of_some (buffered : f.flag.unbuf = false) (some : f.base ≠ 0)
    (mem : Nat → UInt8) : pending f mem = stretch mem f.base (f.ptr - f.base) := by
  refine if_neg ?_
  simp [buffered, some]

theorem Taking.of_slot (iob : w'.iob i = f) (f_ok : f.Writes C fd) (since : k ≤ w'.wrote.length)
    (bytes : sent fd k w' ++ pending f w'.mem = put) :
    Taking C i fd k put w' := by
  subst iob
  exact ⟨f_ok, since, bytes⟩

theorem FILE.Writes.atZero (f_ok : f.Writes C fd) : FILE.Writes C fd { f with cnt := 0 } :=
  { f_ok with
    toLive := f_ok.toLive.atZero
    fresh := fun no => ⟨Int.le_refl _, (f_ok.fresh no).2⟩
    unbuf := fun _ => Int.le_refl _
    line := fun _ => Int.le_refl _ }

variable {c : Nat}

theorem Taking.putUnbuffered (taking : Taking C i fd k put w) (full : ans.write = none)
    (unbuf : (w.iob i).flag.unbuf = true) :
    Taking C i fd k (put ++ [UInt8.ofNat c]) (putUnbuffered ans c i w).2 ∧
      Frame C w (Stdio.putUnbuffered ans c i w).2 := by
  unfold Stdio.putUnbuffered
  dsimp only
  rw [write_full full]
  simp only [length_singleton, ne_eq, not_true_eq_false, if_false]
  refine ⟨Taking.of_slot (set_iob_self ..) taking.slot.atZero ?_ ?_, fun _ _ => rfl⟩
  · have since := taking.since
    simp only [set_wrote, length_append]
    omega
  · have before := taking.bytes
    rw [pending_of_none (Or.inl unbuf), append_nil] at before
    rw [pending_of_none (f := { w.iob i with cnt := 0 }) (Or.inl unbuf), append_nil, ← before]
    exact sent_append taking.since (by rw [← taking.slot.file]; rfl)

theorem pending_store (buffered : f.flag.unbuf = false) (some : f.base ≠ 0) (low : f.base ≤ f.ptr)
    (mem : Nat → UInt8) (c : UInt8) (cnt : Int) :
    pending { f with ptr := f.ptr + 1, cnt := cnt } (Function.update mem f.ptr c) =
      pending f mem ++ [c] := by
  have cursor : f.base + (f.ptr - f.base) = f.ptr := by omega
  have length : f.ptr + 1 - f.base = f.ptr - f.base + 1 := by omega
  have longer := stretch_update_end mem f.base (f.ptr - f.base) c
  rw [cursor, ← length] at longer
  rw [pending_of_some buffered some, ← longer]
  exact pending_of_some (f := { f with ptr := f.ptr + 1, cnt := cnt }) buffered some _

/-- A byte stored in the buffer is no part of `C`. -/
theorem FILE.Writes.frame (f_ok : f.Writes C fd) (some : f.base ≠ 0)
    (room : f.ptr < f.base + f.bufsiz) (mem : Nat → UInt8) (c : UInt8) {a : Nat} (own : C a) :
    Function.update mem f.ptr c a = mem a := by
  refine Function.update_of_ne ?_ ..
  rintro rfl
  exact f_ok.apart some _ (f_ok.low some) room own

variable {n : Nat}

section

variable {cnt : Int} (f_ok : f.Writes C fd) (wrt : f.flag.wrt = true)
  (buffered : f.flag.unbuf = false) (some : f.base ≠ 0)

include f_ok wrt buffered some

/-- The cursor anywhere in the buffer, at a count that fits. -/
theorem FILE.Writes.placed {ptr : Nat} (low : f.base ≤ ptr) (high : ptr ≤ f.base + f.bufsiz)
    (room : ptr + cnt ≤ f.base + f.bufsiz)
    (line : f.flag.lbuf = true → cnt ≤ 0 ∧ ptr < f.base + f.bufsiz) :
    FILE.Writes C fd { f with ptr := ptr, cnt := cnt } :=
  { f_ok with
    low := fun _ => low
    high := fun _ => high
    room := fun _ => room
    none := fun null => absurd null some
    fresh := fun no => by dsimp only at no; rw [wrt] at no; cases no
    unbuf := fun no => by dsimp only at no; rw [buffered] at no; cases no
    line := fun yes => (line yes).1
    lineRoom := fun yes _ => (line yes).2 }

theorem FILE.Writes.rewound (most : cnt ≤ f.bufsiz) (line : f.flag.lbuf = true → cnt ≤ 0) :
    FILE.Writes C fd { f with ptr := f.base, cnt := cnt } :=
  f_ok.placed wrt buffered some (Nat.le_refl _) (Nat.le_add_right ..) (by omega) fun yes =>
    ⟨line yes, Nat.lt_add_of_pos_right (f_ok.size some)⟩

/-- The cursor moved over bytes stored in the buffer. -/
theorem FILE.Writes.advance (high : f.ptr + n ≤ f.base + f.bufsiz)
    (room : f.ptr + n + cnt ≤ f.base + f.bufsiz)
    (line : f.flag.lbuf = true → cnt ≤ 0 ∧ f.ptr + n < f.base + f.bufsiz) :
    FILE.Writes C fd { f with ptr := f.ptr + n, cnt := cnt } :=
  f_ok.placed wrt buffered some (Nat.le_add_right_of_le (f_ok.low some)) high room line

end

section

variable (taking : Taking C i fd k put w)

include taking

theorem Taking.byte (c : UInt8) (cnt : Int) (wrt : (w.iob i).flag.wrt = true)
    (buffered : (w.iob i).flag.unbuf = false) (some : (w.iob i).base ≠ 0)
    (high : (w.iob i).ptr + 1 ≤ (w.iob i).base + (w.iob i).bufsiz)
    (room : (w.iob i).ptr + 1 + cnt ≤ (w.iob i).base + (w.iob i).bufsiz)
    (line : (w.iob i).flag.lbuf = true →
      cnt ≤ 0 ∧ (w.iob i).ptr + 1 < (w.iob i).base + (w.iob i).bufsiz) :
    Taking C i fd k (put ++ [c]) ((w.store (w.iob i).ptr c).set i
        { w.iob i with ptr := (w.iob i).ptr + 1, cnt := cnt }) ∧
      Frame C w ((w.store (w.iob i).ptr c).set i
        { w.iob i with ptr := (w.iob i).ptr + 1, cnt := cnt }) := by
  have f_ok := taking.slot
  refine ⟨Taking.of_slot (set_iob_self ..) (f_ok.advance wrt buffered some high room line)
    taking.since ?_, fun a own => f_ok.frame some high _ _ own⟩
  rw [set_mem, store_mem, pending_store buffered some (f_ok.low some), ← append_assoc]
  exact congrArg (· ++ [c]) taking.bytes

theorem Taking.drain (full : ans.write = none) (buffered : (w.iob i).flag.unbuf = false)
    (some : (w.iob i).base ≠ 0) :
    ∃ w', drain ans i (w.iob i).base ((w.iob i).ptr - (w.iob i).base) w = (0, w') ∧
      w'.iob i = { w.iob i with ptr := (w.iob i).base } ∧ w'.mem = w.mem ∧ k ≤ w'.wrote.length ∧
      sent fd k w' = put := by
  obtain ⟨w', drained, iob, mem, log⟩ := drain_full full
    (w.iob i).base ((w.iob i).ptr - (w.iob i).base)
  obtain ⟨since, sent'⟩ := log taking.since
  rw [taking.slot.file, ← pending_of_some buffered some, taking.bytes] at sent'
  exact ⟨w', drained, (congrFun iob i).trans (set_iob_self ..), mem, since, sent'⟩

section

variable (full : ans.write = none) (wrt : (w.iob i).flag.wrt = true)
  (buffered : (w.iob i).flag.unbuf = false) (some : (w.iob i).base ≠ 0)
include full wrt buffered some

theorem Taking.putLine (line : (w.iob i).flag.lbuf = true) :
    Taking C i fd k (put ++ [UInt8.ofNat c]) (putLine ans c i w).2 ∧
      Frame C w (Stdio.putLine ans c i w).2 := by
  have f_ok := taking.slot
  have low := f_ok.low some
  have room := f_ok.lineRoom line some
  unfold Stdio.putLine
  dsimp only
  by_cases out : c = newline ∨ (w.iob i).base + (w.iob i).bufsiz ≤ (w.iob i).ptr + 1
  · rw [if_pos out]
    -- the buffer may be full now, which it never is before a call
    obtain ⟨w', drained, iob, mem, log⟩ := drain_full full
      (w := (w.store (w.iob i).ptr (UInt8.ofNat c)).set i
        { w.iob i with ptr := (w.iob i).ptr + 1, cnt := 0 })
      (w.iob i).base ((w.iob i).ptr + 1 - (w.iob i).base)
    obtain ⟨since, sent'⟩ := log taking.since
    have slot : w'.iob i = { w.iob i with ptr := (w.iob i).base, cnt := 0 } :=
      (congrFun iob i).trans ((set_iob_self ..).trans (by rw [set_iob_self]))
    have stored := pending_store buffered some low w.mem (UInt8.ofNat c) 0
    rw [pending_of_some (f := { w.iob i with ptr := (w.iob i).ptr + 1, cnt := 0 }) buffered some]
      at stored
    simp only [set_iob_self, set_mem, store_mem, f_ok.file] at sent' mem stored
    rw [stored] at sent'
    rw [drained]
    rw [if_neg (show (0 : Int) ≠ EOF by decide)]
    refine ⟨Taking.of_slot slot
      (f_ok.rewound wrt buffered some (Int.natCast_nonneg _) fun _ => Int.le_refl _) since ?_, ?_⟩
    · rw [pending_of_start rfl, append_nil, sent', ← taking.bytes, append_assoc]
      rfl
    · intro a own
      rw [mem]
      exact f_ok.frame some room _ _ own
  · rw [if_neg out]
    exact taking.byte _ _ wrt buffered some (by omega) (by omega) fun _ => ⟨Int.le_refl _, by omega⟩

theorem Taking.putFull (line : (w.iob i).flag.lbuf = false) :
    Taking C i fd k (put ++ [UInt8.ofNat c]) (putFull ans c i w).2 ∧
      Frame C w (Stdio.putFull ans c i w).2 := by
  have size := taking.slot.size some
  obtain ⟨w', drained, slot, mem, since, sent'⟩ := taking.drain full buffered some
  have noLine : (w.iob i).flag.lbuf = true → (w.iob i).cnt ≤ 0 := taking.slot.line
  have empty : Taking C i fd k put w' := by
    refine Taking.of_slot slot (taking.slot.rewound wrt buffered some ?_ noLine) since ?_
    · have low := taking.slot.low some
      have room := taking.slot.room some
      omega
    · rw [pending_of_start rfl, append_nil, sent']
  unfold Stdio.putFull
  dsimp only
  rw [drained]
  have frame : Frame C w w' := fun a _ => congrFun mem a
  have first := empty.byte (UInt8.ofNat c) ((w.iob i).bufsiz - 1)
  rw [slot] at first
  obtain ⟨taken, same⟩ := first wrt buffered some (by dsimp only; omega) (by dsimp only; omega)
    fun no => absurd (line.symm.trans no) (by decide)
  unfold Stdio.putFirst
  rw [slot]
  exact ⟨taken, fun a own => (same a own).trans (frame a own)⟩

end

end

/-! ### The calls -/

theorem Taking.flsbuf (taking : Taking C i fd k put w) (full : ans.write = none)
    (spared : Spared lay ans C) :
    Taking C i fd k (put ++ [UInt8.ofNat c]) (flsbuf lay ans c i w).2 ∧
      Frame C w (Stdio.flsbuf lay ans c i w).2 := by
  obtain ⟨turned, wrt, same⟩ := taking.slot.turnToWrite
  obtain ⟨chosen, wrt', same'⟩ := turned.choose spared
  unfold Stdio.flsbuf
  rw [if_neg (by simp [turned.plain])]
  have ready : Taking C i fd k put (w.set i (Stdio.choose lay ans i (turnToWrite (w.iob i)))) :=
    taking.set chosen ((same' _).trans (same _))
  have base := choose_base lay ans (i := i) (f := turnToWrite (w.iob i))
  generalize Stdio.choose lay ans i (turnToWrite (w.iob i)) = f at ready base wrt' ⊢
  have slot : (w.set i f).iob i = f := set_iob_self ..
  have wrt : f.flag.wrt = true := wrt'.trans wrt
  by_cases unbuf : f.flag.unbuf = true
  · rw [if_pos unbuf]
    exact ready.putUnbuffered full (by rw [slot]; exact unbuf)
  rw [if_neg unbuf]
  have buffered : f.flag.unbuf = false := by simpa using unbuf
  have some := base buffered
  rw [← slot] at wrt buffered some
  by_cases line : f.flag.lbuf = true
  · rw [if_pos line]
    rw [← slot] at line
    exact ready.putLine full wrt buffered some line
  · rw [if_neg line]
    exact ready.putFull full wrt buffered some (by simpa using line)

/-- A stream with room counted is written through a buffer that is not held at a count of 0. -/
theorem FILE.Writes.of_room (f_ok : f.Writes C fd) (more : 0 < f.cnt) :
    f.flag.wrt = true ∧ f.flag.unbuf = false ∧ f.base ≠ 0 ∧ f.flag.lbuf = false := by
  refine ⟨?_, ?_, ?_, ?_⟩
  · by_contra no
    have := (f_ok.fresh (by simpa using no)).1
    omega
  · by_contra no
    have := f_ok.unbuf (by simpa using no)
    omega
  · intro null
    have := f_ok.none null
    omega
  · by_contra no
    have := f_ok.line (by simpa using no)
    omega

theorem Taking.putc (taking : Taking C i fd k put w) (full : ans.write = none)
    (spared : Spared lay ans C) :
    Taking C i fd k (put ++ [UInt8.ofNat c]) (putc lay ans c i w).2 ∧
      Frame C w (Stdio.putc lay ans c i w).2 := by
  have f_ok := taking.slot
  unfold Stdio.putc
  by_cases more : 0 ≤ (w.iob i).cnt - 1
  · rw [if_pos more]
    obtain ⟨wrt, buffered, some, line⟩ := f_ok.of_room (by omega)
    have room := f_ok.room some
    exact taking.byte _ _ wrt buffered some (by omega) (by omega)
      fun no => absurd (line.symm.trans no) (by decide)
  · rw [if_neg more]
    have down := taking.set
      (f_ok.countDown (by omega)) rfl
    exact down.flsbuf full spared

theorem Taking.noError (taking : Taking C i fd k put w) : ferror i w = false := taking.slot.ok

theorem Frame.trans {w₁ w₂ w₃ : World} (first : Frame C w₁ w₂) (second : Frame C w₂ w₃) :
    Frame C w₁ w₃ := fun a own => (second a own).trans (first a own)

variable {p : Nat}

theorem Frame.stretch (same : Frame C w w')
    (source : ∀ a, p ≤ a → a < p + n → C a) : stretch w'.mem p n = stretch w.mem p n :=
  stretch_congr fun a low high => same a (source a low high)

/-- A string of `n` bytes, with the null byte behind it. -/
structure Text (mem : Nat → UInt8) (s n : Nat) : Prop where
  body : ∀ j < n, mem (s + j) ≠ 0
  stop : mem (s + n) = 0

theorem Taking.fputs {s : Nat} (taking : Taking C i fd k put w) (full : ans.write = none)
    (spared : Spared lay ans C) (text : Text w.mem s n)
    (source : ∀ a, s ≤ a → a < s + (n + 1) → C a) :
    ∃ w', fputs lay ans i (n + 1) s w = some (0, w') ∧
      Taking C i fd k (put ++ stretch w.mem s n) w' ∧ Frame C w w' := by
  induction n generalizing s w put with
  | zero =>
    refine ⟨w, ?_, by simpa using taking, fun _ _ => rfl⟩
    have stop : w.mem s = 0 := text.stop
    have ok := taking.noError
    simp [Stdio.fputs, stop, ok]
  | succ n ih =>
    have first : w.mem s ≠ 0 := text.body 0 (Nat.succ_pos n)
    obtain ⟨taken, same⟩ := taking.putc full spared
    rw [UInt8.ofNat_toNat] at taken
    have inside : ∀ a, s + 1 ≤ a → a < s + 1 + (n + 1) → C a :=
      fun a low high => source a (by omega) (by omega)
    have rest : Text (Stdio.putc lay ans (w.mem s).toNat i w).2.mem (s + 1) n := by
      refine ⟨fun j lt => ?_, ?_⟩
      · rw [same _ (source _ (by omega) (by omega)), Nat.add_assoc, Nat.add_comm 1 j]
        exact text.body (j + 1) (by omega)
      · rw [same _ (source _ (by omega) (by omega)), Nat.add_assoc, Nat.add_comm 1 n]
        exact text.stop
    obtain ⟨w', done, all, same'⟩ := ih taken rest inside
    refine ⟨w', ?_, ?_, same.trans same'⟩
    · rw [← done]
      show (if w.mem s = 0 then _ else _) = _
      rw [if_neg first]
    · rw [same.stretch (fun a low high => inside a low (by omega)), append_assoc,
        singleton_append, ← stretch_cons] at all
      exact all

/-- Copying words to a place that does not meet the words copied. -/
theorem copyWords_spec (mem : Nat → UInt8) (d s n : Nat)
    (apart : ∀ a, s ≤ a → a < s + n * NBPW → ¬ (d ≤ a ∧ a < d + n * NBPW)) :
    (∀ a, a < d ∨ d + n * NBPW ≤ a → copyWords mem d s n a = mem a) ∧
      stretch (copyWords mem d s n) d (n * NBPW) = stretch mem s (n * NBPW) := by
  induction n generalizing mem d s with
  | zero => exact ⟨fun _ _ => rfl, by simp⟩
  | succ n ih =>
    have size : (n + 1) * NBPW = NBPW + n * NBPW := by
      rw [Nat.succ_mul, Nat.add_comm]
    rw [size] at apart ⊢
    have word : (stretch mem s NBPW).length = NBPW := length_stretch ..
    obtain ⟨outside, moved⟩ := ih (storeAll mem d (stretch mem s NBPW)) (d + NBPW) (s + NBPW)
      (fun a low high => fun inside => apart a (by omega) (by omega) (by omega))
    rw [copyWords]
    refine ⟨fun a out => ?_, ?_⟩
    · rw [outside a (by omega), storeAll_of_not_mem (by omega)]
    rw [stretch_add, moved, stretch_add mem s]
    congr 1
    · have kept : stretch (copyWords (storeAll mem d (stretch mem s NBPW)) (d + NBPW)
          (s + NBPW) n) d NBPW = stretch (storeAll mem d (stretch mem s NBPW)) d NBPW :=
        stretch_congr fun a _ high => outside a (by omega)
      have stored := stretch_storeAll mem d (stretch mem s NBPW)
      rw [word] at stored
      rw [kept, stored]
    · refine stretch_congr fun a low high => storeAll_of_not_mem ?_
      have := apart a (by omega) (by omega)
      omega

section

variable (taking : Taking C i fd k put w)

include taking

/-- Some bytes from `p` on, a whole number of words, into the buffer. -/
theorem Taking.words (n_ge : NBPW ≤ n) (cnt_ge : (NBPW : Int) ≤ (w.iob i).cnt)
    (source : ∀ a, p ≤ a → a < p + n → C a) :
    let size := min n (w.iob i).cnt.toNat / NBPW * NBPW
    let w' := { w.set i { w.iob i with ptr := (w.iob i).ptr + size, cnt := (w.iob i).cnt - size } with
      mem := copyWords w.mem (w.iob i).ptr p (min n (w.iob i).cnt.toNat / NBPW) }
    Taking C i fd k (put ++ stretch w.mem p size) w' ∧ Frame C w w' := by
  have f_ok := taking.slot
  obtain ⟨wrt, buffered, some, line⟩ := f_ok.of_room (Int.lt_of_lt_of_le (by decide) cnt_ge)
  obtain ⟨pos, within⟩ := moved_le cnt_ge n_ge
  have most : min n (w.iob i).cnt.toNat / NBPW * NBPW ≤ n :=
    Nat.le_trans (Nat.div_mul_le_self _ _) (Nat.min_le_left ..)
  have low := f_ok.low some
  have room := f_ok.room some
  have apart : ∀ a, p ≤ a → a < p + min n (w.iob i).cnt.toNat / NBPW * NBPW →
      ¬ ((w.iob i).ptr ≤ a ∧ a < (w.iob i).ptr + min n (w.iob i).cnt.toNat / NBPW * NBPW) :=
    fun a from_p below inside => f_ok.apart some a (by omega) (by omega)
      (source a from_p (by omega))
  obtain ⟨outside, moved⟩ := copyWords_spec w.mem (w.iob i).ptr p _ apart
  generalize min n (w.iob i).cnt.toNat / NBPW = count at *
  generalize sized : count * NBPW = size at *
  intro _ w'
  refine ⟨Taking.of_slot (set_iob_self ..)
    (f_ok.advance wrt buffered some (by omega) (by omega)
      fun no => absurd (line.symm.trans no) (by decide)) taking.since ?_, fun a own => ?_⟩
  · have length : (w.iob i).ptr + size - (w.iob i).base = (w.iob i).ptr - (w.iob i).base + size := by
      omega
    have cursor : (w.iob i).base + ((w.iob i).ptr - (w.iob i).base) = (w.iob i).ptr := by omega
    rw [pending_of_some (f := { w.iob i with ptr := (w.iob i).ptr + size, cnt := _ }) buffered some]
    have kept : stretch (copyWords w.mem (w.iob i).ptr p count) (w.iob i).base
        ((w.iob i).ptr - (w.iob i).base) = pending (w.iob i) w.mem := by
      rw [pending_of_some buffered some]
      exact stretch_congr fun a _ high => outside a (Or.inl (cursor ▸ high))
    rw [length, stretch_add, kept, cursor, moved, ← taking.bytes, append_assoc]
    rfl
  · refine outside a ?_
    by_contra inside
    exact f_ok.apart some a (by omega) (by omega) own

theorem Taking.wrbytes {rounds : Nat} (full : ans.write = none) (spared : Spared lay ans C)
    (enough : n ≤ rounds) (source : ∀ a, p ≤ a → a < p + n → C a) :
    (wrbytes lay ans i rounds p n w).1 = n ∧
      Taking C i fd k (put ++ stretch w.mem p n) (Stdio.wrbytes lay ans i rounds p n w).2 ∧
      Frame C w (Stdio.wrbytes lay ans i rounds p n w).2 := by
  induction rounds generalizing p n w put with
  | zero =>
    obtain rfl : n = 0 := by omega
    exact ⟨rfl, by simpa [Stdio.wrbytes] using taking, fun _ _ => rfl⟩
  | succ rounds ih =>
    unfold Stdio.wrbytes
    dsimp only
    by_cases words : NBPW ≤ n ∧ NBPW ≤ (w.iob i).cnt ∧ p % NBPW = 0 ∧ (w.iob i).ptr % NBPW = 0
    · rw [if_pos words]
      obtain ⟨pos, -⟩ := moved_le words.2.1 words.1
      have most : min n (w.iob i).cnt.toNat / NBPW * NBPW ≤ n :=
        Nat.le_trans (Nat.div_mul_le_self _ _) (Nat.min_le_left ..)
      obtain ⟨taken, same⟩ := taking.words words.1 words.2.1 source
      generalize min n (w.iob i).cnt.toNat / NBPW = count at *
      generalize count * NBPW = size at *
      have rest : ∀ a, p + size ≤ a → a < p + size + (n - size) → C a :=
        fun a low high => source a (by omega) (by omega)
      obtain ⟨whole, all, same'⟩ := ih taken (by omega) rest
      refine ⟨(congrArg (size + ·) whole).trans (Nat.add_sub_cancel' most), ?_, same.trans same'⟩
      rwa [same.stretch rest, append_assoc, ← stretch_add, Nat.add_sub_cancel' most] at all
    · rw [if_neg words]
      by_cases done : n = 0
      · rw [if_pos done]
        subst done
        exact ⟨rfl, by simpa using taking, fun _ _ => rfl⟩
      rw [if_neg done]
      obtain ⟨taken, same⟩ := taking.putc full spared
      rw [UInt8.ofNat_toNat] at taken
      rw [if_neg (by rw [taken.noError]; decide)]
      have rest : ∀ a, p + 1 ≤ a → a < p + 1 + (n - 1) → C a :=
        fun a low high => source a (by omega) (by omega)
      obtain ⟨whole, all, same'⟩ := ih taken (by omega) rest
      have length := Nat.sub_add_cancel (Nat.pos_of_ne_zero done)
      refine ⟨(congrArg (· + 1) whole).trans length, ?_, same.trans same'⟩
      rw [same.stretch rest, append_assoc, singleton_append, ← stretch_cons, length]
        at all
      exact all

theorem Taking.fwrite {size count : Nat} (full : ans.write = none) (spared : Spared lay ans C)
    (source : ∀ a, p ≤ a → a < p + size * count → C a) :
    Taking C i fd k (put ++ stretch w.mem p (size * count)) (fwrite lay ans p size count i w).2 ∧
      Frame C w (Stdio.fwrite lay ans p size count i w).2 := by
  unfold Stdio.fwrite
  by_cases nothing : size = 0 ∨ count = 0
  · rw [if_pos nothing]
    have zero : size * count = 0 := Nat.mul_eq_zero.mpr nothing
    rw [zero]
    exact ⟨by simpa using taking, fun _ _ => rfl⟩
  · rw [if_neg nothing]
    obtain ⟨whole, all, same⟩ := taking.wrbytes full spared (Nat.le_refl _) source
    dsimp only
    rw [if_pos whole]
    exact ⟨all, same⟩

theorem Taking.fflush (full : ans.write = none) :
    Taking C i fd k put (fflush ans i w).2 ∧ Frame C w (Stdio.fflush ans i w).2 ∧
      ∀ mem, pending ((Stdio.fflush ans i w).2.iob i) mem = [] := by
  have f_ok := taking.slot
  unfold Stdio.fflush
  dsimp only
  by_cases out : (w.iob i).flag.wrt = true ∧ (w.iob i).flag.unbuf = false ∧
      (w.iob i).flag.strg = false ∧ (w.iob i).base ≠ 0
  · rw [if_pos out]
    obtain ⟨wrt, buffered, -, some⟩ := out
    obtain ⟨w', drained, slot, mem, since, sent'⟩ := taking.drain full buffered some
    have frame : Frame C w w' := fun a _ => congrFun mem a
    rw [drained]
    rw [if_neg (show (0 : Int) ≠ EOF by decide)]
    have low := f_ok.low some
    have room := f_ok.room some
    by_cases line : (w.iob i).flag.lbuf = true
    · rw [if_pos line]
      refine ⟨Taking.of_slot slot (f_ok.rewound wrt buffered some (by omega) f_ok.line) since ?_,
        frame, fun mem => ?_⟩
      · rw [pending_of_start rfl, append_nil, sent']
      · rw [slot, pending_of_start rfl]
    · rw [if_neg line, slot]
      refine ⟨Taking.of_slot (set_iob_self ..)
        (f_ok.rewound wrt buffered some (Int.le_refl _) fun yes => absurd yes line) since ?_, frame,
        fun mem => ?_⟩
      · rwa [pending_of_start rfl, append_nil]
      · rw [set_iob_self, pending_of_start rfl]
  · rw [if_neg out]
    refine ⟨taking, fun _ _ => rfl, fun mem => ?_⟩
    -- what has no buffer has nothing in it, nor has a stream that has not been written
    by_cases none : (w.iob i).flag.unbuf = true ∨ (w.iob i).base = 0
    · exact pending_of_none none mem
    have unwritten : (w.iob i).flag.wrt = false := by
      by_contra wrt
      refine out ⟨by simpa using wrt, ?_, f_ok.plain, fun null => none (Or.inr null)⟩
      simpa using fun unbuf => none (Or.inl unbuf)
    obtain unbuf | null | start := (f_ok.fresh unwritten).2
    · exact absurd (Or.inl unbuf) none
    · exact absurd (Or.inr null) none
    · exact pending_of_start start mem

/-- All of it is handed over when the stream has been closed. -/
theorem Taking.fclose (full : ans.write = none) : sent fd k (fclose ans i w).2 = put := by
  have f_ok := taking.slot
  have mem : (w.iob i).flag.mem = false := f_ok.strg.symm.trans f_ok.plain
  obtain ⟨flushed, -, empty⟩ := taking.fflush full
  unfold Stdio.fclose
  rw [if_neg (by simp [mem]), if_pos ⟨f_ok.busy, f_ok.plain⟩]
  have all := flushed.bytes
  rwa [empty, append_nil] at all

end

end V7Besm.Stdio

import Mathlib.Data.List.Basic

/-!
The callout table (`clock` and `timeout` of `clock.c`).

The table lists the calls to come, each with the number of ticks it is due behind the one
before it, up to the first entry without a function. `clock` counts the first time down,
calls what is due and then moves the rest of the table to its front. While it makes its calls
`timeout` may come in, from one of them; the next tick has to wait, the interrupts are off.

All calls are made on their tick and in their order (`onTime_iff_fits`), unless a callout is
sorted in before others when there is no slot left: the test for the overflow looks at the
place of the new entry only, and the entry that ends the table is stored behind the table.
-/

namespace V7Besm.Clock

open List

variable {F A : Type}

abbrev NCALL : Nat := 20

/-- `struct callo`, with a function. -/
structure Callo (F A : Type) where
  time : Int
  arg : A
  func : F

/-- A call and the tick it is made on. -/
abbrev Call (F A : Type) := Int × F × A

/-- `callout` is the table without the entry that ends it, and `p1` is where `clock` is while
it makes its calls. The rest is history: the ticks, what was armed, and the calls made. -/
structure State (F A : Type) where
  callout : List (Callo F A) := []
  p1 : Option Nat := none
  ticks : Int := 0
  armed : List (Call F A) := []
  log : List (Call F A) := []

inductive Fault where
  /-- Timeout table overflow. -/
  | panic
  /-- A store behind `callout[NCALL - 1]`. -/
  | outside

abbrev Result (F A : Type) := Except (Fault × State F A) (State F A)

/-! ### The code -/

/-- The place of an entry that is due in `t` ticks. -/
def place : List (Callo F A) → Int → Nat
  | [], _ => 0
  | c :: l, t => if c.time ≤ t then place l (t - c.time) + 1 else 0

/-- The table with the entry at its place. -/
def sortIn (func : F) (arg : A) : List (Callo F A) → Int → List (Callo F A)
  | [], t => [⟨t, arg, func⟩]
  | c :: l, t =>
    if c.time ≤ t then c :: sortIn func arg l (t - c.time)
    else ⟨t, arg, func⟩ :: { c with time := c.time - t } :: l

def timeout (func : F) (arg : A) (tim : Int) (s : State F A) : Result F A :=
  if place s.callout tim ≥ NCALL - 1 then .error (.panic, s)
  -- the entry that ends the table goes to `callout[s.callout.length + 1]`
  else if s.callout.length + 1 ≥ NCALL then .error (.outside, s)
  else .ok { s with
    callout := sortIn func arg s.callout tim
    armed := s.armed ++ [(s.ticks + tim, func, arg)] }

/-- The first time that is not over is counted down. -/
def countDown : List (Callo F A) → List (Callo F A)
  | [] => []
  | c :: l => if c.time ≤ 0 then c :: countDown l else { c with time := c.time - 1 } :: l

/-- `clock`, up to its calls. -/
def clock (s : State F A) : State F A :=
  let l := countDown s.callout
  { s with
    ticks := s.ticks + 1
    callout := l
    p1 := if l.head?.any (·.time ≤ 0) then some 0 else none }

/-- One round of the calls: a function is called, or the table is moved to its front. -/
def callNext (p1 : Nat) (s : State F A) : State F A :=
  match s.callout[p1]? with
  | none => { s with callout := [], p1 := none }
  | some c =>
    if c.time ≤ 0 then { s with p1 := some (p1 + 1), log := s.log ++ [(s.ticks, c.func, c.arg)] }
    else { s with callout := s.callout.drop p1, p1 := none }

inductive Event (F A : Type) where
  | timeout (func : F) (arg : A) (tim : Int) (later : 1 ≤ tim)
  | tick
  | next

/-- A tick waits for the end of the calls, and there is no round without them. -/
def step (s : State F A) : Event F A → Result F A
  | .timeout func arg tim _ => timeout func arg tim s
  | .tick => .ok (if s.p1.isNone then clock s else s)
  | .next => .ok (s.p1.elim s fun p1 => callNext p1 s)

def run (s : State F A) : List (Event F A) → Result F A
  | [] => .ok s
  | e :: es => (step s e).bind fun s' => run s' es

/-- The calls of a table whose first time is counted from `t`. -/
def calls (t : Int) : List (Callo F A) → List (Call F A)
  | [] => []
  | c :: l => (t + c.time, c.func, c.arg) :: calls (t + c.time) l

/-! ### What is expected -/

/-- `clock` comes to the end of its calls, and then those made on a tick are the ones armed for
it, in that order. -/
def OnTime (s : State F A) : Prop :=
  ∃ n s', run s (List.replicate n .next) = .ok s' ∧ s'.p1 = none ∧
    ∀ t ≤ s'.ticks, s'.log.filter (·.1 = t) = s'.armed.filter (·.1 = t)

/-- A run goes on in time, or it ends with a panic for want of a slot. -/
def Right : Result F A → Prop
  | .ok s => OnTime s
  | .error (.panic, s) => s.callout.length = NCALL - 1
  | .error (.outside, _) => False

/-- With no slot left, nothing is armed before what is in the table. -/
def Fits (s : State F A) : Event F A → Prop
  | .timeout _ _ tim _ =>
    s.callout.length = NCALL - 1 → ∀ x ∈ calls s.ticks s.callout, x.1 ≤ s.ticks + tim
  | _ => True

def AllFit (s : State F A) : List (Event F A) → Prop
  | [] => True
  | e :: es => Fits s e ∧ ∀ s', step s e = .ok s' → AllFit s' es

/-! ### The table -/

section Table

variable {l : List (Callo F A)} {t b tim : Int} {func : F} {arg : A}
  (ahead : ∀ c ∈ l, 0 ≤ c.time)

include ahead

theorem filter_calls_before (before : ∀ c ∈ l.head?, t < b + c.time) :
    (calls b l).filter (·.1 = t) = [] := by
  induction l generalizing b with
  | nil => rfl
  | cons c l ih =>
    obtain ⟨-, ahead⟩ := forall_mem_cons.mp ahead
    have first : t < b + c.time := before c rfl
    rw [calls, filter_cons_of_neg (by simp; omega)]
    refine ih ahead fun d mem => ?_
    have := ahead d (mem_of_mem_head? mem)
    omega

/-- The new entry is the last of those for its tick, and all the others keep theirs. -/
theorem filter_calls_sortIn : (calls b (sortIn func arg l tim)).filter (·.1 = t) =
    (calls b l).filter (·.1 = t) ++ [(b + tim, func, arg)].filter (·.1 = t) := by
  induction l generalizing b tim with
  | nil => rfl
  | cons c l ih =>
    unfold sortIn
    split
    · simp only [calls, filter_cons, ih (forall_mem_cons.mp ahead).2]
      rw [show b + c.time + (tim - c.time) = b + tim by omega]
      split <;> rfl
    · rename_i early
      have same : calls b (⟨tim, arg, func⟩ :: { c with time := c.time - tim } :: l) =
          (b + tim, func, arg) :: calls b (c :: l) := by
        simp only [calls]
        rw [show b + tim + (c.time - tim) = b + c.time by omega]
      rw [same, filter_cons]
      split
      · rename_i now
        have now : b + tim = t := of_decide_eq_true now
        rw [filter_calls_before ahead]
        · simp [now]
        · simp
          omega
      · rename_i other
        simp [show ¬ b + tim = t from fun now => other (decide_eq_true now)]

omit ahead in
theorem length_sortIn : (sortIn func arg l tim).length = l.length + 1 := by
  induction l generalizing tim with
  | nil => rfl
  | cons c l ih =>
    unfold sortIn
    split <;> simp [ih]

theorem time_sortIn (pos : 0 ≤ tim) : ∀ c ∈ sortIn func arg l tim, 0 ≤ c.time := by
  induction l generalizing tim with
  | nil => simpa [sortIn] using pos
  | cons c l ih =>
    obtain ⟨first, ahead⟩ := forall_mem_cons.mp ahead
    unfold sortIn
    split
    · rename_i late
      exact forall_mem_cons.mpr ⟨first, ih ahead (Int.sub_nonneg.mpr late)⟩
    · rename_i early
      refine forall_mem_cons.mpr ⟨pos, forall_mem_cons.mpr ⟨?_, ahead⟩⟩
      exact Int.sub_nonneg.mpr (Int.le_of_lt (Int.not_le.mp early))

omit ahead in
theorem place_le_length : place l tim ≤ l.length := by
  induction l generalizing tim with
  | nil => exact Nat.le_refl _
  | cons c l ih =>
    unfold place
    split
    · exact Nat.succ_le_succ ih
    · exact Nat.zero_le _

/-- The place is the end just when nothing is due later. -/
theorem place_eq_length : place l tim = l.length ↔ ∀ x ∈ calls b l, x.1 ≤ b + tim := by
  induction l generalizing b tim with
  | nil => simp [place, calls]
  | cons c l ih =>
    have shift : b + tim = b + c.time + (tim - c.time) := by omega
    have rest : place l (tim - c.time) = l.length ↔ ∀ x ∈ calls (b + c.time) l, x.1 ≤ b + tim := by
      rw [shift]
      exact ih (forall_mem_cons.mp ahead).2
    unfold place calls
    rw [forall_mem_cons, ← rest]
    split <;> rename_i order <;> simp [order]

end Table

/-- Entries whose time is over are passed by. -/
theorem sortIn_append {done rest : List (Callo F A)} {tim : Int} {func : F} {arg : A}
    (gone : ∀ c ∈ done, c.time = 0) (pos : 0 ≤ tim) :
    sortIn func arg (done ++ rest) tim = done ++ sortIn func arg rest tim := by
  induction done with
  | nil => rfl
  | cons c done ih =>
    obtain ⟨zero, gone⟩ := forall_mem_cons.mp gone
    simp only [cons_append, sortIn, zero, if_pos pos, Int.sub_zero, ih gone]

/-! ### What is always true -/

/-- The calls of this tick that were made, and those to come. -/
structure Good (s : State F A) (done rest : List (Callo F A)) : Prop where
  table : s.callout = done ++ rest
  at_p1 : done.length = s.p1.getD 0
  gone : ∀ c ∈ done, c.time = 0
  ahead : ∀ c ∈ rest, 0 ≤ c.time
  waits : s.p1 = none → ∀ c ∈ rest.head?, 0 < c.time
  room : s.callout.length ≤ NCALL - 1
  order : ∀ t, (s.log ++ calls s.ticks rest).filter (·.1 = t) = s.armed.filter (·.1 = t)

theorem Good.start : Good ({} : State F A) [] [] :=
  ⟨rfl, rfl, by simp, by simp, by simp, by simp, fun _ => rfl⟩

namespace Good

variable {s s' : State F A} {done rest : List (Callo F A)} (good : Good s done rest)

include good

theorem timeout {func : F} {arg : A} {tim : Int} (later : 1 ≤ tim)
    (ok : Clock.timeout func arg tim s = .ok s') : Good s' done (sortIn func arg rest tim) := by
  unfold Clock.timeout at ok
  split at ok
  · cases ok
  split at ok
  · cases ok
  rename_i room
  cases ok
  refine ⟨?_, good.at_p1, good.gone, time_sortIn good.ahead (by omega), fun idle => ?_, ?_,
    fun t => ?_⟩
  · exact good.table ▸ sortIn_append good.gone (by omega)
  · cases rest with
    | nil => simpa [sortIn] using show 0 < tim by omega
    | cons c l =>
      have first := good.waits idle c rfl
      unfold sortIn
      split <;> simp <;> omega
  · rw [length_sortIn]
    omega
  · have order := good.order t
    rw [filter_append] at order ⊢
    rw [filter_calls_sortIn good.ahead, ← append_assoc, order, filter_append]

theorem clock (idle : s.p1 = none) : Good (Clock.clock s) [] (countDown rest) := by
  have empty : done = [] := eq_nil_of_length_eq_zero (by rw [good.at_p1, idle]; rfl)
  have table := good.table
  rw [empty, nil_append] at table
  subst table
  obtain ⟨callout, p1, ticks, armed, log⟩ := s
  cases callout with
  | nil => exact ⟨rfl, rfl, by simp, by simp [countDown], by simp [countDown], good.room, good.order⟩
  | cons c l =>
    have first := good.waits idle c rfl
    obtain ⟨-, ahead⟩ := forall_mem_cons.mp good.ahead
    have down : countDown (c :: l) = { c with time := c.time - 1 } :: l := if_neg (by omega)
    dsimp only at down ⊢
    refine ⟨rfl, ?_, by simp, ?_, fun still => ?_, ?_, ?_⟩
    · simp only [Clock.clock]
      split <;> rfl
    · exact down ▸ forall_mem_cons.mpr ⟨Int.sub_nonneg.mpr first, ahead⟩
    · simpa [Clock.clock, down] using still
    · simpa [Clock.clock, down] using good.room
    · have order := good.order
      simp only [Clock.clock, down, calls] at order ⊢
      rwa [show ticks + 1 + (c.time - 1) = ticks + c.time by omega]

/-- One round: a call is made, or the last of this tick is over. -/
theorem callNext {p1 : Nat} (busy : s.p1 = some p1) :
    (∃ c rest', rest = c :: rest' ∧ Good (Clock.callNext p1 s) (done ++ [c]) rest') ∨
      (Clock.callNext p1 s).p1 = none ∧ Good (Clock.callNext p1 s) [] rest := by
  have here : p1 = done.length := by rw [good.at_p1, busy]; rfl
  have room := good.room
  unfold Clock.callNext
  rw [good.table] at room ⊢
  rw [here, List.getElem?_append_right (Nat.le_refl _), Nat.sub_self]
  cases rest with
  | nil => exact .inr ⟨rfl, rfl, rfl, by simp, by simp, by simp, by simp, good.order⟩
  | cons c rest =>
    obtain ⟨first, ahead⟩ := forall_mem_cons.mp good.ahead
    by_cases due : c.time ≤ 0
    · have now : c.time = 0 := Int.le_antisymm due first
      refine .inl ⟨c, rest, rfl, ?_⟩
      simp only [List.getElem?_cons_zero, if_pos due]
      refine ⟨by simp, by simp, ?_, ahead, nofun, room, fun t => ?_⟩
      · exact forall_mem_append.mpr ⟨good.gone, by simpa using now⟩
      · have order := good.order t
        simp only [calls, now, Int.add_zero] at order
        simpa using order
    · refine .inr ⟨by simp [due], ?_⟩
      simp only [List.getElem?_cons_zero, if_neg due, drop_left]
      refine ⟨rfl, rfl, by simp, good.ahead, fun _ => by simpa using due, ?_, good.order⟩
      rw [length_append] at room
      exact Nat.le_trans (Nat.le_add_left _ _) room

theorem step {e : Event F A} (ok : Clock.step s e = .ok s') :
    ∃ done' rest', Good s' done' rest' := by
  cases e with
  | timeout func arg tim later => exact ⟨_, _, good.timeout later ok⟩
  | tick =>
    cases ok
    cases idle : s.p1 with
    | none => exact ⟨_, _, good.clock idle⟩
    | some p1 => exact ⟨_, _, good⟩
  | next =>
    cases ok
    cases busy : s.p1 with
    | none => exact ⟨_, _, good⟩
    | some p1 =>
      rcases good.callNext busy with ⟨c, rest', -, next⟩ | ⟨-, next⟩
      · exact ⟨_, _, next⟩
      · exact ⟨_, _, next⟩

/-- Between two ticks nothing is overdue. -/
theorem calm (idle : s.p1 = none) {t : Int} (past : t ≤ s.ticks) :
    s.log.filter (·.1 = t) = s.armed.filter (·.1 = t) := by
  have order := good.order t
  rwa [filter_append, filter_calls_before good.ahead, append_nil] at order
  intro c mem
  have := good.waits idle c mem
  omega

theorem outcome (e : Event F A) : (∃ s', Clock.step s e = .ok s') ∧ Fits s e ∨
    Clock.step s e = .error (.panic, s) ∧ s.callout.length = NCALL - 1 ∧ Fits s e ∨
    Clock.step s e = .error (.outside, s) ∧ ¬ Fits s e := by
  cases e with
  | tick | next => exact .inl ⟨⟨_, rfl⟩, trivial⟩
  | timeout func arg tim later =>
    have room := good.room
    have inside : place s.callout tim ≤ s.callout.length := place_le_length
    have ahead : ∀ c ∈ s.callout, 0 ≤ c.time := by
      rw [good.table]
      exact forall_mem_append.mpr ⟨fun c mem => Int.le_of_eq (good.gone c mem).symm, good.ahead⟩
    have fits : Fits s (.timeout func arg tim later) ↔
        (s.callout.length = NCALL - 1 → place s.callout tim = s.callout.length) := by
      rw [place_eq_length ahead]
      rfl
    rw [fits]
    simp only [Clock.step, Clock.timeout]
    by_cases full : s.callout.length = NCALL - 1
    · rcases Nat.lt_or_eq_of_le inside with before | last
      · refine .inr (.inr ⟨?_, fun fits => absurd (fits full) (Nat.ne_of_lt before)⟩)
        rw [if_neg (by omega), if_pos (by omega)]
      · refine .inr (.inl ⟨?_, full, fun _ => last⟩)
        rw [if_pos (by omega)]
    · refine .inl ⟨?_, fun no => absurd no full⟩
      rw [if_neg (by omega), if_neg (by omega)]
      exact ⟨_, rfl⟩

end Good

/-- The calls of a tick come to an end. -/
theorem Good.onTime {s : State F A} {done rest : List (Callo F A)} (good : Good s done rest) :
    OnTime s := by
  cases busy : s.p1 with
  | none => exact ⟨0, s, rfl, busy, fun _ => good.calm busy⟩
  | some p1 =>
    have first : ∀ n, run s (List.replicate (n + 1) .next) =
        run (Clock.callNext p1 s) (List.replicate n .next) := by
      intro n
      rw [replicate_succ, run, Clock.step, busy]
      rfl
    rcases good.callNext busy with ⟨c, rest', eq, next⟩ | ⟨idle, next⟩
    · have fewer : rest'.length < rest.length := by simp [eq]
      obtain ⟨n, s', ran, ended⟩ := next.onTime
      exact ⟨n + 1, s', (first n).trans ran, ended⟩
    · exact ⟨1, _, first 0, idle, fun _ => next.calm idle⟩
termination_by rest.length

theorem Good.right_iff {s : State F A} {done rest : List (Callo F A)} (good : Good s done rest)
    (es : List (Event F A)) : Right (run s es) ↔ AllFit s es := by
  induction es generalizing s done rest with
  | nil => exact ⟨fun _ => trivial, fun _ => good.onTime⟩
  | cons e es ih =>
    rw [run, AllFit]
    rcases good.outcome e with ⟨⟨s', ok⟩, fits⟩ | ⟨panic, full, fits⟩ | ⟨outside, short⟩
    · obtain ⟨done', rest', good'⟩ := good.step ok
      rw [ok]
      refine (ih good').trans ⟨fun all => ⟨fits, ?_⟩, fun all => all.2 s' rfl⟩
      rintro _ ⟨⟩
      exact all
    · rw [panic]
      exact ⟨fun _ => ⟨fits, nofun⟩, fun _ => full⟩
    · rw [outside]
      exact ⟨False.elim, fun all => short all.1⟩

/-- Callouts are called on time and in order, and a table without a free slot is met by a panic,
just when nothing is armed before what is in a table without a free slot. -/
theorem onTime_iff_fits (es : List (Event F A)) : Right (run {} es) ↔ AllFit {} es :=
  Good.start.right_iff es

/-- Nineteen callouts in two ticks, and one in one: the entry without a function is stored
behind the table. -/
theorem not_onTime_full : ¬ Right (run ({} : State Unit Unit)
    (List.replicate 19 (.timeout () () 2 (by decide)) ++ [.timeout () () 1 (by decide)])) :=
  fun right => right

end V7Besm.Clock

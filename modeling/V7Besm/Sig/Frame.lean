import V7Besm.Mem.Utab

/-!
Signal frames (`sendsig.c`).

`sendsig` saves the user's registers on the user's stack, puts the instruction that calls
`sigret` behind them and enters the handler, which returns to that instruction. `sigret`
takes the registers back from below r15. What goes on in between is `Runs`: user code that
leaves the frames it is running above alone, and other signals with their handlers.

Each frame is restored (`frames_nest`) unless it has no room at one of the ends of the address
space: word 0 is not stored to, and behind the last word comes word 0.
-/

namespace V7Besm.Sig

open V7Besm.Mem Function

abbrev Word := BitVec 48

abbrev NREGFRAME : Nat := 21

abbrev ACC : Nat := 0
abbrev RREG : Nat := 1
abbrev RET : Nat := 3
abbrev SPSW : Nat := 4
abbrev CREG : Nat := 5
abbrev R15 : Nat := 6
abbrev R14 : Nat := 7
abbrev R13 : Nat := 8
abbrev R12 : Nat := 9

def SPSW_MOD_RK : Word := 0o20
def SPSW_MOD_RR : Word := 0o40
def SPSW_RIGHT_INSTR : Word := 0o400
def SPSW_NEXT_RK : Word := 0o1000
def SPSW_USER : Word := SPSW_RIGHT_INSTR ||| SPSW_MOD_RK

abbrev SYS_sigret : Nat := 45
def EFAULT : Word := 14

/-- `$77 SYS_sigret`, and `utc 0` in the right half. -/
def sigcode : Word := 0o770055 <<< 24 ||| 0o2200000

/-- The process that is in the kernel: the pages of the user, the words by their virtual
address, and the registers that the gate has saved. -/
structure State where
  get : Nat → Nat
  mem : Nat → Word
  tr : Nat → Word

/-! ### The user's memory -/

/-- `aax #077777`. -/
def addr (w : Word) : Nat := w.toNat % 2 ^ 15

/-- Word 0 reads as 0. -/
def fetch (m : Nat → Word) (a : Nat) : Word := if a = 0 then 0 else m a

/-- Nothing is stored to word 0. -/
def store (m : Nat → Word) (a : Nat) (w : Word) : Nat → Word := if a = 0 then m else update m a w

def fuword (s : State) (w : Word) : Word :=
  if useracc s.get (addr w) 1 then fetch s.mem (addr w) else -1

def suword (get : Nat → Nat) (a : Nat) (w : Word) (m : Nat → Word) : Option (Nat → Word) :=
  if useracc get a 1 then some (store m a w) else none

/-- The first `n` words of `src` go to the words from `a` on. -/
def copyWords (src : Nat → Word) (a : Nat) : Nat → (Nat → Word) → Nat → Word
  | 0, m => m
  | n + 1, m => store (copyWords src a n m) (a + n) (src n)

def copyout (get : Nat → Nat) (src : Nat → Word) (a n : Nat) (m : Nat → Word) :
    Option (Nat → Word) :=
  if useracc get a n then some (copyWords src a n m) else none

/-- `grow`, as far as it matters here: it may map pages and moves nothing. -/
structure Growth where
  grow : Nat → State → State
  tr_grow : ∀ pg s, (grow pg s).tr = s.tr
  keeps : ∀ pg s w, Mapped s.get w →
    Mapped (grow pg s).get w ∧ fetch (grow pg s).mem w = fetch s.mem w

/-! ### The code -/

/-- Enter the handler at `p`, or `none` if the process is killed. -/
def sendsig (g : Growth) (p signo : Word) (s : State) : Option State := do
  let n := s.tr R15
  let s := g.grow ((n + .ofNat 48 NREGFRAME).toNat / PGSZ) s
  let m ← copyout s.get s.tr (addr n) NREGFRAME s.mem
  let m ← suword s.get (addr (n + .ofNat 48 NREGFRAME)) sigcode m
  let tr := update s.tr ACC signo
  let tr := update tr R14 (-1)
  let tr := update tr R13 (n + .ofNat 48 NREGFRAME)
  let tr := update tr R15 (n + .ofNat 48 (NREGFRAME + 1))
  let tr := update tr RET p
  let tr := update tr CREG 0
  let tr := update tr RREG 7
  let tr := update tr SPSW (tr SPSW &&&
    ~~~(SPSW_RIGHT_INSTR ||| SPSW_NEXT_RK ||| SPSW_MOD_RK ||| SPSW_MOD_RR))
  some { s with mem := m, tr := tr }

/-- What a system call leaves. -/
structure Outcome where
  state : State
  error : Word := 0
  val1 : Word := 0
  val2 : Word := 0
  justreturn : Bool := false

structure Sysent where
  narg : Nat
  call : List Word → State → Outcome

def sigret (s : State) : Outcome :=
  let a := addr (s.tr R15 - .ofNat 48 (NREGFRAME + 1))
  if useracc s.get a NREGFRAME then
    let frame (i : Nat) : Word := fetch s.mem (a + i)
    let spsw := frame SPSW &&& SPSW_USER ||| s.tr SPSW &&& ~~~SPSW_USER
    { state := { s with tr := update frame SPSW spsw }, justreturn := true }
  else { state := s, error := EFAULT }

/-- The table of calls: row 45, and the others. -/
def sysent (others : Nat → Sysent) (code : Nat) : Sysent :=
  if code = SYS_sigret then ⟨0, fun _ => sigret⟩ else others code

/-- The results go into the saved registers. -/
def reply (o : Outcome) : State :=
  let tr := o.state.tr
  if o.justreturn then o.state
  else if o.error ≠ 0 then { o.state with tr := update (update tr ACC (-1)) R14 o.error }
  else { o.state with tr := update (update (update tr ACC o.val1) R12 o.val2) R14 0 }

/-- `syscall`, up to `sysret`. -/
def syscall (others : Nat → Sysent) (s : State) : State :=
  let callp := sysent others (s.tr R14).toNat
  let n := callp.narg
  let ap := s.tr R15 - .ofNat 48 (n - 1)
  let args := if n = 0 then []
    else (List.range (n - 1)).map (fun i => fuword s (ap + .ofNat 48 i)) ++ [s.tr ACC]
  reply (callp.call args (if 2 ≤ n then { s with tr := update s.tr R15 ap } else s))

/-! ### Nested deliveries -/

/-- Where the frame goes. -/
abbrev base (s : State) : Nat := addr (s.tr R15)

/-- The frames at `bases`, with the word behind them, are left alone. -/
def Keeps (bases : List Nat) (s s' : State) : Prop :=
  ∀ a ∈ bases, ∀ w, a ≤ w → w ≤ a + NREGFRAME → Mapped s.get w →
    Mapped s'.get w ∧ fetch s'.mem w = fetch s.mem w

/-- The handler entered in `s` is at its end in `s'`: its stack is as it was. -/
def AtEnd (s s' : State) : Prop := base s' = base s ∧ (s'.tr R14).toNat = SYS_sigret

/-- It returns to the word that r13 named. -/
def comeBack (others : Nat → Sysent) (s s' : State) : Option State :=
  if fetch s'.mem (addr (s.tr R13)) = sigcode then some (syscall others s') else none

/-- User code that runs above the frames at `bases`, with signals whose handlers return. -/
inductive Runs (g : Growth) (others : Nat → Sysent) : List Nat → State → State → Prop where
  | refl {bases : List Nat} {s : State} : Runs g others bases s s
  | user {bases : List Nat} {s s₁ s₂ : State} : Runs g others bases s s₁ → Keeps bases s₁ s₂ →
      Runs g others bases s s₂
  | signal {bases : List Nat} {s s₁ s₂ s₃ s₄ : State} {p signo : Word} :
      Runs g others bases s s₁ →
      (∀ a ∈ bases, a + NREGFRAME < base s₁ ∨ base s₁ + NREGFRAME < a) →
      sendsig g p signo s₁ = some s₂ → Runs g others (base s₁ :: bases) s₂ s₃ → AtEnd s₂ s₃ →
      comeBack others s₂ s₃ = some s₄ → Runs g others bases s s₄

/-- The interrupted context is back, with the two bits of its mode word that are the user's. -/
def Restores (others : Nat → Sysent) (s₁ s₂ s₃ : State) : Prop :=
  ∃ s₄, comeBack others s₂ s₃ = some s₄ ∧ ∀ i < NREGFRAME, s₄.tr i =
    if i = SPSW then s₁.tr SPSW &&& SPSW_USER ||| s₃.tr SPSW &&& ~~~SPSW_USER else s₁.tr i

/-- There is room for the instruction behind the frame, and nothing to be saved in word 0. -/
def Fits (s : State) : Prop := base s + NREGFRAME < 2 ^ 15 ∧ (base s = 0 → s.tr ACC = 0)

/-! ### Proofs -/

section Words

variable {m : Nat → Word} {a b n : Nat} {w : Word}

theorem fetch_store : fetch (store m a w) b = if b = a ∧ b ≠ 0 then w else fetch m b := by
  unfold fetch store
  by_cases zero : b = 0
  · simp [zero]
  · by_cases same : b = a <;> by_cases at_zero : a = 0 <;> simp_all

theorem fetch_copyWords (src : Nat → Word) : fetch (copyWords src a n m) b =
    if a ≤ b ∧ b < a + n ∧ b ≠ 0 then src (b - a) else fetch m b := by
  induction n with
  | zero => rw [if_neg (by omega), copyWords]
  | succ n ih =>
    rw [copyWords, fetch_store, ih]
    by_cases last : b = a + n ∧ b ≠ 0
    · rw [if_pos last, if_pos (by omega), last.1, Nat.add_sub_cancel_left]
    · rw [if_neg last]
      exact if_congr (by omega) rfl rfl

theorem addr_add (n : Word) (k : Nat) : addr (n + .ofNat 48 k) = (addr n + k) % 2 ^ 15 := by
  simp only [addr, BitVec.toNat_add, BitVec.toNat_ofNat]
  omega

theorem addr_sub_of_eq {x : Word} (same : addr x = addr (w + .ofNat 48 (NREGFRAME + 1))) :
    addr (x - .ofNat 48 (NREGFRAME + 1)) = addr w := by
  simp only [addr, NREGFRAME, BitVec.toNat_add, BitVec.toNat_sub, BitVec.toNat_ofNat] at same ⊢
  omega

end Words

variable {g : Growth} {others : Nat → Sysent} {bases : List Nat} {s s' s₁ s₂ s₃ : State}
  {p signo : Word}

theorem syscall_eq (code : (s.tr R14).toNat = SYS_sigret) :
    syscall others s = reply (sigret s) := by
  have row : sysent others (s.tr R14).toNat = ⟨0, fun _ => sigret⟩ := if_pos code
  unfold syscall
  rw [row]
  rfl

/-- Nothing is stored, and only the two bits can change. -/
theorem reply_sigret (s : State) : (reply (sigret s)).mem = s.mem ∧
    (reply (sigret s)).get = s.get ∧
    (reply (sigret s)).tr SPSW &&& ~~~SPSW_USER = s.tr SPSW &&& ~~~SPSW_USER := by
  unfold sigret
  dsimp only
  split
  · refine ⟨rfl, rfl, ?_⟩
    simp only [reply, if_true, update_self]
    ext i
    simp
    grind
  · exact ⟨rfl, rfl, rfl⟩

/-- What a delivery stores, and where. -/
structure Sent (s s' : State) : Prop where
  high : base s + NREGFRAME ≤ 2 ^ 15
  r13 : addr (s'.tr R13) = (base s + NREGFRAME) % 2 ^ 15
  r15 : s'.tr R15 = s.tr R15 + .ofNat 48 (NREGFRAME + 1)
  frame : ∀ i < NREGFRAME, Mapped s'.get (base s + i) ∧
    fetch s'.mem (base s + i) = if base s + i = 0 then 0 else s.tr i
  code : base s + NREGFRAME < 2 ^ 15 → Mapped s'.get (base s + NREGFRAME) ∧
    fetch s'.mem (base s + NREGFRAME) = sigcode
  other : ∀ w, Mapped s.get w → w < base s ∨ base s + NREGFRAME < w →
    Mapped s'.get w ∧ fetch s'.mem w = fetch s.mem w

theorem sendsig_sent (sent : sendsig g p signo s = some s') : Sent s s' := by
  simp only [sendsig, copyout, suword, g.tr_grow, addr_add, Option.bind_eq_bind,
    Option.bind_eq_some_iff, Option.ite_none_right_eq_some, Option.some.injEq] at sent
  obtain ⟨_, ⟨frame, rfl⟩, _, ⟨code, rfl⟩, rfl⟩ := sent
  have here : addr (s.tr R15) = base s := rfl
  rw [useracc_iff] at frame code
  have high : base s + NREGFRAME ≤ 2 ^ 15 := by
    have := (frame (base s + 20) (by omega) (by simp [NREGFRAME])).1
    simp only [NPAGE, PGSZ, NREGFRAME] at this ⊢
    omega
  have size : NREGFRAME = 21 := rfl
  have behind : base s + NREGFRAME < 2 ^ 15 ∨ (base s + NREGFRAME) % 2 ^ 15 = 0 := by omega
  refine ⟨high, addr_add _ _, rfl, fun i low => ⟨frame _ (by omega) (by omega), ?_⟩,
    fun room => ?_, fun w mapped away => ?_⟩
  · rw [fetch_store, fetch_copyWords, if_neg (by omega), Nat.add_sub_cancel_left]
    by_cases zero : base s + i = 0
    · rw [if_pos zero, if_neg (by omega), zero]
      rfl
    · rw [if_neg zero, if_pos (by omega)]
  · rw [Nat.mod_eq_of_lt room] at code ⊢
    exact ⟨code _ (by omega) (by omega), by rw [fetch_store, if_pos (by omega)]⟩
  · obtain ⟨still, same⟩ := g.keeps ((s.tr R15 + .ofNat 48 NREGFRAME).toNat / PGSZ) s w mapped
    exact ⟨still, by rw [fetch_store, if_neg (by omega), fetch_copyWords, if_neg (by omega), same]⟩

theorem Keeps.refl : Keeps bases s s := fun _ _ _ _ _ mapped => ⟨mapped, rfl⟩

theorem Keeps.trans (first : Keeps bases s s₁) (second : Keeps bases s₁ s₂) : Keeps bases s s₂ := by
  intro a mem w low high mapped
  obtain ⟨mapped₁, same₁⟩ := first a mem w low high mapped
  obtain ⟨mapped₂, same₂⟩ := second a mem w low high mapped₁
  exact ⟨mapped₂, same₂.trans same₁⟩

theorem Keeps.mono {bases' : List Nat} (kept : Keeps bases' s s') (sub : ∀ a, a ∈ bases → a ∈ bases') :
    Keeps bases s s' := fun a mem => kept a (sub a mem)

theorem Sent.keeps (sent : Sent s s')
    (apart : ∀ a ∈ bases, a + NREGFRAME < base s ∨ base s + NREGFRAME < a) : Keeps bases s s' := by
  intro a mem w low high mapped
  exact sent.other w mapped (by have := apart a mem; omega)

theorem comeBack_keeps (ended : AtEnd s s₁) (back : comeBack others s s₁ = some s₂) :
    Keeps bases s₁ s₂ := by
  obtain ⟨-, ⟨⟩⟩ := Option.ite_none_right_eq_some.mp back
  obtain ⟨kept, pages, -⟩ := reply_sigret s₁
  intro a _ w _ _ mapped
  rw [syscall_eq ended.2, kept, pages]
  exact ⟨mapped, rfl⟩

/-- The frames below are left alone through all that goes on above them. -/
theorem Runs.keeps (runs : Runs g others bases s s') : Keeps bases s s' := by
  induction runs with
  | refl => exact Keeps.refl
  | user _ kept ih => exact ih.trans kept
  | signal _ apart sent _ ended back before inside =>
    have above := inside.mono fun _ => List.mem_cons_of_mem _
    exact before.trans (((sendsig_sent sent).keeps apart).trans (above.trans (comeBack_keeps ended back)))

/-- The frame of a delivery when its handler returns. -/
theorem restores_iff (sent : sendsig g p signo s₁ = some s₂)
    (runs : Runs g others (base s₁ :: bases) s₂ s₃) (ended : AtEnd s₂ s₃) :
    Restores others s₁ s₂ s₃ ↔ Fits s₁ := by
  have sent := sendsig_sent sent
  have size : NREGFRAME = 21 := rfl
  have kept := runs.keeps (base s₁) List.mem_cons_self
  have frame : ∀ i < NREGFRAME, Mapped s₃.get (base s₁ + i) ∧
      fetch s₃.mem (base s₁ + i) = if base s₁ + i = 0 then 0 else s₁.tr i := by
    intro i low
    obtain ⟨mapped, same⟩ := sent.frame i low
    obtain ⟨mapped, same'⟩ := kept (base s₁ + i) (by omega) (by omega) mapped
    exact ⟨mapped, same'.trans same⟩
  have here : addr (s₃.tr R15 - .ofNat 48 (NREGFRAME + 1)) = base s₁ := by
    refine addr_sub_of_eq ?_
    rw [← sent.r15]
    exact ended.1
  have opened : useracc s₃.get (base s₁) NREGFRAME = true := by
    refine useracc_iff.mpr fun w low high => ?_
    rw [← Nat.add_sub_cancel' low]
    exact (frame (w - base s₁) (by omega)).1
  have back : (syscall others s₃).tr = update (fun i => fetch s₃.mem (base s₁ + i)) SPSW
      (fetch s₃.mem (base s₁ + SPSW) &&& SPSW_USER ||| s₃.tr SPSW &&& ~~~SPSW_USER) := by
    rw [syscall_eq ended.2, sigret, here, if_pos opened]
    rfl
  constructor
  · rintro ⟨s₄, returned, same⟩
    obtain ⟨code, ⟨⟩⟩ := Option.ite_none_right_eq_some.mp returned
    have high := sent.high
    refine ⟨?_, fun zero => ?_⟩
    · by_contra beyond
      rw [sent.r13, show (base s₁ + NREGFRAME) % 2 ^ 15 = 0 by omega] at code
      exact absurd code (by decide : (0 : Word) ≠ sigcode)
    · have acc := same ACC (by decide)
      rw [back, update_of_ne (by decide), (frame ACC (by decide)).2, if_pos (by omega)] at acc
      exact acc.symm
  · rintro ⟨room, empty⟩
    have words : ∀ i < NREGFRAME, fetch s₃.mem (base s₁ + i) = s₁.tr i := by
      intro i low
      rw [(frame i low).2]
      split
      next zero =>
        obtain rfl : i = 0 := by omega
        exact (empty (by omega)).symm
      next => rfl
    have code : fetch s₃.mem (addr (s₂.tr R13)) = sigcode := by
      obtain ⟨mapped, code⟩ := sent.code room
      rw [sent.r13, Nat.mod_eq_of_lt room, (kept _ (by omega) (by omega) mapped).2, code]
    refine ⟨_, if_pos code, fun i low => ?_⟩
    rw [back]
    by_cases mode : i = SPSW
    · rw [if_pos mode, mode, update_self, words SPSW (by decide)]
    · rw [if_neg mode, update_of_ne mode, words i low]

/-- Signal frames nest: whatever goes on in a handler that returns and in those that interrupt
it, the context is restored, just if the frame fits. And from no frame does `sigret` take
more than the two bits of the mode word. -/
theorem frames_nest (g : Growth) (others : Nat → Sysent) :
    (∀ bases s₁ s₂ s₃ p signo, sendsig g p signo s₁ = some s₂ →
      Runs g others (base s₁ :: bases) s₂ s₃ → AtEnd s₂ s₃ →
      (Restores others s₁ s₂ s₃ ↔ Fits s₁)) ∧
    ∀ s, (s.tr R14).toNat = SYS_sigret →
      (syscall others s).tr SPSW &&& ~~~SPSW_USER = s.tr SPSW &&& ~~~SPSW_USER := by
  refine ⟨fun bases s₁ s₂ s₃ p signo => restores_iff, fun s code => ?_⟩
  rw [syscall_eq code]
  exact (reply_sigret s).2.2

/-- A stack that has all its pages. -/
def still : Growth := ⟨fun _ s => s, fun _ _ => rfl, fun _ _ _ mapped => ⟨mapped, rfl⟩⟩

def context (sp : Word) : State := ⟨fun _ => 1, fun _ => 0, fun i => if i = R15 then sp else 1⟩

/-- The handler has popped what it pushed, and is at the instruction behind the frame. -/
def atCode (s : State) : State := { s with tr := update s.tr R14 45 }

theorem frames_nest_stack : ∃ s₂, sendsig still 0o100 14 (context 0o70000) = some s₂ ∧
    ∀ others : Nat → Sysent, Restores others (context 0o70000) s₂ (atCode s₂) := by
  obtain ⟨s₂, sent⟩ : ∃ s₂, sendsig still 0o100 14 (context 0o70000) = some s₂ := ⟨_, rfl⟩
  refine ⟨s₂, sent, fun others => ?_⟩
  have runs : Runs still others [base (context 0o70000)] s₂ (atCode s₂) :=
    .user .refl Keeps.refl
  exact ((frames_nest still others).1 [] _ _ _ _ _ sent runs ⟨rfl, rfl⟩).mpr
    ⟨by decide, by decide⟩

/-- Twenty-one words are left on the stack: the frame fits and the handler is entered, but the
instruction behind the frame goes to word 0, and is not there when the handler returns. -/
theorem not_restores_at_top : ∃ s₂, sendsig still 0o100 14 (context 0o77753) = some s₂ ∧
    AtEnd s₂ (atCode s₂) ∧ ∀ others : Nat → Sysent,
      Runs still others [base (context 0o77753)] s₂ (atCode s₂) ∧
      ¬ Restores others (context 0o77753) s₂ (atCode s₂) := by
  refine ⟨_, rfl, ⟨rfl, rfl⟩, fun others => ⟨.user .refl fun _ _ _ _ _ mapped => ⟨mapped, rfl⟩, ?_⟩⟩
  rintro ⟨s₄, returned, -⟩
  cases returned

end V7Besm.Sig

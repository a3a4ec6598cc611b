import V7Besm.Mem.Utab
import V7Besm.Words.Packed

/-!
Byte-granular copies between the user and the kernel (`ucopy.c`, over `usermem.S`).

A pointer to a byte is its number in memory, six bytes a word, the first one on top.
`copyinb` and `copyoutb` are the same walk with the two sides exchanged: some bytes up to a word
boundary of the destination, whole words, straight or through a funnel of two words of
the source, and the bytes that are left. Each access to the user's side is checked.

Straight words are counted in a 15-bit register whose top bit is taken for a sign, so that
a run of more than 2731 of them is cut short and nobody is told. Word 0 reads as 0 on this
machine, and what is stored there is dropped.
-/

namespace V7Besm.Mem

open Words Function

abbrev NBPW : Nat := 6

abbrev Memory := Nat → BitVec (8 * NBPW)

/-- Whether `count` words from an address on can be read on one side and stored on the other. -/
structure Route where
  reads : Nat → Nat → Bool
  stores : Nat → Nat → Bool

section Copy

variable (r : Route) (src : Memory)

/-- A store of a word. -/
def put (dst : Memory) (w : Nat) (v : BitVec (8 * NBPW)) : Memory :=
  if w = 0 then dst else update dst w v

/-- The loop over single bytes. -/
def edge : Nat → Nat → Nat → Memory → Bool × Memory
  | 0, _, _, dst => (true, dst)
  | n + 1, fr, tp, dst =>
    if r.reads (fr / NBPW) 1 && r.stores (tp / NBPW) 1 then
      edge n (fr + 1) (tp + 1) (if tp < NBPW then dst else pokeAt dst tp (byteAt src fr))
    else (false, dst)

/-- The loop of `divword`: the remainder is in a register of 15 bits, and its top bit says that the
subtraction went below zero. -/
def divLoop : Nat → Nat → Nat → Nat
  | 0, _, quot => quot
  | fuel + 1, rem, quot =>
    if rem = 0 then quot
    else
      let rem := (rem + 0o100000 - NBPW) % 0o100000
      if rem < 0o40000 then divLoop fuel rem (quot + 1) else quot

/-- `divword`: how many words make up so many bytes. -/
def divword (count : Nat) : Nat := divLoop (count % 0o100000 + 1) (count % 0o100000) 0

/-- The loop of `copyin` and `copyout`. -/
def words : Nat → Nat → Nat → Memory → Memory
  | 0, _, _, dst => dst
  | n + 1, u, w, dst => words n (u + 1) (w + 1) (put dst w (src u))

/-- A word of the source; `fuword` returns -1, of 41 bits, for one that cannot be read. -/
def fetch (u : Nat) : BitVec (8 * NBPW) :=
  if r.reads u 1 then src u else (BitVec.allOnes 41).setWidth _

/-- The funnel: `cur` is word `u` of the source, `k` bytes of which are done with. -/
def funnel (k : Nat) : Nat → Nat → Nat → BitVec (8 * NBPW) → Memory → Bool × Memory
  | 0, _, _, _, dst => (true, dst)
  | n + 1, u, w, cur, dst =>
    let nxt := fetch r src (u + 1)
    if r.stores w 1 then
      funnel k n (u + 1) (w + 1) nxt
        (put dst w (cur <<< (8 * k) ||| nxt >>> (8 * (NBPW - k))))
    else (false, dst)

/-- The whole words of the destination, `n` of them: `copyin` or `copyout`, or the funnel. -/
def middle (n fr tp : Nat) (dst : Memory) : Bool × Memory :=
  if n = 0 then (true, dst)
  else if fr % NBPW = tp % NBPW then
    let nwords := divword (NBPW * n)
    if r.reads (fr / NBPW) nwords && r.stores (tp / NBPW) nwords then
      (true, words src nwords (fr / NBPW) (tp / NBPW) dst)
    else (false, dst)
  else funnel r src (fr % NBPW) n (fr / NBPW) (tp / NBPW) (fetch r src (fr / NBPW)) dst

/-- The walk. -/
def move (fr tp n : Nat) (dst : Memory) : Bool × Memory :=
  let lead := min (if tp % NBPW = 0 then 0 else NBPW - tp % NBPW) n
  let mid := (n - lead) / NBPW
  match edge r src lead fr tp dst with
  | (false, dst) => (false, dst)
  | (true, dst) =>
    match middle r src mid (fr + lead) (tp + lead) dst with
    | (false, dst) => (false, dst)
    | (true, dst) =>
      edge r src (n - lead - NBPW * mid) (fr + lead + NBPW * mid) (tp + lead + NBPW * mid) dst

end Copy

/-- Is the user's `[up, up+n)` mapped? The number of words is rounded up. -/
def uspan (get : Nat → Nat) (up n : Nat) : Bool :=
  useracc get (up / NBPW) ((up % NBPW + n + NBPW - 1) / NBPW)

/-- `copyinb`: whether it returns 0, and the kernel's memory. -/
def copyinb (get : Nat → Nat) (user kern : Memory) (fr tp n : Nat) : Bool × Memory :=
  if n = 0 then (true, kern)
  else if uspan get fr n then move ⟨useracc get, fun _ _ => true⟩ user fr tp n kern
  else (false, kern)

/-- `copyoutb`: whether it returns 0, and the user's memory. -/
def copyoutb (get : Nat → Nat) (kern user : Memory) (fr tp n : Nat) : Bool × Memory :=
  if n = 0 then (true, user)
  else if uspan get tp n then move ⟨fun _ _ => true, useracc get⟩ kern fr tp n user
  else (false, user)

/-! ### Copying -/

/-- `dst'` is `dst` with `n` bytes of `src` copied, and nothing else. -/
def Copied (src dst dst' : Memory) (fr tp n : Nat) : Prop :=
  ∀ x, byteAt dst' x =
    if tp ≤ x ∧ x < tp + n then byteAt src (fr + (x - tp)) else byteAt dst x

/-- The same, but for the bytes of word 0. -/
def Stored (src dst dst' : Memory) (fr tp n : Nat) : Prop :=
  ∀ x, byteAt dst' x =
    if tp ≤ x ∧ x < tp + n ∧ NBPW ≤ x then byteAt src (fr + (x - tp)) else byteAt dst x

/-- The words that `n` bytes from `fr` on touch are accessible. -/
def Open (ok : Nat → Nat → Bool) (fr n : Nat) : Prop :=
  ∀ u c, fr / NBPW ≤ u → NBPW * (u + c) < fr + n + NBPW → ok u c = true

variable {r : Route} {src dst dst' dst'' : Memory} {fr tp n m k : Nat} {ok : Nat → Nat → Bool}

theorem Stored.zero : Stored src dst dst fr tp 0 := fun x => by rw [if_neg (by omega)]

theorem Stored.trans (first : Stored src dst dst' fr tp n)
    (second : Stored src dst' dst'' (fr + n) (tp + n) m) : Stored src dst dst'' fr tp (n + m) := by
  intro x
  rw [second x, first x]
  by_cases late : tp + n ≤ x ∧ x < tp + n + m ∧ NBPW ≤ x
  · rw [if_pos late, if_pos (by omega)]
    congr 1
    omega
  · rw [if_neg late]
    by_cases early : tp ≤ x ∧ x < tp + n ∧ NBPW ≤ x
    · rw [if_pos early, if_pos (by omega)]
    · rw [if_neg early, if_neg (by omega)]

theorem Open.sub (opened : Open ok fr n) (le : m + k ≤ n) : Open ok (fr + m) k :=
  fun u c low high =>
    opened u c ((Nat.div_le_div_right (Nat.le_add_right _ _)).trans low) (by omega)

theorem Open.byte (opened : Open ok fr (n + 1)) : ok (fr / NBPW) 1 = true :=
  opened _ _ (Nat.le_refl _) (by simp only [NBPW]; omega)

theorem stored_byte :
    Stored src dst (if tp < NBPW then dst else pokeAt dst tp (byteAt src fr)) fr tp 1 := by
  intro x
  split
  · rw [if_neg (by omega)]
  · by_cases here : x = tp
    · rw [if_pos (by omega), here, byteAt_pokeAt_self (by decide), Nat.sub_self, Nat.add_zero]
    · rw [if_neg (by omega), byteAt_pokeAt_of_ne (by decide) here]

theorem stored_word {w : Nat} {v : BitVec (8 * NBPW)}
    (bytes : ∀ j < NBPW, byte v (NBPW - 1 - j) = byteAt src (fr + j)) :
    Stored src dst (put dst w v) fr (NBPW * w) NBPW := by
  intro x
  unfold put
  simp only [NBPW] at bytes ⊢
  split
  · rw [if_neg (by omega)]
  · by_cases here : x / 6 = w
    · have at_byte : x - 6 * w = x % 6 := by omega
      rw [if_pos (by omega), at_byte, ← bytes _ (by omega), byteAt, here, update_self]
    · rw [if_neg (by omega), byteAt_update_of_ne here]

theorem edge_stored (src dst : Memory) (reads : Open r.reads fr n) (stores : Open r.stores tp n) :
    ∃ dst', edge r src n fr tp dst = (true, dst') ∧ Stored src dst dst' fr tp n := by
  induction n generalizing fr tp dst with
  | zero => exact ⟨dst, rfl, .zero⟩
  | succ n ih =>
    obtain ⟨dst', ends, stored⟩ := ih
      (if tp < NBPW then dst else pokeAt dst tp (byteAt src fr))
      (reads.sub (Nat.le_of_eq (Nat.add_comm 1 n))) (stores.sub (Nat.le_of_eq (Nat.add_comm 1 n)))
    refine ⟨dst', ?_, Nat.add_comm 1 n ▸ stored_byte.trans stored⟩
    rwa [edge, reads.byte, stores.byte]

theorem words_stored (u w n : Nat) (dst : Memory) :
    Stored src dst (words src n u w dst) (NBPW * u) (NBPW * w) (NBPW * n) := by
  induction n generalizing u w dst with
  | zero => exact .zero
  | succ n ih =>
    have first : Stored src dst (put dst w (src u)) (NBPW * u) (NBPW * w) NBPW := by
      refine stored_word fun j low => ?_
      rw [byteAt, Nat.mul_add_div (by decide), Nat.div_eq_of_lt low, Nat.mul_add_mod,
        Nat.mod_eq_of_lt low, Nat.add_zero]
    rw [show NBPW * (n + 1) = NBPW + NBPW * n by rw [Nat.mul_succ, Nat.add_comm]]
    exact first.trans (ih (u + 1) (w + 1) _)

theorem funnel_stored (src dst : Memory) {u w : Nat} (pos : 0 < k) (low : k < NBPW)
    (reads : Open r.reads (NBPW * u + k) (NBPW * n))
    (stores : Open r.stores (NBPW * w) (NBPW * n)) :
    ∃ dst', funnel r src k n u w (src u) dst = (true, dst') ∧
      Stored src dst dst' (NBPW * u + k) (NBPW * w) (NBPW * n) := by
  induction n generalizing u w dst with
  | zero => exact ⟨dst, rfl, .zero⟩
  | succ n ih =>
    simp only [Open, NBPW] at low reads stores ih ⊢
    -- the word ahead has the last byte that this word needs
    have ahead : fetch r src (u + 1) = src (u + 1) := if_pos (reads _ 1 (by omega) (by omega))
    have first : Stored src dst (put dst w (src u <<< (8 * k) ||| src (u + 1) >>> (8 * (6 - k))))
        (6 * u + k) (6 * w) 6 := by
      refine stored_word fun j inside => ?_
      simp only [NBPW] at inside ⊢
      rw [byte_funnel (by omega) (by omega), byteAt]
      split
      next left =>
        rw [show (6 * u + k + j) / 6 = u by omega, show (6 * u + k + j) % 6 = k + j by omega]
        congr 1
        omega
      next right =>
        rw [show (6 * u + k + j) / 6 = u + 1 by omega,
          show (6 * u + k + j) % 6 = k + j - 6 by omega]
        congr 1
        omega
    obtain ⟨dst', ends, stored⟩ := ih
      (put dst w (src u <<< (8 * k) ||| src (u + 1) >>> (8 * (6 - k)))) (u := u + 1) (w := w + 1)
      (fun a c above below => reads a c (by omega) (by omega))
      (fun a c above below => stores a c (by omega) (by omega))
    refine ⟨dst', ?_, ?_⟩
    · rwa [funnel, ahead, stores w 1 (by omega) (by omega)]
    · rw [show 6 * (n + 1) = 6 + 6 * n by omega]
      refine first.trans ?_
      rwa [show 6 * (u + 1) + k = 6 * u + k + 6 by omega, show 6 * (w + 1) = 6 * w + 6 by omega]
        at stored

/-! ### Words that are left out -/

theorem divLoop_eq {fuel rem : Nat} (quot : Nat) (low : rem < 0o40000) (enough : rem < fuel) :
    divLoop fuel rem quot = quot + rem / NBPW := by
  induction fuel generalizing rem quot with
  | zero => omega
  | succ fuel ih =>
    simp only [NBPW] at ih ⊢
    unfold divLoop
    dsimp only [NBPW]
    split
    next zero => rw [zero]; rfl
    next some =>
      split
      next above =>
        rw [ih _ above (by omega)]
        omega
      next => omega

theorem divword_eq (count : Nat) : divword count =
    if count % 0o100000 < 0o40006 then count % 0o100000 / NBPW else 0 := by
  unfold divword
  generalize rem_eq : count % 0o100000 = rem
  have bound : rem < 0o100000 := by omega
  by_cases low : rem < 0o40000
  · rw [divLoop_eq 0 low (Nat.lt_succ_self _), if_pos (by omega), Nat.zero_add]
  · rw [divLoop, if_neg (by omega)]
    simp only [NBPW]
    -- the top bit is set: it matters after the first subtraction
    by_cases first : rem < 0o40006
    · rw [if_pos (by omega), divLoop_eq _ (by omega) (by omega), if_pos first]
      simp only [NBPW]
      omega
    · rw [if_neg (by omega), if_neg first]

/-- The longest run of straight words. -/
abbrev MAXRUN : Nat := 2731

theorem divword_le (n : Nat) : divword (NBPW * n) ≤ n := by
  rw [divword_eq]
  simp only [NBPW]
  split <;> omega

theorem divword_eq_self_iff : divword (NBPW * n) = n ↔ n ≤ MAXRUN := by
  rw [divword_eq]
  simp only [NBPW, MAXRUN]
  by_cases small : n ≤ 2731
  · rw [Nat.mod_eq_of_lt (by omega), if_pos (by omega)]
    omega
  · split <;> omega

/-- How many of `n` whole words are carried. -/
def carried (fr tp n : Nat) : Nat := if fr % NBPW = tp % NBPW then divword (NBPW * n) else n

theorem carried_le (fr tp n : Nat) : carried fr tp n ≤ n := by
  unfold carried
  split
  · exact divword_le n
  · exact le_rfl

theorem middle_stored (src dst : Memory) (aligned : n = 0 ∨ tp % NBPW = 0)
    (reads : Open r.reads fr (NBPW * n)) (stores : Open r.stores tp (NBPW * n)) :
    ∃ dst', middle r src n fr tp dst = (true, dst') ∧
      Stored src dst dst' fr tp (NBPW * carried fr tp n) := by
  have few := carried_le fr tp n
  unfold middle
  by_cases none : n = 0
  · rw [none, Nat.le_zero] at few
    rw [none, few]
    exact ⟨dst, rfl, .zero⟩
  rw [if_neg none]
  obtain ⟨w, rfl⟩ : ∃ w, tp = NBPW * w := Nat.dvd_of_mod_eq_zero (aligned.resolve_left none)
  have back : NBPW * w / NBPW = w := Nat.mul_div_cancel_left w (by decide)
  unfold carried at few ⊢
  rw [Nat.mul_mod_right, back] at *
  split
  next straight =>
    rw [if_pos straight] at few
    obtain ⟨u, rfl⟩ : ∃ u, fr = NBPW * u := Nat.dvd_of_mod_eq_zero straight
    have back' : NBPW * u / NBPW = u := Nat.mul_div_cancel_left u (by decide)
    dsimp only
    generalize divword (NBPW * n) = nwords at few ⊢
    simp only [Open, NBPW] at reads stores back back' ⊢
    rw [back', reads u nwords (by omega) (by omega), stores w nwords (by omega) (by omega)]
    exact ⟨_, rfl, words_stored u w nwords dst⟩
  next shifted =>
    have split : fr = NBPW * (fr / NBPW) + fr % NBPW := (Nat.div_add_mod fr NBPW).symm
    have low : fr % NBPW < NBPW := Nat.mod_lt _ (by decide)
    have here : fetch r src (fr / NBPW) = src (fr / NBPW) :=
      if_pos (reads _ 1 (Nat.le_refl _) (by simp only [NBPW]; omega))
    rw [here]
    rw [split] at reads
    have all := funnel_stored src dst (Nat.pos_of_ne_zero shifted) low reads stores
    rwa [← split] at all

/-- The words of the destination that lie in it as a whole. -/
def wholeWords (tp n : Nat) : Nat := (tp + n) / NBPW - (tp + NBPW - 1) / NBPW

/-- The byte is in a whole word that is not carried. -/
abbrev Skipped (fr tp n x : Nat) : Prop :=
  (tp + NBPW - 1) / NBPW + carried fr tp (wholeWords tp n) ≤ x / NBPW ∧
    x / NBPW < (tp + NBPW - 1) / NBPW + wholeWords tp n

/-- What is in every byte behind the walk. -/
theorem move_spec (src dst : Memory) (reads : Open r.reads fr n) (stores : Open r.stores tp n) :
    ∃ dst', move r src fr tp n dst = (true, dst') ∧ ∀ x, byteAt dst' x =
      if tp ≤ x ∧ x < tp + n ∧ NBPW ≤ x ∧ ¬ Skipped fr tp n x then byteAt src (fr + (x - tp))
      else byteAt dst x := by
  unfold move Skipped
  dsimp only
  generalize lead_eq : min (if tp % NBPW = 0 then 0 else NBPW - tp % NBPW) n = lead
  generalize mid_eq : (n - lead) / NBPW = mid
  have start : mid = 0 ∨ tp + lead = NBPW * ((tp + NBPW - 1) / NBPW) := by
    simp only [NBPW] at *
    split at lead_eq <;> omega
  have aligned : mid = 0 ∨ (tp + lead) % NBPW = 0 := by
    refine start.imp_right ?_
    intro at_word
    rw [at_word, Nat.mul_mod_right]
  have whole : wholeWords tp n = mid := by
    simp only [wholeWords, NBPW] at *
    split at lead_eq <;> omega
  have phase : carried (fr + lead) (tp + lead) mid = carried fr tp mid := by
    unfold carried
    refine if_congr ?_ rfl rfl
    simp only [NBPW]
    omega
  have few := carried_le fr tp mid
  obtain ⟨d₁, ends₁, first⟩ := edge_stored src dst
    (reads.sub (show 0 + lead ≤ n by omega)) (stores.sub (show 0 + lead ≤ n by omega))
  have room : lead + NBPW * mid ≤ n := by
    simp only [NBPW] at *
    omega
  obtain ⟨d₂, ends₂, second⟩ := middle_stored src d₁ aligned (reads.sub room) (stores.sub room)
  obtain ⟨d₃, ends₃, third⟩ := edge_stored src d₂
    (reads.sub (show lead + NBPW * mid + (n - lead - NBPW * mid) ≤ n by omega))
    (stores.sub (show lead + NBPW * mid + (n - lead - NBPW * mid) ≤ n by omega))
  simp only [Nat.add_zero, ← Nat.add_assoc] at ends₁ first ends₃ third
  rw [ends₁]
  dsimp only
  rw [ends₂]
  refine ⟨d₃, ends₃, fun x => ?_⟩
  rw [third x, second x, first x, whole, phase]
  clear lead_eq mid_eq phase whole aligned ends₁ ends₂ ends₃ first second third reads stores
  generalize carried fr tp mid = c at few ⊢
  generalize (tp + NBPW - 1) / NBPW = w at start ⊢
  simp only [NBPW] at *
  -- the parts of the range: the first bytes, words carried, words left out, the last bytes
  split_ifs <;> first | rfl | omega | (congr 1; omega)

/-- All the whole words are carried. -/
abbrev Carries (fr tp n : Nat) : Prop := fr % NBPW ≠ tp % NBPW ∨ wholeWords tp n ≤ MAXRUN

theorem carries_iff : Carries fr tp n ↔ carried fr tp (wholeWords tp n) = wholeWords tp n := by
  unfold Carries carried
  split
  next same => rw [divword_eq_self_iff, or_iff_right (not_not.mpr same)]
  next other => exact ⟨fun _ => rfl, fun _ => .inl other⟩

/-- What would go to word 0 comes from there. -/
abbrev Clear (fr tp n : Nat) : Prop := ∀ i < n, tp + i < NBPW → fr + i < NBPW

theorem byteAt_of_lt {m : Memory} {x : Nat} (zero : m 0 = 0) (low : x < NBPW) : byteAt m x = 0 := by
  rw [byteAt, Nat.div_eq_of_lt low, zero]
  simp [byte]

/-- Ones everywhere but in word 0. -/
def ones : Memory := fun w => if w = 0 then 0 else BitVec.allOnes _

theorem byteAt_ones {x : Nat} (high : NBPW ≤ x) : byteAt ones x = 255 := by
  have all : ∀ j < NBPW, byte (BitVec.allOnes (8 * NBPW)) j = 255 := by decide
  rw [byteAt, ones, if_neg (by simp only [NBPW] at *; omega)]
  exact all _ (by simp only [NBPW]; omega)

/-- The walk is a copy, whatever is in the memories, just when all the whole words are carried and
nothing is lost in word 0. -/
theorem move_copied_iff (reads : Open r.reads fr n) (stores : Open r.stores tp n) :
    (∀ src dst : Memory, src 0 = 0 → dst 0 = 0 →
      ∃ dst', move r src fr tp n dst = (true, dst') ∧ Copied src dst dst' fr tp n) ↔
      Carries fr tp n ∧ Clear fr tp n := by
  constructor
  · intro copies
    obtain ⟨dst', ends, copied⟩ := copies ones (fun _ => 0) rfl rfl
    obtain ⟨_, same, spec⟩ := move_spec ones (fun _ => 0) reads stores
    cases ends.symm.trans same
    have reached : ∀ x, tp ≤ x → x < tp + n → NBPW ≤ fr + (x - tp) →
        NBPW ≤ x ∧ ¬ Skipped fr tp n x := by
      intro x low high far
      by_contra missed
      have there := copied x
      have inside : tp ≤ x ∧ x < tp + n := ⟨low, high⟩
      rw [spec x, if_pos inside, if_neg (fun all => missed all.2.2), byteAt_ones far] at there
      exact absurd there (by simp [byteAt, byte])
    constructor
    · by_contra less
      obtain ⟨-, many⟩ := not_or.mp less
      have few := carried_le fr tp (wholeWords tp n)
      rw [carries_iff] at less
      -- the last word that is left out, far behind word 0
      obtain ⟨x, x_eq⟩ : ∃ x, x = NBPW * ((tp + NBPW - 1) / NBPW + wholeWords tp n - 1) := ⟨_, rfl⟩
      have within : tp + NBPW ≤ x ∧ x < tp + n := by
        simp only [wholeWords, MAXRUN, NBPW] at *
        omega
      have last := (reached x (by omega) within.2 (by omega)).2
      rw [Skipped, x_eq, Nat.mul_div_cancel_left _ (by decide)] at last
      generalize (tp + NBPW - 1) / NBPW = first at last
      omega
    · intro i low at_zero
      by_contra far
      have := (reached (tp + i) (by omega) (by omega) (by omega)).1
      omega
  · rintro ⟨carries, clear⟩ src dst src_zero dst_zero
    obtain ⟨dst', ends, spec⟩ := move_spec src dst reads stores
    refine ⟨dst', ends, fun x => ?_⟩
    have none : ¬ Skipped fr tp n x := by
      unfold Skipped
      rw [carries_iff.mp carries]
      omega
    rw [spec x]
    by_cases inside : tp ≤ x ∧ x < tp + n
    · by_cases low : x < NBPW
      · have from_zero := clear (x - tp) (by omega) (by omega)
        rw [if_neg (by omega), if_pos inside, byteAt_of_lt dst_zero low, byteAt_of_lt src_zero from_zero]
      · rw [if_pos ⟨inside.1, inside.2, by omega, none⟩, if_pos inside]
    · rw [if_neg (by omega), if_neg inside]

/-! ### The user's side -/

theorem uspan_iff {get : Nat → Nat} {up : Nat} (some : n ≠ 0) :
    uspan get up n = true ↔ ∀ i < n, Mapped get ((up + i) / NBPW) := by
  rw [uspan, useracc_iff]
  simp only [NBPW]
  constructor
  · exact fun all i low => all _ (by omega) (by omega)
  · intro all w low high
    -- a byte of the range in this word
    have byte := all (max up (6 * w) - up) (by omega)
    rwa [show (up + (max up (6 * w) - up)) / 6 = w by omega] at byte

theorem open_of_mapped {get : Nat → Nat} {up : Nat} (some : n ≠ 0)
    (all : ∀ i < n, Mapped get ((up + i) / NBPW)) : Open (useracc get) up n := by
  intro u c low high
  rw [useracc_iff]
  simp only [NBPW] at *
  intro w above below
  have byte := all (max up (6 * w) - up) (by omega)
  rwa [show (up + (max up (6 * w) - up)) / 6 = w by omega] at byte

/-- What a copy is to do, for any memories whose word 0 reads as 0: if the user's range at `up` is
mapped it copies all the bytes and changes nothing else, and if it is not it fails without a
change. -/
def Copies (get : Nat → Nat) (up fr tp n : Nat) (copy : Memory → Memory → Bool × Memory) : Prop :=
  ∀ src dst : Memory, src 0 = 0 → dst 0 = 0 → ((∀ i < n, Mapped get ((up + i) / NBPW)) →
      ∃ dst', copy src dst = (true, dst') ∧ Copied src dst dst' fr tp n) ∧
    ((∃ i < n, ¬ Mapped get ((up + i) / NBPW)) → copy src dst = (false, dst))

/-- Both copies, over the walk: `copy` checks the user's range at `up` and then moves. -/
theorem copies_iff {get : Nat → Nat} {up : Nat} {copy : Memory → Memory → Bool × Memory}
    (copy_eq : ∀ src dst, copy src dst = if n = 0 then (true, dst)
      else if uspan get up n then move r src fr tp n dst else (false, dst))
    (opened : n ≠ 0 → (∀ i < n, Mapped get ((up + i) / NBPW)) →
      Open r.reads fr n ∧ Open r.stores tp n) :
    Copies get up fr tp n copy ↔
      ((∀ i < n, Mapped get ((up + i) / NBPW)) → Carries fr tp n ∧ Clear fr tp n) := by
  by_cases none : n = 0
  · subst none
    constructor
    · intro _ _
      refine ⟨.inr ?_, fun i low => absurd low (Nat.not_lt_zero i)⟩
      simp only [wholeWords, NBPW]
      omega
    · intro _ src dst _ _
      rw [copy_eq, if_pos rfl]
      exact ⟨fun _ => ⟨dst, rfl, fun x => by rw [if_neg (by omega)]⟩,
        fun ⟨i, low, _⟩ => absurd low (Nat.not_lt_zero i)⟩
  by_cases all : ∀ i < n, Mapped get ((up + i) / NBPW)
  · obtain ⟨reads, stores⟩ := opened none all
    have moves : ∀ src dst, copy src dst = move r src fr tp n dst := by
      intro src dst
      rw [copy_eq, if_neg none, if_pos ((uspan_iff none).mpr all)]
    have same := move_copied_iff reads stores
    constructor
    · intro copies _
      refine same.mp fun src dst src_zero dst_zero => ?_
      rw [← moves]
      exact (copies src dst src_zero dst_zero).1 all
    · intro carries src dst src_zero dst_zero
      rw [moves]
      exact ⟨fun _ => same.mpr (carries all) src dst src_zero dst_zero,
        fun ⟨i, low, un⟩ => absurd (all i low) un⟩
  · refine ⟨fun _ yes => absurd yes all, fun _ src dst _ _ => ⟨fun yes => absurd yes all, fun _ => ?_⟩⟩
    rw [copy_eq, if_neg none, if_neg (fun span => all ((uspan_iff none).mp span))]

theorem copyinb_copies_iff (get : Nat → Nat) (fr tp n : Nat) :
    Copies get fr fr tp n (copyinb get · · fr tp n) ↔
      ((∀ i < n, Mapped get ((fr + i) / NBPW)) → Carries fr tp n ∧ Clear fr tp n) := by
  refine copies_iff (r := ⟨useracc get, fun _ _ => true⟩) (fun _ _ => rfl) fun some all => ⟨?_, ?_⟩
  · exact open_of_mapped some all
  · exact fun _ _ _ _ => rfl

theorem copyoutb_copies_iff (get : Nat → Nat) (fr tp n : Nat) :
    Copies get tp fr tp n (copyoutb get · · fr tp n) ↔
      ((∀ i < n, Mapped get ((tp + i) / NBPW)) → Carries fr tp n ∧ Clear fr tp n) := by
  refine copies_iff (r := ⟨fun _ _ => true, useracc get⟩) (fun _ _ => rfl) fun some all => ⟨?_, ?_⟩
  · exact fun _ _ _ _ => rfl
  · exact open_of_mapped some all

/-- Both copies move all of the bytes and nothing else if the user's range is mapped, and fail
without a change if it is not, unless there are more than `MAXRUN` whole words to be carried
straight or something else than word 0 is to be copied to word 0. -/
theorem copyb_all_or_nothing (get : Nat → Nat) (fr tp n : Nat) :
    (Copies get fr fr tp n (copyinb get · · fr tp n) ↔
      ((∀ i < n, Mapped get ((fr + i) / NBPW)) → Carries fr tp n ∧ Clear fr tp n)) ∧
    (Copies get tp fr tp n (copyoutb get · · fr tp n) ↔
      ((∀ i < n, Mapped get ((tp + i) / NBPW)) → Carries fr tp n ∧ Clear fr tp n)) :=
  ⟨copyinb_copies_iff get fr tp n, copyoutb_copies_iff get fr tp n⟩

/-- 2732 words from word 1024 of the kernel to word 1024 of the user, all of whose pages are
mapped: 0 is returned and not one of them has been stored. Nor has word 1 in word 0. -/
theorem copyoutb_stores_nothing :
    (∀ i < NBPW * 2732, Mapped (fun _ => 1) ((NBPW * 1024 + i) / NBPW)) ∧
    (∀ kern user, copyoutb (fun _ => 1) kern user (NBPW * 1024) (NBPW * 1024) (NBPW * 2732) =
      (true, user)) ∧
    ¬ Copies (fun _ => 1) (NBPW * 1024) (NBPW * 1024) (NBPW * 1024) (NBPW * 2732)
      (copyoutb (fun _ => 1) · · (NBPW * 1024) (NBPW * 1024) (NBPW * 2732)) ∧
    ∀ kern user, copyoutb (fun _ => 1) kern user NBPW 0 NBPW = (true, user) := by
  have mapped : ∀ i < NBPW * 2732, Mapped (fun _ => 1) ((NBPW * 1024 + i) / NBPW) := by
    intro i low
    simp only [Mapped, NPAGE, PGSZ, NBPW] at low ⊢
    omega
  refine ⟨mapped, fun kern user => rfl, fun copies => ?_, fun kern user => rfl⟩
  have carries := (copyoutb_copies_iff _ _ _ _).mp copies mapped
  exact absurd carries.1 (by decide)

end V7Besm.Mem

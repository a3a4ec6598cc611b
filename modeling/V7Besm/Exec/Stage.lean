import V7Besm.Exec.Args

/-!
Collecting the arguments of `exec`.

The strings of the caller arrive in the two blocks in order, each with the zero byte that
ends it. A pointer is the byte address of what it points at, so the strings may start at
any byte of a word.
-/

namespace V7Besm.Exec

open Words Function List

/-! ### Pointers are byte addresses -/

/-- The pointer to the byte at a byte address. -/
def Ptr.at (n : Nat) : Ptr := ⟨n / 6, 5 - n % 6⟩

theorem Ptr.inc_at (n : Nat) : (Ptr.at n).inc = Ptr.at (n + 1) := by
  by_cases last : 5 - n % 6 = 0
  · rw [Ptr.inc, if_pos (by exact last), Ptr.at, Ptr.at, Ptr.mk.injEq]
    simp only
    omega
  · rw [Ptr.inc, if_neg (by exact last), Ptr.at, Ptr.at, Ptr.mk.injEq]
    simp only
    omega

theorem Ptr.at_word (a : Nat) : Ptr.at (6 * a) = ⟨a, 5⟩ := by
  rw [Ptr.at, Nat.mul_div_cancel_left a (by decide), Nat.mul_mod_right]

/-- The byte addresses that a pointer can hold. -/
abbrev top : Nat := 6 * 2 ^ 15

variable {n : Nat}

theorem toNat_enc_at (lt : n < top) :
    (Ptr.at n).enc.toNat = 2 ^ 47 + (5 - n % 6) * 2 ^ 44 + n / 6 := by
  rw [Ptr.enc, Ptr.at, BitVec.toNat_ofNat, Nat.mod_eq_of_lt]
  simp only [NBPW, top] at *
  omega

theorem Ptr.dec_enc_at (lt : n < top) : Ptr.dec (Ptr.at n).enc = Ptr.at n := by
  have high : (2 ^ 47 + (5 - n % 6) * 2 ^ 44 + n / 6) / 2 ^ 44 = 8 + (5 - n % 6) := by
    simp only [top] at lt
    omega
  rw [Ptr.dec, ptrword, ptrbyte, toNat_enc_at lt, Ptr.at, Ptr.mk.injEq, high]
  simp only [top] at lt
  omega

theorem enc_at_ne_zero (lt : n < top) : (Ptr.at n).enc ≠ 0 := by
  intro eq
  have value := toNat_enc_at lt
  rw [eq] at value
  simp only [BitVec.ofNat_eq_ofNat, BitVec.toNat_ofNat, Nat.zero_mod] at value
  omega

theorem enc_at_ne_mone (lt : n < top) : (Ptr.at n).enc ≠ mone := by
  intro eq
  have value := toNat_enc_at lt
  have minus : mone.toNat = 2 ^ 41 - 1 := by decide
  rw [eq, minus] at value
  omega

/-! ### Strings and vectors in memory -/

/-- The byte at a byte address, if it is mapped. -/
def ubyte (u : User) (n : Nat) : Option Byte := fubyte u (.at n)

/-- A string that starts at the byte address `n`, and ends with a zero byte. -/
def Str (u : User) : Nat → List Byte → Prop
  | n, [] => ubyte u n = some 0
  | n, c :: s => ubyte u n = some c ∧ c ≠ 0 ∧ Str u (n + 1) s

instance decidableStr (u : User) : (n : Nat) → (s : List Byte) → Decidable (Str u n s)
  | n, [] => inferInstanceAs (Decidable (ubyte u n = some 0))
  | n, c :: s =>
    have := decidableStr u (n + 1) s
    inferInstanceAs (Decidable (ubyte u n = some c ∧ c ≠ 0 ∧ Str u (n + 1) s))

/-- A vector of pointers at the word `a`, ended by a zero word, to strings between the byte
addresses `lo` and `hi`. -/
def Vec (u : User) (lo hi : Nat) : Nat → List (List Byte) → Prop
  | a, [] => a < 2 ^ 15 ∧ u a = some 0
  | a, s :: ss =>
    (a < 2 ^ 15 ∧ ∃ n, lo ≤ n ∧ n + s.length < hi ∧ u a = some (Ptr.at n).enc ∧ Str u n s) ∧
      Vec u lo hi (a + 1) ss

/-- The strings one behind the other, with their zero bytes. -/
def packed (ss : List (List Byte)) : List Byte := ss.flatMap (· ++ [0])

@[simp] theorem packed_nil : packed [] = [] := rfl

variable {s : List Byte}

@[simp] theorem packed_cons {ss : List (List Byte)} :
    packed (s :: ss) = s ++ 0 :: packed ss := by simp [packed]

@[simp] theorem packed_append {ss ts : List (List Byte)} :
    packed (ss ++ ts) = packed ss ++ packed ts := by simp [packed]

/-! ### The blocks -/

variable {base : Nat} {u : User} {swap : Swap} {bs : List Byte} {c : Byte} {st : Stage}

/-- The blocks from `base` on hold `bs`, as far as that goes. -/
def Holds (base : Nat) (swap : Swap) (bs : List Byte) : Prop :=
  ∀ i (lt : i < bs.length), swap (base + i / BSIZE) (i % BSIZE) = bs[i]

/-- The cursor behind `nc` bytes: the buffer of the block of the last one is in hand. -/
def Cursor (base nc : Nat) (bp : Option Nat) (cp : Nat) : Prop :=
  nc % BSIZE ≠ 0 → bp = some (base + nc / BSIZE) ∧ cp = nc % BSIZE

/-- `bs` has been collected. -/
structure Staged (base : Nat) (st : Stage) (bs : List Byte) : Prop where
  nc : st.nc = bs.length
  cursor : Cursor base st.nc st.bp st.cp
  holds : Holds base st.swap bs

theorem cursor_succ {nc : Nat} :
    Cursor base (nc + 1) (some (base + nc / BSIZE)) (nc % BSIZE + 1) := by
  intro more
  simp only [BSIZE] at more ⊢
  exact ⟨by congr 2; omega, by omega⟩

theorem Holds.put (holds : Holds base swap bs) (c : Byte) :
    Holds base (update swap (base + bs.length / BSIZE)
      (update (swap (base + bs.length / BSIZE)) (bs.length % BSIZE) c)) (bs ++ [c]) := by
  intro i lt
  rw [length_append, length_singleton] at lt
  by_cases last : i = bs.length
  · subst last
    simp
  have before : i < bs.length := by omega
  rw [getElem_append_left before, ← holds i before]
  by_cases block : base + i / BSIZE = base + bs.length / BSIZE
  · have byte : i % BSIZE ≠ bs.length % BSIZE := by
      simp only [BSIZE] at block ⊢
      omega
    rw [block, update_self, update_of_ne byte]
  · rw [update_of_ne block]

theorem Staged.put (staged : Staged base st bs) (c : Byte) :
    Staged base (st.put base c) (bs ++ [c]) ∧ (st.put base c).na = st.na ∧
      (st.put base c).ne = st.ne := by
  obtain ⟨nc, cursor, holds⟩ := staged
  have done : st.put base c = { st with
      nc := st.nc + 1
      bp := some (base + st.nc / BSIZE)
      cp := st.nc % BSIZE + 1
      swap := update st.swap (base + st.nc / BSIZE)
        (update (st.swap (base + st.nc / BSIZE)) (st.nc % BSIZE) c) } := by
    rw [Stage.put]
    by_cases full : st.nc % BSIZE = 0
    · simp [full]
    · simp [full, (cursor full).1, (cursor full).2]
  rw [done]
  exact ⟨⟨by simp [nc], cursor_succ, by simpa only [nc] using holds.put c⟩, rfl, rfl⟩

variable {k : Nat}

theorem stageString_succ {up : Ptr} (byte : fubyte u up = some c)
    (room : st.nc + 1 < NCARGS) : stageString base u (k + 1) up none st =
      if c = 0 then .ok (st.put base c) else stageString base u k up.inc none (st.put base c) := by
  rw [stageString]
  simp only [byte, if_neg (show ¬ st.nc ≥ NCARGS - 1 by omega)]

/-- A string of the caller is collected, with its zero byte. -/
theorem stageString_spec (str : Str u n s) (fuel : s.length ≤ k) (staged : Staged base st bs)
    (fits : bs.length + s.length + 1 < NCARGS) :
    ∃ st', stageString base u (k + 1) (.at n) none st = .ok st' ∧
      Staged base st' (bs ++ (s ++ [0])) ∧ st'.na = st.na ∧ st'.ne = st.ne := by
  induction s generalizing n k bs st with
  | nil =>
    have room : st.nc + 1 < NCARGS := by simpa [staged.nc] using fits
    refine ⟨st.put base 0, ?_, staged.put 0⟩
    rw [stageString_succ str room, if_pos rfl]
  | cons c s ih =>
    obtain ⟨byte, ne, rest⟩ := str
    rw [length_cons] at fits fuel
    obtain ⟨k, rfl⟩ := Nat.exists_eq_succ_of_ne_zero (show k ≠ 0 by omega)
    have room : st.nc + 1 < NCARGS := by
      rw [staged.nc]
      omega
    obtain ⟨staged', na, ne'⟩ := staged.put c
    obtain ⟨st', done, collected, na', ne''⟩ := ih rest (Nat.le_of_succ_le_succ fuel) staged' (by
      rw [length_append, length_singleton]
      omega)
    refine ⟨st', ?_, by simpa using collected, na'.trans na, ne''.trans ne'⟩
    rw [stageString_succ byte room, if_neg ne, Ptr.inc_at, done]

/-! ### The vectors of the caller -/

theorem fuword_eq {a : Nat} {w : Word} (lt : a < 2 ^ 15) (found : u a = some w) :
    fuword u a = w := by
  rw [fuword, Nat.mod_eq_of_lt lt, found, Option.getD_some]

/-- A string of the caller is counted and collected. -/
theorem stageArg_spec (str : Str u n s) (lt : n < top) (staged : Staged base st bs)
    (fits : bs.length + s.length + 1 < NCARGS) :
    ∃ st', stageArg base u (Ptr.at n).enc st = .ok st' ∧ Staged base st' (bs ++ (s ++ [0])) ∧
      st'.na = st.na + 1 ∧ st'.ne = st.ne := by
  have started : Staged base { st with na := st.na + 1 } bs := { staged with }
  obtain ⟨st', done, collected⟩ := stageString_spec str (k := NCARGS - 1) (by omega) started fits
  refine ⟨st', ?_, collected⟩
  rwa [stageArg, Ptr.dec_enc_at lt, if_neg (enc_at_ne_mone lt)]

/-! The three ways through the loop over the vectors. -/

variable {argp envp : Nat}

theorem stageArgs_arg (some : argp ≠ 0) (word : fuword u argp ≠ 0) :
    stageArgs base u (k + 1) argp envp st =
      (stageArg base u (fuword u argp) st >>= stageArgs base u k (argp + 1) envp) := by
  rw [stageArgs]
  have more : ¬ (fuword u argp = 0 ∧ envp ≠ 0) := fun ended => word ended.1
  simp only [if_pos some, if_neg word, if_neg more]

theorem stageArgs_env (none : argp = 0 ∨ fuword u argp = 0)
    (some : envp ≠ 0) : stageArgs base u (k + 1) argp envp st =
      if fuword u envp = 0 then .ok st
      else stageArg base u (fuword u envp) { st with ne := st.ne + 1 } >>=
        stageArgs base u k 0 (envp + 1) := by
  have ended : (if argp ≠ 0 then fuword u argp else 0) = 0 := by
    rcases none with none | none <;> simp [none]
  rw [stageArgs]
  simp only [ended, true_and, if_pos some]

/-- What has been collected when the loop ends. -/
structure Collected (base : Nat) (st st' : Stage) (bs : List Byte) (na ne : Nat) : Prop where
  staged : Staged base st' bs
  na : st'.na = st.na + na
  ne : st'.ne = st.ne + ne

/-- The loop over the environment, once the arguments are through. -/
theorem stageArgs_env_spec {env : List (List Byte)} (none : argp = 0 ∨ fuword u argp = 0)
    (vec : Vec u 0 top envp env) (some : envp ≠ 0) (fuel : env.length ≤ k)
    (staged : Staged base st bs) (fits : bs.length + (packed env).length < NCARGS) :
    ∃ st', stageArgs base u (k + 1) argp envp st = .ok st' ∧
      Collected base st st' (bs ++ packed env) env.length env.length := by
  induction env generalizing k argp envp bs st with
  | nil =>
    refine ⟨st, ?_, by simpa using staged, rfl, rfl⟩
    rw [stageArgs_env none some, if_pos (fuword_eq vec.1 vec.2)]
  | cons s ss ih =>
    obtain ⟨⟨lt, n, -, hi, found, str⟩, rest⟩ := vec
    rw [length_cons] at fuel
    obtain ⟨k, rfl⟩ := Nat.exists_eq_succ_of_ne_zero (show k ≠ 0 by omega)
    rw [packed_cons, length_append, length_cons] at fits
    have word : fuword u envp = (Ptr.at n).enc := fuword_eq lt found
    have below : n < top := by omega
    have started : Staged base { st with ne := st.ne + 1 } bs := { staged with }
    obtain ⟨st₁, first, staged₁, na₁, ne₁⟩ := stageArg_spec str below started (by omega)
    obtain ⟨st', done, collected⟩ := ih (k := k) (.inl rfl) rest (by omega) (by omega)
      staged₁ (by simp only [length_append, length_singleton]; omega)
    simp only at na₁ ne₁
    refine ⟨st', ?_, by simpa using collected.staged, ?_, ?_⟩
    · rwa [stageArgs_env none some, word, if_neg (enc_at_ne_zero below), first]
    · rw [collected.na, na₁, length_cons]
      omega
    · rw [collected.ne, ne₁, length_cons]
      omega

/-- The vectors a process passes to `exece`. There may be no environment at all. -/
structure Passed (u : User) (argp envp : Nat) (args env : List (List Byte)) : Prop where
  some : argp ≠ 0
  args : Vec u 0 top argp args
  env : (envp = 0 ∧ env = []) ∨ (envp ≠ 0 ∧ Vec u 0 top envp env)

theorem stageArgs_spec {args env : List (List Byte)} (passed : Passed u argp envp args env)
    (fuel : args.length + env.length ≤ k) (staged : Staged base st bs)
    (fits : bs.length + (packed (args ++ env)).length < NCARGS) :
    ∃ st', stageArgs base u (k + 1) argp envp st = .ok st' ∧
      Collected base st st' (bs ++ packed (args ++ env)) (args.length + env.length) env.length := by
  obtain ⟨some, vec, environment⟩ := passed
  induction args generalizing k argp bs st with
  | nil =>
    have none : fuword u argp = 0 := fuword_eq vec.1 vec.2
    simp only [nil_append, length_nil, Nat.zero_add] at *
    rcases environment with ⟨rfl, rfl⟩ | ⟨some', vec'⟩
    · exact ⟨st, by simp [stageArgs, none], by simpa using staged, rfl, rfl⟩
    · exact stageArgs_env_spec (.inr none) vec' some' fuel staged fits
  | cons s ss ih =>
    obtain ⟨⟨lt, n, -, hi, found, str⟩, rest⟩ := vec
    rw [length_cons] at fuel
    obtain ⟨k, rfl⟩ := Nat.exists_eq_succ_of_ne_zero (show k ≠ 0 by omega)
    rw [cons_append, packed_cons, length_append, length_cons] at fits
    have word : fuword u argp = (Ptr.at n).enc := fuword_eq lt found
    have below : n < top := by omega
    obtain ⟨st₁, first, staged₁, na₁, ne₁⟩ := stageArg_spec str below staged (by omega)
    obtain ⟨st', done, collected⟩ := ih (k := k) (by omega) staged₁ (by
      simp only [length_append, length_singleton]
      omega) (by omega) rest
    refine ⟨st', ?_, by simpa using collected.staged, ?_, ?_⟩
    · rwa [stageArgs_arg some (word ▸ enc_at_ne_zero below), word, first]
    · rw [collected.na, na₁, length_cons]
      omega
    · rw [collected.ne, ne₁]

end V7Besm.Exec

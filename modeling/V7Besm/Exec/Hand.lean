import V7Besm.Exec.Stage

/-!
Handing the arguments over.

The block at the base of the new stack is built from two ends: the words of the vector
from its first word on, and the bytes of the strings from the first word behind the
vector on. When the loops are through, the new program finds the vectors of the old one,
and `r15` is behind the block.
-/

namespace V7Besm.Exec

open Words Function List
open Map (PGSZ)

/-- The base of the stack. -/
abbrev stk : Nat := USTKPAGE * PGSZ

variable {base S lim : Nat} {swap : Swap} {i₀ : Image} {b : Back} {V : List Word}
  {T rest : List Byte} {c : Byte} {v : Word}

/-- Where the block goes: the strings from the word `S` on, the end at `lim`, all of it in
the stack. -/
structure Room (S lim : Nat) (i₀ : Image) : Prop where
  strings : stk < S
  behind : S < lim
  mapped : lim ≤ stk + i₀.ssize
  reach : lim ≤ 2 ^ 15

/-- The vector has the words `V` so far, and the strings the bytes `T`. -/
structure Built (base S lim : Nat) (i₀ : Image) (b : Back) (V : List Word) (T : List Byte) :
    Prop where
  words : At b.image.mem stk V
  bytes : At (byteAt b.image.mem) (6 * S) T
  up : b.up = .at (6 * S + T.length)
  nc : b.nc = T.length
  cursor : Cursor base b.nc b.bp b.cp
  sizes : b.image = { i₀ with mem := b.image.mem }
  frame : ∀ a, ¬ (stk ≤ a ∧ a < lim) → b.image.mem a = i₀.mem a

variable {a : Nat} {m : Nat → Word}

theorem Room.mapped_of (room : Room S lim i₀) (ge : stk ≤ a)
    (lt : a < lim) : a % 2 ^ 15 = a ∧ Image.Mapped { i₀ with mem := m } a :=
  ⟨Nat.mod_eq_of_lt (Nat.lt_of_lt_of_le lt room.reach),
    .inr ⟨ge, Nat.lt_of_lt_of_le lt room.mapped⟩⟩

theorem Room.suword (room : Room S lim i₀) (ge : stk ≤ a)
    (lt : a < lim) : Exec.suword { i₀ with mem := m } a v = { i₀ with mem := update m a v } := by
  obtain ⟨low, mapped⟩ := room.mapped_of (m := m) ge lt
  simp only [Exec.suword, low, if_pos mapped]

variable {n : Nat}

theorem Room.subyte (room : Room S lim i₀) (ge : stk ≤ n / 6)
    (lt : n / 6 < lim) : Exec.subyte { i₀ with mem := m } (.at n) c =
      { i₀ with mem := pokeAt m n c } := by
  obtain ⟨low, mapped⟩ := room.mapped_of (m := m) ge lt
  simp only [Exec.subyte, Ptr.at, low, if_pos mapped]
  rfl

theorem Built.word (room : Room S lim i₀) (built : Built base S lim i₀ b V T)
    (before : stk + V.length < S) (ap : Nat) :
    Built base S lim i₀ { b with image := suword b.image (stk + V.length) v, ap := ap }
      (V ++ [v]) T := by
  have stored := room.suword (m := b.image.mem) (v := v) (Nat.le_add_right stk V.length)
    (Nat.lt_trans before room.behind)
  rw [← built.sizes] at stored
  refine ⟨?_, ?_, built.up, built.nc, built.cursor, ?_, fun a out => ?_⟩
  · simp only [stored]
    refine at_append.mpr ⟨built.words.congr fun i lt => ?_, at_cons.mpr ⟨by simp, at_nil⟩⟩
    rw [update_of_ne (by omega)]
  · simp only [stored]
    refine built.bytes.congr fun i lt => byteAt_update_of_ne ?_
    simp only [NBPW]
    omega
  · simp only [stored]
  · simp only [stored]
    rw [update_of_ne, built.frame a out]
    have := room.behind
    omega

theorem Built.byte (room : Room S lim i₀) (built : Built base S lim i₀ b V T)
    (vector : stk + V.length ≤ S) (inside : (6 * S + T.length) / 6 < lim)
    (bp : Option Nat) (cp : Nat) (cursor : Cursor base (b.nc + 1) bp cp) :
    Built base S lim i₀
      { b with image := subyte b.image b.up c, up := b.up.inc, nc := b.nc + 1, bp := bp, cp := cp }
      V (T ++ [c]) := by
  have stored := room.subyte (m := b.image.mem) (c := c)
    (by have := room.strings; omega) inside
  rw [← built.sizes, ← built.up] at stored
  have within : stk ≤ (6 * S + T.length) / 6 := by
    omega
  refine ⟨?_, ?_, ?_, by simp [built.nc], cursor, ?_, fun a out => ?_⟩
  · simp only [stored, pokeAt]
    refine built.words.congr fun i lt => update_of_ne ?_ ..
    simp only [NBPW]
    omega
  · simp only [stored]
    refine at_append.mpr ⟨built.bytes.congr fun i lt => ?_, at_cons.mpr ⟨?_, at_nil⟩⟩
    · exact byteAt_pokeAt_of_ne (by decide) (by omega)
    · exact byteAt_pokeAt_self (by decide)
  · simp only [built.up, Ptr.inc_at, length_append, length_singleton]
    rfl
  · simp only [stored]
  · simp only [stored, pokeAt]
    rw [update_of_ne (by simp only [NBPW]; omega), built.frame a out]

/-! ### The loops -/

theorem Holds.get (holds : Holds base swap (T ++ c :: rest)) :
    swap (base + T.length / BSIZE) (T.length % BSIZE) = c := by
  rw [holds T.length (by simp)]
  simp

/-- One turn of the loop over a string: the next byte is copied. -/
theorem copyString_succ (built : Built base S lim i₀ b V T)
    (holds : Holds base swap (T ++ c :: rest)) (k : Nat) :
    copyString base swap (k + 1) b =
      let b' := { b with image := subyte b.image b.up c, up := b.up.inc, nc := b.nc + 1,
                         bp := some (base + b.nc / BSIZE), cp := b.nc % BSIZE + 1 }
      if c = 0 then b' else copyString base swap k b' := by
  have buffer : (if b.nc % BSIZE = 0 then { b with bp := some (base + b.nc / BSIZE), cp := 0 }
      else b) = { b with bp := some (base + b.nc / BSIZE), cp := b.nc % BSIZE } := by
    split
    · rename_i full
      rw [full]
    · rename_i more
      rw [← (built.cursor more).1, ← (built.cursor more).2]
  have get : swap (base + b.nc / BSIZE) (b.nc % BSIZE) = c := built.nc ▸ holds.get
  rw [copyString]
  simp only [buffer, get]

variable {s : List Byte}

theorem copyString_spec {k : Nat} (room : Room S lim i₀) (built : Built base S lim i₀ b V T)
    (vector : stk + V.length ≤ S) (holds : Holds base swap (T ++ (s ++ 0 :: rest)))
    (nonzero : ∀ c ∈ s, c ≠ 0) (fuel : s.length ≤ k)
    (inside : (6 * S + T.length + s.length) / 6 < lim) :
    Built base S lim i₀ (copyString base swap (k + 1) b) V (T ++ (s ++ [0])) ∧
      (copyString base swap (k + 1) b).ap = b.ap := by
  induction s generalizing b T k with
  | nil =>
    rw [copyString_succ built holds, if_pos rfl]
    exact ⟨built.byte room vector inside _ _ cursor_succ, rfl⟩
  | cons c s ih =>
    rw [length_cons] at fuel inside
    obtain ⟨k, rfl⟩ := Nat.exists_eq_succ_of_ne_zero (show k ≠ 0 by omega)
    have first := built.byte (c := c) room vector (by omega) _ _ cursor_succ
    have holds' : Holds base swap (T ++ [c] ++ (s ++ 0 :: rest)) := by simpa using holds
    rw [copyString_succ built holds, if_neg (nonzero c mem_cons_self)]
    have rest := ih first holds' (fun x mem => nonzero x (mem_cons_of_mem _ mem))
      (Nat.le_of_succ_le_succ fuel) (by
        rw [length_append, length_singleton]
        omega)
    exact ⟨by simpa using rest.1, rest.2⟩

/-- The head of the loop puts a `NULL` into the vector, or nothing. -/
theorem nextSlot_spec (ne na : Nat) (room : Room S lim i₀) (built : Built base S lim i₀ b V T)
    (before : stk + V.length < S) (ap : b.ap + 1 = stk + V.length) :
    Built base S lim i₀ (nextSlot ne na b) (V ++ if na = ne then [0] else []) T ∧
      (nextSlot ne na b).ap = stk + (V ++ if na = ne then [0] else []).length := by
  by_cases boundary : na = ne
  · have stored := built.word (v := 0) room before (stk + V.length + 1)
    simpa [nextSlot, boundary, ap, Nat.add_assoc] using stored
  · have same : Built base S lim i₀ { b with ap := b.ap + 1 } V T := { built with }
    simpa [nextSlot, boundary, ap] using same

/-- The words the loop puts into the vector, for strings from the byte address `n` on. -/
def slots (ne : Nat) : Nat → List (List Byte) → List Word
  | _, [] => if 0 = ne then [0] else []
  | n, s :: ss =>
    (if ss.length + 1 = ne then [0] else []) ++ (Ptr.at n).enc :: slots ne (n + s.length + 1) ss

theorem copyArgs_spec (ne : Nat) (ss : List (List Byte)) (room : Room S lim i₀)
    (built : Built base S lim i₀ b V T) (ap : b.ap + 1 = stk + V.length)
    (vector : stk + (V ++ slots ne (6 * S + T.length) ss).length < S)
    (holds : Holds base swap (T ++ packed ss)) (nonzero : ∀ s ∈ ss, ∀ c ∈ s, c ≠ 0)
    (short : ∀ s ∈ ss, s.length < NCARGS)
    (inside : (6 * S + T.length + (packed ss).length + 5) / 6 < lim) :
    Built base S lim i₀ (copyArgs base swap ne ss.length b)
        (V ++ slots ne (6 * S + T.length) ss) (T ++ packed ss) ∧
      (copyArgs base swap ne ss.length b).ap =
        stk + (V ++ slots ne (6 * S + T.length) ss).length := by
  induction ss generalizing b V T with
  | nil =>
    rw [length_append] at vector
    have head := nextSlot_spec ne 0 room built (by omega) ap
    simpa [copyArgs, slots] using head
  | cons s ss ih =>
    simp only [slots, length_append, length_cons] at vector
    obtain ⟨head, ap'⟩ := nextSlot_spec ne (ss.length + 1) room built (by omega) ap
    have next : 6 * S + (T ++ (s ++ [0])).length = 6 * S + T.length + s.length + 1 := by
      simp only [length_append, length_singleton]
      omega
    -- the pointer, then the string it points at
    have pointer := head.word (v := (nextSlot ne (ss.length + 1) b).up.enc) room
      (by rw [length_append]; omega) (nextSlot ne (ss.length + 1) b).ap
    rw [← ap'] at pointer
    rw [length_append] at ap'
    rw [packed_cons] at holds inside
    rw [length_append, length_cons] at inside
    obtain ⟨string, ap''⟩ := copyString_spec room pointer
      (by simp only [length_append, length_singleton]; omega)
      holds (nonzero s mem_cons_self)
      (Nat.le_sub_one_of_lt (short s mem_cons_self)) (by omega)
    have more := ih string
      (by rw [ap'']; simp only [length_append, length_singleton]; omega)
      (by rw [next]; simp only [length_append, length_singleton]; omega)
      (by simpa using holds)
      (fun x mem => nonzero x (mem_cons_of_mem _ mem))
      (fun x mem => short x (mem_cons_of_mem _ mem))
      (by rw [next]; omega)
    rw [next] at more
    have words : V ++ slots ne (6 * S + T.length) (s :: ss) =
        V ++ (if ss.length + 1 = ne then [0] else []) ++
          [(nextSlot ne (ss.length + 1) b).up.enc] ++
          slots ne (6 * S + T.length + s.length + 1) ss := by
      simp [slots, head.up]
    have bytes : T ++ packed (s :: ss) = T ++ (s ++ [0]) ++ packed ss := by simp
    rwa [words, bytes]

/-! ### The block -/

/-- The pointers to strings one behind the other from the byte address `n` on. -/
def pointers : Nat → List (List Byte) → List Word
  | _, [] => []
  | n, s :: ss => (Ptr.at n).enc :: pointers (n + s.length + 1) ss

variable {ss : List (List Byte)}

theorem length_pointers : (pointers n ss).length = ss.length := by
  induction ss generalizing n with
  | nil => rfl
  | cons s ss ih => simp [pointers, ih]

/-- Behind the `NULL` no other one comes. -/
theorem slots_of_lt {ne : Nat} (lt : ss.length < ne) : slots ne n ss = pointers n ss := by
  induction ss generalizing n with
  | nil =>
    rw [slots, if_neg (show ¬ 0 = ne from Nat.ne_of_lt lt), pointers]
  | cons s ss ih =>
    rw [length_cons] at lt
    simp [slots, pointers, Nat.ne_of_lt lt, ih (Nat.lt_of_succ_lt lt)]

variable {args env : List (List Byte)}

/-- The `NULL` comes between the arguments and the environment. -/
theorem slots_append :
    slots env.length n (args ++ env) =
      pointers n args ++ 0 :: pointers (n + (packed args).length) env := by
  induction args generalizing n with
  | nil =>
    cases env with
    | nil => simp [slots, pointers]
    | cons s ss => simp [slots, pointers, slots_of_lt]
  | cons s ss ih =>
    have inside : ¬ (ss ++ env).length + 1 = env.length := by
      rw [length_append]
      omega
    have next : n + s.length + 1 + (packed ss).length = n + (packed (s :: ss)).length := by
      simp only [packed_cons, length_append, length_cons]
      omega
    rw [cons_append, slots, if_neg inside, ih, next, pointers, nil_append, cons_append]

variable {i : Image}

/-- What an image's program finds at a byte address in the block. -/
theorem ubyte_user (room : Room S lim i) (ge : 6 * stk ≤ n)
    (lt : n < 6 * lim) : ubyte i.user n = some (byteAt i.mem n) := by
  obtain ⟨low, mapped⟩ := room.mapped_of (m := i.mem) (a := n / 6) (by omega) (by omega)
  rw [ubyte, fubyte, Ptr.at]
  simp only [low, Image.user, if_pos (show i.Mapped (n / 6) from mapped), Option.map_some]
  rfl

theorem str_user (room : Room S lim i) (ge : 6 * stk ≤ n) (le : n + s.length < 6 * lim)
    (nonzero : ∀ c ∈ s, c ≠ 0) (bytes : At (byteAt i.mem) n (s ++ [0])) : Str i.user n s := by
  induction s generalizing n with
  | nil =>
    rw [Str, ubyte_user room ge le]
    exact congrArg some (at_cons.mp bytes).1
  | cons c s ih =>
    rw [length_cons] at le
    rw [cons_append, at_cons] at bytes
    refine ⟨?_, nonzero c mem_cons_self, ih (by omega) (by omega)
      (fun x mem => nonzero x (mem_cons_of_mem _ mem)) bytes.2⟩
    rw [ubyte_user room ge (by omega)]
    exact congrArg some bytes.1

/-- Pointers and strings in the block are a vector of its program. -/
theorem vec_user {lo hi : Nat} (room : Room S lim i) (ge : stk ≤ a) (le : a + ss.length < lim)
    (first : 6 * stk ≤ n) (low : lo ≤ n) (last : n + (packed ss).length ≤ hi)
    (inside : hi ≤ 6 * lim) (nonzero : ∀ s ∈ ss, ∀ c ∈ s, c ≠ 0)
    (words : At i.mem a (pointers n ss ++ [0]))
    (bytes : At (byteAt i.mem) n (packed ss)) : Vec i.user lo hi a ss := by
  induction ss generalizing a n with
  | nil =>
    have word := room.mapped_of (m := i.mem) ge (by omega)
    refine ⟨Nat.lt_of_lt_of_le le room.reach, (if_pos word.2).trans ?_⟩
    exact congrArg some (at_cons.mp words).1
  | cons s ss ih =>
    rw [length_cons] at le
    rw [packed_cons, length_append, length_cons] at last
    rw [packed_cons, append_cons, at_append] at bytes
    rw [pointers, cons_append, at_cons] at words
    have word := room.mapped_of (m := i.mem) ge (by omega)
    refine ⟨⟨by omega, n, low, by omega, (if_pos word.2).trans (congrArg some words.1), ?_⟩, ?_⟩
    · exact str_user room first (by omega) (nonzero s mem_cons_self) bytes.1
    · rw [length_append, length_singleton, ← Nat.add_assoc] at bytes
      exact ih (by omega) (by omega) (by omega) (by omega) (by omega)
        (fun x mem => nonzero x (mem_cons_of_mem _ mem)) words.2 bytes.2

variable {u : User}

theorem Str.nonzero (str : Str u n s) : ∀ c ∈ s, c ≠ 0 := by
  induction s generalizing n with
  | nil => simp
  | cons c s ih =>
    intro x mem
    rcases mem_cons.mp mem with rfl | mem
    · exact str.2.1
    · exact ih str.2.2 x mem

theorem Vec.nonzero {lo hi : Nat} (vec : Vec u lo hi a ss) : ∀ s ∈ ss, ∀ c ∈ s, c ≠ 0 := by
  induction ss generalizing a with
  | nil => simp
  | cons s ss ih =>
    obtain ⟨⟨-, n, -, -, -, str⟩, rest⟩ := vec
    intro x mem
    rcases mem_cons.mp mem with rfl | mem
    · exact str.nonzero
    · exact ih rest x mem

theorem Passed.nonzero {argp envp : Nat}
    (passed : Passed u argp envp args env) : ∀ s ∈ args ++ env, ∀ c ∈ s, c ≠ 0 := by
  intro s mem
  rcases mem_append.mp mem with mem | mem
  · exact passed.args.nonzero s mem
  · rcases passed.env with ⟨-, rfl⟩ | ⟨-, vec⟩
    · simp at mem
    · exact vec.nonzero s mem

/-- Every string takes at least the byte that ends it. -/
theorem length_le_packed : ss.length ≤ (packed ss).length := by
  induction ss with
  | nil => simp
  | cons s ss ih =>
    simp only [packed_cons, length_append, length_cons]
    omega

theorem length_lt_packed (mem : s ∈ ss) : s.length < (packed ss).length := by
  induction ss with
  | nil => simp at mem
  | cons t ss ih =>
    simp only [packed_cons, length_append, length_cons]
    rcases mem_cons.mp mem with rfl | mem
    · omega
    · have := ih mem
      omega

/-- The bytes that `na` strings of `nc` bytes need are whole words. -/
theorem nargc_eq (na nc : Nat) : nargc na nc = NBPW * (na + 4 + btow nc) := by
  simp only [nargc, wtob, NBPW]
  omega

variable {image : Image}

/-- The block fits the stack that `getxfile` makes. -/
theorem room_of_getxfile {maxmem na nc : Nat} {f : File}
    (loaded : getxfile maxmem f (nargc na nc) = .ok image) :
    Room (stk + 1 + na + 2) (stk + (na + 4 + btow nc)) image := by
  have size : btow (nargc na nc) = na + 4 + btow nc := by
    rw [nargc_eq, btow]
    simp only [NBPW]
    omega
  have rounded : na + 4 + btow nc ≤ pground (na + 4 + btow nc) := by
    simp only [pground, PGSZ]
    omega
  rw [getxfile, size] at loaded
  split at loaded
  · rename_i fits
    simp only [Except.ok.injEq] at loaded
    simp only [estabur, Bool.and_eq_true, decide_eq_true_eq] at fits
    obtain ⟨⟨-, stack⟩, -⟩ := fits
    rw [← loaded]
    simp only [PGSZ, SSIZE, Map.NPAGE, USTKPAGE] at stack
    refine ⟨by omega, by omega, by simp only; omega, by simp only [stk, USTKPAGE, PGSZ]; omega⟩
  · cases loaded

/-- What a program finds when it starts: argc, the vectors of the caller, and `r15` behind
the block, which is as large as the stack was asked to be. -/
structure Handed (image : Image) (r : Started) (args env : List (List Byte)) (size : Nat) :
    Prop where
  argc : r.image.user stk = some (BitVec.ofNat _ args.length)
  argv : Vec r.image.user (6 * stk) (6 * r.r15) (stk + 1) args
  envp : Vec r.image.user (6 * stk) (6 * r.r15) (stk + 1 + args.length + 1) env
  r15 : NBPW * r.r15 = NBPW * stk + size
  inside : ∀ a, r.image.mem a ≠ image.mem a → stk ≤ a ∧ a < r.r15

/-- The end of the strings, rounded up to a word. -/
theorem end_at (n : Nat) : (if (Ptr.at n).off ≠ 5 then (Ptr.at n).word + 1 else (Ptr.at n).word) =
    (n + 5) / 6 := by
  by_cases whole : n % 6 = 0
  · rw [if_neg (by simp [Ptr.at, whole]), Ptr.at]
    simp only
    omega
  · rw [if_pos (by simp only [Ptr.at]; omega), Ptr.at]
    simp only
    omega

/-- The vector and the strings when the loops are through, before the closing words. -/
theorem built_copyArgs {ne : Nat} (room : Room (stk + 1 + ss.length + 2) lim image)
    (count : (slots ne (6 * (stk + 1 + ss.length + 2)) ss).length = ss.length + 1)
    (holds : Holds base swap (packed ss)) (nonzero : ∀ s ∈ ss, ∀ c ∈ s, c ≠ 0)
    (short : (packed ss).length < NCARGS)
    (inside : (6 * (stk + 1 + ss.length + 2) + (packed ss).length + 5) / 6 < lim) (v : Word) :
    let b := copyArgs base swap ne ss.length
      { image := suword image stk v, ap := stk, up := ⟨stk + 1 + ss.length + 2, 5⟩ }
    Built base (stk + 1 + ss.length + 2) lim image b
        (v :: slots ne (6 * (stk + 1 + ss.length + 2)) ss) (packed ss) ∧
      b.ap = stk + ss.length + 2 := by
  have start : Built base (stk + 1 + ss.length + 2) lim image
      { image := image, ap := stk, up := ⟨stk + 1 + ss.length + 2, 5⟩ } [] [] :=
    ⟨at_nil, at_nil, (Ptr.at_word _).symm, rfl, fun more => absurd rfl more, rfl, fun _ _ => rfl⟩
  have first := start.word (v := v) room (by simp only [length_nil]; omega) stk
  have done := copyArgs_spec ne ss room first rfl
    (by simp only [length_append, length_cons, length_nil, Nat.add_zero, count]; omega)
    (by simpa using holds) nonzero
    (fun s mem => Nat.lt_trans (length_lt_packed mem) short)
    (by simpa using inside)
  refine ⟨by simpa using done.1, done.2.trans ?_⟩
  simp only [length_append, length_cons, length_nil, Nat.add_zero, count]
  omega

/-- The program finds in the words and bytes of the block what was handed over. -/
theorem handed_of_block (room : Room (stk + 1 + (args ++ env).length + 2) lim image)
    (size : lim = stk + ((args ++ env).length + 4 + btow (packed (args ++ env)).length))
    (nonzero : ∀ s ∈ args ++ env, ∀ c ∈ s, c ≠ 0) (words : At m stk (BitVec.ofNat _ args.length ::
      slots env.length (6 * (stk + 1 + (args ++ env).length + 2)) (args ++ env) ++ [0]))
    (bytes : At (byteAt m) (6 * (stk + 1 + (args ++ env).length + 2)) (packed (args ++ env)))
    (frame : ∀ a, ¬ (stk ≤ a ∧ a < lim) → m a = image.mem a) :
    Handed image ⟨{ image with mem := m }, lim⟩ args env
      (nargc (args ++ env).length (packed (args ++ env)).length) := by
  have room' : Room (stk + 1 + (args ++ env).length + 2) lim { image with mem := m } :=
    { room with }
  rw [cons_append, at_cons, slots_append, append_assoc, cons_append,
    append_cons, at_append] at words
  obtain ⟨argc, argv, envp⟩ := words
  rw [packed_append, at_append] at bytes
  simp only [length_append, length_singleton, length_pointers] at envp
  have lengths : (packed (args ++ env)).length = (packed args).length + (packed env).length := by
    rw [packed_append, length_append]
  have counts : (args ++ env).length = args.length + env.length := length_append
  have top : 6 * (stk + 1 + (args ++ env).length + 2) + (packed args).length +
      (packed env).length ≤ 6 * lim := by
    rw [size, lengths, btow]
    omega
  refine ⟨?_, ?_, ?_, ?_, fun a ne => ?_⟩
  · exact (if_pos (room'.mapped_of (Nat.le_refl _) (by omega)).2).trans
      (congrArg some argc)
  · exact vec_user room' (by omega) (by omega) (by omega) (by omega) (by simp only; omega)
      (Nat.le_refl _) (fun s mem => nonzero s (mem_append_left _ mem)) argv bytes.1
  · refine vec_user room' (by omega) (by omega) (by omega) (by omega) (by simp only; omega)
      (Nat.le_refl _) (fun s mem => nonzero s (mem_append_right _ mem)) ?_ bytes.2
    simpa only [Nat.add_assoc, counts] using envp
  · simp only [size, nargc_eq, NBPW]
    omega
  · by_contra out
    exact ne (frame a out)

theorem handOver_spec (room : Room (stk + 1 + (args ++ env).length + 2)
      (stk + ((args ++ env).length + 4 + btow (packed (args ++ env)).length)) image)
    (holds : Holds base swap (packed (args ++ env))) (nonzero : ∀ s ∈ args ++ env, ∀ c ∈ s, c ≠ 0)
    (short : (packed (args ++ env)).length < NCARGS) :
    Handed image (handOver base swap (args ++ env).length env.length image) args env
      (nargc (args ++ env).length (packed (args ++ env)).length) := by
  have count : (slots env.length (6 * (stk + 1 + (args ++ env).length + 2)) (args ++ env)).length =
      (args ++ env).length + 1 := by
    rw [slots_append]
    simp only [length_append, length_cons, length_pointers]
    omega
  have inside : (6 * (stk + 1 + (args ++ env).length + 2) + (packed (args ++ env)).length + 5) / 6 <
      stk + ((args ++ env).length + 4 + btow (packed (args ++ env)).length) := by
    simp only [btow]
    omega
  have argc : (args ++ env).length - env.length = args.length := by
    rw [length_append]
    omega
  generalize lim_eq : stk + ((args ++ env).length + 4 + btow (packed (args ++ env)).length) = lim
    at room inside
  obtain ⟨built, ap⟩ := built_copyArgs room count holds nonzero short inside
    (BitVec.ofNat _ ((args ++ env).length - env.length))
  rw [handOver]
  generalize copyArgs base swap env.length (args ++ env).length _ = b at built ap
  -- the second `NULL`, and the word behind the strings
  have closed := built.word (v := 0) room (by rw [length_cons, count]; omega) b.ap
  have last : (if b.up.off ≠ 5 then b.up.word + 1 else b.up.word) = lim - 1 := by
    rw [built.up, end_at, ← lim_eq, btow]
    omega
  have slot : stk + (BitVec.ofNat (8 * NBPW) ((args ++ env).length - env.length) ::
      slots env.length (6 * (stk + 1 + (args ++ env).length + 2)) (args ++ env)).length = b.ap := by
    rw [ap, length_cons, count]
    omega
  rw [slot] at closed
  have final := room.suword (m := (suword b.image b.ap 0).mem) (v := 0) (a := lim - 1) (by omega)
    (by omega)
  rw [← closed.sizes] at final
  simp only [last, final, Nat.sub_add_cancel (show 1 ≤ lim by omega)]
  refine handed_of_block room lim_eq.symm nonzero ?_ ?_ fun a out => ?_
  · rw [← argc]
    refine closed.words.congr fun i lt => update_of_ne ?_ ..
    rw [length_append, length_cons, count, length_singleton] at lt
    omega
  · refine closed.bytes.congr fun i lt => byteAt_update_of_ne ?_
    simp only [NBPW]
    omega
  · rw [update_of_ne (by omega)]
    exact closed.frame a out

/-- For every list of arguments and environment whose bytes stay within the limit, if the
new image can be made, `exece` starts it with what it was passed. -/
theorem exece_hands_over (base maxmem : Nat) (swap : Swap) (u : User) (argp envp : Nat) (f : File)
    (args env : List (List Byte)) (image : Image) (passed : Passed u argp envp args env)
    (short : (packed (args ++ env)).length ≤ NCARGS - 1)
    (loaded : getxfile maxmem f (nargc (args ++ env).length (packed (args ++ env)).length) =
      .ok image) :
    ∃ r, exece base maxmem swap u argp envp f = .ok r ∧
      Handed image r args env (nargc (args ++ env).length (packed (args ++ env)).length) := by
  have lt : (packed (args ++ env)).length < NCARGS := Nat.lt_of_le_of_lt short (by decide)
  have fresh : Staged base { swap := swap } [] :=
    ⟨rfl, fun more => absurd rfl more, fun i lt => absurd lt (Nat.not_lt_zero _)⟩
  have few : args.length + env.length ≤ NCARGS - 1 := by
    rw [← length_append]
    exact Nat.le_trans length_le_packed short
  obtain ⟨st, staged, collected⟩ := stageArgs_spec passed few fresh (by simpa using lt)
  have na : st.na = (args ++ env).length := by
    rw [collected.na, length_append]
    exact Nat.zero_add _
  have ne : st.ne = env.length := collected.ne.trans (Nat.zero_add _)
  have nc : st.nc = (packed (args ++ env)).length := collected.staged.nc
  refine ⟨handOver base st.swap st.na st.ne image, ?_, ?_⟩
  · rw [← na, ← nc] at loaded
    have staged : stageArgs base u NCARGS argp envp { swap := swap } = .ok st := staged
    rw [exece, if_pos passed.some, staged]
    change (getxfile maxmem f (nargc st.na st.nc) >>= fun image =>
      pure (handOver base st.swap st.na st.ne image)) = _
    rw [loaded]
    rfl
  · rw [na, ne]
    exact handOver_spec (room_of_getxfile loaded) collected.staged.holds passed.nonzero lt

/-- A process with the arguments "a" and "", and the environment "b". The strings are at the
fourth and sixth byte of one word and at the first of the next. -/
def caller : User
  | 100 => some (Ptr.at 1203).enc
  | 101 => some (Ptr.at 1205).enc
  | 102 => some 0
  | 110 => some (Ptr.at 1206).enc
  | 111 => some 0
  | 200 => some (BitVec.ofNat _ (97 * 256 ^ 2))
  | 201 => some (BitVec.ofNat _ (98 * 256 ^ 5))
  | _ => none

theorem exece_hands_over_caller :
    Passed caller 100 110 [[97], []] [[98]] ∧
      ∃ r, exece 1 (480 * PGSZ) (fun _ _ => 0) caller 100 110 ⟨PGSZ, PGSZ, fun _ => 0⟩ = .ok r ∧
        Handed ⟨fun _ => 0, PGSZ, PGSZ, 2 * PGSZ⟩ r [[97], []] [[98]] 48 := by
  have passed : Passed caller 100 110 [[97], []] [[98]] :=
    ⟨by decide,
      ⟨⟨by decide, 1203, by decide, by decide, rfl, by decide +kernel⟩,
        ⟨by decide, 1205, by decide, by decide, rfl, by decide +kernel⟩, by decide, rfl⟩,
      .inr ⟨by decide, ⟨by decide, 1206, by decide, by decide, rfl, by decide +kernel⟩,
        by decide, rfl⟩⟩
  have loaded : getxfile (480 * PGSZ) ⟨PGSZ, PGSZ, fun _ => 0⟩ 48 =
      .ok ⟨fun _ => 0, PGSZ, PGSZ, 2 * PGSZ⟩ := by
    rw [getxfile]
    simp only [ite_self]
    exact if_pos (by decide)
  exact ⟨passed, exece_hands_over 1 (480 * PGSZ) (fun _ _ => 0) caller 100 110 _ _ _ _ passed
    (by decide) loaded⟩

end V7Besm.Exec

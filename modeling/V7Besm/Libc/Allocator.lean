import V7Besm.Libc.Keep

/-!
Runs of a program that uses the allocator.

A search that fails may leave the search pointer inside an idle block. All is well as long as no
later search takes the rest of that block for a block of its own; if one does, the block it
hands out is not on the ring, and the idle block around it can be handed out as well.
-/

namespace V7Besm.Libc

open Tiles Words Links

variable {env : Env} {s s' : Heap} {cells pre post : List (Cell Nat)} {st : State}
  {nw n x y nbytes : Nat}

/-! ### A block inside another one -/

/-- What is written inside an idle block is of no account. -/
theorem Arena.inside (arena : Arena env s cells) (here : BlockAt env.alloca cells y (.idle n))
    (same : ∀ x, x ≤ y ∨ y + (n + 1) ≤ x → s'.mem x = s.mem x) (base : s'.allocb = s.allocb)
    (brk : s'.curbrk = s.curbrk) : Arena env s' cells := by
  obtain ⟨pre, post, rfl, rfl⟩ := here.split
  have ends := BlockAt.le_top here
  constructor
  case base => rw [base, arena.base]
  case laid =>
    obtain ⟨before, header, -, behind⟩ := laid_append.mp arena.laid
    rw [laid_append]
    refine ⟨before.congr fun x _ high => same x (.inl (Nat.le_of_lt high)), ?_, at_nil, ?_⟩
    · exact (same _ (.inl (Nat.le_refl _))).trans header
    · refine behind.congr fun x low _ => same x (.inr ?_)
      simpa only [Cell.size] using low
  case last =>
    rw [same _ (.inr ends)]
    exact arena.last
  case below =>
    rw [brk]
    exact arena.below
  case limit =>
    rw [brk]
    exact arena.limit

/-- The search ends where it begins, inside an idle block. -/
theorem malloc_stale {e : Nat} (arena : Arena env s cells)
    (room : s.allocp + blockWords nbytes ≤ e) (word : s.mem s.allocp = link e false)
    (fixed : Fixed env cells e) (small : nbytes < NWORDS * WORD) :
    malloc env nbytes s = some (s.allocp + 1, take (blockWords nbytes) s.allocp e s) := by
  have found : search (blockWords nbytes) limit 0 s.allocp s = some (.found s.allocp e, s) := by
    change search _ (limit - 1 + 1) 0 s.allocp s = _
    rw [search, tryBlock_stale _ arena (by omega) word fixed, if_pos room]
  have first : s.load env.alloca ≠ 0 := by
    rw [load_eq (arena.lt (Nat.le_add_right _ _))]
    exact arena.alloca_ne
  rw [malloc, if_neg (by omega)]
  change attempt env _ (limit - 1 + 1) s = _
  rw [attempt, searchArena, if_pos first, found]

theorem not_atHeader_inside (here : BlockAt env.alloca cells y (.idle n)) (low : y < x)
    (high : x < y + (n + 1)) : ¬ AtHeader env cells x := by
  rintro ⟨pre, post, rfl, rfl⟩
  cases post with
  | nil =>
    have ends := BlockAt.le_top here
    rw [List.append_nil] at ends
    exact absurd (Nat.lt_of_lt_of_le high ends) (Nat.lt_irrefl _)
  | cons c post => exact not_header_inside here low high ⟨c, blockAt_middle⟩

/-- A block handed out inside an idle block is not on the ring. -/
theorem not_safe_inside (arena : Arena env s cells) (here : BlockAt env.alloca cells y (.idle n))
    (low : y < x) (high : x < y + (n + 1)) : ¬ Safe env (st.get (x + 1) nbytes [] s) := by
  intro safe
  obtain ⟨ws, live⟩ : ∃ ws, (st.get (x + 1) nbytes [] s).live (x + 1) = some ws :=
    ⟨_, Function.update_self ..⟩
  rcases safe.ring with ⟨-, none⟩ | ⟨l, ring, -, headers⟩
  · rw [none] at live
    cases live
  · obtain ⟨-, mem⟩ := headers _ ws live
    exact not_atHeader_inside here low high ((arena.mem_ring ring).mp mem)

/-- The block that `malloc` takes inside an idle block, whatever is then written to its words. -/
theorem Good.not_safe (good : Good env st cells) (small : nbytes < NWORDS * WORD)
    (not_serves : ¬ Serves env st.heap nbytes) :
    ∃ x s', Libc.malloc env nbytes st.heap = some (x + 1, s') ∧ x + blockWords nbytes ≤ NWORDS ∧
      ∀ s'' : Heap, s'' = { s' with mem := s''.mem } →
        (∀ a, a < x + 1 ∨ x + blockWords nbytes ≤ a → s''.mem a = s'.mem a) →
        ¬ Safe env (st.get (x + 1) nbytes [] s'') := by
  obtain ⟨arena, y, n, here, low, room, word, fixed⟩ := stale_of_not_serves good not_serves
  have ends : y + (n + 1) < NWORDS := arena.lt fixed.le_top
  have pos : 0 < blockWords nbytes := by
    simp only [blockWords, WORD]
    omega
  refine ⟨_, _, malloc_stale arena room word fixed small, by omega, ?_⟩
  intro s'' rest same
  have taken := rest_take (blockWords nbytes) st.heap.allocp (y + (n + 1)) st.heap
  have memory : ∀ a, a ≤ y ∨ y + (n + 1) ≤ a →
      (take (blockWords nbytes) st.heap.allocp (y + (n + 1)) st.heap).mem a = st.heap.mem a := by
    intro a out
    rw [mem_take st.heap ends room, Function.update_of_ne (by omega)]
    split
    next => rfl
    next cut => exact Function.update_of_ne (by omega) _ _
  refine not_safe_inside (arena.inside here (fun a out => ?_) ?_ ?_) here low (by omega)
  · rw [same a (by omega), memory a out]
  · rw [rest, taken]
  · rw [rest, taken]

theorem not_safe_step (good : Good env st cells) {call : Call} (unsound : ¬ Sound env st call) :
    ∃ st', step env st call = some st' ∧ ¬ Safe env st' := by
  cases call with
  | malloc nbytes =>
    obtain ⟨small, not_serves⟩ := Classical.not_imp.mp unsound
    obtain ⟨x, s', run, -, not_safe⟩ := good.not_safe small not_serves
    exact ⟨_, by rw [step, run]; rfl, not_safe s' rfl fun _ _ => rfl⟩
  | calloc num size =>
    obtain ⟨some_, large⟩ := Classical.not_imp.mp unsound
    obtain ⟨small, not_serves⟩ := Classical.not_imp.mp large
    obtain ⟨x, s', run, fits, not_safe⟩ := good.not_safe small not_serves
    obtain ⟨words, whole⟩ := payload_eq (num * size)
    have count : (num * size + 5) / WORD = payload (num * size) := words.symm
    obtain ⟨rest, same⟩ := clear_spec (p := x + 1) (n := num * size) (by omega)
    refine ⟨_, ?_, not_safe (clear (x + 1) (num * size) s') rest fun a out => same a (by omega)⟩
    rw [step, calloc, if_neg (by omega), run, Option.map_some, if_neg (Nat.succ_ne_zero x)]
    rfl
  | realloc p nbytes =>
    obtain ⟨null, large⟩ := Classical.not_imp.mp unsound
    obtain ⟨small, not_serves⟩ := Classical.not_imp.mp large
    obtain ⟨x, s', run, -, not_safe⟩ := good.not_safe small not_serves
    subst null
    rw [good.step_null]
    exact ⟨_, by rw [step, run]; rfl, not_safe s' rfl fun _ _ => rfl⟩
  | free p | store p i w => exact absurd trivial unsound

/-! ### Runs -/

theorem Good.allSafe (good : Good env st cells) (calls : List Call) :
    AllSafe env st calls ↔ AllSound env st calls := by
  induction calls generalizing st cells with
  | nil => exact ⟨fun _ => trivial, fun _ => good.safe⟩
  | cons call calls ih =>
    constructor
    · rintro ⟨-, next⟩ legal
      obtain ⟨st', run, safe⟩ := next legal
      have sound : Sound env st call := by
        by_contra unsound
        obtain ⟨st'', run', not_safe⟩ := not_safe_step good unsound
        obtain rfl := Option.some.inj (run.symm.trans run')
        cases calls with
        | nil => exact not_safe safe
        | cons _ _ => exact not_safe safe.1
      refine ⟨sound, fun st'' run' => ?_⟩
      obtain ⟨st₁, cells', run₁, good'⟩ := good.step legal sound
      obtain rfl := Option.some.inj (run₁.symm.trans run')
      obtain rfl := Option.some.inj (run₁.symm.trans run)
      exact (ih good').mp safe
    · intro sound
      refine ⟨good.safe, fun legal => ?_⟩
      obtain ⟨now, later⟩ := sound legal
      obtain ⟨st', cells', run, good'⟩ := good.step legal now
      exact ⟨st', run, (ih good').mpr (later st' run)⟩

/-- In a run every call returns and every state is safe just when no search begins inside an idle
block and finds room there. -/
theorem allSafe_iff (env : Env) (mem : Nat → Nat) (brk : Nat) (below : env.alloca < brk)
    (lt : brk < NWORDS) (empty : mem env.alloca = 0) (calls : List Call) :
    AllSafe env (start env mem brk) calls ↔ AllSound env (start env mem brk) calls :=
  (good_start below lt empty).allSafe calls

/-! ### Two runs -/

/-- A small program: `alloca` is the word 10, and two calls of `break` succeed. -/
def smallHeap : Env := ⟨10, fun k => k < 2⟩

/-- A block is given back, and the next request gets its first words. -/
def reuse : List Call := [.malloc 60, .free 21, .malloc 6]

theorem allSafe_iff_first :
    ((runs smallHeap (start smallHeap (fun _ => 0) 20) reuse).map fun st =>
      (st.live 21).map List.length) = some (some 1) ∧
    AllSafe smallHeap (start smallHeap (fun _ => 0) 20) reuse := by
  refine ⟨by decide +kernel,
    (allSafe_iff smallHeap (fun _ => 0) 20 (by decide) (by decide) rfl reuse).mpr ?_⟩
  refine fun start_legal =>
    ⟨fun _ => .inl rfl, fun st₁ first legal => ⟨trivial, fun st₂ second _ => ⟨?_, ?_⟩⟩⟩
  · -- The search begins at the header of the block given back.
    have run : runs smallHeap (start smallHeap (fun _ => 0) 20) [.malloc 60, .free 21] = some st₂ := by
      rw [runs, if_pos (legal_iff.mpr start_legal), first, Option.bind_some, runs,
        if_pos (legal_iff.mpr legal), second]
      rfl
    have ring : ((runs smallHeap (start smallHeap (fun _ => 0) 20) [.malloc 60, .free 21]).all fun st =>
        st.heap.allocb = 10 && st.heap.allocp = 20 && around st.heap 10 = some 20 &&
          around st.heap 20 = some 31 && around st.heap 31 = some 1043 &&
          around st.heap 1043 = none) = true := by
      decide +kernel
    rw [run] at ring
    simp only [Option.all_some, Bool.and_eq_true, decide_eq_true_eq] at ring
    obtain ⟨⟨⟨⟨⟨base, pointer⟩, to20⟩, to31⟩, to1043⟩, last⟩ := ring
    exact fun _ => .inr (.inl ⟨[10, 20, 31, 1043],
      ⟨congrArg some base, to20, to31, to1043, last⟩, by simp [pointer]⟩)
  · exact fun _ _ => trivial

theorem AllSafe.safe {st' : State} {calls : List Call} (safe : AllSafe env st calls)
    (run : runs env st calls = some st') : Safe env st' := by
  induction calls generalizing st with
  | nil =>
    cases run
    exact safe
  | cons call calls ih =>
    rw [runs] at run
    split at run
    next allowed =>
      obtain ⟨st₁, first, rest⟩ := safe.2 (legal_iff.mp allowed)
      rw [first] at run
      exact ih rest run
    next => cases run

/-- Two neighbours are given back and a request is refused; the next request gets the second of them,
and a later one both of them together. -/
def overlap : List Call :=
  [.malloc 60, .malloc 60, .malloc 60, .free 21, .free 32, .malloc 100000, .malloc 6, .malloc 5900,
    .malloc 120]

/-- A block of 20 words at the word 21 and one at the word 32. -/
theorem not_allSafe_overlap :
    ((runs smallHeap (start smallHeap (fun _ => 0) 20) overlap).map fun st =>
      ((st.live 21).map List.length, (st.live 32).map List.length)) = some (some 20, some 1) ∧
    ¬ AllSafe smallHeap (start smallHeap (fun _ => 0) 20) overlap := by
  have lengths : ((runs smallHeap (start smallHeap (fun _ => 0) 20) overlap).map fun st =>
      ((st.live 21).map List.length, (st.live 32).map List.length)) = some (some 20, some 1) := by
    decide +kernel
  refine ⟨lengths, fun safe => ?_⟩
  obtain ⟨st, run, both⟩ := Option.map_eq_some_iff.mp lengths
  obtain ⟨first, second⟩ := Prod.mk.inj both
  obtain ⟨ws, live, length⟩ := Option.map_eq_some_iff.mp first
  obtain ⟨ws', live', -⟩ := Option.map_eq_some_iff.mp second
  have apart := (safe.safe run).disjoint 21 ws 32 ws' live live' (by decide)
  omega

/-! ### What `realloc` keeps -/

/-- The byte `i` of the block `p`; the first byte of a word is its upper one. -/
def Heap.byteAt (s : Heap) (p i : Nat) : Nat :=
  s.mem (p + i / WORD) / 2 ^ (8 * (5 - i % WORD)) % 256

theorem Good.of_runs {st' : State} {calls : List Call} (good : Good env st cells)
    (sound : AllSound env st calls) (run : runs env st calls = some st') :
    ∃ cells', Good env st' cells' := by
  induction calls generalizing st cells with
  | nil =>
    cases run
    exact ⟨cells, good⟩
  | cons call calls ih =>
    rw [runs] at run
    split at run
    next allowed =>
      obtain ⟨now, later⟩ := sound (legal_iff.mp allowed)
      obtain ⟨st₁, cells', first, good'⟩ := good.step (legal_iff.mp allowed) now
      rw [first] at run
      exact ih good' (later st₁ first) run
    next => cases run

/-- Behind a run in which no search finds room inside an idle block, `realloc` of a block of `n`
bytes returns, and a block of `m` bytes it returns has the bytes of the old one, as many as both
have. -/
theorem realloc_keeps_bytes (env : Env) (mem : Nat → Nat) (brk : Nat) (below : env.alloca < brk)
    (lt : brk < NWORDS) (empty : mem env.alloca = 0) (calls : List Call)
    (sound : AllSound env (start env mem brk) calls) (st : State)
    (run : runs env (start env mem brk) calls = some st) (p n m : Nat) (ws : List Nat)
    (live : st.live p = some ws) (size : ws.length = payload n) :
    ∃ q s', realloc env p m st.heap = some (q, s') ∧
      (q ≠ 0 → ∀ i, i < n → i < m → s'.byteAt q i = st.heap.byteAt p i) := by
  obtain ⟨cells, good⟩ := (good_start below lt empty).of_runs sound run
  have held : Sound env st (.realloc p m) := by
    obtain ⟨h, rfl, -⟩ := (good.held p ws).mp live
    exact fun null => absurd null (Nat.succ_ne_zero h)
  obtain ⟨st', cells', done, good'⟩ := good.realloc (.inr (.inl ⟨ws, live⟩)) held
  obtain ⟨⟨q, s'⟩, ran, rfl⟩ := Option.map_eq_some_iff.mp done
  refine ⟨q, s', ran, fun some_block i lt lt' => ?_⟩
  have words : st.words p = ws := by rw [State.words, live]; rfl
  have new := good'.safe.words q
  simp only [State.get, words, if_neg some_block, Function.update_self, Option.some.injEq,
    forall_eq'] at new
  obtain ⟨whole, -⟩ := payload_eq n
  obtain ⟨whole', -⟩ := payload_eq m
  have inside : i / WORD < ws.length ∧ i / WORD < payload m := by
    rw [size, whole, whole']
    simp only [WORD]
    omega
  have short : i / WORD < (ws.take (payload m)).length := by
    rw [List.length_take]
    omega
  have same := new (i / WORD) (by rw [List.length_append]; omega)
  rw [List.getElem_append_left short, List.getElem_take] at same
  rw [Heap.byteAt, same, Heap.byteAt, good.safe.words p ws live (i / WORD) inside.1]

theorem realloc_keeps_bytes_grown :
    ∃ st, runs smallHeap (start smallHeap (fun _ => 0) 20) [.malloc 60] = some st ∧
      ∃ q s', realloc smallHeap 21 120 st.heap = some (q, s') ∧
        (q ≠ 0 → ∀ i, i < 60 → i < 120 → s'.byteAt q i = st.heap.byteAt 21 i) := by
  have lengths : ((runs smallHeap (start smallHeap (fun _ => 0) 20) [.malloc 60]).map fun st =>
      (st.live 21).map List.length) = some (some 10) := by
    decide +kernel
  obtain ⟨st, run, held⟩ := Option.map_eq_some_iff.mp lengths
  obtain ⟨ws, live, length⟩ := Option.map_eq_some_iff.mp held
  exact ⟨st, run, realloc_keeps_bytes smallHeap (fun _ => 0) 20 (by decide) (by decide) rfl [.malloc 60]
    (fun _ => ⟨fun _ => .inl rfl, fun _ _ => trivial⟩) st run 21 60 120 ws live length⟩

/-- Of two blocks that overlap, the owner of one stores in its words what makes the header of the other
say that the block is idle and of no length: `realloc` returns another block and copies nothing. -/
theorem not_realloc_keeps_bytes :
    ((runs smallHeap (start smallHeap (fun _ => 0) 20)
        (overlap ++ [.store 21 10 32, .store 21 11 7])).bind fun st =>
      (realloc smallHeap 32 6 st.heap).map fun r =>
        ((st.live 32).map List.length, st.heap.byteAt 32 5, r.1, r.2.byteAt r.1 5)) =
      some (some 1, 7, 1039, 0) := by
  decide +kernel

end V7Besm.Libc

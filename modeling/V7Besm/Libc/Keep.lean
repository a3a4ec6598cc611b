import V7Besm.Libc.Held

/-!
Each call keeps what is held.
-/

namespace V7Besm.Libc

open Tiles Words Links Function List

variable {env : Env} {s s' : Heap} {cells cells' pre post : List (Cell Nat)} {st : State}
  {nw n x y h p q i w nbytes : Nat} {ws : List Nat}

/-! ### Replacing a block -/

variable {c d : Cell Nat}

theorem AtHeader.replace (size : d.size = c.size)
    (header : AtHeader env (pre ++ c :: post) x) : AtHeader env (pre ++ d :: post) x := by
  obtain ⟨pre', post', split, rfl⟩ := header
  rcases append_eq_append_iff.mp split with ⟨more, rfl, rest⟩ | ⟨more, rfl, rest⟩
  · cases more with
    | nil =>
      refine ⟨pre, d :: post, rfl, ?_⟩
      rw [append_nil]
    | cons e more =>
      obtain ⟨rfl, rfl⟩ := List.cons.inj rest
      refine ⟨pre ++ d :: more, post', by simp, ?_⟩
      simp only [after, total_append, total_cons, size]
  · exact ⟨pre', more ++ d :: post, by simp, rfl⟩

theorem top_replace (size : d.size = c.size) :
    top env (pre ++ d :: post) = top env (pre ++ c :: post) := by
  simp only [top, total_append, total_cons, size]

theorem BlockAt.replace {e : Cell Nat} {a : Nat} (size : d.size = c.size)
    (here : BlockAt a (pre ++ c :: post) h e) (ne : e ≠ c) : BlockAt a (pre ++ d :: post) h e := by
  refine (blockAt_replace size).mpr (.inr ⟨?_, here⟩)
  rintro rfl
  exact ne (here.unique blockAt_middle)

theorem Settled.replace (size : d.size = c.size) (busy : c.busy = true) (busy' : d.busy = true)
    (settled : Settled env s (pre ++ c :: post) x)
    (same : ∀ x, x < after env pre ∨ after env pre + c.size ≤ x → s'.mem x = s.mem x) :
    Settled env s' (pre ++ d :: post) x := by
  have fixed : ∀ x, Fixed env (pre ++ c :: post) x → Fixed env (pre ++ d :: post) x := by
    rintro x (rfl | ⟨e, here, held⟩)
    · exact .inl (top_replace size).symm
    · by_cases mid : x = env.alloca + total pre
      · subst mid
        exact .inr ⟨d, blockAt_middle, busy'⟩
      · exact .inr ⟨e, (blockAt_replace size).mpr (.inr ⟨mid, here⟩), held⟩
  cases settled with
  | fixed f => exact .fixed (fixed x f)
  | idle y n here low high word f =>
    have other : Cell.idle n ≠ c := by
      rintro rfl
      cases busy
    have apart : y + (n + 1) ≤ after env pre ∨ after env pre + c.size ≤ y := by
      have mid : BlockAt env.alloca (pre ++ c :: post) (after env pre) c := blockAt_middle
      rcases Nat.lt_trichotomy y (after env pre) with lt | rfl | lt
      · exact .inl (here.apart mid lt)
      · exact absurd (here.unique mid) other
      · exact .inr (mid.apart here lt)
    refine .idle y n (BlockAt.replace size here other) low high ?_ (fixed _ f)
    rw [same x (by omega), word]

/-! ### Giving back and storing -/

theorem Arena.release (arena : Arena env s (pre ++ .owned ws :: post)) :
    Arena env (free (after env pre + 1) s) (pre ++ .freed ws :: post) ∧
      (free (after env pre + 1) s).mem =
        update s.mem (after env pre) (link (after env pre + (ws.length + 1)) false) ∧
      (free (after env pre + 1) s).allocp = after env pre := by
  have next : after env pre + (ws.length + 1) < NWORDS := arena.lt_next
  have header : s.load (after env pre) = link (after env pre + (ws.length + 1)) true :=
    arena.load_header
  have memory : (free (after env pre + 1) s).mem =
      update s.mem (after env pre) (link (after env pre + (ws.length + 1)) false) := by
    unfold free
    rw [if_neg (Nat.succ_ne_zero _)]
    rw [Nat.add_sub_cancel, mem_store (by omega), header, clearbusy_link next]
    rfl
  have same_top : top env (pre ++ .freed ws :: post) = top env (pre ++ .owned ws :: post) :=
    top_replace rfl
  have inside : after env pre + (ws.length + 1) ≤ top env (pre ++ .owned ws :: post) :=
    BlockAt.le_top (blockAt_middle (c := .owned ws))
  refine ⟨⟨arena.base, ?_, ?_, ?_, arena.limit⟩, memory, rfl⟩
  · obtain ⟨before, -, words, behind⟩ := laid_append.mp arena.laid
    rw [memory, laid_append]
    refine ⟨before.congr fun x _ high => ?_, ?_, ?_, behind.congr fun x low _ => ?_⟩
    · exact update_of_ne (Nat.ne_of_lt high) _ _
    · exact update_self ..
    · exact words.congr fun i _ => update_of_ne (by rw [after]; omega) _ _
    · refine update_of_ne ?_ _ _
      simp only [Cell.size] at low
      rw [after]
      omega
  · rw [same_top, memory, update_of_ne (by omega)]
    exact arena.last
  · rw [same_top]
    exact arena.below

theorem Good.split (good : Good env st cells) (live : st.live p = some ws) :
    ∃ pre post, cells = pre ++ .owned ws :: post ∧ p = after env pre + 1 ∧
      Arena env st.heap (pre ++ .owned ws :: post) := by
  obtain ⟨h, rfl, here⟩ := (good.held p ws).mp live
  obtain ⟨pre, post, rfl, rfl⟩ := here.split
  rcases good.opened with arena | ⟨none, -⟩
  · exact ⟨pre, post, rfl, rfl, arena⟩
  · simp at none

theorem Held.drop {live : Nat → Option (List Nat)} (held : Held env (pre ++ .owned ws :: post) live)
    (size : d.size = ws.length + 1) (idle : d.busy = false) :
    Held env (pre ++ d :: post) (update live (after env pre + 1) none) := by
  have not_owned : ∀ ws', Cell.owned ws' ≠ d := by
    rintro ws' rfl
    cases idle
  intro p ws'
  simp only [blockAt_replace (c := .owned ws) size, not_owned, and_false, false_or]
  by_cases here : p = after env pre + 1
  · subst here
    simp [after]
  · rw [update_of_ne here, held p ws']
    refine exists_congr fun h => and_congr_right ?_
    rintro rfl
    have other : h ≠ env.alloca + total pre := by
      rintro rfl
      exact here rfl
    simp [other]

theorem Good.free (good : Good env st cells) (live : st.live p = some ws) :
    ∃ cells', Good env { st.drop p with heap := free p st.heap } cells' := by
  obtain ⟨pre, post, rfl, rfl, arena⟩ := good.split live
  obtain ⟨arena', -, pointer⟩ := arena.release
  have header : AtHeader env (pre ++ .freed ws :: post) (after env pre) := ⟨pre, _, rfl, rfl⟩
  refine ⟨_, .inl arena', good.held.drop rfl rfl, ?_, .inl (by rw [pointer]; exact header),
    fun _ _ _ => by rw [pointer]; exact header⟩
  intro q ws' recent
  by_cases here : q = after env pre + 1
  · subst here
    change update st.recent _ (st.live _) _ = _ at recent
    rw [update_self, live] at recent
    cases recent
    exact ⟨_, rfl, blockAt_middle⟩
  · change update st.recent _ (st.live _) _ = _ at recent
    rw [update_of_ne here] at recent
    obtain ⟨h, rfl, there⟩ := good.recent q ws' recent
    refine ⟨h, rfl, BlockAt.replace (c := .owned ws) rfl there ?_⟩
    intro same
    cases same

theorem Good.store (good : Good env st cells) (live : st.live p = some ws) (lt : i < ws.length) :
    ∃ cells', Good env { st with
      heap := st.heap.store (p + i) w
      live := update st.live p ((st.live p).map fun ws => ws.set i w) } cells' := by
  obtain ⟨pre, post, rfl, rfl, arena⟩ := good.split live
  have next : after env pre + (ws.length + 1) < NWORDS := arena.lt_next
  have memory : (st.heap.store (after env pre + 1 + i) w).mem =
      update st.heap.mem (after env pre + 1 + i) w := mem_store (by omega)
  have size : ∀ ws' : List Nat, ws'.length = ws.length →
      (Cell.owned ws').size = (Cell.owned ws).size := by
    intro ws' length
    simp [Cell.size, length]
  have same : ∀ x, x ≤ after env pre ∨ after env pre + 1 + ws.length ≤ x →
      (st.heap.store (after env pre + 1 + i) w).mem x = st.heap.mem x := by
    intro x out
    rw [memory, update_of_ne (by omega)]
  have arena' := arena.rewrite same rfl
  have words : wordsAt (st.heap.store (after env pre + 1 + i) w).mem (after env pre + 1) ws.length =
      ws.set i w := by
    have old := arena.laid.words (blockAt_middle)
    have new : At (st.heap.store (after env pre + 1 + i) w).mem (after env pre + 1) (ws.set i w) := by
      intro j small
      rw [length_set] at small
      rw [memory, getElem_set]
      split
      next same => rw [same, update_self]
      next other =>
        rw [update_of_ne (by omega)]
        exact old j small
    have length : (ws.set i w).length = ws.length := length_set
    rw [eq_wordsAt new, length]
  rw [words] at arena'
  have size' := size (ws.set i w) length_set
  refine ⟨_, .inl arena', ?_, ?_, ?_, ?_⟩
  · intro q ws'
    simp only [blockAt_replace size', live, Option.map_some]
    by_cases here : q = after env pre + 1
    · subst here
      rw [update_self]
      simp only [after, Option.some.injEq, Nat.add_right_cancel_iff, exists_eq_left', ne_eq,
        not_true_eq_false, false_and, or_false, true_and, Cell.owned.injEq]
      exact eq_comm
    · rw [update_of_ne here, good.held q ws']
      refine exists_congr fun h => and_congr_right ?_
      rintro rfl
      have other : h ≠ env.alloca + total pre := by
        rintro rfl
        exact here rfl
      simp [other]
  · intro q ws' recent
    obtain ⟨h, rfl, there⟩ := good.recent q ws' recent
    refine ⟨h, rfl, BlockAt.replace size' there ?_⟩
    intro same
    cases same
  · refine good.pointer.imp (AtHeader.replace size') fun settled => ?_
    refine settled.replace size' rfl rfl fun x out => ?_
    simp only [Cell.size] at out
    rw [memory, update_of_ne (by omega)]
  · intro q ws' recent
    exact (good.header q ws' recent).replace size'

/-! ### Loops over the words of a block -/

theorem clear_spec (fits : p + (n + 5) / WORD ≤ NWORDS) :
    clear p n s = { s with mem := (clear p n s).mem } ∧
      ∀ x, x < p ∨ p + (n + 5) / WORD ≤ x → (clear p n s).mem x = s.mem x := by
  induction n with
  | zero => exact ⟨rfl, fun _ _ => rfl⟩
  | succ n ih =>
    have word : n / WORD < (n + 1 + 5) / WORD := by
      simp only [WORD]
      omega
    have less : (n + 5) / WORD ≤ (n + 1 + 5) / WORD := Nat.div_le_div_right (by omega)
    obtain ⟨rest, same⟩ := ih (by omega)
    have step : clear p (n + 1) s = (clear p n s).store (p + n / WORD)
        (clearByte ((clear p n s).load (p + n / WORD)) (n % WORD)) := by
      simp only [clear, range_succ, foldl_append, foldl_cons, foldl_nil]
    rw [step]
    constructor
    · rw [Heap.store, rest]
    · intro x out
      have least := Nat.zero_le (n / WORD)
      rw [mem_store (by omega), update_of_ne (by omega), same x (by omega)]

/-- Words are copied downwards, or to another place. -/
theorem copy_spec (fits : q + n ≤ NWORDS) (fits' : p + n ≤ NWORDS) (apart : q < p ∨ p + n ≤ q) :
    copy q p n s = { s with mem := (copy q p n s).mem } ∧
      (∀ i, i < n → (copy q p n s).mem (q + i) = s.mem (p + i)) ∧
      ∀ x, x < q ∨ q + n ≤ x → (copy q p n s).mem x = s.mem x := by
  induction n with
  | zero => exact ⟨rfl, fun i no => absurd no (Nat.not_lt_zero i), fun _ _ => rfl⟩
  | succ n ih =>
    obtain ⟨rest, copied, same⟩ := ih (by omega) (by omega) (by omega)
    have step : copy q p (n + 1) s =
        (copy q p n s).store (q + n) ((copy q p n s).load (p + n)) := by
      simp only [copy, range_succ, foldl_append, foldl_cons, foldl_nil]
    rw [step, load_eq (by omega), same (p + n) (by omega)]
    refine ⟨by rw [Heap.store, rest], ?_, ?_⟩
    · intro i lt
      rw [mem_store (by omega)]
      by_cases last : i = n
      · rw [last, update_self]
      · rw [update_of_ne (by omega), copied i (by omega)]
    · intro x out
      rw [mem_store (by omega), update_of_ne (by omega), same x (by omega)]

/-! ### Requests -/

theorem payload_eq (nbytes : Nat) : payload nbytes = (nbytes + WORD - 1) / WORD ∧
    blockWords nbytes = payload nbytes + 1 := by
  simp only [payload, blockWords, WORD]
  omega

theorem Good.malloc (good : Good env st cells)
    (serves : nbytes < NWORDS * WORD → Serves env st.heap nbytes) :
    ∃ st' cells', step env st (.malloc nbytes) = some st' ∧ Good env st' cells' := by
  rw [step]
  rcases malloc_spec good.opened.forget plain_forget good.pointer.forget
      (fun small => (serves small).usable good) with
    ⟨s', cells', y, ws, run, served⟩ | ⟨s', cells', run, refused⟩
  · rw [run]
    obtain ⟨cells'', good'⟩ := served.good [] good.held.forget (fun _ _ => rfl) rfl
      (by rw [take_nil]; exact at_nil)
    exact ⟨_, cells'', rfl, good'⟩
  · rw [run]
    exact ⟨_, cells', rfl, refused.good good.held.forget⟩

theorem Good.calloc {num size : Nat} (good : Good env st cells)
    (serves : (size = 0 ∨ num ≤ SIZE_MAX / size) → num * size < NWORDS * WORD →
      Serves env st.heap (num * size)) :
    ∃ st' cells', step env st (.calloc num size) = some st' ∧ Good env st' cells' := by
  rw [step, Libc.calloc]
  by_cases large : size ≠ 0 ∧ num > SIZE_MAX / size
  · rw [if_pos large]
    have refused : Refused env st.heap (cells.map Cell.forget) st.heap (cells.map Cell.forget) :=
      ⟨good.opened.forget, plain_forget, .refl, good.pointer.forget⟩
    exact ⟨_, _, rfl, refused.good good.held.forget⟩
  rw [if_neg large]
  have some_ : size = 0 ∨ num ≤ SIZE_MAX / size := by omega
  rcases malloc_spec good.opened.forget plain_forget good.pointer.forget
      (fun small => (serves some_ small).usable good) with
    ⟨s', cells', y, ws, run, served⟩ | ⟨s', cells', run, refused⟩
  · rw [run, Option.map_some, if_neg (Nat.succ_ne_zero y)]
    have words := payload_eq (num * size)
    have inside := served.arena.lt (BlockAt.le_top served.block)
    have length := served.length
    simp only [Cell.size, length] at inside
    have count : (num * size + 5) / WORD = payload (num * size) := words.1.symm
    obtain ⟨rest, same⟩ := clear_spec (p := y + 1) (n := num * size) (by omega)
    obtain ⟨cells'', good'⟩ := served.good [] good.held.forget
      (fun x out => same x (by omega)) rest (by rw [take_nil]; exact at_nil)
    exact ⟨_, cells'', rfl, good'⟩
  · rw [run]
    exact ⟨_, cells', rfl, refused.good good.held.forget⟩

/-! ### `realloc` -/

theorem not_header_inside {a : Nat} (here : BlockAt a cells h c) (low : h < x)
    (high : x < h + c.size) : ¬ Header a cells x := by
  rintro ⟨d, there⟩
  have apart := here.apart there low
  omega

/-- The word in which a part of a block was cut off has been saved; all others are there still. -/
theorem Served.word {onw : Nat} (served : Served env s cells nw s' cells' y ws)
    (here : BlockAt env.alloca cells h (.idle onw)) (lt : i < onw) :
    (h + 1 + i ≠ y + nw → s'.mem (h + 1 + i) = s.mem (h + 1 + i)) ∧
      (h + 1 + i = y + nw → s'.allocx = s.mem (h + 1 + i)) := by
  have ends := BlockAt.le_top here
  simp only [Cell.size] at ends
  have inside : ¬ Header env.alloca cells (h + 1 + i) :=
    not_header_inside here (by omega) (by simp only [Cell.size]; omega)
  constructor
  · exact served.words _ (by omega) inside
  · intro cut
    rw [cut] at inside ⊢
    exact served.saved (by omega) inside

/-- A block that has moved: the words go along, and the one that was saved when the new block was
cut off. -/
theorem move_spec {onw : Nat} (served : Served env s cells (blockWords nbytes) s' cells' y ws)
    (here : BlockAt env.alloca cells h (.idle onw)) (moved : y ≠ h)
    (inside : top env cells < NWORDS) :
    (∀ x, x ≤ y ∨ y + blockWords nbytes ≤ x →
      (move (h + 1) (y + 1) onw nbytes s').mem x = s'.mem x) ∧
    move (h + 1) (y + 1) onw nbytes s' =
      { s' with mem := (move (h + 1) (y + 1) onw nbytes s').mem } ∧
    ∀ i, i < onw → i < payload nbytes →
      (move (h + 1) (y + 1) onw nbytes s').mem (y + 1 + i) = s.mem (h + 1 + i) := by
  obtain ⟨words, whole⟩ := payload_eq nbytes
  have ends := BlockAt.le_top here
  have ends' := served.arena.lt (BlockAt.le_top served.block)
  have length := served.length
  simp only [Cell.size, length] at ends ends'
  -- the new block begins at a header, so it is behind all of the old one or before it
  have apart : y < h ∨ h + (onw + 1) ≤ y := by
    rcases Nat.lt_or_gt_of_ne moved with below | above
    · exact .inl below
    · right
      rcases served.header with ⟨c, there⟩ | beyond
      · exact here.apart there above
      · omega
  have word := fun i lt => served.word (i := i) here lt
  unfold move
  dsimp only
  rw [← words]
  generalize payload nbytes = k at *
  have least : (if k < onw then k else onw) ≤ k ∧ (if k < onw then k else onw) ≤ onw ∧
      ∀ i, i < onw → i < k → i < if k < onw then k else onw := by
    split <;> exact ⟨by omega, by omega, fun i _ _ => by omega⟩
  generalize (if k < onw then k else onw) = n at *
  obtain ⟨short, short', both⟩ := least
  obtain ⟨rest, copied, same⟩ := copy_spec (q := y + 1) (p := h + 1) (n := n)
    (by omega) (by omega) (by omega)
  by_cases overlaps : y + 1 < h + 1 ∧ y + 1 + k ≥ h + 1
  · rw [if_pos overlaps, mem_store (by omega)]
    refine ⟨fun x out => ?_, ?_, fun i lt lt' => ?_⟩
    · rw [update_of_ne (by omega), same x (by omega)]
    · rw [← mem_store (by omega), Heap.store, rest]
    · by_cases cut : h + 1 + i = y + blockWords nbytes
      · have place : y + 1 + i = y + 1 + (y + 1 + k - (h + 1)) := by omega
        rw [place, update_self, rest, ← (word i lt).2 cut]
      · rw [update_of_ne (by omega), copied i (both i lt lt'), (word i lt).1 cut]
  · rw [if_neg overlaps]
    refine ⟨fun x out => same x (by omega), rest, fun i lt lt' => ?_⟩
    rw [copied i (both i lt lt'), (word i lt).1 (by omega)]

/-- `realloc` of a block that has been given back, by itself or before. -/
theorem realloc_freed (nbytes : Nat) (live : State) (arena : Arena env s cells)
    (held : Held env cells live.live) (here : BlockAt env.alloca cells h (.freed ws))
    (header : AtHeader env cells s.allocp) :
    ∃ r cells', ((malloc env nbytes s).map fun r =>
        if r.1 = 0 then (0, r.2) else if r.1 = h + 1 then (h + 1, r.2)
        else (r.1, move (h + 1) r.1 (s.load h - (h + 1)) nbytes r.2)) = some r ∧
      Good env (live.get r.1 nbytes ws r.2) cells' := by
  have idle : BlockAt env.alloca (cells.map Cell.forget) h (.idle ws.length) := here.forget
  have ends := BlockAt.le_top here
  have onw : s.load h - (h + 1) = ws.length := by
    rw [load_eq (arena.lt (by omega)), arena.laid.header here]
    simp only [Cell.size, Cell.busy, link, Bool.false_eq_true, if_false]
    omega
  have words : ∀ i (lt : i < ws.length), s.mem (h + 1 + i) = ws[i] := arena.laid.words here
  rw [onw]
  rcases malloc_spec (Open.forget (.inl arena)) plain_forget (.inl header.forget)
      (fun _ => .inl header.forget) with
    ⟨s', cells', y, new, run, served⟩ | ⟨s', cells', run, refused⟩
  · rw [run, Option.map_some, if_neg (Nat.succ_ne_zero y)]
    obtain ⟨-, whole⟩ := payload_eq nbytes
    by_cases stays : y = h
    · -- the block is where it was
      subst stays
      rw [if_pos rfl]
      obtain ⟨cells'', good⟩ := served.good ws held.forget (fun _ _ => rfl) rfl (by
        intro i lt
        rw [length_take] at lt
        rw [(served.word idle (by omega)).1 (by omega), getElem_take]
        exact words i (by omega))
      exact ⟨_, cells'', rfl, good⟩
    · rw [if_neg (by omega)]
      have below : top env (cells.map Cell.forget) < NWORDS := by
        rw [top_forget]
        exact arena.lt (Nat.le_refl _)
      obtain ⟨same, rest, moved⟩ := move_spec served idle stays below
      obtain ⟨cells'', good⟩ := served.good ws held.forget same rest (by
        intro i lt
        rw [length_take] at lt
        rw [moved i (by omega) (by omega), getElem_take]
        exact words i (by omega))
      exact ⟨_, cells'', rfl, good⟩
  · rw [run]
    exact ⟨_, cells', rfl, refused.good held.forget⟩

theorem Good.step_null (good : Good env st cells) :
    step env st (.realloc 0 nbytes) = step env st (.malloc nbytes) := by
  have live : st.live 0 = none := by
    cases live : st.live 0 with
    | none => rfl
    | some ws =>
      obtain ⟨h, no, -⟩ := (good.held 0 ws).mp live
      cases no
  have recent : st.recent 0 = none := by
    cases recent : st.recent 0 with
    | none => rfl
    | some ws =>
      obtain ⟨h, no, -⟩ := good.recent 0 ws recent
      cases no
  have words : st.words 0 = [] := by rw [State.words, live, recent]; rfl
  have same : (st.drop 0).live = st.live := by
    rw [State.drop]
    rw [← live, update_eq_self]
  have null : Libc.realloc env 0 nbytes st.heap = Libc.malloc env nbytes st.heap := if_pos rfl
  simp only [step, State.get, same, words, null]

theorem Good.realloc (good : Good env st cells) (legal : Legal st (.realloc p nbytes))
    (sound : Sound env st (.realloc p nbytes)) :
    ∃ st' cells', step env st (.realloc p nbytes) = some st' ∧ Good env st' cells' := by
  by_cases null : p = 0
  · subst null
    rw [good.step_null]
    exact good.malloc (sound rfl)
  rw [step, Libc.realloc, if_neg null]
  rcases legal with no | ⟨ws, live⟩ | ⟨ws, recent⟩
  · exact absurd no null
  · obtain ⟨pre, post, rfl, rfl, arena⟩ := good.split live
    obtain ⟨arena', memory, pointer⟩ := arena.release
    have busy : testbusy (st.heap.load (after env pre)) = true := arena.testbusy_header
    have words : st.words (after env pre + 1) = ws := by rw [State.words, live]; rfl
    rw [Nat.add_sub_cancel, if_pos busy, words]
    obtain ⟨r, cells', run, good'⟩ := realloc_freed (h := after env pre) nbytes
      (st.drop (after env pre + 1)) arena' (good.held.drop rfl rfl) blockAt_middle
      (by rw [pointer]; exact ⟨pre, _, rfl, rfl⟩)
    exact ⟨_, cells', by rw [run]; rfl, good'⟩
  · obtain ⟨h, rfl, here⟩ := good.recent p ws recent
    have live : st.live (h + 1) = none := by
      cases live : st.live (h + 1) with
      | none => rfl
      | some ws' =>
        obtain ⟨h', same, there⟩ := (good.held _ ws').mp live
        cases same
        cases here.unique there
    have same : (st.drop (h + 1)).live = st.live := by
      rw [State.drop]
      rw [← live, update_eq_self]
    have words : st.words (h + 1) = ws := by rw [State.words, live, recent]; rfl
    have arena : Arena env st.heap cells := by
      rcases good.opened with arena | ⟨rfl, -⟩
      · exact arena
      · exact here.elim
    have idle : testbusy (st.heap.load h) = false := by
      obtain ⟨pre, post, rfl, rfl⟩ := here.split
      exact arena.testbusy_header
    rw [Nat.add_sub_cancel, if_neg (by rw [idle]; simp), words]
    obtain ⟨r, cells', run, good'⟩ := realloc_freed nbytes (st.drop (h + 1)) arena
      (by rw [same]; exact good.held) here (good.header _ _ recent)
    exact ⟨_, cells', by rw [run]; rfl, good'⟩

/-! ### All calls -/

/-- A call that is allowed and sound returns, and keeps what is held. -/
theorem Good.step (good : Good env st cells) {call : Call} (legal : Legal st call)
    (sound : Sound env st call) :
    ∃ st' cells', step env st call = some st' ∧ Good env st' cells' := by
  cases call with
  | malloc nbytes => exact good.malloc sound
  | calloc num size => exact good.calloc sound
  | realloc p nbytes => exact good.realloc legal sound
  | free p =>
    by_cases null : p = 0
    · exact ⟨st, cells, by rw [Libc.step, if_pos null], good⟩
    · rcases legal with no | ⟨ws, live⟩
      · exact absurd no null
      · obtain ⟨cells', good'⟩ := good.free live
        exact ⟨_, cells', by rw [Libc.step, if_neg null], good'⟩
  | store p i w =>
    obtain ⟨ws, live, lt⟩ := legal
    obtain ⟨cells', good'⟩ := good.store live lt
    exact ⟨_, cells', rfl, good'⟩

theorem good_start {mem : Nat → Nat} {brk : Nat} (below : env.alloca < brk) (lt : brk < NWORDS)
    (empty : mem env.alloca = 0) : Good env (start env mem brk) [] where
  opened := .inr ⟨rfl, rfl, empty, below, lt⟩
  held := by
    intro p ws
    constructor
    · intro no
      cases no
    · rintro ⟨h, -, no⟩
      exact no.elim
  recent := by
    intro p ws no
    cases no
  pointer := .inl ⟨[], [], rfl, rfl⟩
  header := by
    intro p ws no
    cases no

end V7Besm.Libc

import V7Besm.Libc.Search

/-!
The arena grows, and a block of it is taken.

A block from `sbrk` stands above the arena. The last cell becomes the header of what lies
between them, the last word of the new block the last cell. A request of nearly the whole address
space makes the break go around once; such a block is entered as a busy one.
-/

namespace V7Besm.Libc

open Tiles Words Function

variable {env : Env} {s s' s'' : Heap} {cells cells' cells'' pre post : List (Cell Nat)}
  {nw n x q r e words : Nat}

/-! ### `sbrk` -/

/-- What `sbrk` returns, if it is not the null pointer. -/
theorem sbrk_eq {incr : Nat} {b : Nat × Heap} (run : sbrk env incr s = b) :
    (b.1 = 0 ∧ b.2 = { s with calls := b.2.calls }) ∨
      (b.1 = s.curbrk ∧ b.2 = { s with calls := b.2.calls, curbrk := b.2.curbrk } ∧
        b.2.curbrk = (s.curbrk + (incr + 5) / WORD) % NWORDS ∧
        (0 < incr → s.curbrk < b.2.curbrk)) := by
  subst run
  unfold sbrk
  dsimp only
  split
  next => exact .inl ⟨rfl, rfl⟩
  next goes_up =>
    split
    next =>
      refine .inr ⟨rfl, rfl, rfl, fun pos => ?_⟩
      dsimp only
      omega
    next => exact .inl ⟨rfl, rfl⟩

/-! ### `ialloc` -/

/-- What lies between the last cell `t` and the new block. -/
def spacer (t q : Nat) : Cell Nat := if q = t + 1 then .idle 0 else .gap (q - t - 1)

/-- The new block, up to its last word `e`. -/
def chunk (q e : Nat) (busy : Bool) : Cell Nat := if busy then .gap (e - q - 1) else .idle (e - q - 1)

theorem size_spacer {t : Nat} (lt : t < q) : (spacer t q).size = q - t := by
  unfold spacer
  split <;> simp only [Cell.size] <;> omega

theorem size_chunk {b : Bool} (lt : q < e) : (chunk q e b).size = e - q := by
  unfold chunk
  split <;> simp only [Cell.size] <;> omega

theorem place_spec {fuel : Nat} (pre : List (Cell Nat)) (base : s.allocb = env.alloca)
    (laid : Laid link s.mem env.alloca (pre ++ post))
    (last : clearbusy (s.load (top env (pre ++ post))) = env.alloca)
    (above : top env (pre ++ post) < q) (le : q ≤ r) (lt : q < NWORDS)
    (enough : post.length < fuel) :
    place s q r fuel (after env pre) = some (top env (pre ++ post), env.alloca) := by
  induction fuel generalizing pre post with
  | zero => omega
  | succ fuel ih =>
    rw [place]
    cases post with
    | nil =>
      rw [List.append_nil] at last ⊢
      have here : after env pre = top env pre := rfl
      rw [here, last, base, if_pos (.inl rfl)]
    | cons c post =>
      have here : BlockAt env.alloca (pre ++ c :: post) (after env pre) c := blockAt_middle
      have inside := BlockAt.le_top here
      have pos := c.size_pos
      have next : clearbusy (s.load (after env pre)) = after env pre + c.size := by
        rw [load_eq (by omega), laid.header here, clearbusy_link (by omega)]
      have low : env.alloca ≤ after env pre := Nat.le_add_right _ _
      rw [next, base, if_neg (by omega)]
      have whole : pre ++ c :: post = pre ++ [c] ++ post := by simp
      have there : after env pre + c.size = after env (pre ++ [c]) := by
        rw [after_append, total_cons, total_nil, Nat.add_zero]
      rw [whole] at laid last above ⊢
      rw [there]
      refine ih (pre ++ [c]) laid last above ?_
      simp only [List.length_cons] at enough
      omega

/-- Both the arena and memory before the first call of `malloc`, when `alloca` holds 0, can be
given a new block. -/
def Open (env : Env) (s : Heap) (cells : List (Cell Nat)) : Prop :=
  Arena env s cells ∨ cells = [] ∧ s.allocb = env.alloca ∧ s.mem env.alloca = 0 ∧
    env.alloca < s.curbrk ∧ s.curbrk < NWORDS

theorem Arena.alloca_ne (arena : Arena env s cells) : s.mem env.alloca ≠ 0 := by
  cases cells with
  | nil =>
    have last := arena.last
    rw [top, total_nil, Nat.add_zero] at last
    rw [last]
    simp [link, BUSY]
  | cons c cells =>
    have pos := c.size_pos
    rw [arena.laid.header (.inl ⟨rfl, rfl⟩), link]
    split <;> omega

theorem Open.allocb (opened : Open env s cells) : s.allocb = env.alloca := by
  rcases opened with arena | ⟨-, base, -⟩
  · exact arena.base
  · exact base

/-- The first words that `ialloc` writes: the header of the new block, and in an empty arena
`alloca` itself. -/
theorem open_header {v : Nat} (opened : Open env s cells) (above : top env cells < q)
    (lt : q < NWORDS) :
    ∃ s', (if (s.store q v).load env.alloca = 0 then (s.store q v).store env.alloca env.alloca
        else s.store q v) = s' ∧
      Laid link s'.mem env.alloca cells ∧ clearbusy (s'.load (top env cells)) = env.alloca ∧
      s'.mem q = v ∧ (∀ x, x < top env cells → s'.mem x = s.mem x) ∧
      s' = { s with mem := s'.mem } := by
  have low : env.alloca ≤ top env cells := Nat.le_add_right _ _
  have first : (s.store q v).load env.alloca = s.mem env.alloca := by
    rw [load_eq (by omega), mem_store lt, update_of_ne (by omega)]
  rw [first]
  refine ⟨_, rfl, ?_⟩
  rcases opened with arena | ⟨rfl, base, empty, -, -⟩
  · rw [if_neg arena.alloca_ne, load_eq (by omega), mem_store lt]
    refine ⟨?_, ?_, update_self .., ?_, by rw [← mem_store lt]; rfl⟩
    · exact arena.laid.congr fun x _ high => update_of_ne (by rw [top] at above; omega) _ _
    · rw [update_of_ne (by omega), arena.last, clearbusy_link (by omega)]
    · exact fun x high => update_of_ne (by omega) _ _
  · have memory : ((s.store q v).store env.alloca env.alloca).mem =
        update (update s.mem q v) env.alloca env.alloca := by
      rw [mem_store (by omega), mem_store lt]
    rw [if_pos empty, load_eq (by omega), memory]
    rw [top, total_nil, Nat.add_zero] at above ⊢
    refine ⟨trivial, ?_, ?_, ?_, by rw [← memory]; rfl⟩
    · rw [update_self]
      exact clearbusy_link (b := false) (by omega)
    · rw [update_of_ne (by omega), update_self]
    · intro x high
      rw [update_of_ne (by omega), update_of_ne (by omega)]

/-- The new block is entered: its header names the word `e`, the last of the block. -/
theorem ialloc_spec {b : Bool} (opened : Open env s cells) (above : top env cells < q) (lt : q < e)
    (lt' : e < NWORDS) (last : q + words - 1 = link e b) :
    ∃ s', ialloc env q words s = some s' ∧
      Laid link s'.mem env.alloca (cells ++ [spacer (top env cells) q, chunk q e b]) ∧
      s'.mem e = link env.alloca true ∧ (∀ x, x < top env cells → s'.mem x = s.mem x) ∧
      s' = { s with mem := s'.mem } := by
  have low : env.alloca ≤ top env cells := Nat.le_add_right _ _
  have word : link e b % NWORDS = e ∧ e ≤ link e b := by
    simp only [link, BUSY]
    simp only [NWORDS] at lt' ⊢
    split <;> omega
  obtain ⟨s₁, run, laid, back, header, frame, rest⟩ := open_header opened above (by omega)
  have base : s₁.allocb = env.alloca := by
    rw [rest]
    exact opened.allocb
  have enough : cells.length < limit := by
    have length := length_le_total cells
    simp only [top, limit] at *
    omega
  have placed : place s₁ q (link e b) limit env.alloca = some (top env cells, env.alloca) :=
    place_spec [] base laid back above (by omega) (by omega) enough
  unfold ialloc
  dsimp only
  rw [last, run, base, placed]
  dsimp only
  have lead : (if q = top env cells + 1 then q else setbusy q) =
      link (top env cells + (spacer (top env cells) q).size) (spacer (top env cells) q).busy := by
    rw [size_spacer above, Nat.add_sub_cancel' (Nat.le_of_lt above), setbusy_eq (by omega)]
    unfold spacer
    split <;> rfl
  have tail : (if env.alloca = link e b + 1 then env.alloca else setbusy env.alloca) =
      link env.alloca true := by
    rw [if_neg (by omega), setbusy_eq (by omega)]
  rw [lead, tail]
  generalize hw : link (top env cells + (spacer (top env cells) q).size)
    (spacer (top env cells) q).busy = w
  have memory : ((s₁.store (top env cells) w).store (link e b) (link env.alloca true)).mem =
      update (update s₁.mem (top env cells) w) e (link env.alloca true) := by
    rw [Heap.store, word.1, mem_store (by omega)]
  refine ⟨_, rfl, ?_, ?_, ?_, ?_⟩
  · dsimp only
    rw [memory, laid_append]
    refine ⟨laid.congr fun x _ high => ?_, ?_, ?_, ?_, ?_, trivial⟩
    · rw [← top] at high
      rw [update_of_ne (by omega), update_of_ne (by omega)]
    · rw [← top, update_of_ne (by omega), update_self, hw]
    · unfold spacer
      split <;> exact at_nil
    · rw [← top, size_spacer above, Nat.add_sub_cancel' (Nat.le_of_lt above),
        update_of_ne (by omega), update_of_ne (by omega), header, size_chunk lt,
        Nat.add_sub_cancel' (Nat.le_of_lt lt)]
      cases b <;> rfl
    · unfold chunk
      split <;> exact at_nil
  · dsimp only
    rw [memory, update_self]
  · intro x high
    rw [memory, update_of_ne (by omega), update_of_ne (by omega), frame x high]
  · have stays : (if ((s₁.store (top env cells) w).store (link e b)
        (link env.alloca true)).allocb > q then q else
        ((s₁.store (top env cells) w).store (link e b) (link env.alloca true)).allocb) =
        s.allocb := by
      change (if s₁.allocb > q then q else s₁.allocb) = _
      rw [base, if_neg (by omega), opened.allocb]
    rw [stays, rest]
    rfl

/-! ### `grow` -/

/-- What a search and the growth of the arena keep. -/
structure Kept (env : Env) (s : Heap) (cells : List (Cell Nat)) (s' : Heap)
    (cells' : List (Cell Nat)) : Prop where
  top : top env cells ≤ top env cells'
  owned : ∀ h ws, BlockAt env.alloca cells' h (.owned ws) ↔ BlockAt env.alloca cells h (.owned ws)
  headers : ∀ x, x < Libc.top env cells → Header env.alloca cells' x → Header env.alloca cells x
  words : ∀ x, x < Libc.top env cells → ¬ Header env.alloca cells x → s'.mem x = s.mem x

theorem Kept.refl : Kept env s cells s cells where
  top := Nat.le_refl _
  owned := fun _ _ => Iff.rfl
  headers := fun _ _ header => header
  words := fun _ _ _ => rfl

theorem Kept.trans (first : Kept env s cells s' cells') (second : Kept env s' cells' s'' cells'') :
    Kept env s cells s'' cells'' where
  top := Nat.le_trans first.top second.top
  owned := fun h ws => (second.owned h ws).trans (first.owned h ws)
  headers := fun x lt header =>
    first.headers x lt (second.headers x (Nat.lt_of_lt_of_le lt first.top) header)
  words := by
    intro x lt none
    rw [second.words x (Nat.lt_of_lt_of_le lt first.top)
      fun header => none (first.headers x lt header), first.words x lt none]

theorem Merged.kept (merged : Merged env s cells s' cells') : Kept env s cells s' cells' where
  top := Nat.le_of_eq (by rw [Libc.top, Libc.top, merged.total])
  owned := merged.owned
  headers := fun x _ => merged.headers x
  words := fun x _ => merged.words x

/-- The last word of a new block of some pages, as its header names it: with the busy bit just
when the break has gone around. -/
theorem last_word {old k new : Nat} (lt : old < NWORDS) (some : 0 < k) (most : k ≤ 33)
    (new_eq : new = (old + k * BLOCK) % NWORDS) (up : old < new) :
    ∃ b, old + k * BLOCK - 1 = link (new - 1) b ∧ old < new - 1 ∧ new < NWORDS := by
  simp only [NWORDS, BLOCK] at lt new_eq ⊢
  by_cases below : old + k * 1024 < 32768
  · refine ⟨false, ?_, by omega, by omega⟩
    rw [link, if_neg (by simp)]
    omega
  · refine ⟨true, ?_, by omega, by omega⟩
    rw [link, if_pos rfl, BUSY]
    omega

/-- The words asked for are there, or the call leaves things as they are. -/
theorem askPages_spec (env : Env) (small : nw ≤ NWORDS + 1) (pos : 0 < s.curbrk) (lt : s.curbrk < NWORDS) :
    ∃ b s', askPages env nw ((nw + BLOCK) / BLOCK) s = (b, s') ∧
      ((b = none ∧ s' = { s with calls := s'.calls }) ∨
        ∃ temp e busy, b = some (s.curbrk, temp) ∧
          s' = { s with calls := s'.calls, curbrk := s'.curbrk } ∧
          s.curbrk + temp - 1 = link e busy ∧ s.curbrk < e ∧ e < s'.curbrk ∧ s'.curbrk < NWORDS) := by
  have pages : (nw + BLOCK) / BLOCK = nw / BLOCK + 1 := Nat.add_div_right _ (by simp [BLOCK])
  rw [pages, askPages]
  generalize run : sbrk env ((nw / BLOCK + 1) * BLOCK * WORD) s = b
  have whole : nw / BLOCK * FRAG ≤ nw := Nat.div_mul_le_self nw BLOCK
  rcases sbrk_eq run with ⟨null, rest⟩ | ⟨old, rest, new, up⟩
  · rw [if_neg (by simp [null]), if_pos whole]
    exact ⟨none, b.2, rfl, .inl ⟨rfl, rest⟩⟩
  rw [if_pos (by omega), old]
  have words : ((nw / BLOCK + 1) * BLOCK * WORD + 5) / WORD = (nw / BLOCK + 1) * BLOCK := by
    simp only [WORD, BLOCK]
    omega
  rw [words] at new
  have up := up (by simp [BLOCK, WORD])
  have most : nw / BLOCK + 1 ≤ 33 := by
    simp only [BLOCK, NWORDS] at small ⊢
    omega
  obtain ⟨busy, last, low, high⟩ := last_word lt (Nat.succ_pos _) most new up
  exact ⟨_, b.2, rfl, .inr ⟨_, b.2.curbrk - 1, busy, rfl, rest, last, low, by omega, high⟩⟩

/-- The arena grows by a block, or nothing changes. -/
theorem grow_spec (opened : Open env s cells) (small : nw ≤ NWORDS + 1) :
    ∃ s', (grow env nw s = some (false, s') ∧ s' = { s with calls := s'.calls }) ∨
      ∃ new, grow env nw s = some (true, s') ∧ Arena env s' (cells ++ new) ∧ Plain new ∧
        Kept env s cells s' (cells ++ new) ∧ s.curbrk < s'.curbrk ∧ s'.allocp = env.alloca := by
  have bounds : top env cells < s.curbrk ∧ s.curbrk < NWORDS := by
    rcases opened with arena | ⟨rfl, -, -, below, limit⟩
    · exact ⟨arena.below, arena.limit⟩
    · exact ⟨below, limit⟩
  unfold grow
  generalize zero : sbrk env 0 s = b
  have same : b.2 = { s with calls := b.2.calls } := by
    rcases sbrk_eq zero with ⟨-, rest⟩ | ⟨-, rest, new, -⟩
    · exact rest
    · have brk : b.2.curbrk = s.curbrk := by
        rw [new]
        exact Nat.mod_eq_of_lt bounds.2
      rw [rest, brk]
  have pages : 0 < (nw + BLOCK) / BLOCK := Nat.div_pos (Nat.le_add_left _ _) (by simp [BLOCK])
  have more : ¬ b.1 + (nw + BLOCK) / BLOCK * BLOCK ≤ b.1 := by
    simp only [BLOCK] at pages ⊢
    omega
  rw [if_neg more]
  have opened' : Open env b.2 cells := by
    rw [same]
    exact opened.imp (fun arena => { arena with })
      id
  have brk : b.2.curbrk = s.curbrk := by rw [same]
  obtain ⟨block, s₁, run, ⟨rfl, rest⟩ | ⟨temp, e, busy, rfl, rest, last, low, high, lt⟩⟩ :=
    askPages_spec env (s := b.2) small (by omega) (by omega)
  · rw [run]
    refine ⟨s₁, .inl ⟨rfl, ?_⟩⟩
    rw [rest, same]
  rw [run]
  dsimp only
  have opened₁ : Open env s₁ cells := by
    rw [rest]
    refine opened'.imp (fun arena => ⟨arena.base, arena.laid, arena.last, ?_, lt⟩) ?_
    · have := arena.below
      dsimp only
      omega
    · rintro ⟨none, base, empty, below, -⟩
      exact ⟨none, base, empty, by dsimp only; omega, lt⟩
  obtain ⟨s₂, entered, laid, end_, frame, rest₂⟩ :=
    ialloc_spec opened₁ (by omega) low (by omega) last
  rw [entered]
  have ends : top env (cells ++ [spacer (top env cells) b.2.curbrk, chunk b.2.curbrk e busy]) =
      e := by
    rw [top, total_append, total_cons, total_cons, total_nil, size_spacer (by omega),
      size_chunk low]
    simp only [top] at *
    omega
  have not_owned : ∀ h ws, ¬ BlockAt (top env cells)
      [spacer (top env cells) b.2.curbrk, chunk b.2.curbrk e busy] h (.owned ws) := by
    rintro h ws (⟨-, same⟩ | ⟨-, same⟩ | no)
    · unfold spacer at same
      split at same <;> cases same
    · unfold chunk at same
      split at same <;> cases same
    · exact no
  have brk₂ : s₂.curbrk = s₁.curbrk := by rw [rest₂]
  have mem₁ : s₁.mem = s.mem := by rw [rest, same]
  refine ⟨_, .inr ⟨_, rfl, ⟨?_, laid, ?_, ?_, ?_⟩, ?_, ⟨?_, ?_, ?_, ?_⟩, ?_, ?_⟩⟩
  · rw [rest₂]
    exact opened₁.allocb
  · rwa [ends]
  · rw [ends]
    dsimp only
    omega
  · dsimp only
    omega
  · intro c mem idle
    simp only [List.mem_cons, List.not_mem_nil, or_false] at mem
    rcases mem with rfl | rfl
    · unfold spacer at idle ⊢
      split at idle
      next yes => exact ⟨0, if_pos yes⟩
      next => cases idle
    · unfold chunk at idle ⊢
      split at idle
      next => cases idle
      next no => exact ⟨_, if_neg no⟩
  · rw [ends]
    omega
  · intro h ws
    rw [blockAt_append, ← top]
    simp [not_owned]
  · intro x lt' header
    rcases header_append.mp header with header | ⟨c, here⟩
    · exact header
    · have le := here.bounds.1
      rw [← top] at le
      omega
  · intro x lt' _
    rw [frame x lt', mem₁]
  · dsimp only
    omega
  · dsimp only
    rw [rest₂]
    exact opened₁.allocb

end V7Besm.Libc

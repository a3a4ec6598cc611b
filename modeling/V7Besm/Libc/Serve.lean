import V7Besm.Libc.Grow

/-!
A request is served, or refused.

The outer loop of `malloc` searches and lets the arena grow in turn. What comes out is a block
that was idle or is new, cut to the size of the request (`Served`), or an arena that is
otherwise as before (`Refused`).
-/

namespace V7Besm.Libc

open Tiles Words Function

variable {env : Env} {s s' s'' : Heap} {cells cells' cells'' pre post : List (Cell Nat)}
  {nw n x y : Nat}

/-! ### The words of memory -/

/-- The `n` words from `a` on. -/
def wordsAt (m : Nat → Nat) (a n : Nat) : List Nat := (List.range n).map fun i => m (a + i)

@[simp]
theorem length_wordsAt (m : Nat → Nat) (a n : Nat) : (wordsAt m a n).length = n := by
  simp [wordsAt]

theorem at_wordsAt (m : Nat → Nat) (a n : Nat) : At m a (wordsAt m a n) := by
  intro i lt
  simp [wordsAt]

/-! ### Taking a block -/

/-- What is left behind the block taken. -/
def remainder (n nw : Nat) (post : List (Cell Nat)) : List (Cell Nat) :=
  if n + 1 = nw then post else .idle (n - nw) :: post

theorem total_remainder (post : List (Cell Nat)) (fits : nw ≤ n + 1) :
    nw + total (remainder n nw post) = n + 1 + total post := by
  unfold remainder
  split
  next exact_ => omega
  next more =>
    rw [total_cons]
    simp only [Cell.size]
    omega

theorem blockAt_remainder {h a : Nat} {c : Cell Nat} (fits : nw ≤ n + 1) (busy : c.busy = true) :
    BlockAt (a + nw) (remainder n nw post) h c ↔ BlockAt (a + (n + 1)) post h c := by
  unfold remainder
  split
  next exact_ => rw [exact_]
  next more =>
    have not_idle : c ≠ .idle (n - nw) := by
      rintro rfl
      cases busy
    have ends : a + nw + (n - nw + 1) = a + (n + 1) := by omega
    simp only [BlockAt, Cell.size, not_idle, and_false, false_or, ends]

theorem plain_remainder (plain : Plain (pre ++ .idle n :: post)) {ws : List Nat} :
    Plain (pre ++ .owned ws :: remainder n nw post) := by
  intro c mem idle
  have old : c ∈ pre ++ .idle n :: post → ∃ k, c = .idle k := fun mem => plain c mem idle
  simp only [List.mem_append, List.mem_cons] at mem old
  rcases mem with mem | rfl | mem
  · exact old (.inl mem)
  · cases idle
  · unfold remainder at mem
    split at mem
    · exact old (.inr (.inr mem))
    · rcases List.mem_cons.mp mem with rfl | mem
      · exact ⟨_, rfl⟩
      · exact old (.inr (.inr mem))

theorem mem_take (s : Heap) (lt : y < NWORDS) (fits : x + nw ≤ y) :
    (take nw x y s).mem = update (if y = x + nw then s.mem else
      update s.mem (x + nw) (s.mem x)) x (link (x + nw) true) := by
  unfold take
  dsimp only
  by_cases exact_ : y = x + nw
  · rw [if_neg (by omega), if_pos exact_]
    change (Heap.store _ x (setbusy (x + nw))).mem = _
    rw [mem_store (by omega), setbusy_eq (by omega)]
  · rw [if_pos (by omega), if_neg exact_]
    change ((Heap.store _ (x + nw) (s.load x)).store x (setbusy (x + nw))).mem = _
    rw [mem_store (by omega), mem_store (by omega), setbusy_eq (by omega),
      load_eq (p := x) (by omega)]

theorem rest_take (nw x y : Nat) (s : Heap) : take nw x y s =
    { s with
      mem := (take nw x y s).mem
      allocp := x + nw
      allocx := if y > x + nw then s.load (x + nw) else s.allocx } := by
  unfold take
  dsimp only
  split <;> rfl

theorem take_spec (arena : Arena env s (pre ++ .idle n :: post)) (pos : 0 < nw)
    (fits : nw ≤ n + 1) :
    Arena env (take nw (after env pre) (after env pre + (n + 1)) s)
      (pre ++ .owned (wordsAt (take nw (after env pre) (after env pre + (n + 1)) s).mem
        (after env pre + 1) (nw - 1)) :: remainder n nw post) := by
  have inside : after env pre + (n + 1) ≤ top env (pre ++ .idle n :: post) :=
    BlockAt.le_top (blockAt_middle (c := .idle n))
  have memory := mem_take s (arena.lt inside) (Nat.add_le_add_left fits _)
  have rest := rest_take nw (after env pre) (after env pre + (n + 1)) s
  generalize take nw (after env pre) (after env pre + (n + 1)) s = s' at *
  have same_top : ∀ ws : List Nat, ws.length = nw - 1 →
      top env (pre ++ .owned ws :: remainder n nw post) = top env (pre ++ .idle n :: post) := by
    intro ws length
    have whole := total_remainder post fits
    simp only [top, total_append, total_cons, Cell.size, length]
    omega
  have other : ∀ x, x < after env pre ∨ after env pre + (n + 1) ≤ x → s'.mem x = s.mem x := by
    intro x out
    rw [memory, update_of_ne (by omega)]
    split
    next => rfl
    next => exact update_of_ne (by omega) _ _
  have words := at_wordsAt s'.mem (after env pre + 1) (nw - 1)
  generalize hw : wordsAt s'.mem (after env pre + 1) (nw - 1) = ws at words ⊢
  have length : ws.length = nw - 1 := by rw [← hw, length_wordsAt]
  have size : (Cell.owned ws).size = nw := by
    simp only [Cell.size, length]
    omega
  constructor
  case base =>
    rw [rest]
    exact arena.base
  case laid =>
    obtain ⟨before, -, -, behind⟩ := laid_append.mp arena.laid
    rw [laid_append]
    refine ⟨before.congr fun x _ high => other x (.inl high), ?_, words, ?_⟩
    · rw [size]
      exact (congrFun memory _).trans (update_self ..)
    have behind' : Laid link s'.mem (env.alloca + total pre + (n + 1)) post :=
      behind.congr fun x low _ => other x (.inr low)
    rw [size]
    unfold remainder
    split
    next exact_ => rwa [← exact_]
    next more =>
      refine ⟨?_, at_nil, ?_⟩
      · have header := arena.laid.header (blockAt_middle)
        change s'.mem (after env pre + nw) = _
        rw [memory, update_of_ne (by omega), if_neg (by omega), update_self]
        refine header.trans ?_
        simp only [Cell.size, Cell.busy]
        congr 1
        omega
      · have ends : env.alloca + total pre + nw + (Cell.idle (n - nw) : Cell Nat).size =
            env.alloca + total pre + (n + 1) := by
          simp only [Cell.size]
          omega
        rwa [ends]
  case last =>
    rw [same_top ws length, other _ (.inr inside)]
    exact arena.last
  case below =>
    rw [same_top ws length, rest]
    exact arena.below
  case limit =>
    rw [rest]
    exact arena.limit

/-! ### Served and refused -/

/-- The block `y` with the words `ws` has been handed out. -/
structure Served (env : Env) (s : Heap) (cells : List (Cell Nat)) (nw : Nat) (s' : Heap)
    (cells' : List (Cell Nat)) (y : Nat) (ws : List Nat) : Prop where
  arena : Arena env s' cells'
  plain : Plain cells'
  length : ws.length + 1 = nw
  block : BlockAt env.alloca cells' y (.owned ws)
  owned : ∀ h ws', BlockAt env.alloca cells' h (.owned ws') ↔
    BlockAt env.alloca cells h (.owned ws') ∨ h = y ∧ ws' = ws
  header : Header env.alloca cells y ∨ top env cells ≤ y
  pointer : s'.allocp = y + nw
  words : ∀ x, x < top env cells → ¬ Header env.alloca cells x → x ≠ y + nw → s'.mem x = s.mem x
  saved : y + nw < top env cells → ¬ Header env.alloca cells (y + nw) → s'.allocx = s.mem (y + nw)

/-- The search pointer names a header, or what an earlier search has left. -/
def Pointer (env : Env) (s : Heap) (cells : List (Cell Nat)) : Prop :=
  AtHeader env cells s.allocp ∨ Settled env s cells s.allocp

/-- The request has not been served. -/
structure Refused (env : Env) (s : Heap) (cells : List (Cell Nat)) (s' : Heap)
    (cells' : List (Cell Nat)) : Prop where
  opened : Open env s' cells'
  plain : Plain cells'
  kept : Kept env s cells s' cells'
  pointer : Pointer env s' cells'

theorem Served.of_kept {ws : List Nat} (kept : Kept env s cells s' cells')
    (served : Served env s' cells' nw s'' cells'' y ws) :
    Served env s cells nw s'' cells'' y ws where
  __ := served
  owned := fun h ws' => (served.owned h ws').trans (or_congr_left (kept.owned h ws'))
  header := by
    by_cases low : y < top env cells
    · refine .inl (kept.headers y low ?_)
      rcases served.header with header | above
      · exact header
      · have le := kept.top
        omega
    · exact .inr (Nat.not_lt.mp low)
  words := by
    intro x lt none ne
    have none' : ¬ Header env.alloca cells' x := fun header => none (kept.headers x lt header)
    rw [served.words x (Nat.lt_of_lt_of_le lt kept.top) none' ne, kept.words x lt none]
  saved := by
    intro lt none
    have none' : ¬ Header env.alloca cells' (y + nw) := fun header =>
      none (kept.headers _ lt header)
    rw [served.saved (Nat.lt_of_lt_of_le lt kept.top) none', kept.words _ lt none]

theorem Refused.of_kept (kept : Kept env s cells s' cells')
    (refused : Refused env s' cells' s'' cells'') : Refused env s cells s'' cells'' :=
  { refused with kept := kept.trans refused.kept }

/-- Taking an idle block with room serves the request. -/
theorem served_take (arena : Arena env s (pre ++ .idle n :: post))
    (plain : Plain (pre ++ .idle n :: post)) (pos : 0 < nw) (fits : nw ≤ n + 1) :
    ∃ cells' ws, Served env s (pre ++ .idle n :: post) nw
      (take nw (after env pre) (after env pre + (n + 1)) s) cells' (after env pre) ws := by
  have inside : after env pre + (n + 1) ≤ top env (pre ++ .idle n :: post) :=
    BlockAt.le_top (blockAt_middle (c := .idle n))
  have memory := mem_take s (arena.lt inside) (Nat.add_le_add_left fits _)
  have rest := rest_take nw (after env pre) (after env pre + (n + 1)) s
  have new := take_spec arena pos fits
  generalize take nw (after env pre) (after env pre + (n + 1)) s = s' at *
  have length : (wordsAt s'.mem (after env pre + 1) (nw - 1)).length + 1 = nw := by
    rw [length_wordsAt]
    omega
  refine ⟨_, _, new, plain_remainder plain, length, blockAt_middle, ?_, ?_, ?_, ?_, ?_⟩
  · intro h ws'
    simp only [blockAt_append, BlockAt, Cell.size, length, reduceCtorEq, and_false, false_or]
    rw [blockAt_remainder fits rfl]
    simp only [Cell.owned.injEq, after]
    tauto
  · exact .inl ⟨_, blockAt_middle⟩
  · rw [rest]
  · intro x _ none ne
    have other : x ≠ after env pre := by
      rintro rfl
      exact none ⟨_, blockAt_middle⟩
    rw [memory, update_of_ne other]
    split
    next => rfl
    next => exact update_of_ne ne _ _
  · intro lt none
    have more : n + 1 ≠ nw := by
      rintro rfl
      refine none ?_
      cases post with
      | nil =>
        simp only [top, total_append, total_cons, total_nil, Cell.size, after] at lt
        omega
      | cons d post => exact ⟨d, blockAt_append.mpr (.inr (.inr (.inl ⟨rfl, rfl⟩)))⟩
    rw [rest]
    rw [if_pos (by omega), load_eq (arena.lt (Nat.le_of_lt lt))]

/-! ### The outer loop -/

/-- The search pointer serves for a request of `nw` words: it names a header, or the block it names
is too small. -/
def Usable (env : Env) (s : Heap) (cells : List (Cell Nat)) (nw : Nat) : Prop :=
  AtHeader env cells s.allocp ∨ Settled env s cells s.allocp ∧ s.load s.allocp < s.allocp + nw

/-- The search, also in an arena that is empty still. -/
theorem searchArena_spec (opened : Open env s cells) (plain : Plain cells)
    (usable : Usable env s cells nw) :
    ∃ s', Finds env nw s cells s' (searchArena env nw s) ∨
      ∃ cells', Refused env s cells s' cells' ∧ s'.curbrk = s.curbrk ∧
        searchArena env nw s = some (.full, s') := by
  unfold searchArena
  rcases opened with arena | ⟨rfl, base, empty, below, lt⟩
  · have low : env.alloca < NWORDS := arena.lt (Nat.le_add_right _ _)
    rw [load_eq low, if_pos arena.alloca_ne]
    obtain ⟨s', ends⟩ : ∃ s', Finds env nw s cells s' (search nw limit 0 s.allocp s) ∨
        ∃ cells', Merged env s cells s' cells' ∧ Settled env s' cells' s.allocp ∧
          search nw limit 0 s.allocp s = some (.full, s') := by
      rcases usable with header | ⟨settled, small⟩
      · exact search_header nw arena plain header
      · exact search_stale nw arena plain settled small
    refine ⟨s', ends.imp id ?_⟩
    rintro ⟨cells', merged, settled, full⟩
    have same : s'.allocp = s.allocp ∧ s'.curbrk = s.curbrk := by
      rw [merged.rest]
      exact ⟨rfl, rfl⟩
    refine ⟨cells', ⟨.inl merged.arena, merged.plain, merged.kept, .inr ?_⟩, same.2, full⟩
    rwa [same.1]
  · have zero : ¬ s.load env.alloca ≠ 0 := by
      rw [load_eq (Nat.lt_trans below lt)]
      exact not_not.mpr empty
    rw [if_neg zero]
    refine ⟨s, .inr ⟨[], ⟨.inr ⟨rfl, base, empty, below, lt⟩, plain, .refl, ?_⟩, rfl, rfl⟩⟩
    exact usable.imp id And.left

theorem attempt_spec {fuel : Nat} (opened : Open env s cells) (plain : Plain cells)
    (usable : Usable env s cells nw) (pos : 0 < nw) (small : nw ≤ NWORDS + 1)
    (enough : NWORDS - s.curbrk < fuel) :
    (∃ s' cells' y ws, attempt env nw fuel s = some (y + 1, s') ∧
      Served env s cells nw s' cells' y ws) ∨
    ∃ s' cells', attempt env nw fuel s = some (0, s') ∧ Refused env s cells s' cells' := by
  induction fuel generalizing s cells with
  | zero => omega
  | succ fuel ih =>
    rw [attempt]
    obtain ⟨s₁, ⟨pre, n, post, merged, fits, found⟩ | ⟨cells₁, refused, brk, full⟩⟩ :=
      searchArena_spec opened plain usable
    · left
      rw [found]
      obtain ⟨cells', ws, served⟩ := served_take merged.arena merged.plain pos fits
      exact ⟨_, cells', _, ws, rfl, served.of_kept merged.kept⟩
    rw [full]
    dsimp only
    obtain ⟨s₂, ⟨run, same⟩ | ⟨new, run, arena, plain', kept, up, pointer⟩⟩ :=
      grow_spec refused.opened small
    · right
      rw [run]
      refine ⟨s₂, cells₁, rfl, ?_, refused.plain, ?_, ?_⟩
      · rw [same]
        exact refused.opened.imp (fun a => { a with }) id
      · rw [same]
        exact { refused.kept with }
      · rw [same]
        refine refused.pointer.imp id ?_
        intro settled
        cases settled with
        | fixed fixed => exact .fixed fixed
        | idle y n here low high word fixed => exact .idle y n here low high word fixed
    · rw [run]
      have both := refused.kept.trans kept
      have plain₂ : Plain (cells₁ ++ new) := by
        intro c mem
        rcases List.mem_append.mp mem with mem | mem
        · exact refused.plain c mem
        · exact plain' c mem
      have first : Usable env s₂ (cells₁ ++ new) nw := by
        left
        rw [pointer]
        exact ⟨[], _, rfl, rfl⟩
      have limit := arena.limit
      rcases ih (.inl arena) plain₂ first (by omega) with
        ⟨s', cells', y, ws, result, served⟩ | ⟨s', cells', result, refused'⟩
      · exact .inl ⟨s', cells', y, ws, result, served.of_kept both⟩
      · exact .inr ⟨s', cells', result, refused'.of_kept both⟩

end V7Besm.Libc

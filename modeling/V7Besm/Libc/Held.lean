import V7Besm.Libc.Client

/-!
The allocator never hands out a block that is held.

`Good` ties what the program holds to the blocks of the arena. Every call keeps it, unless it
searches from inside an idle block and finds room there; the block handed out then is not on
the ring.
-/

namespace V7Besm.Libc

open Tiles Words Links List

variable {env : Env} {s s' : Heap} {cells cells' pre post : List (Cell Nat)} {st : State}
  {nw n x y h p q nbytes : Nat} {ws : List Nat}

/-! ### The ring -/

theorem Arena.around_header {c : Cell Nat} (arena : Arena env s (pre ++ c :: post)) :
    around s (after env pre) = some (after env pre + c.size) := by
  have next : clearbusy (s.load (after env pre)) = after env pre + c.size := by
    rw [arena.load_header, clearbusy_link arena.lt_next]
  have pos := c.size_pos
  have low : env.alloca ≤ after env pre := Nat.le_add_right _ _
  rw [around, next, arena.base, if_neg (by omega)]

theorem Arena.around_top (arena : Arena env s cells) : around s (top env cells) = none := by
  have next : clearbusy (s.load (top env cells)) = env.alloca := by
    rw [load_eq (arena.lt (Nat.le_refl _)), arena.last,
      clearbusy_link (arena.lt (Nat.le_add_right _ _))]
  rw [around, next, arena.base, if_pos rfl]

theorem Arena.chain (pre : List (Cell Nat)) (arena : Arena env s (pre ++ post)) :
    Chain (around s) (some (after env pre))
      (headers (after env pre) post ++ [top env (pre ++ post)]) := by
  induction post generalizing pre with
  | nil =>
    rw [append_nil] at arena ⊢
    exact ⟨rfl, arena.around_top⟩
  | cons c post ih =>
    have whole : pre ++ c :: post = pre ++ [c] ++ post := by simp
    refine ⟨rfl, ?_⟩
    rw [arena.around_header]
    rw [whole] at arena ⊢
    have rest := ih (pre ++ [c]) arena
    rwa [after_append, total_cons, total_nil, Nat.add_zero] at rest

theorem Arena.isRing (arena : Arena env s cells) :
    IsRing s (headers env.alloca cells ++ [top env cells]) := by
  unfold IsRing
  rw [arena.base]
  exact Arena.chain [] arena

/-- The cells on the ring are the headers of the arena. -/
theorem Arena.mem_ring (arena : Arena env s cells) {l : List Nat} (ring : IsRing s l) :
    x ∈ l ↔ AtHeader env cells x := by
  rw [Chain.unique ring arena.isRing, mem_append, mem_singleton, mem_headers]
  constructor
  · rintro (⟨c, here⟩ | rfl)
    · exact atHeader_of_blockAt here
    · exact atHeader_top
  · rintro ⟨pre, post, rfl, rfl⟩
    cases post with
    | nil =>
      right
      rw [append_nil]
      rfl
    | cons c post => exact .inl ⟨c, blockAt_middle⟩

/-! ### Words of a block that is held -/

theorem Arena.rewrite (arena : Arena env s (pre ++ .owned ws :: post))
    (same : ∀ x, x ≤ after env pre ∨ after env pre + 1 + ws.length ≤ x → s'.mem x = s.mem x)
    (rest : s' = { s with mem := s'.mem, allocx := s'.allocx }) :
    Arena env s' (pre ++ .owned (wordsAt s'.mem (after env pre + 1) ws.length) :: post) := by
  have size : (Cell.owned (wordsAt s'.mem (after env pre + 1) ws.length)).size =
      (Cell.owned ws).size := by simp [Cell.size]
  have same_top : top env (pre ++ .owned (wordsAt s'.mem (after env pre + 1) ws.length) :: post) =
      top env (pre ++ .owned ws :: post) := by
    simp only [top, total_append, total_cons, size]
  have inside : after env pre + (ws.length + 1) ≤ top env (pre ++ .owned ws :: post) :=
    BlockAt.le_top (blockAt_middle (c := .owned ws))
  constructor
  case base =>
    rw [rest]
    exact arena.base
  case laid =>
    obtain ⟨before, header, -, behind⟩ := laid_append.mp arena.laid
    rw [laid_append]
    refine ⟨before.congr fun x _ high => same x (.inl (Nat.le_of_lt high)), ?_, ?_, ?_⟩
    · rw [size]
      exact (same _ (.inl (Nat.le_refl _))).trans header
    · exact at_wordsAt _ _ _
    · rw [size]
      refine behind.congr fun x low _ => same x (.inr ?_)
      simp only [Cell.size] at low
      rw [after]
      omega
  case last =>
    rw [same_top, same _ (.inr (by omega))]
    exact arena.last
  case below =>
    rw [same_top, rest]
    exact arena.below
  case limit =>
    rw [rest]
    exact arena.limit

theorem eq_wordsAt {m : Nat → Nat} {a : Nat} (words : At m a ws) : ws = wordsAt m a ws.length := by
  refine ext_getElem (by simp) fun i lt lt' => ?_
  rw [← words i lt]
  simp [wordsAt]

theorem wordsAt_add (m : Nat → Nat) (a k n : Nat) :
    wordsAt m a (k + n) = wordsAt m a k ++ wordsAt m (a + k) n := by
  unfold wordsAt
  rw [range_add, map_append, map_map]
  congr 2
  funext i
  simp [Nat.add_assoc]

/-! ### What is held -/

/-- What the program holds are the owned blocks of the arena. -/
def Held (env : Env) (cells : List (Cell Nat)) (live : Nat → Option (List Nat)) : Prop :=
  ∀ p ws, live p = some ws ↔ ∃ h, p = h + 1 ∧ BlockAt env.alloca cells h (.owned ws)

structure Good (env : Env) (st : State) (cells : List (Cell Nat)) : Prop where
  opened : Open env st.heap cells
  held : Held env cells st.live
  recent : ∀ p ws, st.recent p = some ws → ∃ h, p = h + 1 ∧ BlockAt env.alloca cells h (.freed ws)
  pointer : Pointer env st.heap cells
  header : ∀ p ws, st.recent p = some ws → AtHeader env cells st.heap.allocp

/-- The blocks held are disjoint, and the chain is a ring through their headers. -/
theorem Good.safe (good : Good env st cells) : Safe env st := by
  rcases good.opened with arena | ⟨rfl, base, empty, below, lt⟩
  · constructor
    · intro p ws p' ws' live live' lt
      obtain ⟨h, rfl, here⟩ := (good.held p ws).mp live
      obtain ⟨h', rfl, here'⟩ := (good.held p' ws').mp live'
      have apart := here.apart here' (by omega)
      simp only [Cell.size] at apart
      omega
    · intro p ws live
      obtain ⟨h, rfl, here⟩ := (good.held p ws).mp live
      exact arena.laid.words here
    · refine .inr ⟨_, arena.isRing, Chain.nodup arena.isRing, fun p ws live => ?_⟩
      obtain ⟨h, rfl, here⟩ := (good.held p ws).mp live
      exact ⟨Nat.succ_pos h, (arena.mem_ring arena.isRing).mpr (atHeader_of_blockAt here)⟩
  · have none : ∀ p, st.live p = none := by
      intro p
      cases live : st.live p with
      | none => rfl
      | some ws =>
        obtain ⟨h, -, no⟩ := (good.held p ws).mp live
        exact no.elim
    constructor
    · intro p ws p' ws' live
      rw [none] at live
      cases live
    · intro p ws live
      rw [none] at live
      cases live
    · left
      rw [load_eq (Nat.lt_trans below lt)]
      exact ⟨empty, none⟩

/-! ### Forgetting the blocks given back -/

theorem top_forget : top env (cells.map Cell.forget) = top env cells := by
  rw [top, top, total_forget]

theorem Open.forget (opened : Open env s cells) : Open env s (cells.map Cell.forget) := by
  rcases opened with arena | ⟨rfl, rest⟩
  · left
    refine ⟨arena.base, arena.laid.forget, ?_, ?_, arena.limit⟩
    · rw [top_forget]
      exact arena.last
    · rw [top_forget]
      exact arena.below
  · exact .inr ⟨rfl, rest⟩

theorem plain_forget : Plain (cells.map Cell.forget) := by
  intro c mem idle
  obtain ⟨d, -, rfl⟩ := mem_map.mp mem
  cases d with
  | idle n => exact ⟨n, rfl⟩
  | gap n | owned ws => cases idle
  | freed ws => exact ⟨_, rfl⟩

theorem AtHeader.forget (header : AtHeader env cells x) :
    AtHeader env (cells.map Cell.forget) x := by
  obtain ⟨pre, post, rfl, rfl⟩ := header
  exact ⟨pre.map Cell.forget, post.map Cell.forget, map_append, by
    rw [after, after, total_forget]⟩

theorem Fixed.forget (fixed : Fixed env cells x) : Fixed env (cells.map Cell.forget) x := by
  rcases fixed with rfl | ⟨c, here, busy⟩
  · exact .inl top_forget.symm
  · exact .inr ⟨c.forget, here.forget, by rw [Cell.busy_forget, busy]⟩

theorem Settled.forget (settled : Settled env s cells x) :
    Settled env s (cells.map Cell.forget) x := by
  cases settled with
  | fixed fixed => exact .fixed fixed.forget
  | idle y n here low high word fixed => exact .idle y n here.forget low high word fixed.forget

theorem Pointer.forget (pointer : Pointer env s cells) :
    Pointer env s (cells.map Cell.forget) := pointer.imp .forget .forget

theorem Held.forget {live : Nat → Option (List Nat)} (held : Held env cells live) :
    Held env (cells.map Cell.forget) live := by
  intro p ws
  rw [held p ws]
  simp only [blockAt_forget_owned]

/-! ### Requests -/

theorem malloc_spec (opened : Open env s cells) (plain : Plain cells) (pointer : Pointer env s cells)
    (usable : nbytes < NWORDS * WORD → Usable env s cells (blockWords nbytes)) :
    (∃ s' cells' y ws, malloc env nbytes s = some (y + 1, s') ∧
      Served env s cells (blockWords nbytes) s' cells' y ws) ∨
    ∃ s' cells', malloc env nbytes s = some (0, s') ∧ Refused env s cells s' cells' := by
  unfold malloc
  by_cases large : nbytes ≥ NWORDS * WORD
  · rw [if_pos large]
    exact .inr ⟨s, cells, rfl, opened, plain, .refl, pointer⟩
  rw [if_neg large]
  have pos : 0 < blockWords nbytes := by
    simp only [blockWords, WORD]
    omega
  have small : blockWords nbytes ≤ NWORDS + 1 := by
    simp only [blockWords, WORD, NWORDS] at large ⊢
    omega
  have enough : NWORDS - s.curbrk < limit := by
    simp only [limit, NWORDS]
    omega
  exact attempt_spec opened plain (usable (Nat.not_le.mp large)) pos small enough

theorem Refused.good {old : List Nat} (held : Held env cells st.live)
    (refused : Refused env s cells s' cells') : Good env (st.get 0 nbytes old s') cells' where
  opened := refused.opened
  held := by
    intro p ws
    change st.live p = some ws ↔ _
    rw [held p ws]
    simp only [refused.kept.owned]
  recent := by
    intro p ws no
    cases no
  pointer := refused.pointer
  header := by
    intro p ws no
    cases no

/-- The block `y` is handed out, and its words are changed by the call before it returns. -/
theorem Served.good {s'' : Heap} (old : List Nat) (held : Held env cells st.live)
    (served : Served env s cells (blockWords nbytes) s' cells' y ws)
    (same : ∀ x, x ≤ y ∨ y + blockWords nbytes ≤ x → s''.mem x = s'.mem x)
    (rest : s'' = { s' with mem := s''.mem })
    (kept : At s''.mem (y + 1) (old.take (payload nbytes))) :
    ∃ cells'', Good env (st.get (y + 1) nbytes old s'') cells'' := by
  obtain ⟨pre, post, rfl, rfl⟩ := served.block.split
  have length := served.length
  have arena : Arena env s'' (pre ++ .owned (wordsAt s''.mem (after env pre + 1) ws.length) :: post) := by
    refine served.arena.rewrite (fun x out => same x ?_) (by rw [rest])
    change x ≤ after env pre ∨ after env pre + blockWords nbytes ≤ x
    omega
  have whole : old.take (payload nbytes) ++ wordsAt s''.mem
      (env.alloca + total pre + 1 + (old.take (payload nbytes)).length)
      (payload nbytes - (old.take (payload nbytes)).length) =
      wordsAt s''.mem (after env pre + 1) ws.length := by
    have le := length_take_le (payload nbytes) old
    have size : ws.length = (old.take (payload nbytes)).length +
        (payload nbytes - (old.take (payload nbytes)).length) := by
      rw [Nat.add_sub_cancel' le, payload]
      omega
    rw [size, wordsAt_add]
    congr 1
    exact eq_wordsAt kept
  have size : (Cell.owned (wordsAt s''.mem (after env pre + 1) ws.length)).size =
      (Cell.owned ws).size := by simp [Cell.size]
  refine ⟨_, .inl arena, ?_, fun p ws no => (by cases no), .inl ?_,
    fun p ws no => by cases no⟩
  · intro p ws'
    simp only [blockAt_replace size, served.owned]
    change Function.update st.live _ (some _) p = some ws' ↔ _
    rw [whole]
    by_cases here : p = env.alloca + total pre + 1
    · subst here
      rw [Function.update_self]
      simp only [Option.some.injEq, Nat.add_right_cancel_iff, exists_eq_left', ne_eq,
        not_true_eq_false, false_and, or_false, true_and, Cell.owned.injEq]
      exact eq_comm
    · rw [Function.update_of_ne here, held p ws']
      refine exists_congr fun h => and_congr_right ?_
      rintro rfl
      have other : h ≠ env.alloca + total pre := by omega
      simp [other]
  · refine ⟨pre ++ [.owned (wordsAt s''.mem (after env pre + 1) ws.length)], post, by simp, ?_⟩
    have pointer : s''.allocp = s'.allocp := by rw [rest]
    change s''.allocp = _
    rw [pointer, served.pointer, after_append, total_cons, total_nil, size]
    simp only [Cell.size, after]
    omega

/-! ### The search pointer -/

theorem Serves.usable (good : Good env st cells) (serves : Serves env st.heap nbytes) :
    Usable env st.heap (cells.map Cell.forget) (blockWords nbytes) := by
  rcases good.opened with arena | ⟨rfl, base, empty, below, lt⟩
  · rcases serves with zero | ⟨l, ring, mem⟩ | small
    · rw [load_eq (arena.lt (Nat.le_add_right _ _))] at zero
      exact absurd zero arena.alloca_ne
    · exact .inl ((arena.mem_ring ring).mp mem).forget
    · rcases good.pointer with header | settled
      · exact .inl header.forget
      · exact .inr ⟨settled.forget, small⟩
  · rcases good.pointer with header | settled
    · exact .inl header.forget
    · cases settled with
      | fixed fixed => exact .inl fixed.atHeader.forget
      | idle y n here => exact here.elim

/-- If the condition fails, the search pointer is inside an idle block and has room there. -/
theorem stale_of_not_serves (good : Good env st cells) (not_serves : ¬ Serves env st.heap nbytes) :
    Arena env st.heap cells ∧ ∃ y n, BlockAt env.alloca cells y (.idle n) ∧ y < st.heap.allocp ∧
      st.heap.allocp + blockWords nbytes ≤ y + (n + 1) ∧
      st.heap.mem st.heap.allocp = link (y + (n + 1)) false ∧ Fixed env cells (y + (n + 1)) := by
  simp only [Serves, not_or, Nat.not_lt] at not_serves
  obtain ⟨not_empty, not_ring, room⟩ := not_serves
  rcases good.opened with arena | ⟨rfl, base, empty, below, lt⟩
  · have off : ¬ AtHeader env cells st.heap.allocp := fun header =>
      not_ring ⟨_, arena.isRing, (arena.mem_ring arena.isRing).mpr header⟩
    refine ⟨arena, ?_⟩
    rcases good.pointer with header | settled
    · exact absurd header off
    cases settled with
    | fixed fixed => exact absurd fixed.atHeader off
    | idle y n here low high word fixed =>
      have inside : st.heap.allocp < NWORDS := arena.lt (by have := fixed.le_top; omega)
      have ne : y ≠ st.heap.allocp := by
        rintro rfl
        exact off (atHeader_of_blockAt here)
      rw [load_eq inside, word] at room
      exact ⟨y, n, here, by omega, room, word, fixed⟩
  · rw [load_eq (Nat.lt_trans below lt)] at not_empty
    exact absurd empty not_empty

end V7Besm.Libc

import V7Besm.Libc.Malloc
import V7Besm.Tiles.Laid

/-!
The arena of the allocator and the search in it.

The blocks of the arena, from `alloca` on, tile memory up to its last cell, whose header leads back
to `alloca`. A search does nothing to the arena but merge idle blocks. The block where the search
began may be merged into the one before it, and then the search pointer is left inside an
idle block (`Settled`).
-/

namespace V7Besm.Libc

open Tiles Words Function

/-! ### Headers -/

/-- The header that names the word `a`. -/
def link (a : Nat) (busy : Bool) : Nat := if busy then a + BUSY else a

section Link

variable {a : Nat}

theorem testbusy_link (lt : a < NWORDS) (b : Bool) : testbusy (link a b) = b := by
  simp only [NWORDS] at lt
  cases b with
  | false | true => simp [testbusy, link, BUSY]; omega

theorem clearbusy_link (lt : a < NWORDS) (b : Bool) : clearbusy (link a b) = a := by
  unfold clearbusy
  rw [testbusy_link lt]
  cases b with
  | false => rfl
  | true => simp [link]

theorem setbusy_eq (lt : a < NWORDS) : setbusy a = link a true := by
  have idle := testbusy_link lt false
  rw [link, if_neg (by simp)] at idle
  unfold setbusy
  rw [idle]
  rfl

end Link

section Memory

variable {s : Heap} {p v x : Nat}

theorem load_eq (lt : p < NWORDS) : s.load p = s.mem p := by
  rw [Heap.load, Nat.mod_eq_of_lt lt]

theorem mem_store (lt : p < NWORDS) : (s.store p v).mem = update s.mem p v := by
  rw [Heap.store, Nat.mod_eq_of_lt lt]

end Memory

/-! ### The arena -/

variable {env : Env} {s s' s'' : Heap} {cells cells' cells'' pre post : List (Cell Nat)}
  {c : Cell Nat} {n x : Nat}

/-- The last cell. -/
def top (env : Env) (cells : List (Cell Nat)) : Nat := env.alloca + total cells

/-- The arena consists of the blocks `cells` and the last cell, all of it below the break. -/
structure Arena (env : Env) (s : Heap) (cells : List (Cell Nat)) : Prop where
  base : s.allocb = env.alloca
  laid : Laid link s.mem env.alloca cells
  last : s.mem (top env cells) = link env.alloca true
  below : top env cells < s.curbrk
  limit : s.curbrk < NWORDS

theorem Arena.lt (arena : Arena env s cells) (le : x ≤ top env cells) : x < NWORDS :=
  Nat.lt_of_le_of_lt le (Nat.lt_trans arena.below arena.limit)

theorem BlockAt.le_top {h : Nat} (here : BlockAt env.alloca cells h c) :
    h + c.size ≤ top env cells := here.bounds.2

/-- A cell that no search merges: the last one, or the header of a busy block. -/
def Fixed (env : Env) (cells : List (Cell Nat)) (x : Nat) : Prop :=
  x = top env cells ∨ ∃ c, BlockAt env.alloca cells x c ∧ c.busy = true

theorem Fixed.le_top (fixed : Fixed env cells x) : x ≤ top env cells := by
  rcases fixed with rfl | ⟨c, here, -⟩
  · exact Nat.le_refl _
  · exact Nat.le_trans (Nat.le_add_right _ _) (BlockAt.le_top here)

theorem Fixed.busy (arena : Arena env s cells) (fixed : Fixed env cells x) :
    testbusy (s.load x) = true := by
  rw [load_eq (arena.lt fixed.le_top)]
  rcases fixed with rfl | ⟨c, here, busy⟩
  · rw [arena.last]
    exact testbusy_link (arena.lt (Nat.le_add_right _ _)) true
  · rw [arena.laid.header here, testbusy_link (arena.lt (BlockAt.le_top here)), busy]

/-- What a search leaves of the block where it began: it cannot be merged, or it is idle up to
a cell that cannot, either in itself or as the rest of the block it has been merged into. -/
inductive Settled (env : Env) (s : Heap) (cells : List (Cell Nat)) (x : Nat) : Prop where
  | fixed : Fixed env cells x → Settled env s cells x
  | idle (y n : Nat) : BlockAt env.alloca cells y (.idle n) → y ≤ x → x < y + (n + 1) →
      s.mem x = link (y + (n + 1)) false → Fixed env cells (y + (n + 1)) → Settled env s cells x

/-- No blocks are held for their former owners. -/
def Plain (cells : List (Cell Nat)) : Prop := ∀ c ∈ cells, c.busy = false → ∃ n, c = .idle n

/-- What merging idle blocks preserves. -/
structure Merged (env : Env) (s : Heap) (cells : List (Cell Nat)) (s' : Heap)
    (cells' : List (Cell Nat)) : Prop where
  arena : Arena env s' cells'
  plain : Plain cells'
  total : total cells' = total cells
  owned : ∀ h ws, BlockAt env.alloca cells' h (.owned ws) ↔ BlockAt env.alloca cells h (.owned ws)
  headers : ∀ x, Header env.alloca cells' x → Header env.alloca cells x
  words : ∀ x, ¬ Header env.alloca cells x → s'.mem x = s.mem x
  rest : s' = { s with mem := s'.mem }
  settled : ∀ x, Settled env s cells x → Settled env s' cells' x

theorem Merged.refl (arena : Arena env s cells) (plain : Plain cells) :
    Merged env s cells s cells where
  arena := arena
  plain := plain
  total := rfl
  owned := fun _ _ => Iff.rfl
  headers := fun _ header => header
  words := fun _ _ => rfl
  rest := rfl
  settled := fun _ settled => settled

theorem Merged.trans (first : Merged env s cells s' cells')
    (second : Merged env s' cells' s'' cells'') : Merged env s cells s'' cells'' where
  arena := second.arena
  plain := second.plain
  total := second.total.trans first.total
  owned := fun h ws => (second.owned h ws).trans (first.owned h ws)
  headers := fun x header => first.headers x (second.headers x header)
  words := fun x none => (second.words x fun header => none (first.headers x header)).trans
    (first.words x none)
  rest := by
    rw [second.rest, first.rest]
  settled := fun x settled => second.settled x (first.settled x settled)

/-! ### Merging two blocks -/

section Merge

variable {k : Nat}

theorem blockAt_merge_iff {a h : Nat} (busy : c.busy = true) :
    BlockAt a (pre ++ .idle (n + k + 1) :: post) h c ↔
      BlockAt a (pre ++ .idle n :: .idle k :: post) h c := by
  have not_idle : ∀ j, c ≠ .idle j := by
    rintro j rfl
    cases busy
  have size : a + total pre + (n + 1) + (k + 1) = a + total pre + (n + k + 1 + 1) := by omega
  simp only [blockAt_append, BlockAt, Cell.size, not_idle, and_false, false_or, size]

theorem total_merge : total (pre ++ .idle (n + k + 1) :: post) =
    total (pre ++ .idle n :: .idle k :: post) := by
  simp only [total_append, total_cons, Cell.size]
  omega

theorem fixed_merge (fixed : Fixed env (pre ++ .idle n :: .idle k :: post) x) :
    Fixed env (pre ++ .idle (n + k + 1) :: post) x := by
  rcases fixed with rfl | ⟨c, here, busy⟩
  · left
    rw [top, top, total_merge]
  · exact .inr ⟨c, (blockAt_merge_iff busy).mpr here, busy⟩

/-- The block `c` is not merged: the block `d` stands right behind it. -/
theorem not_fixed {d : Cell Nat} (idle : d.busy = false) :
    ¬ Fixed env (pre ++ c :: d :: post) (env.alloca + total pre + c.size) := by
  have here : BlockAt env.alloca (pre ++ c :: d :: post) (env.alloca + total pre + c.size) d :=
    blockAt_append.mpr (.inr (.inr (.inl ⟨rfl, rfl⟩)))
  rintro (last | ⟨e, there, busy⟩)
  · have inside := BlockAt.le_top here
    have pos := d.size_pos
    omega
  · rw [here.unique there, busy] at idle
    cases idle

/-- The search pointer is settled when two idle blocks are merged. -/
theorem settled_merge {v : Nat} (settled : Settled env s (pre ++ .idle n :: .idle k :: post) x)
    (lt : env.alloca + total pre < NWORDS) :
    Settled env (s.store (env.alloca + total pre) v) (pre ++ .idle (n + k + 1) :: post) x := by
  cases settled with
  | fixed fixed => exact .fixed (fixed_merge fixed)
  | idle y j here low high word fixed =>
    have other : x ≠ env.alloca + total pre →
        (s.store (env.alloca + total pre) v).mem x = link (y + (j + 1)) false := by
      intro ne
      rw [mem_store lt, update_of_ne ne, word]
    rcases blockAt_append.mp here with before | ⟨rfl, same⟩ | ⟨rfl, same⟩ | behind
    · have ends := before.bounds.2
      simp only [Cell.size] at ends
      exact .idle y j (blockAt_append.mpr (.inl before)) low high (other (by omega))
        (fixed_merge fixed)
    · -- the first of the two: it is not followed by a cell that cannot be merged
      cases same
      exact absurd fixed (not_fixed rfl)
    · -- the second
      cases same
      simp only [Cell.size] at low high fixed other ⊢
      refine .idle (env.alloca + total pre) (n + k + 1) blockAt_middle (by omega) (by omega) ?_ ?_
      · rw [other (by omega)]
        congr 1
        omega
      · convert fixed_merge fixed using 1
        omega
    · have begins := behind.bounds.1
      simp only [Cell.size] at begins
      refine .idle y j (blockAt_append.mpr (.inr (.inr ?_))) low high (other (by omega))
        (fixed_merge fixed)
      convert behind using 1
      simp only [Cell.size]
      omega

/-- An idle block becomes a part of the idle block before it. -/
theorem Merged.merge (arena : Arena env s (pre ++ .idle n :: .idle k :: post))
    (plain : Plain (pre ++ .idle n :: .idle k :: post)) :
    Merged env s (pre ++ .idle n :: .idle k :: post)
      (s.store (env.alloca + Tiles.total pre) (s.load (env.alloca + Tiles.total pre + (n + 1))))
      (pre ++ .idle (n + k + 1) :: post) := by
  have second : BlockAt env.alloca (pre ++ .idle n :: .idle k :: post)
      (env.alloca + Tiles.total pre + (n + 1)) (.idle k) :=
    blockAt_append.mpr (.inr (.inr (.inl ⟨rfl, rfl⟩)))
  have inside := BlockAt.le_top second
  have lt : env.alloca + Tiles.total pre < NWORDS := arena.lt (by omega)
  have word : s.load (env.alloca + Tiles.total pre + (n + 1)) =
      link (env.alloca + Tiles.total pre + (n + k + 1 + 1)) false := by
    rw [load_eq (arena.lt (by omega)), arena.laid.header second]
    simp only [Cell.size, Cell.busy]
    congr 1
    omega
  have same_top : top env (pre ++ .idle (n + k + 1) :: post) =
      top env (pre ++ .idle n :: .idle k :: post) := by rw [top, top, total_merge]
  constructor
  case arena =>
    constructor
    case base => exact arena.base
    case laid =>
      obtain ⟨before, -, -, -, -, behind⟩ := laid_append.mp arena.laid
      rw [mem_store lt, laid_append]
      refine ⟨before.congr fun y _ high => update_of_ne (by omega) _ _, ?_, at_nil, ?_⟩
      · rw [update_self, word]
        rfl
      · simp only [Cell.size] at behind ⊢
        have place : env.alloca + Tiles.total pre + (n + k + 1 + 1) =
            env.alloca + Tiles.total pre + (n + 1) + (k + 1) := by omega
        rw [place]
        exact behind.congr fun y low _ => update_of_ne (by omega) _ _
    case last =>
      rw [same_top, mem_store lt, update_of_ne (by omega)]
      exact arena.last
    case below =>
      rw [same_top]
      exact arena.below
    case limit => exact arena.limit
  case plain =>
    intro c mem
    rcases List.mem_append.mp mem with mem | mem
    · exact plain c (List.mem_append_left _ mem)
    · rcases List.mem_cons.mp mem with rfl | mem
      · exact fun _ => ⟨_, rfl⟩
      · exact plain c (List.mem_append_right _ (by simp [mem]))
  case total => exact total_merge
  case owned => exact fun h ws => blockAt_merge_iff rfl
  case headers =>
    intro x header
    simp only [header_append, header_cons, Cell.size] at header ⊢
    have place : env.alloca + Tiles.total pre + (n + k + 1 + 1) =
        env.alloca + Tiles.total pre + (n + 1) + (k + 1) := by omega
    rw [place] at header
    tauto
  case words =>
    intro x none
    rw [mem_store lt, update_of_ne]
    rintro rfl
    exact none ⟨_, blockAt_middle⟩
  case rest => rfl
  case settled => exact fun x settled => settled_merge settled lt

end Merge

end V7Besm.Libc

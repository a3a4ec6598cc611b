import V7Besm.Libc.Arena

/-!
The search of `malloc`.

From a header of the arena, or from a pointer that an earlier search has left inside an idle
block, the search ends at an idle block with room for the request, or it has been all around
the arena; either way it has merged blocks and done nothing else.
-/

namespace V7Besm.Libc

open Tiles Words List

variable {env : Env} {s s' : Heap} {cells cells' pre post : List (Cell Nat)}
  {c : Cell Nat} {nw n x fuel temp : Nat}

/-- The header of the block behind `pre`. -/
def after (env : Env) (pre : List (Cell Nat)) : Nat := env.alloca + total pre

theorem after_append (pre' : List (Cell Nat)) :
    after env (pre ++ pre') = after env pre + total pre' := by
  rw [after, after, total_append, Nat.add_assoc]

theorem after_le (env : Env) (pre post : List (Cell Nat)) :
    after env pre ≤ top env (pre ++ post) := by
  rw [after, top, total_append]
  omega

/-! ### One block -/

section

variable (arena : Arena env s (pre ++ c :: post))
include arena

theorem Arena.load_header : s.load (after env pre) = link (after env pre + c.size) c.busy := by
  rw [load_eq (arena.lt (after_le env pre _))]
  exact arena.laid.header blockAt_middle

theorem Arena.lt_next : after env pre + c.size < NWORDS := arena.lt (BlockAt.le_top blockAt_middle)

theorem Arena.testbusy_header : testbusy (s.load (after env pre)) = c.busy := by
  rw [arena.load_header, testbusy_link arena.lt_next]

end

theorem coalesce_spec (arena : Arena env s (pre ++ .idle n :: post))
    (plain : Plain (pre ++ .idle n :: post)) (enough : post.length < fuel) :
    ∃ s' k post', coalesce (after env pre) fuel s = some (after env pre + (k + 1), s') ∧
      Merged env s (pre ++ .idle n :: post) s' (pre ++ .idle k :: post') ∧
      post'.length ≤ post.length ∧ Fixed env (pre ++ .idle k :: post') (after env pre + (k + 1)) := by
  induction fuel generalizing s n post with
  | zero => omega
  | succ fuel ih =>
    have header : s.load (after env pre) = after env pre + (n + 1) := arena.load_header
    rw [coalesce, header]
    cases post with
    | nil =>
      have fixed : Fixed env (pre ++ [.idle n]) (after env pre + (n + 1)) := by
        left
        simp [top, after, Cell.size]
        omega
      rw [if_pos (fixed.busy arena)]
      exact ⟨s, n, [], rfl, .refl arena plain, Nat.le_refl _, fixed⟩
    | cons d post =>
      have next : BlockAt env.alloca (pre ++ .idle n :: d :: post) (after env pre + (n + 1)) d :=
        blockAt_append.mpr (.inr (.inr (.inl ⟨rfl, rfl⟩)))
      have le := BlockAt.le_top next
      have test : testbusy (s.load (after env pre + (n + 1))) = d.busy := by
        rw [load_eq (arena.lt (by omega)), arena.laid.header next, testbusy_link (arena.lt le)]
      rw [test]
      split
      next busy =>
        exact ⟨s, n, d :: post, rfl, .refl arena plain, Nat.le_refl _, .inr ⟨d, next, busy⟩⟩
      next idle =>
        obtain ⟨k, rfl⟩ := plain d (by simp) (eq_false_of_ne_true idle)
        have step := Merged.merge arena plain
        have short : post.length < fuel := by
          simp only [length_cons] at enough
          omega
        obtain ⟨s', j, post', run, merged, fewer, fixed⟩ := ih step.arena step.plain short
        refine ⟨s', j, post', run, step.trans merged, ?_, fixed⟩
        simp only [length_cons]
        omega

/-- What trying the block behind `pre` does: it may grow, and the search goes on from its end
unless there is room. -/
theorem tryBlock_spec (nw : Nat) (arena : Arena env s (pre ++ c :: post))
    (plain : Plain (pre ++ c :: post)) :
    ∃ s' c' post' room, tryBlock nw (after env pre) s = some (room, s') ∧
      Merged env s (pre ++ c :: post) s' (pre ++ c' :: post') ∧ post'.length ≤ post.length ∧
      Settled env s' (pre ++ c' :: post') (after env pre) ∧
      ∀ q, room = some q → ∃ k, c' = .idle k ∧ q = after env pre + (k + 1) ∧ nw ≤ k + 1 := by
  unfold tryBlock
  rw [arena.testbusy_header]
  cases busy : c.busy with
  | true =>
    refine ⟨s, c, post, none, rfl, .refl arena plain, Nat.le_refl _, ?_, nofun⟩
    exact .fixed (.inr ⟨c, blockAt_middle, busy⟩)
  | false =>
    obtain ⟨n, rfl⟩ := plain c (by simp) busy
    have enough : post.length < limit := by
      have length := length_le_total (pre ++ .idle n :: post)
      have inside := arena.lt (Nat.le_refl _)
      simp only [top, length_append, length_cons] at length inside
      simp only [limit]
      omega
    obtain ⟨s', k, post', run, merged, fewer, fixed⟩ := coalesce_spec arena plain enough
    refine ⟨s', .idle k, post', _, by rw [run]; rfl, merged, fewer, ?_, ?_⟩
    · refine .idle (after env pre) k blockAt_middle (Nat.le_refl _) (by omega) ?_ fixed
      exact merged.arena.laid.header blockAt_middle
    · intro q room
      split at room
      next fits =>
        cases room
        exact ⟨k, rfl, rfl, by omega⟩
      next => cases room

/-! ### A round -/

/-- A search has found the room it needs: the idle block behind `pre`. -/
def Finds (env : Env) (nw : Nat) (s : Heap) (cells : List (Cell Nat)) (s' : Heap)
    (r : Option (Outcome × Heap)) : Prop :=
  ∃ pre n post, Merged env s cells s' (pre ++ .idle n :: post) ∧ nw ≤ n + 1 ∧
    r = some (.found (after env pre) (after env pre + (n + 1)), s')

theorem Finds.of_merged {r : Option (Outcome × Heap)} {s'' : Heap}
    (merged : Merged env s cells s' cells') (finds : Finds env nw s' cells' s'' r) :
    Finds env nw s cells s'' r := by
  obtain ⟨pre, n, post, more, room, found⟩ := finds
  exact ⟨pre, n, post, merged.trans more, room, found⟩

theorem search_block (nw fuel temp : Nat) (arena : Arena env s (pre ++ c :: post))
    (plain : Plain (pre ++ c :: post)) :
    ∃ s' c' post', Merged env s (pre ++ c :: post) s' (pre ++ c' :: post') ∧
      post'.length ≤ post.length ∧ Settled env s' (pre ++ c' :: post') (after env pre) ∧
      (Finds env nw s (pre ++ c :: post) s' (search nw (fuel + 1) temp (after env pre) s) ∨
        search nw (fuel + 1) temp (after env pre) s =
          search nw fuel temp (after env (pre ++ [c'])) s') := by
  obtain ⟨s', c', post', room, run, merged, fewer, settled, fits⟩ := tryBlock_spec nw arena plain
  refine ⟨s', c', post', merged, fewer, settled, ?_⟩
  rw [search, run]
  cases room with
  | some q =>
    obtain ⟨k, rfl, rfl, le⟩ := fits q rfl
    exact .inl ⟨pre, k, post', merged, le, rfl⟩
  | none =>
    have next : clearbusy (s'.load (after env pre)) = after env pre + c'.size := by
      rw [merged.arena.load_header, clearbusy_link merged.arena.lt_next]
    have pos := c'.size_pos
    right
    dsimp only
    rw [next, if_neg (by omega), after_append, total_cons, total_nil, Nat.add_zero]

/-- The search goes on up to the last cell, or ends before. -/
theorem search_round (nw temp : Nat) (arena : Arena env s (pre ++ post)) (plain : Plain (pre ++ post))
    (enough : post.length + n ≤ fuel) :
    ∃ s' cells', Merged env s (pre ++ post) s' cells' ∧
      (Finds env nw s (pre ++ post) s' (search nw fuel temp (after env pre) s) ∨
        ∃ rest, n ≤ rest ∧ search nw fuel temp (after env pre) s =
          search nw rest temp (top env cells') s') := by
  induction fuel generalizing s pre post with
  | zero =>
    obtain ⟨rfl, rfl⟩ : post = [] ∧ n = 0 := by
      simpa using enough
    refine ⟨s, pre ++ [], .refl arena plain, .inr ⟨0, Nat.le_refl _, rfl⟩⟩
  | succ fuel ih =>
    cases post with
    | nil =>
      refine ⟨s, pre ++ [], .refl arena plain, .inr ⟨fuel + 1, by simpa using enough, ?_⟩⟩
      rw [append_nil]
      rfl
    | cons c post =>
      obtain ⟨s', c', post', merged, fewer, -, finds | goes⟩ :=
        search_block nw fuel temp arena plain
      · exact ⟨s', _, merged, .inl finds⟩
      have whole : pre ++ c' :: post' = pre ++ [c'] ++ post' := by simp
      have short : post'.length + n ≤ fuel := by
        simp only [length_cons] at enough
        omega
      rw [whole] at merged
      obtain ⟨s'', cells'', more, ends⟩ := ih merged.arena merged.plain short
      rw [goes]
      refine ⟨s'', cells'', merged.trans more, ?_⟩
      rcases ends with finds | goes'
      · exact .inl (.of_merged merged finds)
      · exact .inr goes'

/-- At the last cell the search begins a new round, or ends. -/
theorem search_top (arena : Arena env s cells) :
    search nw (fuel + 1) temp (top env cells) s =
      if temp + 1 > 1 then some (.full, s) else search nw fuel (temp + 1) env.alloca s := by
  have busy : testbusy (s.load (top env cells)) = true := Fixed.busy arena (.inl rfl)
  have le : env.alloca ≤ top env cells := Nat.le_add_right _ _
  have next : clearbusy (s.load (top env cells)) = env.alloca := by
    rw [load_eq (arena.lt (Nat.le_refl _)), arena.last, clearbusy_link (arena.lt le)]
  rw [search, tryBlock, if_pos busy]
  dsimp only
  rw [next, if_pos le, arena.base, if_neg (not_not.mpr rfl)]

/-! ### The search -/

/-- The search has been all around: blocks have been merged, and what the search pointer names
is settled. -/
def Fails (env : Env) (s : Heap) (cells : List (Cell Nat)) (s' : Heap)
    (r : Option (Outcome × Heap)) : Prop :=
  ∃ cells', Merged env s cells s' cells' ∧ r = some (.full, s')

theorem Fails.of_merged {r : Option (Outcome × Heap)} {s'' : Heap}
    (merged : Merged env s cells s' cells') (fails : Fails env s' cells' s'' r) :
    Fails env s cells s'' r := by
  obtain ⟨cells'', more, full⟩ := fails
  exact ⟨cells'', merged.trans more, full⟩

theorem search_again (nw : Nat) (arena : Arena env s cells) (plain : Plain cells)
    (enough : cells.length + 1 ≤ fuel) :
    ∃ s', Finds env nw s cells s' (search nw fuel 1 env.alloca s) ∨
      Fails env s cells s' (search nw fuel 1 env.alloca s) := by
  obtain ⟨s', cells', merged, finds | ⟨rest, left, goes⟩⟩ :=
    search_round nw 1 (nil_append cells ▸ arena : Arena env s ([] ++ cells)) plain enough
  · exact ⟨s', .inl finds⟩
  · refine ⟨s', .inr ⟨cells', merged, ?_⟩⟩
    obtain ⟨rest, rfl⟩ : ∃ rest', rest = rest' + 1 := ⟨rest - 1, by omega⟩
    change search nw fuel 1 (after env []) s = _
    rw [goes, search_top merged.arena, if_pos (by omega)]

theorem search_from (nw fuel : Nat) (arena : Arena env s (pre ++ post)) (plain : Plain (pre ++ post))
    (enough : post.length + NWORDS + 1 ≤ fuel) :
    ∃ s', Finds env nw s (pre ++ post) s' (search nw fuel 0 (after env pre) s) ∨
      Fails env s (pre ++ post) s' (search nw fuel 0 (after env pre) s) := by
  obtain ⟨s', cells', merged, finds | ⟨rest, left, goes⟩⟩ :=
    search_round nw 0 (n := NWORDS + 1) arena plain (by omega)
  · exact ⟨s', .inl finds⟩
  obtain ⟨rest, rfl⟩ : ∃ rest', rest = rest' + 1 := ⟨rest - 1, by omega⟩
  rw [goes, search_top merged.arena, if_neg (by omega)]
  have length := length_le_total cells'
  have inside := merged.arena.lt (Nat.le_refl _)
  rw [top] at inside
  obtain ⟨s'', ends⟩ := search_again nw merged.arena merged.plain
    (Nat.le_trans (by omega : cells'.length + 1 ≤ NWORDS) (by omega : NWORDS ≤ rest))
  refine ⟨s'', ?_⟩
  exact ends.imp (.of_merged merged) (.of_merged merged)

/-! ### The search pointer -/

/-- The search pointer names a header of the arena. -/
def AtHeader (env : Env) (cells : List (Cell Nat)) (x : Nat) : Prop :=
  ∃ pre post, cells = pre ++ post ∧ x = after env pre

theorem atHeader_of_blockAt (here : BlockAt env.alloca cells x c) : AtHeader env cells x := by
  obtain ⟨pre, post, rfl, rfl⟩ := here.split
  exact ⟨pre, c :: post, rfl, rfl⟩

theorem atHeader_top : AtHeader env cells (top env cells) :=
  ⟨cells, [], (append_nil cells).symm, rfl⟩

theorem Fixed.atHeader (fixed : Fixed env cells x) : AtHeader env cells x := by
  rcases fixed with rfl | ⟨c, here, -⟩
  · exact atHeader_top
  · exact atHeader_of_blockAt here

theorem search_header (nw : Nat) (arena : Arena env s cells) (plain : Plain cells)
    (header : AtHeader env cells x) :
    ∃ s', Finds env nw s cells s' (search nw limit 0 x s) ∨
      ∃ cells', Merged env s cells s' cells' ∧ Settled env s' cells' x ∧
        search nw limit 0 x s = some (.full, s') := by
  obtain ⟨pre, post, rfl, rfl⟩ := header
  have length := length_le_total (pre ++ post)
  have inside := arena.lt (Nat.le_refl _)
  rw [top] at inside
  cases post with
  | nil =>
    have settled : Settled env s (pre ++ []) (after env pre) := by
      refine .fixed (.inl ?_)
      rw [append_nil]
      rfl
    obtain ⟨s', finds | ⟨cells', merged, full⟩⟩ :=
      search_from nw limit arena plain (by simp [limit, NWORDS])
    · exact ⟨s', .inl finds⟩
    · exact ⟨s', .inr ⟨cells', merged, merged.settled _ settled, full⟩⟩
  | cons c post =>
    have enough : post.length + NWORDS + 1 ≤ limit - 1 := by
      simp only [length_append, length_cons] at length
      simp only [limit]
      omega
    obtain ⟨s₁, c', post', first, fewer, settled, finds | goes⟩ :=
      search_block nw (limit - 1) 0 arena plain
    · exact ⟨s₁, .inl finds⟩
    have whole : pre ++ c' :: post' = pre ++ [c'] ++ post' := by simp
    rw [whole] at first settled
    obtain ⟨s', ends⟩ := search_from nw (limit - 1) first.arena first.plain (by omega)
    change search nw limit 0 (after env pre) s = _ at goes
    rw [goes]
    refine ⟨s', ends.imp (.of_merged first) ?_⟩
    rintro ⟨cells', more, full⟩
    exact ⟨cells', first.trans more, more.settled _ settled, full⟩

/-- The rest of an idle block, from `x` up to the cell `e`, looks like a block. -/
theorem tryBlock_stale {e : Nat} (nw : Nat) (arena : Arena env s cells) (le : x ≤ e)
    (word : s.mem x = link e false) (fixed : Fixed env cells e) :
    tryBlock nw x s = some (if x + nw ≤ e then some e else none, s) := by
  have lt : e < NWORDS := arena.lt fixed.le_top
  have load : s.load x = link e false := by rw [load_eq (by omega), word]
  rw [tryBlock, load, testbusy_link lt, if_neg (by simp)]
  change (coalesce x (limit - 1 + 1) s).map _ = _
  rw [coalesce, load]
  change (if testbusy (s.load e) = true then some (e, s) else _).map _ = _
  rw [if_pos (fixed.busy arena)]
  simp only [Option.map_some, ge_iff_le, Nat.le_add_right, and_true]

/-- A search that begins inside an idle block, which has no room behind the search pointer. -/
theorem search_stale (nw : Nat) (arena : Arena env s cells) (plain : Plain cells)
    (settled : Settled env s cells x) (small : s.load x < x + nw) :
    ∃ s', Finds env nw s cells s' (search nw limit 0 x s) ∨
      ∃ cells', Merged env s cells s' cells' ∧ Settled env s' cells' x ∧
        search nw limit 0 x s = some (.full, s') := by
  have settled' := settled
  cases settled with
  | fixed fixed => exact search_header nw arena plain fixed.atHeader
  | idle y n here low high word fixed =>
    have lt : y + (n + 1) < NWORDS := arena.lt fixed.le_top
    have load : s.load x = link (y + (n + 1)) false := by rw [load_eq (by omega), word]
    have try_x := tryBlock_stale nw arena (by omega) word fixed
    rw [load, link, if_neg (by simp)] at small
    rw [if_neg (by omega)] at try_x
    have goes : search nw limit 0 x s = search nw (limit - 1) 0 (y + (n + 1)) s := by
      change search nw (limit - 1 + 1) 0 x s = _
      rw [search, try_x]
      dsimp only
      rw [load, clearbusy_link lt, if_neg (by omega)]
    obtain ⟨pre, post, rfl, there⟩ := fixed.atHeader
    have length := length_le_total (pre ++ post)
    have inside := arena.lt (Nat.le_refl _)
    rw [top] at inside
    have enough : post.length + NWORDS + 1 ≤ limit - 1 := by
      simp only [length_append] at length
      simp only [limit]
      omega
    rw [goes, there]
    obtain ⟨s', ends⟩ := search_from nw (limit - 1) arena plain enough
    refine ⟨s', ends.imp id ?_⟩
    rintro ⟨cells', merged, full⟩
    exact ⟨cells', merged, merged.settled _ settled', full⟩

end V7Besm.Libc

import V7Besm.Coop.Trace
import V7Besm.Links.Chain

/-!
Character lists (`prim.c`).

A clist is a chain of blocks from one shared pool. Its head cursor names the block
and the slot the next character comes out of, its tail cursor the block and the slot
the next one goes in to. `contents` reads the characters of a clist off its blocks;
over it `getc` and `putc` are the two ends of a queue.
-/

namespace V7Besm.Tty

open Links Coop Function List

abbrev NCLIST : Nat := 100
abbrev CBSIZE : Nat := 30

/-- `struct cblock *`, a block of `cfree`. -/
abbrev Block := Fin NCLIST

/-- `struct clist`. -/
structure Clist where
  cc : Nat := 0
  hd : Option Block := none
  tl : Option Block := none
  hix : Nat := 0
  tix : Nat := 0
  deriving DecidableEq, Repr

/-- The blocks with their links, the free ones, and the clists, by whatever names they
have. -/
structure Clists (ι : Type) where
  next : Block → Option Block
  info : Block → Nat → Nat
  cfreelist : Option Block
  list : ι → Clist

variable {ι : Type} [DecidableEq ι]

namespace Clists

def setList (s : Clists ι) (i : ι) (p : Clist) : Clists ι := { s with list := update s.list i p }

/-- Return a block to the pool. -/
def release (s : Clists ι) (bp : Block) : Clists ι :=
  { s with next := update s.next bp s.cfreelist, cfreelist := some bp }

/-- Take one character off the front of a clist; `none` if it is empty. -/
def getc (s : Clists ι) (i : ι) : Option Nat × Clists ι :=
  let p := s.list i
  if p.cc = 0 then (none, s.setList i { p with hd := none, tl := none })
  else
    match p.hd with
    | none => (none, s)
    | some bp =>
      let c := s.info bp p.hix
      if p.cc - 1 = 0 then
        (some c, (s.setList i
          { p with hix := p.hix + 1, cc := p.cc - 1, hd := none, tl := none }).release bp)
      else if p.hix + 1 = CBSIZE then
        (some c, (s.setList i { p with hix := 0, cc := p.cc - 1, hd := s.next bp }).release bp)
      else (some c, s.setList i { p with hix := p.hix + 1, cc := p.cc - 1 })

/-- The tail needs a block. -/
def Needs (p : Clist) : Prop := p.tl = none ∨ p.tix = CBSIZE

instance (p : Clist) : Decidable (Needs p) := inferInstanceAs (Decidable (_ ∨ _))

/-- The first free block goes to the end of the clist. -/
def link (s : Clists ι) (i : ι) (bp : Block) : Clists ι :=
  let p := s.list i
  let next := update s.next bp none
  match p.tl with
  | none =>
    { s with cfreelist := s.next bp, next := next }.setList i ⟨0, some bp, some bp, 0, 0⟩
  | some b =>
    { s with cfreelist := s.next bp, next := update next b (some bp) }.setList i
      { p with tl := some bp, tix := 0 }

/-- The tail gets a slot; `none` if it needs a block and the pool is empty. -/
def extend (s : Clists ι) (i : ι) : Option (Clists ι) :=
  if Needs (s.list i) then s.cfreelist.map (s.link i) else some s

/-- The character goes in to slot `k` of a block. -/
def poke (s : Clists ι) (b : Block) (k c : Nat) : Clists ι :=
  { s with info := update s.info b (update (s.info b) k (c % 256)) }

/-- The character goes in to the slot of the tail. -/
def store (s : Clists ι) (i : ι) (c : Nat) : Clists ι :=
  let p := s.list i
  match p.tl with
  | none => s
  | some b => (s.poke b p.tix c).setList i { p with tix := p.tix + 1, cc := p.cc + 1 }

/-- Put one character on the end of a clist; the answer is whether there was room. -/
def putc (s : Clists ι) (c : Nat) (i : ι) : Bool × Clists ι :=
  match s.extend i with
  | none => (false, s)
  | some s => (true, s.store i c)

/-- Copy a clist into a buffer of `cc` characters. -/
def qToB (s : Clists ι) (i : ι) : Nat → List Nat × Clists ι
  | 0 => ([], s)
  | n + 1 =>
    match s.getc i with
    | (none, s) => ([], s)
    | (some c, s) => (c :: (s.qToB i n).1, (s.qToB i n).2)

/-- Copy a buffer into a clist; the answer is how many characters were not moved. -/
def bToQ (s : Clists ι) (i : ι) : List Nat → Nat × Clists ι
  | [] => (0, s)
  | c :: cs =>
    match s.putc c i with
    | (false, s) => ((c :: cs).length, s)
    | (true, s) => s.bToQ i cs

/-! ### The characters of a clist -/

/-- The character in slot `k`, counted from the start of the block `h` over the blocks
behind it. -/
def peek (s : Clists ι) (h : Option Block) (k : Nat) : Nat :=
  match follow s.next h (k / CBSIZE) with
  | none => 0
  | some b => s.info b (k % CBSIZE)

/-- The characters between the cursors. -/
def chars (s : Clists ι) (p : Clist) : List Nat :=
  (List.range p.cc).map fun k => s.peek p.hd (p.hix + k)

def contents (s : Clists ι) (i : ι) : List Nat := s.chars (s.list i)

/-! ### The invariant -/

/-- `bs` are the blocks from the head cursor to the tail cursor. -/
structure Spans (p : Clist) (bs : List Block) : Prop where
  tl : p.tl = bs.getLast?
  hix : p.hix < CBSIZE
  tix : p.tix ≤ CBSIZE
  count : p.hix + p.cc + CBSIZE = CBSIZE * bs.length + p.tix

/-- The cursors of a clist whose blocks are `bs`. -/
structure Cursors (p : Clist) (bs : List Block) : Prop where
  idle : bs = [] → p.cc = 0 ∧ p.tl = none
  live : bs ≠ [] → 0 < p.cc ∧ 0 < p.tix ∧ Spans p bs

/-- The tail has a slot for a character. -/
structure Opened (p : Clist) (bs : List Block) : Prop where
  blocks : bs ≠ []
  spans : Spans p bs
  room : p.tix < CBSIZE

/-- Every block is free or belongs to one clist. -/
structure Layout (s : Clists ι) (free : List Block) (chain : ι → List Block)
    (owner : Block → Option ι) : Prop where
  free_chain : Chain s.next s.cfreelist free
  list_chain : ∀ i, Chain s.next (s.list i).hd (chain i)
  mem_free : ∀ b, b ∈ free ↔ owner b = none
  mem_chain : ∀ i b, b ∈ chain i ↔ owner b = some i

structure Inv (s : Clists ι) (free : List Block) (chain : ι → List Block)
    (owner : Block → Option ι) : Prop extends Layout s free chain owner where
  cursors : ∀ i, Cursors (s.list i) (chain i)

variable {s s' : Clists ι} {i j : ι} {p : Clist} {bs free : List Block} {b : Block}
  {chain : ι → List Block} {owner : Block → Option ι} {c : Nat}

@[simp] theorem setList_list_self : (s.setList i p).list i = p := by simp [setList]

theorem setList_list_of_ne (ne : j ≠ i) : (s.setList i p).list j = s.list j := by
  simp [setList, ne]

@[simp] theorem setList_next : (s.setList i p).next = s.next := rfl

@[simp] theorem setList_info : (s.setList i p).info = s.info := rfl

omit [DecidableEq ι] in
theorem peek_eq {h : Option Block} (chain : Chain s.next h bs) (k : Nat) :
    s.peek h k = (bs[k / CBSIZE]?).elim 0 fun b => s.info b (k % CBSIZE) := by
  rw [peek, chain.follow_eq]
  cases bs[k / CBSIZE]? <;> rfl

omit [DecidableEq ι] in
/-- The characters of a clist depend on its own blocks only. -/
theorem chars_congr (chain : Chain s.next p.hd bs) (next : ∀ b ∈ bs, s'.next b = s.next b)
    (info : ∀ b ∈ bs, s'.info b = s.info b) : s'.chars p = s.chars p := by
  refine map_congr_left fun k _ => ?_
  rw [peek_eq chain, peek_eq (chain.congr next)]
  cases found : bs[(p.hix + k) / CBSIZE]? with
  | none => rfl
  | some b => simp [info b (mem_of_getElem? found)]

namespace Layout

omit [DecidableEq ι] in
theorem not_mem_chain_of_mem_free (lay : Layout s free chain owner) (mem : b ∈ free) :
    b ∉ chain i := by
  rw [lay.mem_chain, (lay.mem_free b).mp mem]
  simp

omit [DecidableEq ι] in
theorem not_mem_chain_of_mem_chain (lay : Layout s free chain owner) (mem : b ∈ chain i)
    (ne : j ≠ i) : b ∉ chain j := by
  rw [lay.mem_chain, (lay.mem_chain i b).mp mem]
  simpa using ne.symm

omit [DecidableEq ι] in
theorem not_mem_free_of_mem_chain (lay : Layout s free chain owner) (mem : b ∈ chain i) :
    b ∉ free := fun out => lay.not_mem_chain_of_mem_free out mem

end Layout

/-! ### Taking a character -/

theorem Inv.setList (inv : Inv s free chain owner) (same : p.hd = (s.list i).hd)
    (cursors : Cursors p (chain i)) : Inv (s.setList i p) free chain owner where
  __ := inv
  list_chain j := by
    by_cases eq : j = i
    · subst eq
      simpa [same] using inv.list_chain j
    · rw [setList_list_of_ne eq]
      exact inv.list_chain j
  cursors j := by
    by_cases eq : j = i
    · subst eq
      simpa using cursors
    · rw [setList_list_of_ne eq]
      exact inv.cursors j

/-- The first block of a clist goes back to the pool. -/
theorem Inv.release (inv : Inv s free chain owner) (first : chain i = b :: bs)
    (rest : Chain s.next p.hd bs) (cursors : Cursors p bs) :
    Inv ((s.setList i p).release b) (b :: free) (update chain i bs)
      (update owner b none) := by
  have owned : owner b = some i := (inv.mem_chain i b).mp (by simp [first])
  have nodup := first ▸ (inv.list_chain i).nodup
  have out : b ∉ bs := (nodup_cons.mp nodup).1
  refine ⟨⟨?_, fun j => ?_, fun x => ?_, fun j x => ?_⟩, fun j => ?_⟩
  · exact inv.free_chain.push (inv.not_mem_free_of_mem_chain (i := i) (by simp [first]))
  · by_cases eq : j = i
    · subst eq
      simpa [Clists.release] using rest.update_of_notMem out
    · have apart : b ∉ chain j := inv.not_mem_chain_of_mem_chain (by simp [first]) eq
      simpa [Clists.release, Clists.setList, eq] using (inv.list_chain j).update_of_notMem apart
  · by_cases eq : x = b
    · simp [eq]
    · simp [eq, inv.mem_free]
  · by_cases eq : x = b
    · subst eq
      by_cases eq : j = i
      · subst eq
        simpa using out
      · simp [eq, inv.mem_chain, owned, Ne.symm eq]
    · by_cases same : j = i
      · subst same
        simp [eq, ← inv.mem_chain, first]
      · simp [eq, same, inv.mem_chain]
  · by_cases eq : j = i
    · subst eq
      simpa [Clists.release] using cursors
    · simpa [Clists.release, Clists.setList, eq] using inv.cursors j

omit [DecidableEq ι] in
/-- The cursors `q` are those of `p`, one character on. -/
theorem chars_cons {q : Clist} (head : p.hd = some b) (lt : p.hix < CBSIZE) (one : p.cc = q.cc + 1)
    (shift : ∀ k < q.cc, s.peek q.hd (q.hix + k) = s.peek p.hd (p.hix + 1 + k)) :
    s.chars p = s.info b p.hix :: s.chars q := by
  rw [chars, one, range_succ_eq_map, map_cons, map_map]
  refine congrArg₂ List.cons ?_ (map_congr_left fun k mem => ?_)
  · simp [peek, head, follow, Nat.div_eq_of_lt lt, Nat.mod_eq_of_lt lt]
  · rw [shift k (mem_range.mp mem), comp_apply, Nat.succ_eq_add_one, Nat.add_assoc, Nat.add_comm 1 k]

omit [DecidableEq ι] in
/-- A block has `CBSIZE` slots. -/
theorem peek_next (k : Nat) : s.peek (some b) (CBSIZE + k) = s.peek (s.next b) k := by
  rw [peek, peek, Nat.add_div_left k (by decide), Nat.add_mod_left]
  rfl

/-- What `getc` does: a character comes off the front, if there is one. -/
structure Gets (s : Clists ι) (i : ι) (r : Option Nat × Clists ι) : Prop where
  answer : r.1 = (s.contents i).head?
  self : r.2.contents i = (s.contents i).tail
  others : ∀ j ≠ i, r.2.contents j = s.contents j

section

variable (inv : Inv s free chain owner)

include inv

theorem Inv.gets_release {q : Clist} (blocks : chain i = b :: bs) (rest : Chain s.next q.hd bs)
    (cursors : Cursors q bs) (one : s.contents i = c :: s.chars q) :
    Gets s i (some c, (s.setList i q).release b) ∧
      ∃ free chain owner, Inv ((s.setList i q).release b) free chain owner := by
  have mem : b ∈ chain i := by simp [blocks]
  have out : b ∉ bs := (nodup_cons.mp (blocks ▸ (inv.list_chain i).nodup)).1
  refine ⟨⟨by simp [one], ?_, fun j ne => ?_⟩, _, _, _, inv.release blocks rest cursors⟩
  · have same : ((s.setList i q).release b).list i = q := setList_list_self
    rw [one, contents, same]
    refine chars_congr rest (fun x mem => ?_) fun _ _ => rfl
    exact update_of_ne (ne_of_mem_of_not_mem mem out) ..
  · have out : b ∉ chain j := inv.not_mem_chain_of_mem_chain mem ne
    have same : ((s.setList i q).release b).list j = s.list j := setList_list_of_ne ne
    rw [contents, same]
    refine chars_congr (inv.list_chain j) (fun x mem => ?_) fun _ _ => rfl
    exact update_of_ne (ne_of_mem_of_not_mem mem out) ..

theorem Inv.gets_setList {q : Clist} (same : q.hd = (s.list i).hd) (cursors : Cursors q (chain i))
    (one : s.contents i = c :: s.chars q) :
    Gets s i (some c, s.setList i q) ∧ ∃ free chain owner, Inv (s.setList i q) free chain owner := by
  refine ⟨⟨by simp [one], ?_, fun j ne => ?_⟩, _, _, _, inv.setList same cursors⟩
  · rw [one, contents, setList_list_self]
    rfl
  · rw [contents, setList_list_of_ne ne]
    rfl

theorem Inv.getc_idle (blocks : chain i = []) : s.contents i = [] ∧ s.getc i = (none, s) := by
  obtain ⟨empty, tl⟩ := (inv.cursors i).idle blocks
  have hd : (s.list i).hd = none := (inv.list_chain i).head.trans (by simp [blocks])
  have idle : { s.list i with hd := none, tl := none } = s.list i := by
    rw [Clist.mk.injEq]
    exact ⟨rfl, hd.symm, tl.symm, rfl, rfl⟩
  refine ⟨by simp [contents, chars, empty], ?_⟩
  rw [getc, if_pos empty, idle]
  simp [Clists.setList]

theorem getc_spec (i : ι) :
    Gets s i (s.getc i) ∧ ∃ free chain owner, Inv (s.getc i).2 free chain owner := by
  cases blocks : chain i with
  | nil =>
    obtain ⟨empty, same⟩ := inv.getc_idle blocks
    rw [same]
    exact ⟨⟨by simp [empty], by simp [empty], fun _ _ => rfl⟩, free, chain, owner, inv⟩
  | cons b bs =>
    have linked := inv.list_chain i
    have cursors := inv.cursors i
    rw [blocks] at linked cursors
    obtain ⟨head, rest⟩ := linked
    obtain ⟨pos, tix, spans⟩ := cursors.live (by simp)
    obtain ⟨tl, hix, tix', count⟩ := spans
    have first {q : Clist} (one : (s.list i).cc = q.cc + 1) (shift : ∀ k < q.cc,
        s.peek q.hd (q.hix + k) = s.peek (s.list i).hd ((s.list i).hix + 1 + k)) :
        s.contents i = s.info b (s.list i).hix :: s.chars q := chars_cons head hix one shift
    simp only [length_cons, CBSIZE] at count hix tix'
    rw [getc, if_neg (by omega)]
    simp only [head]
    split
    · -- the last character: the head block is also the tail
      rename_i last
      obtain rfl : bs = [] := length_eq_zero_iff.mp (by omega)
      exact inv.gets_release blocks rfl ⟨fun _ => ⟨last, rfl⟩, by simp⟩
        (first (by simp only; omega) fun k lt => absurd lt (by simp only; omega))
    split
    · -- the head block is spent: the chain has a next one
      rename_i more spent
      simp only [CBSIZE] at spent
      have behind : bs ≠ [] := by
        rintro rfl
        simp at count
        omega
      have spans : Spans { s.list i with hix := 0, cc := (s.list i).cc - 1, hd := s.next b } bs :=
        ⟨by rw [tl, List.getLast?_cons, List.getLast?_eq_some_getLast behind]; rfl, by simp, tix',
          by simp only [CBSIZE]; omega⟩
      refine inv.gets_release blocks rest
        ⟨by simp [behind], fun _ => ⟨by simp only; omega, tix, spans⟩⟩
        (first (by simp only; omega) fun k _ => ?_)
      simp only [spent, head, Nat.zero_add]
      exact (peek_next k).symm
    · rename_i more inside
      simp only [CBSIZE] at inside
      have spans : Spans { s.list i with
          hd := some b, hix := (s.list i).hix + 1, cc := (s.list i).cc - 1 } (b :: bs) :=
        ⟨tl, by simp only [CBSIZE]; omega, tix', by simp only [CBSIZE, length_cons]; omega⟩
      exact inv.gets_setList head.symm
        ⟨by simp [blocks], fun _ => ⟨by simp only; omega, tix, blocks ▸ spans⟩⟩
        (first (by simp only; omega) fun k _ => by rw [head])

end

/-! ### Putting a character -/

theorem extend_eq_none : s.extend i = none ↔ Needs (s.list i) ∧ s.cfreelist = none := by
  by_cases needs : Needs (s.list i) <;> simp [extend, needs]

theorem Layout.extend (lay : Layout s (b :: free) chain owner)
    (blocks : Chain s'.next (s'.list i).hd (chain i ++ [b])) (pool : s'.cfreelist = s.next b)
    (others : ∀ j ≠ i, s'.list j = s.list j)
    (same : ∀ x, owner x ≠ some i → x ≠ b → s'.next x = s.next x) :
    Layout s' free (update chain i (chain i ++ [b])) (update owner b (some i)) := by
  have unowned : owner b = none := (lay.mem_free b).mp mem_cons_self
  have out : b ∉ free := (nodup_cons.mp lay.free_chain.nodup).1
  refine ⟨?_, fun j => ?_, fun x => ?_, fun j x => ?_⟩
  · rw [pool]
    refine lay.free_chain.2.congr fun x mem => same x ?_ (ne_of_mem_of_not_mem mem out)
    simp [(lay.mem_free x).mp (mem_cons_of_mem _ mem)]
  · by_cases eq : j = i
    · subst eq
      simpa using blocks
    · rw [others j eq, update_of_ne eq]
      refine (lay.list_chain j).congr fun x mem => same x ?_ ?_
      · simpa [(lay.mem_chain j x).mp mem] using eq
      · rintro rfl
        exact absurd ((lay.mem_chain j x).mp mem) (by simp [unowned])
  · by_cases eq : x = b
    · simpa [eq] using out
    · simpa [eq] using lay.mem_free x
  · by_cases eq : x = b
    · subst eq
      by_cases eq : j = i
      · simp [eq]
      · simp [eq, lay.mem_chain, unowned, Ne.symm eq]
    · by_cases same : j = i
      · simp [eq, same, lay.mem_chain]
      · simp [eq, same, lay.mem_chain]

/-- After `extend` the tail has a slot, and no clist has changed its characters. -/
structure Extended (s s' : Clists ι) (i : ι) (free : List Block) (chain : ι → List Block)
    (owner : Block → Option ι) : Prop where
  layout : Layout s' free chain owner
  opened : Opened (s'.list i) (chain i)
  cursors : ∀ j ≠ i, Cursors (s'.list j) (chain j)
  contents : ∀ j, s'.contents j = s.contents j

omit [DecidableEq ι] in
theorem Inv.extended_same (inv : Inv s free chain owner) (fits : ¬ Needs (s.list i)) :
    Extended s s i free chain owner := by
  have blocks : chain i ≠ [] := fun none => fits (.inl ((inv.cursors i).idle none).2)
  obtain ⟨-, -, spans⟩ := (inv.cursors i).live blocks
  have room := Nat.lt_of_le_of_ne spans.tix fun full => fits (.inr full)
  exact ⟨inv.toLayout, ⟨blocks, spans, room⟩, fun j _ => inv.cursors j, fun _ => rfl⟩

/-- What is the same for both ways of linking the block `b`. -/
theorem Inv.extended_of_link (inv : Inv s (b :: free) chain owner)
    (blocks : Chain s'.next (s'.list i).hd (chain i ++ [b])) (pool : s'.cfreelist = s.next b)
    (info : s'.info = s.info) (others : ∀ j ≠ i, s'.list j = s.list j)
    (same : ∀ x, owner x ≠ some i → x ≠ b → s'.next x = s.next x)
    (spans : Spans (s'.list i) (chain i ++ [b])) (start : (s'.list i).tix = 0)
    (self : s'.contents i = s.contents i) :
    ∃ free chain owner, Extended s s' i free chain owner := by
  have unowned : owner b = none := (inv.mem_free b).mp mem_cons_self
  refine ⟨_, _, _, inv.toLayout.extend blocks pool others same, ?_, fun j ne => ?_, fun j => ?_⟩
  · rw [update_self]
    exact ⟨by simp, spans, by simp [start]⟩
  · rw [update_of_ne ne, others j ne]
    exact inv.cursors j
  by_cases eq : j = i
  · exact eq ▸ self
  rw [contents, others j eq]
  refine chars_congr (inv.list_chain j) (fun x mem => ?_) fun x _ => by rw [info]
  have owned := (inv.mem_chain j x).mp mem
  refine same x (by simpa [owned] using eq) ?_
  rintro rfl
  simp [owned] at unowned

omit [DecidableEq ι] in
/-- A block behind the characters does not change them. -/
theorem chars_append {q : Clist} (old : Chain s.next p.hd bs) (new : Chain s'.next q.hd (bs ++ [b]))
    (info : s'.info = s.info) (cc : q.cc = p.cc) (hix : q.hix = p.hix)
    (within : p.hix + p.cc ≤ CBSIZE * bs.length) : s'.chars q = s.chars p := by
  rw [chars, chars, cc]
  refine map_congr_left fun k mem => ?_
  have lt : (p.hix + k) / CBSIZE < bs.length := by
    rw [Nat.div_lt_iff_lt_mul (by decide), Nat.mul_comm]
    have := mem_range.mp mem
    omega
  rw [peek_eq old, peek_eq new, hix, List.getElem?_append_left lt, info]

theorem Inv.extended_link (inv : Inv s (b :: free) chain owner) (needs : Needs (s.list i)) :
    ∃ free chain owner, Extended s (s.link i b) i free chain owner := by
  have others (p : Clist) (s : Clists ι) : ∀ j ≠ i, (s.setList i p).list j = s.list j :=
    fun _ => setList_list_of_ne
  rcases eq_nil_or_concat' (chain i) with none | ⟨pre, q, blocks⟩
  · obtain ⟨empty, tl⟩ := (inv.cursors i).idle none
    simp only [link, tl]
    refine inv.extended_of_link ?_ rfl rfl (others _ _) (fun x _ ne => ?_) ?_ (by simp) ?_
    · simp [none, Links.Chain]
    · exact update_of_ne ne ..
    · exact ⟨by simp [none], by simp, by simp, by simp [none]⟩
    · simp [contents, chars, empty]
  · obtain ⟨pos, tix, spans⟩ := (inv.cursors i).live (by simp [blocks])
    have tl : (s.list i).tl = some q := by simp [spans.tl, blocks]
    have full : (s.list i).tix = CBSIZE := needs.resolve_left (by simp [tl])
    have out : b ∉ chain i := inv.not_mem_chain_of_mem_free mem_cons_self
    have count := spans.count
    have owned : owner q = some i := (inv.mem_chain i q).mp (by simp [blocks])
    have grown : Chain (update (update s.next b Option.none) q (some b))
        (s.list i).hd (chain i ++ [b]) := by
      have linked := (inv.list_chain i).update_of_notMem (x := Option.none) out
      rw [blocks] at linked out ⊢
      simpa using linked.append (by simpa using out) (by simp)
    simp only [link, tl]
    refine inv.extended_of_link (by simpa using grown) rfl rfl (others _ _)
      (fun x notOwned ne => ?_) ?_ (by simp) ?_
    · have ne' : x ≠ q := fun eq => notOwned (eq ▸ owned)
      simp [ne, ne']
    · refine ⟨by simp, by simpa using spans.hix, by simp, ?_⟩
      simp only [setList_list_self, length_append, length_singleton, full, Nat.mul_succ] at count ⊢
      omega
    · rw [contents, setList_list_self]
      refine chars_append (inv.list_chain i) (by simpa using grown) rfl rfl rfl ?_
      omega

theorem extend_spec (inv : Inv s free chain owner) (done : s.extend i = some s') :
    ∃ free chain owner, Extended s s' i free chain owner := by
  by_cases needs : Needs (s.list i)
  · rw [extend, if_pos needs, Option.map_eq_some_iff] at done
    obtain ⟨b, first, rfl⟩ := done
    cases free with
    | nil => exact absurd (first.symm.trans inv.free_chain) (by simp)
    | cons b' free =>
      obtain rfl : b = b' := Option.some.inj (first.symm.trans inv.free_chain.1)
      exact inv.extended_link needs
  · rw [extend, if_neg needs, Option.some.injEq] at done
    exact done ▸ ⟨_, _, _, inv.extended_same needs⟩

/-! The slot of the tail is behind all characters. -/

omit [DecidableEq ι] in
theorem Spans.tail_div (spans : Spans p bs) (room : p.tix < CBSIZE) :
    (p.hix + p.cc) / CBSIZE = bs.length - 1 ∧ (p.hix + p.cc) % CBSIZE = p.tix := by
  have count := spans.count
  simp only [CBSIZE] at *
  omega

omit [DecidableEq ι] in
theorem Spans.before_tail (spans : Spans p bs) {k : Nat} (lt : k < p.cc) :
    (p.hix + k) / CBSIZE = bs.length - 1 → (p.hix + k) % CBSIZE ≠ p.tix := by
  have count := spans.count
  simp only [CBSIZE] at *
  omega

theorem store_eq (tl : (s.list i).tl = some b) :
    s.store i c = (s.poke b (s.list i).tix c).setList i
      { s.list i with tix := (s.list i).tix + 1, cc := (s.list i).cc + 1 } := by
  simp only [store, tl]

theorem contents_store (lay : Layout s free chain owner) (opened : Opened (s.list i) (chain i)) :
    (s.store i c).contents i = s.contents i ++ [c % 256] := by
  obtain ⟨blocks, spans, room⟩ := opened
  obtain ⟨pre, q, split⟩ := (eq_nil_or_concat' (chain i)).resolve_left blocks
  have tl : (s.list i).tl = some q := by simp [spans.tl, split]
  have last : (chain i)[(chain i).length - 1]? = some q := by simp [split]
  have linked := lay.list_chain i
  obtain ⟨div, mod⟩ := spans.tail_div room
  rw [store_eq tl, contents, setList_list_self, chars, range_succ, map_append]
  refine congrArg₂ (· ++ ·) (map_congr_left fun k mem => ?_) ?_
  · have lt := mem_range.mp mem
    rw [peek_eq (by exact linked), peek_eq linked]
    cases found : (chain i)[((s.list i).hix + k) / CBSIZE]? with
    | none => rfl
    | some b =>
      simp only [Option.elim_some, setList_info, poke]
      by_cases eq : b = q
      · subst eq
        have inside := (List.getElem?_eq_some_iff.mp found).1
        have index := (List.getElem?_inj inside linked.nodup).mp (found.trans last.symm)
        rw [update_self, update_of_ne (spans.before_tail lt index)]
      · rw [update_of_ne eq]
  · rw [map_singleton, peek_eq (by exact linked), div, last, mod]
    simp [poke]

theorem store_spec (ext : Extended s s' i free chain owner) (c : Nat) :
    Inv (s'.store i c) free chain owner ∧
      (s'.store i c).contents i = s.contents i ++ [c % 256] ∧
      ∀ j ≠ i, (s'.store i c).contents j = s.contents j := by
  obtain ⟨blocks, spans, room⟩ := ext.opened
  obtain ⟨pre, q, split⟩ := (eq_nil_or_concat' (chain i)).resolve_left blocks
  have tl : (s'.list i).tl = some q := by simp [spans.tl, split]
  refine ⟨?_, ?_, fun j ne => ?_⟩
  · rw [store_eq tl]
    refine ⟨{ ext.layout with list_chain := fun j => ?_ }, fun j => ?_⟩
    · by_cases eq : j = i
      · subst eq
        rw [setList_list_self]
        exact ext.layout.list_chain j
      · rw [setList_list_of_ne eq]
        exact ext.layout.list_chain j
    · by_cases eq : j = i
      · subst eq
        rw [setList_list_self]
        have count := spans.count
        refine ⟨fun none => absurd none blocks, fun _ => ⟨by simp, by simp, ?_⟩⟩
        exact ⟨spans.tl, spans.hix, room, by simp only; omega⟩
      · rw [setList_list_of_ne eq]
        exact ext.cursors j eq
  · rw [contents_store ext.layout ext.opened, ext.contents]
  · rw [← ext.contents j, store_eq tl, contents, setList_list_of_ne ne]
    refine chars_congr (ext.layout.list_chain j) (fun _ _ => rfl) fun x mem => ?_
    have ne : x ≠ q := by
      rintro rfl
      exact ext.layout.not_mem_chain_of_mem_chain (by simp [split]) ne mem
    simp [poke, ne]

/-- What `putc` does: the character goes on the end, unless the tail needs a block and there
is none; then nothing changes. -/
structure Puts (s : Clists ι) (i : ι) (c : Nat) (r : Bool × Clists ι) : Prop where
  answer : r.1 = false ↔ Needs (s.list i) ∧ s.cfreelist = none
  fails : r.1 = false → r.2 = s
  self : r.1 = true → r.2.contents i = s.contents i ++ [c % 256]
  others : ∀ j ≠ i, r.2.contents j = s.contents j

theorem putc_spec (inv : Inv s free chain owner) (c : Nat) (i : ι) :
    Puts s i c (s.putc c i) ∧ ∃ free chain owner, Inv (s.putc c i).2 free chain owner := by
  cases done : s.extend i with
  | none =>
    have same : s.putc c i = (false, s) := by simp [putc, done]
    rw [same]
    exact ⟨⟨by simpa using extend_eq_none.mp done, fun _ => rfl, by simp, fun _ _ => rfl⟩,
      free, chain, owner, inv⟩
  | some s' =>
    have stored : s.putc c i = (true, s'.store i c) := by simp [putc, done]
    obtain ⟨free', chain', owner', ext⟩ := extend_spec inv done
    obtain ⟨inv', self, others⟩ := store_spec ext c
    rw [stored]
    refine ⟨⟨?_, by simp, fun _ => self, others⟩, _, _, _, inv'⟩
    rw [← extend_eq_none, done]
    simp

end Clists

end V7Besm.Tty

import V7Besm.Fs.FreeList
import Mathlib.Data.List.Induction

/-!
The block map of a file (`bmap` in `subr.c`).

The inode and its indirect blocks are a tree: a node is reached from the inode by the indexes on
the way, and a logical block is a leaf. `bmap` for writing goes down that way and
takes a block from `alloc` wherever a number is missing. A new block is clear, so each
of them adds one node to the tree and nothing else, and only the last one is a leaf.
-/

namespace V7Besm.Fs.Bmap

open Alloc Function List

/-- Where block numbers stand: the inode, or an indirect block. -/
abbrev Cell := Option Int

/-- The block numbers of the inode and in the blocks, and the blocks `alloc` hands out. -/
structure Vol where
  words : Cell → Nat → Int
  free : List Int

/-- The numbers behind `alloc` of the block `nb` and its entry as number `i` in `c`. -/
def Vol.put (v : Vol) (c : Cell) (i : Nat) (nb : Int) (free : List Int) : Vol :=
  let words := update v.words (some nb) fun _ => 0
  ⟨update words c (update (words c) i nb), free⟩

/-- Number `i` in `c`; for writing, a missing one is taken from `alloc`. -/
def Vol.fetch (write : Bool) (v : Vol) (c : Cell) (i : Nat) : Option Int × Vol :=
  if v.words c i ≠ 0 then (some (v.words c i), v)
  else if write then
    match v.free with
    | [] => (none, v)
    | nb :: free => (some nb, v.put c i nb free)
  else (none, v)

/-- What `bmap` returns: a block number, -1 (for writing, with `ENOSPC`), or 0 with `EFBIG`. -/
inductive Mapped where
  | block (nb : Int)
  | missing
  | tooBig
deriving DecidableEq, Repr

def Mapped.ofOption : Option Int → Mapped
  | some nb => .block nb
  | none => .missing

/-- The loop that finds the level, `j` of them left: the level and what is left of `bn`. -/
def level (bn nb : Int) : Nat → Option (Nat × Int)
  | 0 => none
  | j + 1 =>
    let nb := nb * NINDIR
    if bn < nb then some (j + 1, bn) else level (bn - nb) nb j

/-- The loop through the indirect blocks, `n` of them left, the next one `nb`. -/
def through (write : Bool) (bn : Nat) : Nat → Int → Vol → Option Int × Vol
  | 0, nb, v => (some nb, v)
  | n + 1, nb, v =>
    match v.fetch write (some nb) (bn / NINDIR ^ n % NINDIR) with
    | (none, v) => (none, v)
    | (some nb, v) => through write bn n nb v

/-- `bmap`: 6 direct numbers, number 6 for the single and 7 for the double indirect block. -/
def bmap (write : Bool) (v : Vol) (bn : Int) : Mapped × Vol :=
  if bn < 0 then (.tooBig, v)
  else if bn < 6 then
    let (nb, v) := v.fetch write none bn.toNat
    (.ofOption nb, v)
  else
    match level (bn - 6) 1 2 with
    | none => (.tooBig, v)
    | some (j, bn) =>
      match v.fetch write none (8 - j) with
      | (none, v) => (.missing, v)
      | (some nb, v) =>
        let (nb, v) := through write bn.toNat (3 - j) nb v
        (.ofOption nb, v)

/-! ### The tree -/

/-- The indexes of `bn` in `n` levels of indirect blocks. -/
def digits (bn : Nat) : Nat → List Nat
  | 0 => []
  | n + 1 => bn / NINDIR ^ n % NINDIR :: digits bn n

/-- The way from the inode to a logical block. -/
def path (bn : Nat) : List Nat :=
  if bn < 6 then [bn]
  else if bn < 6 + NINDIR then 6 :: digits (bn - 6) 1
  else 7 :: digits (bn - (6 + NINDIR)) 2

/-- How many logical blocks there are. -/
def nblocks : Nat := 6 + NINDIR + NINDIR ^ 2

/-- The ways to the nodes of the tree. -/
def IsNode : List Nat → Prop
  | [] => True
  | [i] => i < 8
  | [i, k] => (i = 6 ∨ i = 7) ∧ k < NINDIR
  | [i, j, k] => i = 7 ∧ j < NINDIR ∧ k < NINDIR
  | _ => False

/-- One step down. -/
def Vol.child (v : Vol) (c : Cell) (i : Nat) : Option Cell :=
  if v.words c i = 0 then none else some (some (v.words c i))

/-- The node at the end of a way. -/
def Vol.find (v : Vol) (p : List Nat) : Option Cell := p.foldlM v.child none

/-- No block is in the tree twice, or both in the tree and free. -/
structure Tidy (v : Vol) : Prop where
  unique : ∀ p q c, IsNode p → IsNode q → v.find p = some c → v.find q = some c → p = q
  fresh : ∀ p b, IsNode p → b ∈ v.free → v.find p ≠ some (some b)
  nodup : v.free.Nodup
  nonzero : 0 ∉ v.free

variable {v v' : Vol} {c : Cell} {p q r : List Nat} {i : Nat} {nb : Int} {free : List Int}

@[simp]
theorem find_snoc (v : Vol) (p : List Nat) (i : Nat) :
    v.find (p ++ [i]) = (v.find p).bind (v.child · i) := by
  simp [Vol.find, foldlM_append]

theorem IsNode.init (node : IsNode (p ++ [i])) : IsNode p := by
  match p, node with
  | [], _ => trivial
  | [a], node => exact show a < 8 by obtain ⟨rfl | rfl, -⟩ := node <;> decide
  | [a, b], node => exact ⟨.inr node.1, node.2.1⟩
  | _ :: _ :: _ :: p, node => cases p <;> exact node.elim

theorem put_words (fresh : c ≠ some nb) (d : Cell) (k : Nat) :
    (v.put c i nb free).words d k =
      if d = c ∧ k = i then nb else if d = some nb then 0 else v.words d k := by
  simp only [Vol.put, update_apply]
  by_cases here : d = c
  · subst here
    simp [fresh, update_apply]
  · simp only [here, false_and, if_false]
    split <;> rfl

theorem put_child (fresh : c ≠ some nb) (nonzero : nb ≠ 0) (d : Cell) (k : Nat) :
    (v.put c i nb free).child d k =
      if d = c ∧ k = i then some (some nb) else if d = some nb then none else v.child d k := by
  simp only [Vol.child, put_words fresh]
  by_cases here : d = c ∧ k = i
  · simp only [if_pos here, if_neg nonzero]
  · simp only [if_neg here]
    split <;> simp

/-- A block that is entered in the tree is one node more. -/
theorem find_put (tidy : Tidy v) (supply : v.free = nb :: free) (at_q : v.find q = some c)
    (node : IsNode (q ++ [i])) (missing : v.words c i = 0) (inside : IsNode p) :
    (v.put c i nb free).find p = if p = q ++ [i] then some (some nb) else v.find p := by
  have mem : nb ∈ v.free := supply ▸ mem_cons_self
  have nonzero : nb ≠ 0 := fun zero => tidy.nonzero (zero ▸ mem)
  have fresh : c ≠ some nb := fun new => tidy.fresh q nb node.init mem (new ▸ at_q)
  induction p using List.reverseRecOn with
  | nil => simp [Vol.find]
  | append_singleton p k ih =>
    rw [find_snoc, ih inside.init]
    by_cases new : p = q ++ [i]
    · -- the new block is clear
      subst new
      have none_yet : v.find (q ++ [i]) = none := by simp [at_q, Vol.child, missing]
      have longer : q ++ [i] ++ [k] ≠ q ++ [i] := by simp
      rw [if_pos rfl, if_neg longer, find_snoc v, none_yet, Option.bind_some,
        put_child fresh nonzero, if_neg fun here => fresh here.1.symm, if_pos rfl]
      rfl
    · rw [if_neg new, find_snoc]
      cases at_p : v.find p with
      | none =>
        rw [if_neg]
        · rfl
        · intro same
          rw [(append_inj' same rfl).1, at_q] at at_p
          cases at_p
      | some d =>
        have old : d ≠ some nb := fun is_new => tidy.fresh p nb inside.init mem (is_new ▸ at_p)
        have here : (d = c ∧ k = i) ↔ p ++ [k] = q ++ [i] := by
          constructor
          · rintro ⟨rfl, rfl⟩
            rw [tidy.unique p q d inside.init node.init at_p at_q]
          · intro same
            obtain ⟨rfl, last⟩ := append_inj' same rfl
            exact ⟨Option.some.inj (at_p.symm.trans at_q), by simpa using last⟩
        rw [Option.bind_some, Option.bind_some, put_child fresh nonzero, if_neg old]
        exact if_congr here rfl rfl

theorem Tidy.put (tidy : Tidy v) (supply : v.free = nb :: free) (at_q : v.find q = some c)
    (node : IsNode (q ++ [i])) (missing : v.words c i = 0) : Tidy (v.put c i nb free) := by
  have mem : nb ∈ v.free := supply ▸ mem_cons_self
  have nodup := supply ▸ tidy.nodup
  have found := fun p (inside : IsNode p) => find_put tidy supply at_q node missing inside
  refine ⟨?_, ?_, nodup.of_cons, ?_⟩
  · intro p r d inside inside' at_p at_r
    rw [found p inside] at at_p
    rw [found r inside'] at at_r
    split at at_p <;> split at at_r
    next here there => exact here.trans there.symm
    next => exact absurd (at_p ▸ at_r) (tidy.fresh r nb inside' mem)
    next => exact absurd (at_r ▸ at_p) (tidy.fresh p nb inside mem)
    next => exact tidy.unique p r d inside inside' at_p at_r
  · intro p b inside left at_p
    rw [found p inside] at at_p
    split at at_p
    next =>
      cases at_p
      exact (nodup_cons.mp nodup).1 left
    next => exact tidy.fresh p b inside (supply ▸ mem_cons_of_mem _ left) at_p
  · exact fun zero => tidy.nonzero (supply ▸ mem_cons_of_mem _ zero)

/-! ### Going down -/

/-- Down from `c`, along the indexes. -/
def walk (write : Bool) (v : Vol) (c : Cell) : List Nat → Option Cell × Vol
  | [] => (some c, v)
  | i :: r =>
    match v.fetch write c i with
    | (none, v) => (none, v)
    | (some nb, v) => walk write v (some nb) r

theorem walk_read (v : Vol) (c : Cell) (r : List Nat) :
    walk false v c r = (r.foldlM v.child c, v) := by
  induction r generalizing c with
  | nil => rfl
  | cons i r ih =>
    unfold walk Vol.fetch
    by_cases missing : v.words c i = 0
    · simp [missing, Vol.child]
    · simp [missing, Vol.child, ih]

/-- The tree has grown along the way `p`, at the end of which there is now `d`. -/
structure Grown (v v' : Vol) (p : List Nat) (d : Option Cell) : Prop where
  tidy : Tidy v'
  result : v'.find p = d
  others : ∀ q, IsNode q → ¬ q <+: p → v'.find q = v.find q
  kept : ∀ c, v.find p = some c → v' = v
  taken : v.find p = none → ∀ c, d = some c → ∃ b ∈ v.free, c = some b
  failed : d = none → v'.free = []

theorem find_append_none (nothing : v.find p = none) : v.find (p ++ r) = none := by
  simp only [Vol.find, foldlM_append] at nothing ⊢
  rw [nothing]
  rfl

theorem walk_grown (tidy : Tidy v) (at_q : v.find q = some c)
    (closed : ∀ p, p <+: q ++ r → IsNode p) :
    Grown v (walk true v c r).2 (q ++ r) (walk true v c r).1 := by
  -- along the rest of the way; what is behind us is there already
  induction r generalizing v q c with
  | nil =>
    rw [append_nil]
    exact ⟨tidy, at_q, fun _ _ _ => rfl, fun _ _ => rfl, fun nothing => by simp [at_q] at nothing,
      fun none => by cases none⟩
  | cons i r ih =>
    rw [append_cons] at closed ⊢
    have next : IsNode (q ++ [i]) := closed _ (prefix_append _ _)
    have node : IsNode (q ++ [i] ++ r) := closed _ (prefix_refl _)
    unfold walk Vol.fetch
    by_cases missing : v.words c i = 0
    · have nothing : v.find (q ++ [i]) = none := by simp [at_q, Vol.child, missing]
      have nothing' : v.find (q ++ [i] ++ r) = none := find_append_none nothing
      simp only [missing, ne_eq, not_true_eq_false, if_false, if_true]
      cases supply : v.free with
      | nil =>
        exact ⟨tidy, nothing', fun _ _ _ => rfl, fun _ _ => rfl, nofun, fun _ => supply⟩
      | cons nb free =>
        have found := fun p (inside : IsNode p) => find_put tidy supply at_q next missing inside
        have here : (v.put c i nb free).find (q ++ [i]) = some (some nb) := by
          rw [found _ next, if_pos rfl]
        have grown := ih (tidy.put supply at_q next missing) here closed
        refine ⟨grown.tidy, grown.result, ?_, ?_, ?_, grown.failed⟩
        · intro p inside off
          have other : p ≠ q ++ [i] := fun same => off (same ▸ prefix_append _ _)
          rw [grown.others p inside off, found p inside, if_neg other]
        · intro d at_end
          rw [nothing'] at at_end
          cases at_end
        intro _ d at_end
        by_cases last : q ++ [i] ++ r = q ++ [i]
        · have new : (v.put c i nb free).find (q ++ [i] ++ r) = some (some nb) := by
            rw [found _ node, if_pos last]
          rw [← grown.result, grown.kept _ new, new] at at_end
          exact ⟨nb, supply ▸ mem_cons_self, (Option.some.inj at_end).symm⟩
        · have still : (v.put c i nb free).find (q ++ [i] ++ r) = none := by
            rw [found _ node, if_neg last, nothing']
          obtain ⟨b, mem, is_b⟩ := grown.taken still d at_end
          exact ⟨b, supply ▸ mem_cons_of_mem _ mem, is_b⟩
    · simp only [ne_eq, missing, not_false_eq_true, if_true]
      exact ih tidy (by simp [at_q, Vol.child, missing]) closed

/-! ### The logical blocks -/

/-- Is this the way to a logical block? -/
def IsLeaf : List Nat → Prop
  | [i] => i < 6
  | [i, _] => i = 6
  | [i, _, _] => i = 7
  | _ => False

theorem IsLeaf.eq_of_initial (leaf : IsLeaf p) (leaf' : IsLeaf q) (initial : p <+: q) : p = q := by
  obtain ⟨t, rfl⟩ := initial
  match p, t, leaf, leaf' with
  | [_], [], _, _ => rfl
  | [i], [_], leaf, leaf' => exact absurd leaf (by simp_all [IsLeaf])
  | [i], [_, _], leaf, leaf' => exact absurd leaf (by simp_all [IsLeaf])
  | [_, _], [], _, _ => rfl
  | [i, _], [_], leaf, leaf' => exact absurd leaf (by simp_all [IsLeaf])
  | [_, _, _], [], _, _ => rfl

theorem path_isLeaf (bn : Nat) : IsLeaf (path bn) := by
  unfold path
  split
  · assumption
  · split <;> rfl

theorem path_prefix_isNode {bn : Nat} (initial : p <+: path bn) : IsNode p := by
  have small : ∀ m, m % NINDIR < NINDIR := fun m => Nat.mod_lt m (by decide)
  have node : IsNode (path bn) := by
    unfold path
    split
    · exact show bn < 8 by omega
    · split
      · exact ⟨.inl rfl, small _⟩
      · exact ⟨rfl, small _, small _⟩
  obtain ⟨t, whole⟩ := initial
  rw [← whole] at node
  clear whole
  induction t using List.reverseRecOn with
  | nil => simpa using node
  | append_singleton t i ih => exact ih (by rw [← append_assoc] at node; exact node.init)

theorem path_injective {m n : Nat} (low : m < nblocks) (low' : n < nblocks)
    (same : path m = path n) : m = n := by
  unfold path at same
  simp only [nblocks, NINDIR, digits] at low low' same
  split at same <;> split at same <;> (try split at same) <;> (try split at same) <;>
    simp at same <;> omega

/-- What `bmap` returns at the end of the way. -/
def Mapped.ofCell : Option Cell → Mapped
  | some (some nb) => .block nb
  | _ => .missing

theorem walk_through (write : Bool) (bn n : Nat) (nb : Int) (v : Vol) :
    walk write v (some nb) (digits bn n) =
      ((through write bn n nb v).1.map some, (through write bn n nb v).2) := by
  induction n generalizing nb v with
  | zero => rfl
  | succ n ih =>
    simp only [digits, walk, through]
    split
    next => rfl
    next => exact ih _ _

theorem ofCell_map (nb : Option Int) : Mapped.ofCell (nb.map some) = .ofOption nb := by
  cases nb <;> rfl

/-- The loop over the levels finds the first index, and the other ones are digits of the rest. -/
theorem bmap_eq (write : Bool) (v : Vol) {bn : Nat} (low : bn < nblocks) :
    bmap write v bn =
      (.ofCell (walk write v none (path bn)).1, (walk write v none (path bn)).2) := by
  have rest : ∀ k m n, (match v.fetch write none k with
      | (none, v) => (Mapped.missing, v)
      | (some nb, v) =>
        let (nb, v) := through write m n nb v
        (.ofOption nb, v)) = (.ofCell (walk write v none (k :: digits m n)).1,
          (walk write v none (k :: digits m n)).2) := by
    intro k m n
    unfold walk
    split
    next => rfl
    next => rw [walk_through, ofCell_map]
  simp only [nblocks, NINDIR] at low
  unfold bmap path
  rw [if_neg (by omega)]
  by_cases direct : bn < 6
  · rw [if_pos (by omega), if_pos direct]
    simp only [walk, Int.toNat_natCast]
    split
    next fetched => rw [fetched]; rfl
    next fetched => rw [fetched]; rfl
  · rw [if_neg (by omega), if_neg direct]
    by_cases single : bn < 6 + NINDIR
    · have found : level ((bn : Int) - 6) 1 2 = some (2, (bn : Int) - 6) := by
        simp only [level, NINDIR] at single ⊢
        rw [if_pos (by omega)]
      have remainder : ((bn : Int) - 6).toNat = bn - 6 := by omega
      rw [if_pos single, found, ← remainder]
      exact rest 6 _ 1
    · have found : level ((bn : Int) - 6) 1 2 = some (1, (bn : Int) - 6 - 512) := by
        simp only [level, NINDIR] at single ⊢
        rw [if_neg (by omega), if_pos (by omega)]
        rfl
      have remainder : ((bn : Int) - 6 - 512).toNat = bn - (6 + NINDIR) := by
        simp only [NINDIR]
        omega
      rw [if_neg single, found, ← remainder]
      exact rest 7 _ 2

theorem bmap_outside (write : Bool) (v : Vol) {bn : Int} (outside : ¬ (0 ≤ bn ∧ bn < nblocks)) :
    bmap write v bn = (.tooBig, v) := by
  simp only [nblocks, NINDIR] at outside
  unfold bmap
  by_cases negative : bn < 0
  · rw [if_pos negative]
  · have none_found : level (bn - 6) 1 2 = none := by
      simp only [level, NINDIR]
      rw [if_neg (by omega), if_neg (by omega)]
    rw [if_neg negative, if_neg (by omega), none_found]

/-- The map that reading goes by. -/
def view (v : Vol) (bn : Int) : Mapped := (bmap false v bn).1

theorem view_eq (v : Vol) {bn : Nat} (low : bn < nblocks) :
    view v bn = .ofCell (v.find (path bn)) := by
  rw [view, bmap_eq false v low, walk_read]
  rfl

theorem view_block {bn : Int} {b : Int} (mapped : view v bn = .block b) :
    ∃ n < nblocks, bn = (n : Nat) ∧ v.find (path n) = some (some b) := by
  by_cases inside : 0 ≤ bn ∧ bn < nblocks
  · obtain ⟨n, rfl⟩ := Int.eq_ofNat_of_zero_le inside.1
    have low : n < nblocks := by omega
    refine ⟨n, low, rfl, ?_⟩
    rw [view_eq v low] at mapped
    unfold Mapped.ofCell at mapped
    split at mapped
    next found =>
      cases mapped
      exact found
    next => cases mapped
  · rw [view, bmap_outside false v inside] at mapped
    cases mapped

/-- Distinct logical blocks are distinct blocks. -/
theorem view_injective (tidy : Tidy v) {m n b : Int} (at_m : view v m = .block b)
    (at_n : view v n = .block b) : m = n := by
  obtain ⟨m, low, rfl, found⟩ := view_block at_m
  obtain ⟨n, low', rfl, found'⟩ := view_block at_n
  have nodes := fun k => path_prefix_isNode (prefix_refl (path k))
  rw [path_injective low low' (tidy.unique _ _ _ (nodes m) (nodes n) found found')]

/-- Whatever becomes of the last step, other logical blocks than `n` are where they were. -/
theorem Grown.view_of_ne {n : Nat} {d : Option Cell} (grown : Grown v v' (path n) d)
    (low : n < nblocks) {m : Int} (other : m ≠ n) : view v' m = view v m := by
  by_cases inside : 0 ≤ m ∧ m < nblocks
  · obtain ⟨m, rfl⟩ := Int.eq_ofNat_of_zero_le inside.1
    have low' : m < nblocks := by omega
    rw [view_eq v' low', view_eq v low', grown.others _ (path_prefix_isNode (prefix_refl _))]
    intro initial
    have same := (path_isLeaf m).eq_of_initial (path_isLeaf n) initial
    exact other (congrArg _ (path_injective low' low same))
  · rw [view, bmap_outside false v' inside, view, bmap_outside false v inside]

/-- `bmap` for writing returns the block that is mapped, or maps one from `alloc` at this number
alone, or fails, with no block left to take, and leaves the map as it is; a number out of range
changes nothing. The tree stays one without shared blocks. -/
theorem bmap_grows (v : Vol) (tidy : Tidy v) (bn : Int) :
    (¬ (0 ≤ bn ∧ bn < nblocks) → bmap true v bn = (.tooBig, v)) ∧
      (0 ≤ bn ∧ bn < nblocks →
        (∃ b, view v bn = .block b ∧ bmap true v bn = (.block b, v)) ∨
        (∃ b ∈ v.free, ∃ v', view v bn = .missing ∧ bmap true v bn = (.block b, v') ∧
          ∀ m, view v' m = if m = bn then .block b else view v m) ∨
        (∃ v', view v bn = .missing ∧ bmap true v bn = (.missing, v') ∧ v'.free = [] ∧
          ∀ m, view v' m = view v m)) ∧
      Tidy (bmap true v bn).2 ∧
      ∀ m n b, view (bmap true v bn).2 m = .block b → view (bmap true v bn).2 n = .block b →
        m = n := by
  by_cases inside : 0 ≤ bn ∧ bn < nblocks
  · obtain ⟨n, rfl⟩ := Int.eq_ofNat_of_zero_le inside.1
    have low : n < nblocks := by omega
    have node : IsNode (path n) := path_prefix_isNode (prefix_refl _)
    have grown : Grown v (walk true v none (path n)).2 (path n) (walk true v none (path n)).1 :=
      walk_grown tidy (q := []) rfl fun _ => path_prefix_isNode
    rw [bmap_eq true v low]
    refine ⟨fun outside => absurd inside outside, fun _ => ?_, grown.tidy,
      fun m n b => view_injective grown.tidy⟩
    cases before : v.find (path n) with
    | some c =>
      have same := grown.kept c before
      have result := grown.result
      rw [same, before] at result
      cases c with
      | none =>
        have leaf := path_isLeaf n
        rw [tidy.unique _ [] none node trivial before rfl] at leaf
        exact leaf.elim
      | some b =>
        refine .inl ⟨b, ?_, ?_⟩
        · rw [view_eq v low, before]
          rfl
        · rw [← result, same]
          rfl
    | none =>
      have missing : view v n = .missing := by
        rw [view_eq v low, before]
        rfl
      cases found : (walk true v none (path n)).1 with
      | none =>
        refine .inr (.inr ⟨_, missing, rfl, grown.failed found, fun m => ?_⟩)
        by_cases here : m = n
        · rw [here, missing, view_eq _ low, grown.result, found]
          rfl
        · exact grown.view_of_ne low here
      | some c =>
        obtain ⟨b, mem, rfl⟩ := grown.taken before c found
        refine .inr (.inl ⟨b, mem, _, missing, rfl, fun m => ?_⟩)
        by_cases here : m = n
        · rw [if_pos here, here, view_eq _ low, grown.result, found]
          rfl
        · rw [if_neg here]
          exact grown.view_of_ne low here
  · rw [bmap_outside true v inside]
    exact ⟨fun _ => rfl, fun within => absurd within inside, tidy, fun m n b => view_injective tidy⟩

/-- An empty file, and two blocks that are free. -/
def emptyFile : Vol := ⟨fun _ _ => 0, [5, 9]⟩

theorem bmap_grows_empty :
    Tidy emptyFile ∧ (bmap true emptyFile 6).1 = .block 9 ∧ Tidy (bmap true emptyFile 6).2 := by
  have only_root : ∀ p c, emptyFile.find p = some c → p = [] ∧ c = none := by
    intro p c found
    cases p with
    | nil => exact ⟨rfl, (Option.some.inj found).symm⟩
    | cons i p => cases found
  have tidy : Tidy emptyFile := by
    refine ⟨fun p q c _ _ at_p at_q => ?_, fun p b _ _ at_p => ?_, by decide, by decide⟩
    · rw [(only_root p c at_p).1, (only_root q c at_q).1]
    · cases (only_root p _ at_p).2
  exact ⟨tidy, by decide, (bmap_grows emptyFile tidy 6).2.2.1⟩

end V7Besm.Fs.Bmap

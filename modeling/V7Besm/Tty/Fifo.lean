import V7Besm.Tty.Clist
import Mathlib.Data.List.FinRange

/-!
Character lists are queues.

Over any sequence of calls on any number of clists, each clist is a queue of bytes, and
the blocks of the pool are divided between the free ones and the clists. The only way a
call differs from a queue without bounds is that `putc`, and with it `b_to_q`, finds no
block.
-/

namespace V7Besm.Tty.Clists

open Links List

variable {ι : Type} [DecidableEq ι] {s : Clists ι} {i j : ι} {c n : Nat} {cs : List Nat}

/-- Some division of the blocks is right. -/
def Valid (s : Clists ι) : Prop := ∃ free chain owner, Inv s free chain owner

theorem Valid.getc (valid : Valid s) (i : ι) : Gets s i (s.getc i) ∧ Valid (s.getc i).2 := by
  obtain ⟨_, _, _, inv⟩ := valid
  exact getc_spec inv i

theorem Valid.putc (valid : Valid s) (c : Nat) (i : ι) :
    Puts s i c (s.putc c i) ∧ Valid (s.putc c i).2 := by
  obtain ⟨_, _, _, inv⟩ := valid
  exact putc_spec inv c i

/-! ### The copying loops -/

/-- `q_to_b` takes characters off the front, as many as there are. -/
structure GetsMany (s : Clists ι) (i : ι) (n : Nat) (r : List Nat × Clists ι) : Prop where
  answer : r.1 = (s.contents i).take n
  self : r.2.contents i = (s.contents i).drop n
  others : ∀ j ≠ i, r.2.contents j = s.contents j

theorem Valid.qToB (valid : Valid s) (i : ι) (n : Nat) :
    GetsMany s i n (s.qToB i n) ∧ Valid (s.qToB i n).2 := by
  induction n generalizing s with
  | zero => exact ⟨⟨by simp [Clists.qToB], by simp [Clists.qToB], fun _ _ => rfl⟩, valid⟩
  | succ n ih =>
    obtain ⟨gets, valid'⟩ := valid.getc i
    rw [Clists.qToB]
    rcases got : s.getc i with ⟨_ | c, s'⟩
    all_goals
      rw [got] at gets valid'
    · have empty : s.contents i = [] := List.head?_eq_none_iff.mp gets.answer.symm
      exact ⟨⟨by simp [empty], by simpa [empty] using gets.self, gets.others⟩, valid'⟩
    have first : s.contents i = c :: s'.contents i := by
      rw [gets.self]
      exact eq_cons_of_mem_head? gets.answer.symm
    obtain ⟨rest, valid''⟩ := ih valid'
    refine ⟨⟨?_, ?_, fun j ne => ?_⟩, valid''⟩
    · simp [first, rest.answer]
    · simp [first, rest.self]
    · rw [rest.others j ne, gets.others j ne]

/-- `b_to_q` puts characters on the end until the pool runs dry. -/
structure PutsMany (s : Clists ι) (i : ι) (cs : List Nat) (r : Nat × Clists ι) : Prop where
  answer : r.1 ≤ cs.length
  short : r.1 ≠ 0 → Needs (r.2.list i) ∧ r.2.cfreelist = none
  self : r.2.contents i = s.contents i ++ (cs.take (cs.length - r.1)).map (· % 256)
  others : ∀ j ≠ i, r.2.contents j = s.contents j

theorem Valid.bToQ (valid : Valid s) (i : ι) (cs : List Nat) :
    PutsMany s i cs (s.bToQ i cs) ∧ Valid (s.bToQ i cs).2 := by
  induction cs generalizing s with
  | nil => exact ⟨⟨by simp [Clists.bToQ], by simp [Clists.bToQ], by simp [Clists.bToQ],
      fun _ _ => rfl⟩, valid⟩
  | cons c cs ih =>
    obtain ⟨puts, valid'⟩ := valid.putc c i
    rw [Clists.bToQ]
    rcases put : s.putc c i with ⟨_ | _, s'⟩
    all_goals
      rw [put] at puts valid'
      simp only at valid'
    · obtain rfl : s' = s := puts.fails rfl
      exact ⟨⟨by simp, fun _ => puts.answer.mp rfl, by simp, fun _ _ => rfl⟩, valid⟩
    obtain ⟨rest, valid''⟩ := ih valid'
    have left := rest.answer
    refine ⟨⟨by simp only [length_cons]; omega, rest.short, ?_, fun j ne => ?_⟩, valid''⟩
    · have count : (c :: cs).length - (s'.bToQ i cs).1 = cs.length - (s'.bToQ i cs).1 + 1 := by
        simp only [length_cons]
        omega
      rw [rest.self, puts.self rfl, count]
      simp
    · rw [rest.others j ne, puts.others j ne]

/-! ### Whole runs -/

/-- `cinit` frees every block of the pool. -/
def cinit (s : Clists ι) : Clists ι := (List.finRange NCLIST).foldl release s

/-- The kernel before `cinit`: no links, and clists as they are in bss. -/
def bss : Clists ι := ⟨fun _ => none, fun _ _ => 0, none, fun _ => {}⟩

omit [DecidableEq ι] in
theorem chain_foldl_release {bs : List Block} (free : List Block) (linked : Chain s.next s.cfreelist free)
    (nodup : bs.Nodup) (apart : ∀ b ∈ bs, b ∉ free) :
    Chain (bs.foldl release s).next (bs.foldl release s).cfreelist (bs.reverse ++ free) ∧
      (bs.foldl release s).list = s.list := by
  induction bs generalizing s free with
  | nil => exact ⟨linked, rfl⟩
  | cons b bs ih =>
    obtain ⟨out, nodup⟩ := nodup_cons.mp nodup
    have pushed : Chain (s.release b).next (s.release b).cfreelist (b :: free) :=
      linked.push (apart b mem_cons_self)
    obtain ⟨all, same⟩ := ih (b :: free) pushed nodup fun x mem => by
      rw [mem_cons, not_or]
      exact ⟨ne_of_mem_of_not_mem mem out, apart x (mem_cons_of_mem _ mem)⟩
    exact ⟨by simpa using all, same⟩

omit [DecidableEq ι] in
theorem valid_cinit : Valid (cinit (bss : Clists ι)) := by
  obtain ⟨free, same⟩ := chain_foldl_release (s := (bss : Clists ι)) [] rfl
    (nodup_finRange NCLIST) (by simp)
  refine ⟨_, fun _ => [], fun _ => none, ⟨free, fun i => ?_, by simp, by simp⟩, fun i => ?_⟩
  · rw [cinit, same]
    rfl
  · rw [cinit, same]
    exact ⟨fun _ => ⟨rfl, rfl⟩, by simp⟩

/-- One call on one of the clists. -/
inductive Call (ι : Type) where
  | putc (c : Nat) (i : ι)
  | getc (i : ι)
  | bToQ (cs : List Nat) (i : ι)
  | qToB (i : ι) (cc : Nat)

def Call.apply (s : Clists ι) : Call ι → Clists ι
  | .putc c i => (s.putc c i).2
  | .getc i => (s.getc i).2
  | .bToQ cs i => (s.bToQ i cs).2
  | .qToB i cc => (s.qToB i cc).2

theorem Valid.apply (valid : Valid s) (call : Call ι) : Valid (call.apply s) := by
  cases call with
  | putc c i => exact (valid.putc c i).2
  | getc i => exact (valid.getc i).2
  | bToQ cs i => exact (valid.bToQ i cs).2
  | qToB i cc => exact (valid.qToB i cc).2

/-- The blocks a clist holds: enough for its characters and the slots before them. -/
def blockCount (p : Clist) : Nat := if p.cc = 0 then 0 else (p.hix + p.cc + (CBSIZE - 1)) / CBSIZE

omit [DecidableEq ι] in
theorem length_eq_blockCount {p : Clist} {bs : List Block} (cursors : Cursors p bs) :
    bs.length = blockCount p := by
  by_cases none : bs = []
  · simp [none, blockCount, (cursors.idle none).1]
  · obtain ⟨pos, tix, spans⟩ := cursors.live none
    have count := spans.count
    have le := spans.tix
    rw [blockCount, if_neg (by omega)]
    simp only [CBSIZE] at *
    omega

/-- Each clist is a queue, and each block is free or part of one clist. -/
structure Fifo (s : Clists ι) : Prop where
  getc : ∀ i, Gets s i (s.getc i)
  putc : ∀ c i, Puts s i c (s.putc c i)
  qToB : ∀ i n, GetsMany s i n (s.qToB i n)
  bToQ : ∀ cs i, PutsMany s i cs (s.bToQ i cs)
  blocks : ∃ (free : List Block) (chain : ι → List Block), Chain s.next s.cfreelist free ∧
    (∀ i, Chain s.next (s.list i).hd (chain i) ∧ (chain i).length = blockCount (s.list i)) ∧
    ∀ b, (b ∈ free ∧ ∀ i, b ∉ chain i) ∨ (b ∉ free ∧ ∃! i, b ∈ chain i)

theorem Valid.fifo (valid : Valid s) : Fifo s := by
  refine ⟨fun i => (valid.getc i).1, fun c i => (valid.putc c i).1,
    fun i n => (valid.qToB i n).1, fun cs i => (valid.bToQ i cs).1, ?_⟩
  obtain ⟨free, chain, owner, inv⟩ := valid
  refine ⟨free, chain, inv.free_chain,
    fun i => ⟨inv.list_chain i, length_eq_blockCount (inv.cursors i)⟩, fun b => ?_⟩
  simp only [inv.mem_free, inv.mem_chain]
  cases owner b with
  | none => simp
  | some i => exact .inr ⟨by simp, i, rfl, fun j eq => (Option.some.inj eq).symm⟩

omit [DecidableEq ι] in
theorem cinit_list : (cinit (bss : Clists ι)).list = fun _ => {} :=
  (chain_foldl_release (s := (bss : Clists ι)) [] rfl
    (nodup_finRange NCLIST) (by simp)).2

/-- From the empty clists on, every sequence of calls keeps them queues over the shared
pool. -/
theorem fifo_of_calls (calls : List (Call ι)) :
    (∀ i : ι, (cinit bss).contents i = []) ∧ Fifo (calls.foldl Call.apply (cinit bss)) := by
  refine ⟨fun i => by simp [contents, chars, cinit_list], Valid.fifo ?_⟩
  exact List.foldlRecOn calls Call.apply valid_cinit fun s valid call _ => valid.apply call

end V7Besm.Tty.Clists

import V7Besm.Ld.Object
import V7Besm.Probe.Table

/-!
The linker's global symbol table (`symtab.c`).

Symbols are entered in the order they are first seen and found through an
open-addressing table of `NSYM + 2` buckets. When a library member turns out to
define nothing that is needed, the entries it made are ripped out again, the last
one first, so every remaining entry keeps its probe path.

The comparison of `lookup_symbol` stops at the end of the sought name. A stored
name that goes on after it is taken for a match, and `lookupSymbol_exact_iff` says
that this is the only way the lookup can go wrong.
-/

namespace V7Besm.Ld

open Function List

/-- The table sizes of a build, and what a `char` of a name counts in the hash. -/
structure Profile where
  (NSYM NSYMPR NCONST NCINDEX LLSIZE : Nat)
  char : UInt8 → Int
  pos : 0 < NSYM

/-- The cross linker, on a machine whose `char` is signed. -/
def Profile.host : Profile where
  NSYM := 2000
  NSYMPR := 1000
  NCONST := 4096
  NCINDEX := 4096
  LLSIZE := 256
  char c := if c < 128 then c.toNat else (c.toNat : Int) - 256
  pos := by decide

/-- The linker that runs on the BESM-6. -/
def Profile.besm6 : Profile where
  NSYM := 1024
  NSYMPR := 256
  NCONST := 2048
  NCINDEX := 1024
  LLSIZE := 256
  char c := c.toNat
  pos := by decide

/-- The diagnostics of severity 1 and 2. The last one stands for an index past the end
of `coptsize`, which the source does not test. -/
inductive Diag where
  | symbolTableOverflow
  | constOutside (name : Name) (value : Int)
  | redefined (name : Name)
  | badSymbolReference
  | notRelocatable
  | constIndexOverflow
  | constantTableOverflow
  | segmentOverflow (seg : Seg)
  | symbolSizeOverflow
  | constTooLarge (last : Int)
  | undefinedReference (name : Name)
  | longAddress (name : Name) (value : Int)
  | symbolNotFound
  | localTableOverflow
  | constReferenceOutside (a : Nat)
  | shortOutOfRange (name : Option Name) (a : Int)
  | fileTableOverrun
deriving DecidableEq, Repr

/-- `symtab` with `symindex` entries, the bucket of each and the buckets. -/
structure Symtab where
  hshtab : Nat → Option Nat
  symtab : List Nlist
  symhash : List Nat

namespace Symtab

def empty : Symtab := ⟨fun _ => none, [], []⟩

/-- The table as open addressing sees it: only the names matter. -/
def table (s : Symtab) : Probe.Table Name := ⟨s.hshtab, s.symtab.map Nlist.name, s.symhash⟩

end Symtab

section Lookup

variable (pr : Profile)

/-- The name's characters folded into a number. -/
def hash (n : Name) : Int := n.foldl (fun i c => 2 * i + pr.char c) 0

/-- The first bucket to look at. -/
def home (n : Name) : Nat := (hash pr n % 0o100000).toNat % pr.NSYM + 2

/-- The comparison of the sought name with a stored one, up to the end of the
sought name. -/
def clash : Name → Name → Bool
  | [], _ => false
  | _ :: _, [] => true
  | c :: cp, d :: cp1 => if c ≠ d then true else clash cp cp1

/-- The stored name is taken for the sought one. -/
def hits (sought stored : Name) : Bool := !clash sought stored

/-- The bucket of a matching entry or an empty one. There is none where the search
would go round forever. -/
def lookupSymbol (s : Symtab) (n : Name) : Option Nat := s.table.find (pr.NSYM + 2) (home pr) hits n

/-- A new name is entered in the bucket found for it. The result is the entry,
`lastsym`, and whether it is new. -/
def enterSymbol (s : Symtab) (cursym : Nlist) (hp : Nat) : Except Diag (Symtab × Nat × Bool) :=
  match s.hshtab hp with
  | none =>
    if s.symtab.length ≥ pr.NSYM then .error .symbolTableOverflow
    else
      let s' : Symtab :=
        { hshtab := update s.hshtab hp (some s.symtab.length)
          symtab := s.symtab ++ [cursym]
          symhash := s.symhash ++ [hp] }
      .ok (s', s.symtab.length, true)
  | some sp => .ok (s, sp, false)

/-- `p = symhash[--symindex]; *p = 0`. -/
def Symtab.ripLast (s : Symtab) : Symtab :=
  match s.symhash.getLast? with
  | none => s
  | some p =>
    { hshtab := update s.hshtab p none
      symtab := s.symtab.dropLast
      symhash := s.symhash.dropLast }

/-- The last `count` entries are ripped out. -/
def Symtab.rip (s : Symtab) : Nat → Symtab
  | 0 => s
  | count + 1 => s.ripLast.rip count

/-- What pass 1 does to a table: enter a symbol under its name, give an entry another
type and value, rip out the entries from `savindex` on. -/
inductive Event where
  | enter (cursym : Nlist)
  | merge (sp : Nat) (seg : Seg) (value : Int)
  | rip (savindex : Nat)
deriving DecidableEq, Repr

/-- `sp->n_type = …; sp->n_value = …` of an external symbol. -/
def Symtab.merge (s : Symtab) (sp : Nat) (seg : Seg) (value : Int) : Symtab :=
  { s with symtab := s.symtab.modify sp (fun e => { e with seg := seg, value := value }) }

/-- One event; none is left of a table that overflows, or of a lookup without end. -/
def Symtab.step (s : Symtab) : Event → Option Symtab
  | .enter cursym =>
    match lookupSymbol pr s cursym.name with
    | none => none
    | some hp =>
      match enterSymbol pr s cursym hp with
      | .error _ => none
      | .ok (s', _, _) => some s'
  | .merge sp seg value => some (s.merge sp seg value)
  | .rip savindex => some (s.rip (s.symtab.length - savindex))

/-- The tables pass 1 can reach. -/
inductive Symtab.Reached : Symtab → Prop where
  | empty : Reached Symtab.empty
  | step {s s' : Symtab} (e : Event) : Reached s → s.step pr e = some s' → Reached s'

end Lookup

/-! ### The comparison is a test for a prefix -/

theorem clash_eq_false_iff {n n' : Name} : clash n n' = false ↔ n <+: n' := by
  induction n generalizing n' with
  | nil => simp [clash]
  | cons c n ih =>
    cases n' with
    | nil => simp [clash]
    | cons d n' =>
      unfold clash
      split
      next differ => simp [cons_prefix_cons, differ]
      next same =>
        rw [ih, cons_prefix_cons]
        simp only [ne_eq, not_not] at same
        simp [same]

@[simp]
theorem hits_iff {n n' : Name} : hits n n' = true ↔ n <+: n' := by
  simp [hits, clash_eq_false_iff]

theorem hits_refl (n : Name) : hits n n = true := hits_iff.mpr (prefix_refl n)

theorem home_lt (pr : Profile) (n : Name) : home pr n < pr.NSYM + 2 := by
  have := Nat.mod_lt (hash pr n % 0o100000).toNat pr.pos
  unfold home
  omega

/-! ### What every reached table keeps -/

/-- The entries fit in the table and stand on their probe paths. -/
structure Symtab.Sound (pr : Profile) (s : Symtab) : Prop where
  fits : s.symtab.length ≤ pr.NSYM
  laid : s.table.Laid (pr.NSYM + 2) (home pr) hits

namespace Symtab

variable {pr : Profile} {s s' : Symtab}

theorem sound_empty : Sound pr empty := ⟨Nat.zero_le _, Probe.Table.laid_empty⟩

@[simp]
theorem table_merge (s : Symtab) (sp : Nat) (seg : Seg) (value : Int) :
    (s.merge sp seg value).table = s.table := by
  have names : (s.symtab.modify sp fun e => { e with seg := seg, value := value }).map
      Nlist.name = s.symtab.map Nlist.name := by
    apply ext_getElem?
    intro i
    rw [List.getElem?_map, List.getElem?_modify, List.getElem?_map]
    cases s.symtab[i]? with
    | none => rfl
    | some e => by_cases same : sp = i <;> simp [same]
  simp [merge, table, names]

@[simp]
theorem length_merge (s : Symtab) (sp : Nat) (seg : Seg) (value : Int) :
    (s.merge sp seg value).symtab.length = s.symtab.length := by
  simp [merge]

theorem Sound.merge (sound : Sound pr s) (sp : Nat) (seg : Seg) (value : Int) :
    Sound pr (s.merge sp seg value) where
  fits := by simpa using sound.fits
  laid := by simpa using sound.laid

/-- The lookup ends: the buckets outnumber the entries. -/
theorem Sound.lookup_ends (sound : Sound pr s) (n : Name) :
    ∃ hp, lookupSymbol pr s n = some hp := by
  apply sound.laid.find_isSome (home_lt pr)
  have := sound.fits
  simp only [table, length_map]
  omega

/-- Entering a symbol under its name either finds an entry and changes nothing, or
puts the symbol last, in the bucket found. -/
theorem enterSymbol_cases {cursym : Nlist} {hp sp : Nat} {new : Bool}
    (entered : enterSymbol pr s cursym hp = .ok (s', sp, new)) :
    (s.hshtab hp = some sp ∧ s' = s ∧ new = false) ∨
      (s.hshtab hp = none ∧ s.symtab.length < pr.NSYM ∧ sp = s.symtab.length ∧ new = true ∧
        s' = { hshtab := update s.hshtab hp (some s.symtab.length)
               symtab := s.symtab ++ [cursym]
               symhash := s.symhash ++ [hp] }) := by
  unfold enterSymbol at entered
  split at entered
  next free =>
    split at entered
    next => cases entered
    next room =>
      cases entered
      exact .inr ⟨free, by omega, rfl, rfl, rfl⟩
  next held =>
    cases entered
    exact .inl ⟨held, rfl, rfl⟩

theorem Sound.enter (sound : Sound pr s) {cursym : Nlist} {hp sp : Nat} {new : Bool}
    (found : lookupSymbol pr s cursym.name = some hp)
    (entered : enterSymbol pr s cursym hp = .ok (s', sp, new)) : Sound pr s' := by
  obtain ⟨-, rfl, -⟩ | ⟨free, room, -, -, rfl⟩ := enterSymbol_cases entered
  · exact sound
  · constructor
    · rwa [length_append]
    · have := sound.laid.push found free
      simpa [Probe.Table.push, table] using this

theorem table_ripLast (s : Symtab) : s.ripLast.table = s.table.pop := by
  unfold ripLast Probe.Table.pop
  simp only [table]
  split <;> simp_all [map_dropLast]

theorem Sound.ripLast (sound : Sound pr s) : Sound pr s.ripLast := by
  constructor
  · have := sound.fits
    unfold Symtab.ripLast
    split
    · exact this
    · simp only [length_dropLast]
      omega
  · rw [table_ripLast]
    exact sound.laid.pop

theorem Sound.rip (sound : Sound pr s) (count : Nat) : Sound pr (s.rip count) := by
  induction count generalizing s with
  | zero => exact sound
  | succ count ih => exact ih sound.ripLast

theorem Sound.step (sound : Sound pr s) {e : Event} (does : s.step pr e = some s') :
    Sound pr s' := by
  cases e with
  | enter cursym =>
    simp only [Symtab.step] at does
    split at does
    next => cases does
    next hp found =>
      split at does
      next => cases does
      next entered =>
        cases does
        exact sound.enter found entered
  | merge sp seg value =>
    cases does
    exact sound.merge sp seg value
  | rip savindex =>
    cases does
    exact sound.rip _

theorem Reached.sound (reached : Reached pr s) : Sound pr s := by
  induction reached with
  | empty => exact sound_empty
  | step e _ does ih => exact ih.step does

/-- The bucket `hp` answers exactly for `n`: it holds the entry of that name, if there
is one, and is empty otherwise. -/
def Exact (s : Symtab) (n : Name) (hp : Nat) : Prop :=
  (∀ k e, s.symtab[k]? = some e → e.name = n → s.hshtab hp = some k) ∧
    ((∀ e ∈ s.symtab, e.name ≠ n) → s.hshtab hp = none)

/-- An entry is met on the way from the home bucket of `n`, before an empty bucket and
before an entry named `n`. -/
def OnPath (pr : Profile) (s : Symtab) (n : Name) (e : Nlist) : Prop :=
  ∃ k, s.symtab[k]? = some e ∧ s.table.OnPath (pr.NSYM + 2) (home pr) n k

theorem exact_iff_table {n : Name} {hp : Nat} :
    s.Exact n hp ↔
      (∀ k, s.table.names[k]? = some n → s.table.slot hp = some k) ∧
        ((∀ k : Nat, s.table.names[k]? ≠ some n) → s.table.slot hp = none) := by
  have named : ∀ k : Nat, s.table.names[k]? = some n ↔ ∃ e, s.symtab[k]? = some e ∧ e.name = n := by
    intro k
    simp [table]
  apply and_congr
  · constructor
    · intro present k at_k
      obtain ⟨e, at_e, name⟩ := (named k).mp at_k
      exact present k e at_e name
    · intro present k e at_e name
      exact present k ((named k).mpr ⟨e, at_e, name⟩)
  · apply imp_congr_left
    constructor
    · intro absent k at_k
      obtain ⟨e, at_e, name⟩ := (named k).mp at_k
      exact absent e (mem_of_getElem? at_e) name
    · intro absent e mem name
      obtain ⟨k, at_k⟩ := mem_iff_getElem?.mp mem
      exact absent k ((named k).mpr ⟨e, at_k, name⟩)

end Symtab

/-- In every table that insertions, merges and rip-outs can lead to, the lookup of
every name ends, and its answer is exact if and only if no entry met on the way
there is named by a proper extension of the sought name. -/
theorem lookupSymbol_exact_iff {pr : Profile} {s : Symtab} (reached : s.Reached pr)
    (n : Name) :
    ∃ hp, lookupSymbol pr s n = some hp ∧
      (s.Exact n hp ↔ ∀ e, s.OnPath pr n e → ¬ n <+: e.name) := by
  have sound := reached.sound
  obtain ⟨hp, found⟩ := sound.lookup_ends n
  refine ⟨hp, found, ?_⟩
  rw [Symtab.exact_iff_table, sound.laid.exact_iff_path hits_refl found]
  constructor
  · rintro clear e ⟨k, at_k, path⟩ ext
    have miss := clear k e.name path (by simp [Symtab.table, at_k])
    rw [hits_iff.mpr ext] at miss
    cases miss
  · intro clear k n' path name
    obtain ⟨e, at_k, rfl⟩ : ∃ e, s.symtab[k]? = some e ∧ e.name = n' := by
      simpa [Symtab.table] using name
    exact Bool.eq_false_iff.mpr fun hit => clear e ⟨k, at_k, path⟩ (hits_iff.mp hit)

/-- `close`, and a longer name that hashes to the same bucket of the cross linker. -/
def close : Name := [99, 108, 111, 115, 101]

def closetc : Name := [99, 108, 111, 115, 101, 116, 99]

/-- The table with the one external symbol `n`, in its home bucket. -/
def Symtab.single (pr : Profile) (n : Name) : Symtab where
  hshtab := update (fun _ => none) (home pr n) (some 0)
  symtab := [⟨n, true, .text, 0⟩]
  symhash := [home pr n]

theorem Symtab.reached_single (n : Name) : (Symtab.single .host n).Reached .host :=
  .step (.enter ⟨n, true, .text, 0⟩) .empty rfl

/-- The table after `close` and `closetc` were entered and `closetc` was ripped out again. -/
def Symtab.ripped : Symtab :=
  (((single .host close).step .host (.enter ⟨closetc, true, .undf, 0⟩)).getD empty).rip 1

theorem Symtab.reached_ripped : ripped.Reached .host :=
  .step (.rip 1) (.step (.enter ⟨closetc, true, .undf, 0⟩) (reached_single close) rfl) rfl

theorem lookupSymbol_exact_iff_ripped :
    Symtab.ripped.symtab.length = 1 ∧ ∃ hp, lookupSymbol .host Symtab.ripped closetc = some hp ∧
      (Symtab.ripped.Exact closetc hp ↔
        ∀ e, Symtab.ripped.OnPath .host closetc e → ¬ closetc <+: e.name) :=
  ⟨rfl, lookupSymbol_exact_iff Symtab.reached_ripped closetc⟩

/-- With only `closetc` entered the lookup of `close` returns its entry. -/
theorem lookupSymbol_takes_extension :
    (Symtab.single .host closetc).Reached .host ∧
      (∀ e ∈ (Symtab.single .host closetc).symtab, e.name ≠ close) ∧
      ∃ hp, lookupSymbol .host (Symtab.single .host closetc) close = some hp ∧
        (Symtab.single .host closetc).hshtab hp = some 0 := by
  refine ⟨Symtab.reached_single closetc, by decide, 1225, by decide +kernel, by decide +kernel⟩

end V7Besm.Ld

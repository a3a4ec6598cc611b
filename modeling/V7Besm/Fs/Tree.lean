import V7Besm.Fs.Claims
import V7Besm.Graph.Tour
import Mathlib.Algebra.Order.BigOperators.Group.List
import Mathlib.Algebra.Order.Group.Nat

/-!
What the second pass of the checker does.

The walk of the directories is a depth-first tour of the graph whose edges are the
entries that name a directory. It comes to its end just when all directories it comes to
can be read and no counter overflows; then it has counted every entry of the directories
that can be reached, and if it has no complaint these form a tree.
-/

namespace V7Besm.Fs

open Alloc Fallible V7Besm.Graph Function List

variable {f : Filesystem} {c c' : Checker} {ino parent : Int} {path : Name}

/-! ### The graph -/

/-- Every entry of the directory can be read. -/
def Readable (f : Filesystem) (ino : Int) : Prop :=
  ∀ ent < entryCount (inodeAt f ino), ∃ e, dirEntry f (inodeAt f ino) ent = .ok e

/-- The entries of a directory. -/
def entriesOf (f : Filesystem) (ino : Int) : List DirEntry :=
  (List.range (entryCount (inodeAt f ino))).filterMap fun ent =>
    (dirEntry f (inodeAt f ino) ent).toOption

namespace DirEntry

def isDot (e : DirEntry) : Bool := e.name = [46]

def isDotdot (e : DirEntry) : Bool := e.name = [46, 46]

end DirEntry

/-- The entry's i-number is one of the i-list. -/
def named (f : Filesystem) (e : DirEntry) : Bool := ROOTINO ≤ e.ino ∧ e.ino ≤ f.inodeCount

/-- An entry that is counted as a link. -/
def counts (f : Filesystem) (e : DirEntry) : Bool :=
  named f e && (e.isDot || e.isDotdot || (inodeAt f e.ino).mode ≠ 0)

/-- An entry for a directory below this one. -/
def isSubdir (f : Filesystem) (e : DirEntry) : Bool :=
  named f e && !e.isDot && !e.isDotdot && (inodeAt f e.ino).mode ≠ 0 && (inodeAt f e.ino).isDir

/-- The directories that a directory names. -/
def subdirs (f : Filesystem) (ino : Int) : List Int :=
  ((entriesOf f ino).filter (isSubdir f)).map DirEntry.ino

/-- How many of the entries count as links to an inode. -/
def linksIn (f : Filesystem) (es : List DirEntry) (i : Int) : Nat :=
  es.countP fun e => counts f e && e.ino = i

theorem linksIn_append (f : Filesystem) (es es' : List DirEntry) (i : Int) :
    linksIn f (es ++ es') i = linksIn f es i + linksIn f es' i := countP_append

/-! ### The entries of one directory -/

/-- The tables of inodes are right. -/
def TablesRight (f : Filesystem) (c : Checker) : Prop :=
  ∀ i, ROOTINO ≤ i → i ≤ f.inodeCount →
    c.allocated i = decide ((inodeAt f i).mode ≠ 0) ∧
      c.isDir i = (decide ((inodeAt f i).mode ≠ 0) && (inodeAt f i).isDir)

theorem Scanned.tablesRight (scanned : Scanned f (checkedInodes f) c) : TablesRight f c := by
  intro i low high
  have within := mem_checkedInodes.mpr ⟨low, high⟩
  constructor
  · rw [Bool.eq_iff_iff, scanned.allocated, decide_eq_true_eq]
    exact and_iff_right within
  · rw [Bool.eq_iff_iff, scanned.isDir, Bool.and_eq_true, decide_eq_true_eq]
    exact and_iff_right within

/-- The counters are in the range of their type. -/
def InRange (c : Checker) : Prop := ∀ i, c.refs i ≤ 2 ^ 31 - 1

/-- What has been learnt of the entries `es` of the directory `ino`. -/
structure Looked (f : Filesystem) (ino parent : Int) (c : Checker) (es : List DirEntry)
    (look : Look) : Prop where
  fields : look.checker = { c with
    problems := look.checker.problems, refs := look.checker.refs }
  problems : look.checker.problems = [] → c.problems = []
  refs : ∀ i, look.checker.refs i = c.refs i + linksIn f es i
  range : InRange look.checker
  subdirs : look.subdirs.map Prod.snd = (es.filter (isSubdir f)).map DirEntry.ino
  dot : look.sawDot = true ↔ ∃ e ∈ es, named f e = true ∧ e.isDot = true
  dotdot : look.sawDotdot = true ↔ ∃ e ∈ es, named f e = true ∧ e.isDotdot = true
  clean : look.checker.problems = [] → ∀ e ∈ es, e.ino ≠ 0 → counts f e = true ∧
    (e.isDot = true → e.ino = ino) ∧ (e.isDotdot = true → e.ino = parent)

theorem looked_start (range : InRange c) : Looked f ino parent c [] ⟨c, false, false, []⟩ := by
  refine ⟨rfl, id, ?_, range, rfl, ?_, ?_, ?_⟩
  · intro i
    simp [linksIn]
  · simp
  · simp
  · nofun

theorem bump_eq_ok (i : Int) : bump c i = .ok c' ↔
    c.refs i < 2 ^ 31 - 1 ∧ c' = { c with refs := update c.refs i (c.refs i + 1) } := by
  unfold bump
  by_cases full : c.refs i ≥ 2 ^ 31 - 1
  · rw [if_pos full]
    constructor
    · nofun
    · rintro ⟨room, -⟩
      omega
  · rw [if_neg full]
    constructor
    · intro ok
      cases ok
      exact ⟨by omega, rfl⟩
    · rintro ⟨-, rfl⟩
      rfl

/-- What the checker has to say about an entry. -/
def complaint (f : Filesystem) (ino : Int) (path : Name) (parent : Int) (ent : Nat)
    (e : DirEntry) : Option Problem :=
  let child := path ++ [47] ++ e.name
  if e.ino = 0 then none
  else if !named f e then some (.outsideIlist child ent e.ino)
  else if e.isDot then if e.ino ≠ ino then some (.dot child e.ino ino) else none
  else if e.isDotdot then if e.ino ≠ parent then some (.dotdot child e.ino parent) else none
  else if (inodeAt f e.ino).mode = 0 then some (.notAllocated child e.ino)
  else none

/-- The state behind an entry. -/
def afterEntry (f : Filesystem) (ino : Int) (path : Name) (parent : Int) (look : Look) (ent : Nat)
    (e : DirEntry) : Look where
  checker := { look.checker with
    problems := (complaint f ino path parent ent e).toList ++ look.checker.problems
    refs := if counts f e then
      update look.checker.refs e.ino (look.checker.refs e.ino + 1) else look.checker.refs }
  sawDot := look.sawDot || (named f e && e.isDot)
  sawDotdot := look.sawDotdot || (named f e && e.isDotdot)
  subdirs := look.subdirs ++
    if isSubdir f e then [(path ++ [47] ++ e.name, e.ino)] else []

variable {look look' : Look} {ent : Nat} {e : DirEntry}

theorem ok_of_not_counted {look₁ : Look} (no : counts f e = false)
    (after : afterEntry f ino path parent look ent e = look₁) :
    (.ok look₁ : Except Abort Look) = .ok look' ↔
      (counts f e = true → look.checker.refs e.ino < 2 ^ 31 - 1) ∧
        look' = afterEntry f ino path parent look ent e := by
  rw [after, no]
  constructor
  · intro ok
    cases ok
    exact ⟨nofun, rfl⟩
  · rintro ⟨-, rfl⟩
    rfl

/-- An entry that is counted, behind whatever complaint there is. -/
theorem ok_of_counted {c : Checker} {g : Checker → Look} (yes : counts f e = true)
    (refs : c.refs = look.checker.refs) (after : afterEntry f ino path parent look ent e =
      g { c with refs := update c.refs e.ino (c.refs e.ino + 1) }) :
    (do let c ← bump c e.ino; .ok (g c) : Except Abort Look) = .ok look' ↔
      (counts f e = true → look.checker.refs e.ino < 2 ^ 31 - 1) ∧
        look' = afterEntry f ino path parent look ent e := by
  rw [bind_eq_ok, after]
  constructor
  · rintro ⟨c₁, bumped, ok⟩
    obtain ⟨room, rfl⟩ := (bump_eq_ok _).mp bumped
    cases ok
    rw [refs] at room
    exact ⟨fun _ => room, rfl⟩
  · rintro ⟨room, rfl⟩
    refine ⟨_, (bump_eq_ok _).mpr ⟨?_, rfl⟩, rfl⟩
    rw [refs]
    exact room yes

attribute [local simp] afterEntry complaint counts isSubdir Checker.error

theorem visitEntry_eq_ok (tables : TablesRight f look.checker) :
    visitEntry f ino path parent look ent e = .ok look' ↔
      (counts f e = true → look.checker.refs e.ino < 2 ^ 31 - 1) ∧
        look' = afterEntry f ino path parent look ent e := by
  unfold visitEntry
  by_cases zero : e.ino = 0
  · have out : named f e = false := decide_eq_false (by simp only [ROOTINO]; omega)
    rw [if_pos zero]
    refine ok_of_not_counted (by simp [out]) ?_
    simp [out, zero]
  rw [if_neg zero]
  by_cases outside : e.ino < ROOTINO ∨ e.ino > f.inodeCount
  · have out : named f e = false := decide_eq_false (by omega)
    rw [if_pos outside]
    refine ok_of_not_counted (by simp [out]) ?_
    simp [out, zero]
  rw [if_neg outside]
  have inside : named f e = true := decide_eq_true (by omega)
  obtain ⟨allocated, is_dir⟩ := tables e.ino (by omega) (by omega)
  by_cases dot : e.name = [46]
  · have is_dot : e.isDot = true := decide_eq_true dot
    have no_dotdot : e.isDotdot = false := decide_eq_false (by rw [dot]; decide)
    rw [if_pos dot]
    refine ok_of_counted
      (by simp [inside, is_dot]) ?_ ?_
    · unfold Checker.errorIf
      split <;> rfl
    · by_cases same : e.ino = ino
      · simp [inside, is_dot, no_dotdot, same, Checker.errorIf]
      · simp [inside, is_dot, no_dotdot, zero, same, Checker.errorIf]
  rw [if_neg dot]
  have not_dot : e.isDot = false := decide_eq_false dot
  by_cases dotdot : e.name = [46, 46]
  · have is_dotdot : e.isDotdot = true := decide_eq_true dotdot
    rw [if_pos dotdot]
    refine ok_of_counted
      (by simp [inside, is_dotdot]) ?_ ?_
    · unfold Checker.errorIf
      split <;> rfl
    · by_cases same : e.ino = parent
      · simp [inside, not_dot, is_dotdot, same, Checker.errorIf]
      · simp [inside, not_dot, is_dotdot, zero, same, Checker.errorIf]
  rw [if_neg dotdot, allocated, is_dir]
  have not_dotdot : e.isDotdot = false := decide_eq_false dotdot
  by_cases mode : (inodeAt f e.ino).mode = 0
  · rw [if_pos (by simp [mode])]
    refine ok_of_not_counted (by simp [not_dot, not_dotdot, mode]) ?_
    simp [inside, not_dot, not_dotdot, zero, mode]
  · rw [if_neg (by simp [mode])]
    refine ok_of_counted
      (by simp [inside, mode]) rfl ?_
    by_cases is_dir : (inodeAt f e.ino).isDir = true
    · simp [inside, not_dot, not_dotdot, zero, mode, is_dir]
    · simp [inside, not_dot, not_dotdot, zero, mode, is_dir]

theorem linksIn_singleton (f : Filesystem) (e : DirEntry) (i : Int) :
    linksIn f [e] i = if counts f e = true ∧ e.ino = i then 1 else 0 := by
  unfold linksIn
  simp

theorem complaint_none (silent : complaint f ino path parent ent e = none) (nonzero : e.ino ≠ 0) :
    counts f e = true ∧ (e.isDot = true → e.ino = ino) ∧ (e.isDotdot = true → e.ino = parent) := by
  have exclusive : e.isDot = true → e.isDotdot = false := by
    intro dot
    have name := of_decide_eq_true dot
    exact decide_eq_false (by rw [name]; decide)
  unfold complaint at silent
  rw [if_neg nonzero] at silent
  cases inside : named f e with
  | false => simp [inside] at silent
  | true =>
    cases dot : e.isDot with
    | true =>
      have same : e.ino = ino := by
        by_contra other
        simp [inside, dot, other] at silent
      refine ⟨by simp [inside, dot], fun _ => same, ?_⟩
      rw [exclusive dot]
      nofun
    | false =>
      cases dotdot : e.isDotdot with
      | true =>
        have same : e.ino = parent := by
          by_contra other
          simp [inside, dot, dotdot, other] at silent
        exact ⟨by simp [inside, dotdot], nofun, fun _ => same⟩
      | false =>
        have mode : (inodeAt f e.ino).mode ≠ 0 := by
          intro mode
          simp [inside, dot, dotdot, mode] at silent
        exact ⟨by simp [inside, mode], nofun, nofun⟩

theorem Looked.step {es : List DirEntry} (looked : Looked f ino parent c es look)
    (room : counts f e = true → look.checker.refs e.ino < 2 ^ 31 - 1) :
    Looked f ino parent c (es ++ [e]) (afterEntry f ino path parent look ent e) := by
  have after_refs : ∀ i, (afterEntry f ino path parent look ent e).checker.refs i =
      look.checker.refs i + linksIn f [e] i := by
    intro i
    rw [linksIn_singleton]
    unfold afterEntry
    dsimp only
    by_cases yes : counts f e = true
    · rw [if_pos yes]
      by_cases same : i = e.ino
      · rw [same, update_self, if_pos ⟨yes, rfl⟩]
        rfl
      · rw [update_of_ne same, if_neg (fun both => same both.2.symm)]
        simp
    · rw [if_neg yes, if_neg (fun both => yes both.1)]
      simp
  have silent : (afterEntry f ino path parent look ent e).checker.problems = [] →
      complaint f ino path parent ent e = none ∧ look.checker.problems = [] := by
    intro clean
    obtain ⟨none_here, before⟩ := append_eq_nil_iff.mp clean
    exact ⟨Option.toList_eq_nil_iff.mp none_here, before⟩
  refine ⟨?_, ?_, ?_, ?_, ?_, ?_, ?_, ?_⟩
  · unfold afterEntry
    rw [looked.fields]
  · intro clean
    exact looked.problems (silent clean).2
  · intro i
    rw [after_refs, looked.refs, linksIn_append]
    omega
  · intro i
    rw [after_refs, linksIn_singleton]
    have before := looked.range i
    split
    next both =>
      have below := room both.1
      rw [both.2] at below
      omega
    next => simpa using before
  · unfold afterEntry
    rw [map_append, looked.subdirs, filter_append, map_append]
    cases yes : isSubdir f e <;> simp [yes, -isSubdir]
  · unfold afterEntry
    rw [Bool.or_eq_true, looked.dot, Bool.and_eq_true]
    simp [or_and_right, exists_or]
  · unfold afterEntry
    rw [Bool.or_eq_true, looked.dotdot, Bool.and_eq_true]
    simp [or_and_right, exists_or]
  · intro clean
    obtain ⟨none_here, before⟩ := silent clean
    exact forall_mem_append.mpr ⟨looked.clean before,
      forall_mem_singleton.mpr (complaint_none none_here)⟩

theorem Looked.tables {es : List DirEntry} (looked : Looked f ino parent c es look)
    (tables : TablesRight f c) : TablesRight f look.checker := by
  rwa [looked.fields]

/-- The entries that have been read. -/
def readEntries (f : Filesystem) (ino : Int) (ents : List Nat) : List DirEntry :=
  ents.filterMap fun ent => (dirEntry f (inodeAt f ino) ent).toOption

theorem readEntries_append (ents : List Nat) (ok : dirEntry f (inodeAt f ino) ent = .ok e) :
    readEntries f ino (ents ++ [ent]) = readEntries f ino ents ++ [e] := by
  simp [readEntries, ok, Except.toOption]

theorem lift_eq_ok {α : Type} {x : Except FsError α} {a : α} : lift x = .ok a ↔ x = .ok a := by
  cases x with
  | ok b | error e => simp [lift]

/-- What is right about the entries of a directory without complaints. -/
structure GoodDir (f : Filesystem) (ino parent : Int) : Prop where
  entries : ∀ e ∈ entriesOf f ino, e.ino ≠ 0 → counts f e = true ∧
    (e.isDot = true → e.ino = ino) ∧ (e.isDotdot = true → e.ino = parent)
  dot : ∃ e ∈ entriesOf f ino, named f e = true ∧ e.isDot = true
  dotdot : ∃ e ∈ entriesOf f ino, named f e = true ∧ e.isDotdot = true

/-- What has been learnt of a directory. -/
structure LookedAt (f : Filesystem) (ino parent : Int) (c : Checker) (c' : Checker)
    (subs : List (Name × Int)) : Prop where
  fields : c' = { c with problems := c'.problems, refs := c'.refs }
  problems : c'.problems = [] → c.problems = []
  refs : ∀ i, c'.refs i = c.refs i + linksIn f (entriesOf f ino) i
  range : InRange c'
  subs : subs.map Prod.snd = subdirs f ino
  clean : c'.problems = [] → GoodDir f ino parent

theorem errorIf_fields (c : Checker) (bad : Bool) (p : Problem) :
    c.errorIf bad p = { c with problems := (c.errorIf bad p).problems } := by
  cases bad <;> rfl

theorem Looked.lookedAt (looked : Looked f ino parent c (entriesOf f ino) look) :
    LookedAt f ino parent c ((look.checker.errorIf (!look.sawDot) (.noDot path)).errorIf
      (!look.sawDotdot) (.noDotdot path)) look.subdirs := by
  have refs : ((look.checker.errorIf (!look.sawDot) (.noDot path)).errorIf
      (!look.sawDotdot) (.noDotdot path)).refs = look.checker.refs := by
    rw [errorIf_fields, errorIf_fields look.checker]
  have before : ∀ {bad : Bool} {p : Problem} {c : Checker},
      (c.errorIf bad p).problems = [] → c.problems = [] := (walked_errorIf _ _ _).problems
  refine ⟨?_, fun clean => looked.problems (before (before clean)), ?_, ?_, looked.subdirs, ?_⟩
  · rw [errorIf_fields, errorIf_fields look.checker, looked.fields]
  · intro i
    rw [refs]
    exact looked.refs i
  · unfold InRange
    rw [refs]
    exact looked.range
  · intro clean
    obtain ⟨dotdot, -⟩ := errorIf_clean clean
    obtain ⟨dot, -⟩ := errorIf_clean (before clean)
    exact ⟨looked.clean (before (before clean)), looked.dot.mp (by simpa using dot),
      looked.dotdot.mp (by simpa using dotdot)⟩

/-- A directory that has been looked at could be read. -/
theorem lookAt_of_ok {subs : List (Name × Int)} (tables : TablesRight f c) (range : InRange c)
    (ok : lookAt f (inodeAt f ino) path parent c = .ok (c', subs)) :
    Readable f ino ∧ LookedAt f ino parent c c' subs := by
  obtain ⟨look, loop, done⟩ := bind_eq_ok.mp ok
  have all := foldlM_invariant
    (I := fun ents look => (∀ ent ∈ ents, ∃ e, dirEntry f (inodeAt f ino) ent = .ok e) ∧
      Looked f ino parent c (readEntries f ino ents) look)
    ⟨nofun, looked_start range⟩ (by
      rintro ents ent look look' ⟨readable, looked⟩ _ step
      obtain ⟨e, read, visit⟩ := bind_eq_ok.mp step
      have read := lift_eq_ok.mp read
      obtain ⟨room, rfl⟩ := (visitEntry_eq_ok (looked.tables tables)).mp visit
      constructor
      · exact forall_mem_append.mpr ⟨readable, forall_mem_singleton.mpr ⟨e, read⟩⟩
      · rw [readEntries_append ents read]
        exact looked.step room) loop
  cases done
  exact ⟨fun ent below => all.1 ent (mem_range.mpr below), Looked.lookedAt all.2⟩

/-- A directory that can be read is looked at, if the counters have room. -/
theorem lookAt_total (tables : TablesRight f c) (range : InRange c) (readable : Readable f ino)
    (room : ∀ i, c.refs i + linksIn f (entriesOf f ino) i ≤ 2 ^ 31 - 1) :
    ∃ r, lookAt f (inodeAt f ino) path parent c = .ok r := by
  have loop := foldlM_total (l := List.range (entryCount (inodeAt f ino)))
    (f := fun look ent => do
      let e ← lift (dirEntry f (inodeAt f ino) ent)
      visitEntry f ino path parent look ent e)
    (I := fun ents look => Looked f ino parent c (readEntries f ino ents) look)
    (looked_start range) (by
      intro ents ent rest look split looked
      have below : ent ∈ List.range (entryCount (inodeAt f ino)) := by
        rw [split]
        exact mem_append_right _ mem_cons_self
      obtain ⟨e, read⟩ := readable ent (mem_range.mp below)
      have here : counts f e = true → look.checker.refs e.ino < 2 ^ 31 - 1 := by
        intro yes
        have all : entriesOf f ino = readEntries f ino (ents ++ [ent]) ++ readEntries f ino rest := by
          unfold entriesOf readEntries
          rw [split, append_cons, filterMap_append]
        have total := room e.ino
        rw [all, readEntries_append ents read, linksIn_append, linksIn_append, linksIn_singleton,
          if_pos ⟨yes, rfl⟩] at total
        rw [looked.refs]
        omega
      refine ⟨afterEntry f ino path parent look ent e,
        bind_eq_ok.mpr ⟨e, lift_eq_ok.mpr read, ?_⟩, ?_⟩
      · exact (visitEntry_eq_ok (looked.tables tables)).mpr ⟨here, rfl⟩
      · rw [readEntries_append ents read]
        exact looked.step here)
  obtain ⟨look, ok, -⟩ := loop
  exact ⟨_, bind_eq_ok.mpr ⟨look, ok, rfl⟩⟩

/-! ### The walk -/

/-- How many entries of the directories `ds` count as links to an inode. -/
def linksFrom (f : Filesystem) (ds : List Int) (i : Int) : Nat :=
  (ds.map fun d => linksIn f (entriesOf f d) i).sum

theorem linksFrom_append (f : Filesystem) (ds ds' : List Int) (i : Int) :
    linksFrom f (ds ++ ds') i = linksFrom f ds i + linksFrom f ds' i := by
  unfold linksFrom
  rw [map_append, sum_append]

theorem linksFrom_singleton (f : Filesystem) (d i : Int) :
    linksFrom f [d] i = linksIn f (entriesOf f d) i := by
  simp [linksFrom]

/-- The directories `seen` are those that have been walked. -/
def Seen (seen : List Int) (c : Checker) : Prop := ∀ i, c.seen i = true ↔ i ∈ seen

/-- How a walk has gone that was called for the directories `calls` below `parent`. -/
structure Toured (f : Filesystem) (seen calls : List Int) (parent : Int) (c : Checker)
    (new : List Int) (again : Nat) (c' : Checker) : Prop where
  tour : Tour (subdirs f) seen calls new again
  seen : Seen (new ++ seen) c'
  refs : ∀ i, c'.refs i = c.refs i + linksFrom f new i
  range : InRange c'
  readable : ∀ d ∈ new, Readable f d
  fields : c' = { c with
    problems := c'.problems, refs := c'.refs, seen := c'.seen, names := c'.names }
  problems : c'.problems = [] → c.problems = []
  clean : c'.problems = [] → again = 0 ∧ (∀ x ∈ calls, GoodDir f x parent) ∧
    ∀ d ∈ new, ∀ x ∈ subdirs f d, GoodDir f x d

namespace Toured

variable {seen calls new calls' new' : List Int} {again again' : Nat} {c'' : Checker}

theorem nil (known : Seen seen c) (range : InRange c) : Toured f seen [] parent c [] 0 c := by
  refine ⟨.nil, known, ?_, range, ?_, rfl, id, ?_⟩
  · intro i
    simp [linksFrom]
  · nofun
  · intro _
    refine ⟨rfl, ?_, ?_⟩
    · nofun
    · nofun

theorem append (first : Toured f seen calls parent c new again c')
    (second : Toured f (new ++ seen) calls' parent c' new' again' c'') :
    Toured f seen (calls ++ calls') parent c (new' ++ new) (again + again') c'' := by
  refine ⟨first.tour.append second.tour, ?_, ?_, second.range,
    forall_mem_append.mpr ⟨second.readable, first.readable⟩, ?_, ?_, ?_⟩
  · rw [append_assoc]
    exact second.seen
  · intro i
    rw [second.refs, first.refs, linksFrom_append]
    omega
  · rw [second.fields, first.fields]
  · intro clean
    exact first.problems (second.problems clean)
  intro clean
  obtain ⟨never', good_calls', good'⟩ := second.clean clean
  obtain ⟨never, good_calls, good⟩ := first.clean (second.problems clean)
  exact ⟨by omega, forall_mem_append.mpr ⟨good_calls, good_calls'⟩,
    forall_mem_append.mpr ⟨good', good⟩⟩

theorem tables (toured : Toured f seen calls parent c new again c') (tables : TablesRight f c) :
    TablesRight f c' := by
  rwa [toured.fields]

end Toured

theorem mem_checked_of_mem_subdirs {d x : Int} (within : x ∈ subdirs f d) :
    x ∈ checkedInodes f := by
  obtain ⟨e, inside, rfl⟩ := mem_map.mp within
  have is_subdir := (mem_filter.mp inside).2
  unfold isSubdir at is_subdir
  simp only [Bool.and_eq_true] at is_subdir
  exact mem_checkedInodes.mpr (of_decide_eq_true is_subdir.1.1.1.1)

/-- The checker as it begins with a directory. -/
def marked (c : Checker) (ino : Int) (path : Name) : Checker :=
  { c with
    seen := update c.seen ino true
    names := update c.names ino (some path.orRoot) }

theorem seen_marked (known : Seen seen c) (ino : Int) (path : Name) :
    Seen (ino :: seen) (marked c ino path) := by
  intro i
  change update c.seen ino true i = true ↔ _
  by_cases same : i = ino
  · simp [same]
  · rw [update_of_ne same, known i]
    simp [same]

theorem walkDirectory_succ (get : Inode.get f ino = .ok (inodeAt f ino)) (fuel : Nat) :
    walkDirectory f (fuel + 1) ino path parent c =
      if c.seen ino then .ok (c.error (.treeLoop path ino))
      else (do
        let (c, subs) ← lookAt f (inodeAt f ino) path parent (marked c ino path)
        subs.foldlM (fun c (sd : Name × Int) => walkDirectory f fuel sd.2 sd.1 ino c) c) := by
  rw [walkDirectory, get]
  rfl

section Run

variable (accepted : sbcheck f.sb = false) (covers : f.sb.fsize ≤ f.nblk)
include accepted covers

/-- A walk that comes to its end is a tour of what it was called for. -/
theorem walkDirectory_toured (fuel : Nat) (tables : TablesRight f c)
    (range : InRange c) (known : Seen seen c) (within : ino ∈ checkedInodes f)
    (ok : walkDirectory f fuel ino path parent c = .ok c') :
    ∃ new again, Toured f seen [ino] parent c new again c' := by
  induction fuel generalizing ino path parent c c' seen with
  | zero => cases ok
  | succ fuel ih =>
    rw [walkDirectory_succ (get_checked accepted covers within)] at ok
    by_cases before : c.seen ino = true
    · rw [if_pos before] at ok
      cases ok
      refine ⟨[], 1, .again ((known ino).mp before) .nil, known, ?_, range, ?_, rfl, ?_, ?_⟩
      · intro i
        simp [linksFrom]
      · nofun
      · nofun
      · nofun
    · rw [if_neg before] at ok
      have fresh : ino ∉ seen := fun inside => before ((known ino).mpr inside)
      obtain ⟨⟨c₁, subs⟩, look, loop⟩ := bind_eq_ok.mp ok
      have range₀ : InRange (marked c ino path) := range
      have tables₀ : TablesRight f (marked c ino path) := tables
      obtain ⟨readable, looked⟩ := lookAt_of_ok tables₀ range₀ look
      have known₁ : Seen (ino :: seen) c₁ := by
        rw [looked.fields]
        exact seen_marked known ino path
      have tables₁ : TablesRight f c₁ := by
        rwa [looked.fields]
      -- the subdirectories one by one
      have below := foldlM_invariant
        (I := fun (done : List (Name × Int)) c' => ∃ new again,
          Toured f (ino :: seen) (done.map Prod.snd) ino c₁ new again c')
        ⟨[], 0, .nil known₁ looked.range⟩ (by
          rintro done ⟨child, x⟩ c₂ c₃ ⟨new, again, toured⟩ inside step
          have named : x ∈ subdirs f ino := by
            rw [← looked.subs]
            exact mem_map_of_mem inside
          obtain ⟨new', again', more⟩ := ih (toured.tables tables₁) toured.range toured.seen
            (mem_checked_of_mem_subdirs named) step
          rw [map_append]
          exact ⟨_, _, toured.append more⟩) loop
      obtain ⟨new, again, toured⟩ := below
      rw [looked.subs] at toured
      refine ⟨new ++ [ino], again, ?_, ?_, ?_, toured.range, ?_, ?_, ?_, ?_⟩
      · exact .visit fresh toured.tour .nil
      · rw [append_assoc]
        exact toured.seen
      · intro i
        rw [toured.refs, looked.refs, linksFrom_append, linksFrom_singleton]
        change c.refs i + _ + _ = _
        omega
      · exact forall_mem_append.mpr ⟨toured.readable, forall_mem_singleton.mpr readable⟩
      · rw [toured.fields, looked.fields]
        rfl
      · intro clean
        exact looked.problems (toured.problems clean)
      · intro clean
        obtain ⟨never, good_calls, good⟩ := toured.clean clean
        have here := looked.clean (toured.problems clean)
        exact ⟨never, forall_mem_singleton.mpr here,
          forall_mem_append.mpr ⟨good, forall_mem_singleton.mpr good_calls⟩⟩

end Run

/-- A directory that can be reached from the root. -/
def Reach (f : Filesystem) (d : Int) : Prop :=
  Relation.ReflTransGen (Tour.Edge (subdirs f)) ROOTINO d

/-- What holds while the walk from the root is under way, with the directories `seen` walked or
begun: their entries have been counted. -/
structure Underway (f : Filesystem) (seen : List Int) (c : Checker) : Prop where
  tables : TablesRight f c
  known : Seen seen c
  nodup : seen.Nodup
  reach : ∀ d ∈ seen, Reach f d
  refs : ∀ i, c.refs i = linksFrom f seen i

theorem Underway.toured {calls : List Int} (underway : Underway f seen c)
    (called : ∀ x ∈ calls, Reach f x) (toured : Toured f seen calls parent c new again c') :
    Underway f (new ++ seen) c' := by
  obtain ⟨nodup, apart⟩ := toured.tour.nodup
  refine ⟨toured.tables underway.tables, toured.seen, nodup.append underway.nodup apart, ?_, ?_⟩
  · refine forall_mem_append.mpr ⟨fun d in_new => ?_, underway.reach⟩
    obtain ⟨x, inside, path⟩ := toured.tour.reached d in_new
    exact (called x inside).trans path
  · intro i
    rw [toured.refs, underway.refs, linksFrom_append]
    omega

/-- How many inodes the walk has not come to. -/
def unseen (f : Filesystem) (c : Checker) : Nat :=
  ((checkedInodes f).filter fun i => !c.seen i).length

theorem unseen_le {calls : List Int} (known : Seen seen c)
    (toured : Toured f seen calls parent c new again c') : unseen f c' ≤ unseen f c := by
  refine (monotone_filter_right (checkedInodes f) ?_).length_le
  intro i fresh
  by_contra before
  have inside := (known i).mp (by simpa using before)
  rw [(toured.seen i).mpr (mem_append_right _ inside)] at fresh
  cases fresh

theorem length_unmarked_lt {l : List Int} {mark : Int → Bool} {x : Int} (within : x ∈ l)
    (fresh : mark x = false) :
    (l.filter fun i => !update mark x true i).length <
      (l.filter fun i => !mark i).length := by
  have sublist : (l.filter fun i => !update mark x true i).Sublist
      (l.filter fun i => !mark i) := by
    refine monotone_filter_right _ ?_
    intro i new
    by_cases same : i = x
    · simp [same] at new
    · rwa [update_of_ne same] at new
  refine Nat.lt_of_le_of_ne sublist.length_le ?_
  intro same
  have gone : x ∉ l.filter fun i => !update mark x true i := by simp
  rw [sublist.eq_of_length same] at gone
  exact gone (mem_filter.mpr ⟨within, by rw [fresh]; rfl⟩)

section Total

variable (accepted : sbcheck f.sb = false) (covers : f.sb.fsize ≤ f.nblk)
variable (readable : ∀ d, Reach f d → Readable f d)
variable (room : ∀ ds : List Int, ds.Nodup → (∀ d ∈ ds, Reach f d) →
  ∀ i, linksFrom f ds i ≤ 2 ^ 31 - 1)
include accepted covers readable room

/-- The walk comes to its end if every directory can be read and the counters have room. -/
theorem walkDirectory_total (fuel : Nat) (underway : Underway f seen c)
    (within : ino ∈ checkedInodes f) (reach : Reach f ino) (enough : unseen f c < fuel) :
    ∃ c', walkDirectory f fuel ino path parent c = .ok c' := by
  induction fuel generalizing ino path parent c seen with
  | zero => omega
  | succ fuel ih =>
    rw [walkDirectory_succ (get_checked accepted covers within)]
    have in_range : ∀ {seen c}, Underway f seen c → InRange c := by
      intro seen c underway i
      have bound := room seen underway.nodup underway.reach i
      rw [underway.refs]
      omega
    cases before : c.seen ino with
    | true => exact ⟨_, rfl⟩
    | false =>
      have fresh : ino ∉ seen := by
        intro inside
        rw [(underway.known ino).mpr inside] at before
        cases before
      have tables₀ : TablesRight f (marked c ino path) := underway.tables
      have range := in_range underway
      have range₀ : InRange (marked c ino path) := range
      have nodup : (ino :: seen).Nodup := nodup_cons.mpr ⟨fresh, underway.nodup⟩
      have reached : ∀ d ∈ ino :: seen, Reach f d := by
        intro d inside
        cases inside with
        | head => exact reach
        | tail _ inside => exact underway.reach d inside
      have entries : ∀ i, (marked c ino path).refs i + linksIn f (entriesOf f ino) i =
          linksFrom f (ino :: seen) i := by
        intro i
        change c.refs i + _ = _
        rw [underway.refs]
        simp only [linksFrom, map_cons, sum_cons]
        omega
      obtain ⟨⟨c₁, subs⟩, look⟩ : ∃ r, lookAt f (inodeAt f ino) path parent
          (marked c ino path) = .ok r := by
        refine lookAt_total tables₀ range₀ (readable ino reach) ?_
        intro i
        have bound := room (ino :: seen) nodup reached i
        rw [entries]
        omega
      obtain ⟨-, looked⟩ := lookAt_of_ok tables₀ range₀ look
      have underway₁ : Underway f (ino :: seen) c₁ := by
        refine ⟨?_, ?_, nodup, reached, ?_⟩
        · rwa [looked.fields]
        · rw [looked.fields]
          exact seen_marked underway.known ino path
        · intro i
          rw [looked.refs, entries]
      have fewer : unseen f c₁ < fuel := by
        have less : unseen f (marked c ino path) < unseen f c := length_unmarked_lt within before
        have same : unseen f c₁ = unseen f (marked c ino path) := by
          rw [looked.fields]
          rfl
        omega
      have calls : ∀ x ∈ subdirs f ino, Reach f x := fun x inside => reach.tail inside
      obtain ⟨c', loop, -⟩ := foldlM_total
        (f := fun c (sd : Name × Int) => walkDirectory f fuel sd.2 sd.1 ino c)
        (I := fun (done : List (Name × Int)) c' => ∃ new again,
          Toured f (ino :: seen) (done.map Prod.snd) ino c₁ new again c')
        ⟨[], 0, .nil underway₁.known looked.range⟩ (by
          rintro done ⟨child, x⟩ rest c₂ split ⟨new, again, toured⟩
          have named : ∀ y ∈ (done ++ (child, x) :: rest).map Prod.snd, y ∈ subdirs f ino := by
            rw [← split, looked.subs]
            exact fun y inside => inside
          have x_named : x ∈ subdirs f ino := named x (by simp)
          have underway₂ := underway₁.toured
            (fun y inside => calls y (named y (by
              rw [map_append]
              exact mem_append_left _ inside))) toured
          obtain ⟨c₃, step⟩ : ∃ c₃, walkDirectory f fuel x child ino c₂ = .ok c₃ :=
            ih underway₂ (mem_checked_of_mem_subdirs x_named) (calls x x_named)
              (Nat.lt_of_le_of_lt (unseen_le underway₁.known toured) fewer)
          obtain ⟨new', again', more⟩ := walkDirectory_toured accepted covers fuel
            underway₂.tables toured.range toured.seen (mem_checked_of_mem_subdirs x_named) step
          refine ⟨c₃, step, new' ++ new, again + again', ?_⟩
          rw [map_append]
          exact toured.append more)
      exact ⟨c', bind_eq_ok.mpr ⟨_, look, loop⟩⟩

end Total

/-! ### The pass -/

/-- The root is a directory in use. -/
def HasRoot (f : Filesystem) : Prop :=
  (inodeAt f ROOTINO).mode ≠ 0 ∧ (inodeAt f ROOTINO).isDir = true

/-- What the walk needs of the directories that can be reached. -/
structure Walkable (f : Filesystem) : Prop where
  readable : ∀ d, Reach f d → Readable f d
  room : ∀ ds : List Int, ds.Nodup → (∀ d ∈ ds, Reach f d) → ∀ i, linksFrom f ds i ≤ 2 ^ 31 - 1

theorem linksFrom_le {ds ds' : List Int} (nodup : ds.Nodup) (inside : ∀ d ∈ ds, d ∈ ds') (i : Int) :
    linksFrom f ds i ≤ linksFrom f ds' i := by
  obtain ⟨l, perm, sublist⟩ := subperm_of_subset nodup inside
  unfold linksFrom
  rw [← (perm.map _).sum_eq]
  exact (sublist.map _).sum_le_sum fun n _ => Nat.zero_le n

/-- A tour of the whole tree shows that it can be walked. -/
theorem Toured.walkable
    (toured : Toured f [] [ROOTINO] parent c new again c') (zero : ∀ i, c.refs i = 0) :
    Walkable f := by
  refine ⟨?_, ?_⟩
  · intro d reach
    exact toured.readable d (toured.tour.mem_iff.mpr reach)
  · intro ds nodup reach i
    have le := linksFrom_le (f := f) nodup (fun d within => toured.tour.mem_iff.mpr (reach d within)) i
    have refs := toured.refs i
    have range := toured.range i
    rw [refs, zero i] at range
    omega

theorem Scanned.underway (scanned : Scanned f (checkedInodes f) c) : Underway f [] c := by
  refine ⟨scanned.tablesRight, ?_, nodup_nil, ?_, ?_⟩
  · intro i
    rw [scanned.rest]
    simp [Checker.start]
  · intro d within
    cases within
  · intro i
    rw [scanned.rest]
    rfl

theorem Scanned.inRange (scanned : Scanned f (checkedInodes f) c) : InRange c := by
  intro i
  rw [scanned.rest]
  change (0 : Int) ≤ _
  decide

theorem pass2_no_root (tables : TablesRight f c) (ilist : ROOTINO ≤ f.inodeCount)
    (none_there : ¬ HasRoot f) : ∃ p, pass2Directories f c = .ok (c.error p) := by
  obtain ⟨allocated, isDir⟩ := tables ROOTINO (Int.le_refl _) ilist
  unfold pass2Directories
  rw [if_neg (by omega), allocated, isDir]
  by_cases mode : (inodeAt f ROOTINO).mode = 0
  · exact ⟨.noRoot, if_pos (by simp [mode])⟩
  · have not_dir : (inodeAt f ROOTINO).isDir = false := by
      by_contra dir
      exact none_there ⟨mode, by simpa using dir⟩
    refine ⟨.rootNotDir, ?_⟩
    rw [if_neg (by simp [mode]), if_pos (by simp [not_dir])]

theorem pass2_root (tables : TablesRight f c) (ilist : ROOTINO ≤ f.inodeCount) (root : HasRoot f) :
    pass2Directories f c = walkDirectory f (f.inodeCount.toNat + 1) ROOTINO [] ROOTINO c := by
  obtain ⟨allocated, isDir⟩ := tables ROOTINO (Int.le_refl _) ilist
  unfold pass2Directories
  rw [if_neg (by omega), allocated, isDir, if_neg (by simp [root.1]),
    if_neg (by simp [root.1, root.2])]

/-- The second pass ends just when there is an i-list and the tree, if there is one, can be
walked. -/
theorem pass2_returns_iff (accepted : sbcheck f.sb = false) (covers : f.sb.fsize ≤ f.nblk)
    (scanned : Scanned f (checkedInodes f) c) :
    (∃ c', pass2Directories f c = .ok c') ↔ ROOTINO ≤ f.inodeCount ∧ (HasRoot f → Walkable f) := by
  have underway := scanned.underway
  have zero : ∀ i, c.refs i = 0 := by
    intro i
    rw [underway.refs]
    rfl
  have range := scanned.inRange
  by_cases ilist : ROOTINO ≤ f.inodeCount
  · by_cases root : HasRoot f
    · have within : ROOTINO ∈ checkedInodes f := mem_checkedInodes.mpr ⟨Int.le_refl _, ilist⟩
      rw [pass2_root underway.tables ilist root]
      constructor
      · rintro ⟨c', ok⟩
        obtain ⟨new, again, toured⟩ := walkDirectory_toured accepted covers _ underway.tables range
          underway.known within ok
        exact ⟨ilist, fun _ => toured.walkable zero⟩
      · rintro ⟨-, walkable⟩
        obtain ⟨readable, room⟩ := walkable root
        refine walkDirectory_total accepted covers readable room _ underway within .refl ?_
        refine Nat.lt_of_le_of_lt (length_filter_le _ _) ?_
        simp only [checkedInodes, length_map, length_range]
        omega
    · obtain ⟨p, ok⟩ := pass2_no_root underway.tables ilist root
      exact ⟨fun _ => ⟨ilist, fun yes => absurd yes root⟩, fun _ => ⟨_, ok⟩⟩
  · constructor
    · rintro ⟨c', ok⟩
      unfold pass2Directories at ok
      rw [if_pos (by omega)] at ok
      cases ok
    · rintro ⟨yes, -⟩
      exact absurd yes ilist

/-- Nothing but the tables of the second pass has changed. -/
theorem pass2_fields (accepted : sbcheck f.sb = false) (covers : f.sb.fsize ≤ f.nblk)
    (scanned : Scanned f (checkedInodes f) c) (ok : pass2Directories f c = .ok c') :
    c' = { c with
      problems := c'.problems, refs := c'.refs, seen := c'.seen, names := c'.names } ∧
    (c'.problems = [] → c.problems = [] ∧
      ∃ new, Toured f [] [ROOTINO] ROOTINO c new 0 c' ∧ HasRoot f) := by
  have underway := scanned.underway
  have range := scanned.inRange
  obtain ⟨ilist, -⟩ := (pass2_returns_iff accepted covers scanned).mp ⟨c', ok⟩
  by_cases root : HasRoot f
  · have within : ROOTINO ∈ checkedInodes f := mem_checkedInodes.mpr ⟨Int.le_refl _, ilist⟩
    rw [pass2_root underway.tables ilist root] at ok
    obtain ⟨new, again, toured⟩ := walkDirectory_toured accepted covers _ underway.tables range
      underway.known within ok
    refine ⟨toured.fields, ?_⟩
    intro clean
    have never := (toured.clean clean).1
    exact ⟨toured.problems clean, new, never ▸ toured, root⟩
  · obtain ⟨p, done⟩ := pass2_no_root underway.tables ilist root
    rw [done] at ok
    cases ok
    refine ⟨rfl, ?_⟩
    nofun

end V7Besm.Fs

import Mathlib.Data.List.ReduceOption
import V7Besm.Ar.Archive

/-!
The commands `r`, `d`, `m` and `q` of the archiver as edits of the list of members.

The code passes over the archive once and writes into temporary files that change places
at the position; the edit is said with the members asked for and the number of members in
front of the position.
-/

namespace V7Besm.Ar

open List

open Ld (Name)

/-! ### The other commands -/

/-- One member under `cmd_delete`. -/
def deleteMember (s : State) (e : Entry) : State :=
  match matchMember e.name s.names with
  | some (_, names) => { s with names := names }
  | none => s.keep e

/-- The command `d`. -/
def cmdDelete (c : Command) (arch : List Entry) : List Entry :=
  commitArchive (rejoin (arch.foldl deleteMember c.start))

/-- One member under `cmd_move`; the members to move collect in `tmp2`. -/
def moveMember (c : Command) (s : State × List Entry) (e : Entry) : State × List Entry :=
  let (s, tmp2) := s
  let s := handlePosition c e.name s
  match matchMember e.name s.names with
  | some (_, names) => ({ s with names := names }, tmp2 ++ [copyMember e])
  | none => (s.keep e, tmp2)

/-- The command `m`: `commit_archive` writes `tmp2` between the other two files. -/
def cmdMove (c : Command) (arch : List Entry) : List Entry :=
  let (s, tmp2) := arch.foldl (moveMember c) (c.start, [])
  let s := rejoin s
  s.tmp ++ tmp2 ++ s.tmp1.getD []

/-- The loop of `cmd_quick`, which writes into the archive itself: what is there when a
name is too long stays. -/
def quickAppend (disk : Name → Option Source) : List Name → List Entry → List Entry
  | [], arch => arch
  | n :: names, arch =>
    match disk n with
    | none => quickAppend disk names arch
    | some src =>
      match writeMember n src ⟨[], .off, arch, none⟩ with
      | .ok s => quickAppend disk names s.tmp
      | .error _ => arch

/-- The command `q`, which refuses a position. -/
def cmdQuick (c : Command) (disk : Name → Option Source) (arch : List Entry) : List Entry :=
  if c.position.isSome then arch else quickAppend disk c.names arch

/-- The commands that change the archive. -/
inductive Letter where
  | r | d | m | q
deriving DecidableEq, Repr

/-- The archive after the command; `r` stops before it has written anything. -/
def arRun (c : Command) (disk : Name → Option Source) (arch : List Entry) : Letter → List Entry
  | .r => match cmdReplace c disk arch with
    | .ok new => new
    | .error _ => arch
  | .d => cmdDelete c arch
  | .m => cmdMove c arch
  | .q => cmdQuick c disk arch

/-! ### The edits -/

/-- A name asks for the first member with its base name that no name before it in the
command line asks for. -/
def marks : List Name → List Entry → List (Entry × Option Name)
  | _, [] => []
  | names, e :: es =>
    match names.find? (basenameOf · = e.name) with
    | none => (e, none) :: marks names es
    | some n => (e, some n) :: marks (names.erase n) es

/-- The names that ask for no member. -/
def unmatched : List Name → List Entry → List Name
  | names, [] => names
  | names, e :: es =>
    match names.find? (basenameOf · = e.name) with
    | none => unmatched names es
    | some n => unmatched (names.erase n) es

/-- The members that `r` is asked to replace: without names on the command line, all. -/
def Command.marks (c : Command) (names : List Name) (arch : List Entry) :
    List (Entry × Option Name) :=
  if c.names = [] then arch.map fun e => (e, some e.name) else Ar.marks names arch

/-- How many members are in front of the position. -/
def Command.place (c : Command) (arch : List Entry) : Nat :=
  match c.position with
  | none => arch.length
  | some p => arch.findIdx (·.name = basenameOf p) + if c.after then 1 else 0

/-- The member made of a file. -/
def fresh (file : Name × Source) : Entry :=
  copyMember ⟨basenameOf file.1, file.2.stat, file.2.size, file.2.body⟩

def short (file : Name × Source) : Bool := (basenameOf file.1).length ≤ ARMAXNAME

def member (file : Name × Source) : Except Stop Entry :=
  if short file then .ok (fresh file) else .error .nameTooLong

/-- The files that can be read. -/
def files (disk : Name → Option Source) (names : List Name) : List (Name × Source) :=
  names.filterMap fun n => (disk n).map (n, ·)

/-- What comes in place of a member: with `u` only a younger file does. -/
def replacement (c : Command) (disk : Name → Option Source) :
    Entry × Option Name → Except Stop Entry
  | (e, none) => .ok e
  | (e, some n) =>
    match disk n with
    | none => .ok e
    | some src => if c.update ∧ src.stat.date ≤ e.stat.date then .ok e else member (n, src)

/-- The members that stay where they are. -/
def unasked (marked : List (Entry × Option Name)) : List Entry :=
  marked.filterMap fun (e, n) => if n = none then some e else none

def askedFor (marked : List (Entry × Option Name)) : List Entry :=
  marked.filterMap fun (e, n) => if n = none then none else some e

/-- The edit `r`, unless a name is too long. -/
def editReplace (c : Command) (disk : Name → Option Source) (arch : List Entry) :
    Except Stop (List Entry) := do
  let old ← (c.marks c.names arch).mapM (replacement c disk)
  let new ← (files disk (unmatched c.names arch)).mapM member
  .ok (old.take (c.place arch) ++ new ++ old.drop (c.place arch))

/-- The edits the four letters stand for. -/
def edit (c : Command) (disk : Name → Option Source) (arch : List Entry) : Letter → List Entry
  | .r => match editReplace c disk arch with
    | .ok new => new
    | .error _ => arch
  | .d => unasked (marks c.names arch)
  | .m =>
    let marked := marks c.names arch
    unasked (marked.take (c.place arch)) ++ askedFor marked
      ++ unasked (marked.drop (c.place arch))
  | .q =>
    if c.position.isSome then arch
    else arch ++ ((files disk c.names).takeWhile short).map fresh

/-! ### Matching -/

/-- A name that has been handled counts no more. -/
theorem matchMember_eq (cur : Name) (names : List (Option Name)) :
    (matchMember cur names).map (Prod.map id List.reduceOption) =
      (names.reduceOption.find? (basenameOf · = cur)).map
        fun n => (n, names.reduceOption.erase n) := by
  induction names with
  | nil => rfl
  | cons n names ih =>
    cases n with
    | none =>
      rw [matchMember, reduceOption_cons_of_none, ← ih, Option.map_map]
      rfl
    | some n =>
      rw [matchMember, reduceOption_cons_of_some]
      by_cases here : basenameOf n = cur
      · simp [here]
      have step := congrArg (Option.map (Prod.map id (n :: ·))) ih
      rw [Option.map_map, Option.map_map] at step
      rw [if_neg here, List.find?_cons_of_neg (by simpa using here), Option.map_map]
      refine Eq.trans ?_ (step.trans (Option.map_congr fun m found => ?_))
      · congr 1
      · have met := List.find?_some found
        have : n ≠ m := fun same => here (by simpa [same] using met)
        simp [erase_cons_tail, this]

variable {c : Command} {disk : Name → Option Source} {s : State} {e : Entry}
  {es : List Entry}

/-- One member of the edit and one of the stream are asked for by the same name. -/
theorem marks_step (e : Entry) (es : List Entry) (names : List (Option Name)) :
    (matchMember e.name names = none ∧
      marks names.reduceOption (e :: es) = (e, none) :: marks names.reduceOption es ∧
      unmatched names.reduceOption (e :: es) = unmatched names.reduceOption es) ∨
    ∃ n rest, matchMember e.name names = some (n, rest) ∧
      marks names.reduceOption (e :: es) = (e, some n) :: marks rest.reduceOption es ∧
      unmatched names.reduceOption (e :: es) = unmatched rest.reduceOption es := by
  have same := matchMember_eq e.name names
  cases asked : matchMember e.name names with
  | none =>
    rw [asked, Option.map_none, eq_comm, Option.map_eq_none_iff] at same
    exact .inl ⟨rfl, by simp only [marks, same], by simp only [unmatched, same]⟩
  | some found =>
    obtain ⟨n, rest⟩ := found
    rw [asked, Option.map_some, eq_comm, Option.map_eq_some_iff] at same
    obtain ⟨m, here, eq⟩ := same
    obtain ⟨rfl, left⟩ := Prod.mk.inj eq
    exact .inr ⟨m, rest, rfl, by simp only [marks, here, left],
      by simp only [unmatched, here, left]⟩

/-! ### The stream -/

/-- A pass over the members that writes at most one member for each. -/
inductive Stream (c : Command) : State → List Entry → List (Option Entry) → State → Prop
  | nil (s : State) : Stream c s [] [] s
  | cons {s s' : State} {e : Entry} {es : List Entry} {out : Option Entry}
      {outs : List (Option Entry)} (names : List (Option Name)) :
      Stream c { handlePosition c e.name s with
        names := names, tmp := (handlePosition c e.name s).tmp ++ out.toList } es outs s' →
      Stream c s (e :: es) (out :: outs) s'

namespace Stream

variable {s' : State} {outs : List (Option Entry)}

section

variable (run : Stream c s es outs s')
include run

theorem length : outs.length = es.length := by
  induction run with
  | nil => rfl
  | cons _ _ ih => simp [ih]

/-- Without a position ahead everything goes into one file. -/
theorem settled (off : s.insert = .off) :
    s'.tmp = s.tmp ++ outs.reduceOption ∧ s'.tmp1 = s.tmp1 := by
  induction run with
  | nil => simp
  | @cons s _ e _ out outs names _ ih =>
    have stay : handlePosition c e.name s = s := by simp [handlePosition, off]
    rw [stay] at ih
    obtain ⟨tmp, tmp1⟩ := ih off
    cases out <;> simp [tmp, tmp1]

/-- What is written from here on is diverted, and is behind the rest at the end. -/
theorem cut (single : s.tmp1 = none) (here : ∀ e ∈ es.head?, handlePosition c e.name s =
      { s with insert := .off, tmp := [], tmp1 := some s.tmp }) :
    (rejoin s').tmp = s.tmp ∧ (rejoin s').tmp1.getD [] = outs.reduceOption := by
  cases run with
  | nil => simp [rejoin, single]
  | @cons _ _ e _ out _ _ rest =>
    rw [here e rfl] at rest
    obtain ⟨tmp, tmp1⟩ := rest.settled rfl
    cases out <;> simp [rejoin, tmp, tmp1]

/-- The files in front of the position and behind it, when the pass is over. -/
theorem halves (single : s.tmp1 = none)
    (looking : s.insert = if c.position.isSome then .looking else .off) :
    (rejoin s').tmp = s.tmp ++ (outs.take (c.place es)).reduceOption ∧
      (rejoin s').tmp1.getD [] = (outs.drop (c.place es)).reduceOption := by
  cases position : c.position with
  | none =>
    have ⟨tmp, tmp1⟩ := run.settled (by simpa [position] using looking)
    simp [Command.place, position, rejoin, ← run.length, single, tmp, tmp1]
  | some p =>
    replace looking : s.insert = .looking := by simpa [position] using looking
    -- on the members up to the position
    induction run with
    | nil => simp [rejoin, single]
    | @cons s _ e es out outs names rest ih =>
      by_cases here : e.name = basenameOf p
      · by_cases after : c.after
        · have enter : handlePosition c e.name s = { s with insert := .found } := by
            simp [handlePosition, looking, position, here, after]
          rw [enter] at rest
          have ⟨tmp, tmp1⟩ := rest.cut single (fun _ _ => rfl)
          cases out <;>
            simp [Command.place, position, here, after, tmp, tmp1, findIdx_cons]
        · have ⟨tmp, tmp1⟩ := (Stream.cons names rest).cut single fun f first => by
            cases first
            simp [handlePosition, looking, position, here, after]
          simp [Command.place, position, here, after, tmp, tmp1, findIdx_cons]
      · have stay : handlePosition c e.name s = s := by
          simp [handlePosition, looking, position, Ne.symm here]
        rw [stay] at ih
        have ⟨tmp, tmp1⟩ := ih single looking
        have next : c.place (e :: es) = c.place es + 1 := by
          simp [Command.place, position, here, findIdx_cons]
          omega
        cases out <;> simp [next, tmp, tmp1]

end

end Stream

/-! ### The edits are made -/

@[simp] theorem handlePosition_names (cur : Name) : (handlePosition c cur s).names = s.names := by
  unfold handlePosition
  split <;> [rfl; (split <;> [rfl; (split <;> rfl)]); rfl]

theorem Command.start_names : c.start.names.reduceOption = c.names := by
  simp [Command.start, List.reduceOption]

theorem deleteMember_tmp (padded : ∀ e ∈ es, e.Padded) (s : State) :
    (es.foldl deleteMember s).tmp = s.tmp ++ unasked (marks s.names.reduceOption es) ∧
      (es.foldl deleteMember s).tmp1 = s.tmp1 := by
  induction es generalizing s with
  | nil => simp [marks, unasked]
  | cons e es ih =>
    rw [forall_mem_cons] at padded
    rcases marks_step e es s.names with ⟨asked, marked, -⟩ | ⟨n, rest, asked, marked, -⟩ <;>
      simp [deleteMember, asked, marked, ih padded.2, State.keep, unasked,
        copyMember_padded padded.1]

theorem moveMember_stream (padded : ∀ e ∈ es, e.Padded) (s : State) (tmp2 : List Entry) :
    ∃ s', es.foldl (moveMember c) (s, tmp2)
        = (s', tmp2 ++ askedFor (marks s.names.reduceOption es)) ∧
      Stream c s es ((marks s.names.reduceOption es).map
        fun (e, n) => if n = none then some e else none) s' := by
  induction es generalizing s tmp2 with
  | nil => exact ⟨s, by simp [marks, askedFor], .nil s⟩
  | cons e es ih =>
    rw [forall_mem_cons] at padded
    let s₁ := handlePosition c e.name s
    rcases marks_step e es s.names with ⟨asked, marked, -⟩ | ⟨n, rest, asked, marked, -⟩
    · obtain ⟨s', eq, run⟩ := ih padded.2 (s₁.keep e) tmp2
      have names : s₁.names = s.names := handlePosition_names e.name
      simp only [State.keep, copyMember_padded padded.1, names] at eq run
      rw [marked]
      refine ⟨s', ?_, .cons s.names run⟩
      simpa [moveMember, asked, askedFor, State.keep, copyMember_padded padded.1] using eq
    · obtain ⟨s', eq, run⟩ := ih padded.2 { s₁ with names := rest } (tmp2 ++ [e])
      rw [marked]
      refine ⟨s', ?_, .cons rest (by simpa using run)⟩
      simpa [moveMember, asked, askedFor, copyMember_padded padded.1] using eq

theorem writeMember_eq (n : Name) (src : Source) (s : State) :
    writeMember n src s = (member (n, src)).map fun e => { s with tmp := s.tmp ++ [e] } := by
  by_cases fits : (basenameOf n).length ≤ ARMAXNAME
  · simp [writeMember, member, short, fresh, fits, Nat.not_lt.mpr fits, Except.map]
  · simp [writeMember, member, short, fits, Nat.not_le.mp fits, Except.map]

/-- What `r` writes for one member, and the names that are left. -/
theorem replaceMember_step (disk : Name → Option Source) (padded : e.Padded) (es : List Entry)
    (fixed : c.names = [] → s.names = []) :
    ∃ mark rest, replaceMember c disk e s =
        (replacement c disk (e, mark)).map (fun out =>
          { handlePosition c e.name s with
            names := rest, tmp := (handlePosition c e.name s).tmp ++ [out] }) ∧
      c.marks s.names.reduceOption (e :: es) = (e, mark) :: c.marks rest.reduceOption es ∧
      unmatched s.names.reduceOption (e :: es) = unmatched rest.reduceOption es ∧
      (c.names = [] → rest = []) := by
  have keep := copyMember_padded padded
  -- the member is asked for by `n`
  have by_name (n : Name) (rest : List (Option Name))
      (asked : (if c.names = [] then some (e.name, s.names)
        else matchMember e.name s.names) = some (n, rest)) :
      replaceMember c disk e s = (replacement c disk (e, some n)).map (fun out =>
        { handlePosition c e.name s with
          names := rest, tmp := (handlePosition c e.name s).tmp ++ [out] }) := by
    unfold replaceMember replacement
    simp only [handlePosition_names, asked, State.keep, keep, writeMember_eq]
    cases disk n with
    | none => rfl
    | some src => dsimp only; split <;> rfl
  by_cases none_named : c.names = []
  · refine ⟨some e.name, s.names, by_name _ _ (by simp [none_named]), ?_, ?_, fixed⟩
    · simp [Command.marks, none_named]
    · simp [fixed none_named, unmatched]
  rcases marks_step e es s.names with ⟨asked, marked, left⟩ | ⟨n, rest, asked, marked, left⟩
  · refine ⟨none, s.names, ?_, ?_, left, fixed⟩
    · simp [replaceMember, none_named, asked, State.keep, keep, replacement, Except.map]
    · simp [Command.marks, none_named, marked]
  · refine ⟨some n, rest, by_name n rest (by simp [none_named, asked]), ?_, left,
      fun h => absurd h none_named⟩
    simp [Command.marks, none_named, marked]

theorem replaceMembers_stream (disk : Name → Option Source) (padded : ∀ e ∈ es, e.Padded)
    (s : State) (fixed : c.names = [] → s.names = []) :
    match (c.marks s.names.reduceOption es).mapM (replacement c disk) with
    | .error stop => replaceMembers c disk es s = .error stop
    | .ok old => ∃ s', replaceMembers c disk es s = .ok s' ∧
        Stream c s es (old.map some) s' ∧
        s'.names.reduceOption = unmatched s.names.reduceOption es := by
  induction es generalizing s with
  | nil =>
    have : c.marks s.names.reduceOption [] = [] := by simp [Command.marks, marks]
    rw [this]
    exact ⟨s, rfl, .nil s, rfl⟩
  | cons e es ih =>
    rw [forall_mem_cons] at padded
    obtain ⟨mark, rest, step, marked, left, fixed'⟩ := replaceMember_step disk padded.1 es fixed
    rw [marked, mapM_cons, replaceMembers, step, left]
    cases replacement c disk (e, mark) with
    | error stop => rfl
    | ok out =>
      have next := ih padded.2 { handlePosition c e.name s with
        names := rest, tmp := (handlePosition c e.name s).tmp ++ [out] } fixed'
      revert next
      cases (c.marks rest.reduceOption es).mapM (replacement c disk) with
      | error stop => exact id
      | ok old =>
        rintro ⟨s', ran, run, names⟩
        exact ⟨s', ran, .cons rest run, names⟩

/-- The new files go behind what the pass has written. -/
theorem appendNewFiles_eq (names : List (Option Name)) (s : State) :
    appendNewFiles disk names s = ((files disk names.reduceOption).mapM member).map
      fun new => { s with tmp := s.tmp ++ new } := by
  induction names generalizing s with
  | nil => simp [appendNewFiles, files, Except.map, pure, Except.pure]
  | cons n names ih =>
    cases n with
    | none => rw [appendNewFiles, ih, reduceOption_cons_of_none]
    | some n =>
      rw [appendNewFiles, reduceOption_cons_of_some]
      cases found : disk n with
      | none => simp only [ih, files, filterMap_cons, found, Option.map_none]
      | some src =>
        simp only [files, filterMap_cons, found, Option.map_some, mapM_cons, writeMember_eq]
        cases member (n, src) with
        | error stop => rfl
        | ok e =>
          show appendNewFiles disk names _ = _
          rw [ih]
          unfold files
          cases (List.filterMap _ _).mapM member with
          | error stop => rfl
          | ok new => simp [Except.map, bind, Except.bind, pure, Except.pure]

theorem quickAppend_eq (names : List Name) (arch : List Entry) :
    quickAppend disk names arch = arch ++ ((files disk names).takeWhile short).map fresh := by
  induction names generalizing arch with
  | nil => simp [quickAppend, files]
  | cons n names ih =>
    unfold quickAppend
    cases found : disk n with
    | none => simpa [files, found] using ih arch
    | some src =>
      cases fits : short (n, src) <;>
        simp [files, found, writeMember_eq, member, fits, Except.map, ih]

theorem cmdReplace_eq (padded : ∀ e ∈ es, e.Padded) :
    cmdReplace c disk es = editReplace c disk es := by
  have pass := replaceMembers_stream (c := c) disk padded c.start
    (fun none_named => by simp [Command.start, none_named])
  rw [Command.start_names] at pass
  unfold cmdReplace editReplace
  revert pass
  cases (c.marks c.names es).mapM (replacement c disk) with
  | error stop =>
    intro pass
    rw [pass]
    rfl
  | ok old =>
    rintro ⟨s', ran, run, names⟩
    have ⟨tmp, tmp1⟩ := run.halves rfl rfl
    have same : (rejoin s').names = s'.names := by unfold rejoin; split <;> rfl
    rw [ran]
    show (appendNewFiles disk (rejoin s').names (rejoin s') >>= _) = _
    rw [same, appendNewFiles_eq, names]
    cases (files disk (unmatched c.names es)).mapM member with
    | error stop => rfl
    | ok new =>
      have nothing : c.start.tmp = [] := rfl
      simp only [nothing, nil_append] at tmp
      show Except.ok (((rejoin s').tmp ++ new) ++ (rejoin s').tmp1.getD []) = Except.ok _
      simp [tmp, tmp1, List.reduceOption, ← map_take, ← map_drop]

/-- Each of the commands makes its edit. -/
theorem arRun_eq_edit (c : Command) (disk : Name → Option Source) (arch : List Entry)
    (padded : ∀ e ∈ arch, e.Padded) (letter : Letter) :
    arRun c disk arch letter = edit c disk arch letter := by
  cases letter with
  | r => simp only [arRun, edit, cmdReplace_eq padded]
  | d =>
    have ⟨tmp, tmp1⟩ := deleteMember_tmp padded c.start
    rw [Command.start_names] at tmp
    have nothing : c.start.tmp = [] ∧ c.start.tmp1 = none := ⟨rfl, rfl⟩
    simp [arRun, edit, cmdDelete, commitArchive, rejoin, tmp, tmp1, nothing]
  | m =>
    obtain ⟨s', eq, run⟩ := moveMember_stream (c := c) padded c.start []
    have ⟨tmp, tmp1⟩ := run.halves rfl rfl
    rw [Command.start_names] at eq tmp tmp1
    have nothing : c.start.tmp = [] := rfl
    simp only [arRun, edit, cmdMove, eq, tmp, tmp1, nothing, nil_append, unasked,
      List.reduceOption, ← map_take, ← map_drop, filterMap_map, Function.id_comp]
  | q => simp only [arRun, edit, cmdQuick, quickAppend_eq]

/-- Two members, the second of them moved in front of the first. -/
theorem arRun_eq_edit_moved :
    let a : Entry := ⟨[97], ⟨0, 0, 0, 0⟩, 6, .bytes [1, 2, 3, 4, 5, 6]⟩
    let b : Entry := ⟨[98], ⟨0, 0, 0, 0⟩, 0, .bytes []⟩
    let c : Command := ⟨[[47, 98]], some [97], false, false⟩
    (∀ e ∈ [a, b], e.Padded) ∧ arRun c (fun _ => none) [a, b] .m = [b, a] := by
  intro a b c
  have padded : ∀ e ∈ [a, b], e.Padded := by simp [a, b, Entry.Padded]
  exact ⟨padded, (arRun_eq_edit c _ [a, b] padded .m).trans (by decide)⟩

end V7Besm.Ar

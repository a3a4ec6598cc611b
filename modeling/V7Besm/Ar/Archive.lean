import Mathlib.Data.List.TakeWhile
import V7Besm.Ld.Command

/-!
Archives, and the command `r` of the archiver.

An archive is a magic word and its members, each a header and data padded to whole
words. `cmd_replace` streams the old members into a temporary file, with the named
files put in for the members they replace; from the position given with `a` or `b`
on, the members go to a second temporary file, so that what is new comes between the
two.
-/

namespace V7Besm.Ar

open Ld (Name Obj Nlist Member arhdrsz SYMDEF)

/-- What a member holds: an object file or something else. -/
inductive Body where
  | object (o : Obj)
  | bytes (b : List UInt8)
deriving DecidableEq, Repr

/-- The fields of `ar_hdr` that are copied from the file's inode. -/
structure Stat where
  (date uid gid mode : Nat)
deriving DecidableEq, Repr

/-- A member with its header. -/
@[ext] structure Entry where
  name : Name
  stat : Stat
  size : Nat
  body : Body
deriving DecidableEq, Repr

/-- A file outside the archive, as `open_input` delivers it. -/
structure Source where
  stat : Stat
  size : Nat
  body : Body
deriving DecidableEq, Repr

def ARMAXNAME : Nat := 255

/-- The bytes up to the next word boundary. -/
def padding (size : Nat) : Nat := (6 - size % 6) % 6

/-- The data with `n` zero bytes behind it; an object's own header says where it ends. -/
def Body.pad (n : Nat) : Body → Body
  | .object o => .object o
  | .bytes b => .bytes (b ++ List.replicate n 0)

/-- `copy_member` with `HEAD` and `OODD`: the header records the padded size. -/
def copyMember (e : Entry) : Entry :=
  { e with size := e.size + padding e.size, body := e.body.pad (padding e.size) }

/-- From one header to the next. -/
def Entry.span (e : Entry) : Nat := (e.size + 5) / 6 * 6 + arhdrsz e.name

/-- The members with the offsets of their headers, the first one being at `pos`. -/
def placed : Nat → List Entry → List (Nat × Entry)
  | _, [] => []
  | pos, e :: es => (pos, e) :: placed (pos + e.span) es

/-- `basename_of`: what follows the last slash, once the slashes at the end are cut off. -/
def basenameOf (s : Name) : Name := ((s.reverse.dropWhile (· = 47)).takeWhile (· ≠ 47)).reverse

/-! ### Replacing members -/

/-- `insert_state` -/
inductive Insert where
  | off | looking | found
deriving DecidableEq, Repr

/-- The command line: `position` is the member named with `a` or `b`. -/
structure Command where
  names : List Name
  position : Option Name
  after : Bool
  update : Bool

/-- `struct arstate` while `cmd_replace` reads: the names not handled yet, and the members
in the temporary files. -/
@[ext] structure State where
  names : List (Option Name)
  insert : Insert
  tmp : List Entry
  tmp1 : Option (List Entry)
deriving DecidableEq, Repr

def Command.start (c : Command) : State :=
  ⟨c.names.map some, if c.position.isSome then .looking else .off, [], none⟩

/-- `handle_position`: at the position the rest is diverted to a second file. -/
def handlePosition (c : Command) (cur : Name) (s : State) : State :=
  let divert : State := { s with insert := .off, tmp := [], tmp1 := some s.tmp }
  match s.insert with
  | .off => s
  | .looking =>
    if c.position.map basenameOf ≠ some cur then s
    else if c.after then { s with insert := .found } else divert
  | .found => divert

/-- `match_member`: the first pending name that means `cur`, and the names without it. -/
def matchMember (cur : Name) : List (Option Name) → Option (Name × List (Option Name))
  | [] => none
  | none :: names => (matchMember cur names).map fun (n, rest) => (n, none :: rest)
  | some n :: names =>
    if basenameOf n = cur then some (n, none :: names)
    else (matchMember cur names).map fun (m, rest) => (m, some n :: rest)

/-- The ways in which the archiver and `ranlib` stop. -/
inductive Stop where
  | nameTooLong | tableOverflow
deriving DecidableEq, Repr

def writeMember (file : Name) (src : Source) (s : State) : Except Stop State :=
  let name := basenameOf file
  if name.length > ARMAXNAME then .error .nameTooLong
  else .ok { s with tmp := s.tmp ++ [copyMember ⟨name, src.stat, src.size, src.body⟩] }

/-- The old member goes through. -/
def State.keep (s : State) (e : Entry) : State := { s with tmp := s.tmp ++ [copyMember e] }

/-- One member of the old archive; `disk` is what `open_input` finds. -/
def replaceMember (c : Command) (disk : Name → Option Source) (e : Entry) (s : State) :
    Except Stop State :=
  let s := handlePosition c e.name s
  let asked : Option (Name × List (Option Name)) :=
    if c.names = [] then some (e.name, s.names) else matchMember e.name s.names
  match asked with
  | none => .ok (s.keep e)
  | some (file, names) =>
    let s := { s with names := names }
    match disk file with
    | none => .ok (s.keep e)
    | some src =>
      if c.update ∧ src.stat.date ≤ e.stat.date then .ok (s.keep e)
      else writeMember file src s

def replaceMembers (c : Command) (disk : Name → Option Source) :
    List Entry → State → Except Stop State
  | [], s => .ok s
  | e :: es, s => do replaceMembers c disk es (← replaceMember c disk e s)

/-- At the end of the archive `next_member` makes the file in front of the position the
one that is written to. -/
def rejoin (s : State) : State :=
  match s.tmp1 with
  | none => s
  | some front => { s with tmp := front, tmp1 := some s.tmp }

/-- `append_new_files`, up to the commit. -/
def appendNewFiles (disk : Name → Option Source) : List (Option Name) → State → Except Stop State
  | [], s => .ok s
  | none :: names, s => appendNewFiles disk names s
  | some n :: names, s =>
    match disk n with
    | none => appendNewFiles disk names s
    | some src => do appendNewFiles disk names (← writeMember n src s)

/-- `commit_archive`: the main file, and behind it what was diverted. -/
def commitArchive (s : State) : List Entry := s.tmp ++ s.tmp1.getD []

/-- The command `r`. -/
def cmdReplace (c : Command) (disk : Name → Option Source) (arch : List Entry) :
    Except Stop (List Entry) := do
  let s ← replaceMembers c disk arch c.start
  let s := rejoin s
  let s ← appendNewFiles disk s.names s
  .ok (commitArchive s)

/-! ### Well-formed archives -/

/-- `ar_size` is a whole number of words. -/
def Entry.Padded (e : Entry) : Prop := e.size % 6 = 0

theorem Entry.Padded.padding_eq {e : Entry} (padded : e.Padded) : padding e.size = 0 := by
  unfold Entry.Padded at padded
  unfold padding
  omega

@[simp] theorem Body.pad_zero (b : Body) : b.pad 0 = b := by
  cases b <;> simp [Body.pad]

theorem copyMember_padded {e : Entry} (padded : e.Padded) : copyMember e = e := by
  simp [copyMember, padded.padding_eq]

/-! ### The base name -/

end V7Besm.Ar

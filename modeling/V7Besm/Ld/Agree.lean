import V7Besm.Ld.Address
import V7Besm.Ld.Complete

/-!
Whether the two passes agree.

Pass 2 opens what its own reading of the arguments names and takes the members that pass 1
has written down. If it opens the same files, it visits the same objects, and if nothing in
them ends it, the const and text segments have the declared size. The data segment has it if
no data was counted before a `-D`, for pass 2 writes all the words of a `-D` and pass 1 counts
them from the start of the segment. The symbol table has it only if there is nothing to count:
pass 1 reserves a byte too many for every file symbol and every global symbol.
-/

namespace V7Besm.Ld

open Fallible List

/-! ### The statement -/

def Act.dirs : Act → List Name
  | .dir name => [name]
  | _ => []

/-- The words of one `-D`. -/
def Act.zeros : Act → Nat
  | .size num => num.toNat
  | _ => 0

/-- What a half-word of the file is relocated with, as far as external references go. -/
def externEnv (st : Pass1) (y : Layout) (newindex : List Nat) (bias : Bias) (symbols : Symbols) :
    Env where
  newindex := newindex
  cbasaddr := y.corigin
  bias := bias
  «local» := symbols.local
  symtab := y.symtab.symtab
  nsym := st.l.nsym
  rflag := y.rflag

/-- Under `-r`, every external record that pass 2 writes has the position, in the output's
table, of the global symbol that the file's symbol number stands for. -/
def RefersByPosition (pr : Profile) (st : Pass1) (y : Layout) (emits : List Emit) (parts : Parts) :
    Prop :=
  y.rflag = true → ∀ o, .file o ∈ emits → ∀ newindex bias symbols,
    (st.strip.settled y).walkSymbols pr newindex y.corigin bias y.symtab ⟨[], []⟩ 0 o.syms =
        .ok symbols →
      let env := externEnv st y newindex bias symbols
      ∀ t r t' r', relocateHalfword env t r = .ok (t', r') → r'.rel = .ext →
        ∃ sp, lookupLocal env r.index = .ok sp ∧ r'.index = parts.syms.length + sp

/-- The passes agree on the command line: pass 2 visits what pass 1 has visited and gets through
with `parts`, which has as many bytes as the header declares and refers to symbols by their
position. -/
structure Agrees (b : Build) (disk : Disk) (args : List Arg) (st : Pass1) (y : Layout)
    (w : Pass2) (parts : Parts) : Prop where
  ran : runPass2 b disk st args = .ok w
  visits : w.visits = st.visits
  wrote : (st.strip.settled y).writeEmits b.toProfile st.l y y.origins st.l.coptsize w.emits =
    .ok parts
  bytes : written st y parts = declared st y
  positions : RefersByPosition b.toProfile st y w.emits parts

variable {w : Pass2}

variable {newindex : List Nat}

section Scan

variable {pr : Profile} {strip : Strip} {l l' : Linker} {o : Obj} {kept : Bool}

/-- What one file adds to the counters, and that its names are found. -/
structure Adds (pr : Profile) (strip : Strip) (l : Linker) (o : Obj) (l' : Linker) : Prop where
  const : ∃ own newindex, loadConstants pr l.constab o.const = .ok (l.constab ++ own, newindex) ∧
    l'.constab = l.constab ++ own ∧ l'.coptsize = l.coptsize ++ [own.length] ∧
    l'.csize = l.csize + own.length
  tsize : l'.tsize = l.tsize + o.text.length
  dsize : l'.dsize = l.dsize + o.data.length
  ssize : l'.ssize = l.ssize + strip.fileSymbolSize o +
    namesSize 5 (o.syms.filter fun s => !s.ext && strip.takes s)
  grows : l.symtab.Grows pr l'.symtab
  meets : l.symtab.table.Threaded → ∀ s ∈ o.syms, s.ext = true → strip.takes s = true →
    l'.symtab.Meets pr s.name

/-- The counters are the same. -/
structure SameCounts (pr : Profile) (l l' : Linker) : Prop where
  constab : l'.constab = l.constab
  coptsize : l'.coptsize = l.coptsize
  csize : l'.csize = l.csize
  tsize : l'.tsize = l.tsize
  dsize : l'.dsize = l.dsize
  ssize : l'.ssize = l.ssize
  grows : l.symtab.Grows pr l'.symtab

theorem SameCounts.refl (pr : Profile) (l : Linker) : SameCounts pr l l :=
  ⟨rfl, rfl, rfl, rfl, rfl, rfl, .of_table rfl⟩

end Scan

/-! ### What the counters say -/

/-- Each option set in `strip` is set in `fin`. -/
structure Strip.Within (strip fin : Strip) : Prop where
  sflag : strip.sflag = true → fin.sflag = true
  xflag : strip.xflag = true → fin.xflag = true
  Xflag : strip.Xflag = true → fin.Xflag = true
  Sflag : strip.Sflag = true → fin.Sflag = true

theorem Strip.Within.refl (strip : Strip) : strip.Within strip := ⟨id, id, id, id⟩

theorem Strip.Within.trans {a b c : Strip} (first : a.Within b) (second : b.Within c) : a.Within c :=
  ⟨second.sflag ∘ first.sflag, second.xflag ∘ first.xflag, second.Xflag ∘ first.Xflag,
    second.Sflag ∘ first.Sflag⟩

/-- `-s` sets `xflag` too. -/
def Strip.Coherent (strip : Strip) : Prop := strip.sflag = true → strip.xflag = true

/-- More options let fewer symbols through. -/
theorem Strip.Within.takes {strip fin : Strip} (within : strip.Within fin) {s : Nlist}
    (taken : fin.takes s = true) : strip.takes s = true := by
  have off {a b : Bool} (imp : a = true → b = true) (no : b = false) : a = false := by
    cases a with
    | false => rfl
    | true => rw [imp rfl] at no; cases no
  simp only [Strip.takes, Strip.drops, Strip.writes, Bool.and_eq_true, Bool.not_eq_true',
    Bool.and_eq_false_iff, Bool.or_eq_true] at taken ⊢
  obtain ⟨kept, taken⟩ := taken
  refine ⟨kept.imp (off within.Sflag) id, taken.imp id ?_⟩
  rintro ⟨⟨sflag, xflag⟩, Xflag⟩
  exact ⟨⟨off within.sflag sflag, off within.xflag xflag⟩, Xflag.imp (off within.Xflag) id⟩

theorem namesSize_append (extra : Nat) (a b : List Nlist) :
    namesSize extra (a ++ b) = namesSize extra a + namesSize extra b := by
  simp [namesSize]

theorem namesSize_filter_le (extra : Nat) {p q : Nlist → Bool} (imp : ∀ s, p s = true → q s = true)
    (syms : List Nlist) : namesSize extra (syms.filter p) ≤ namesSize extra (syms.filter q) := by
  induction syms with
  | nil => exact Nat.le_refl _
  | cons s rest ih =>
    cases keeps : p s with
    | true =>
      rw [filter_cons_of_pos keeps, filter_cons_of_pos (imp s keeps)]
      simp only [namesSize, map_cons, sum_cons] at ih ⊢
      omega
    | false =>
      rw [filter_cons_of_neg (by simp [keeps])]
      refine Nat.le_trans ih ?_
      rw [filter_cons]
      split
      next => simp [namesSize]
      next => exact Nat.le_refl _

theorem total_append (size : Obj → Nat) (a b : List Obj) :
    total size (a ++ b) = total size a + total size b := by
  simp [total]

/-- A symbol that pass 2 does not pass over was not passed over by pass 1. -/
theorem Strip.Within.takes_typed {strip fin : Strip} (within : strip.Within fin) {s : Nlist}
    (outer : s.ext = true) (kept : fin.drops s.typed = false) : strip.takes s = true := by
  simp only [Strip.takes, outer, Bool.true_or, Bool.and_true, Bool.not_eq_true']
  cases dropped : strip.drops s with
  | false => rfl
  | true =>
    simp only [Strip.drops, Bool.and_eq_true, Bool.or_eq_true, decide_eq_true_eq] at dropped
    obtain ⟨flag, seg⟩ := dropped
    have abs : s.typed.seg = .abs := by
      unfold Nlist.typed
      split
      case h_7 => simp [outer]
      all_goals simp_all [Seg.aboveComm]
    simp [Strip.drops, within.Sflag flag, abs] at kept

theorem Loaded.snoc {pr : Profile} {constab own : List Cell} {objs : List Obj} {o : Obj}
    {loads : List (List Nat × List Cell)} (loaded : Loaded pr constab objs loads)
    (consts : loadConstants pr (constab ++ loads.flatMap Prod.snd) o.const =
      .ok (constab ++ loads.flatMap Prod.snd ++ own, newindex)) :
    Loaded pr constab (objs ++ [o]) (loads ++ [(newindex, own)]) := by
  induction loaded with
  | nil =>
    simp only [flatMap_nil, append_nil] at consts
    exact .cons consts .nil
  | cons first _ ih =>
    simp only [flatMap_cons, ← append_assoc] at consts
    exact .cons first (ih consts)

/-- Pass 1 after `files`, with `zeros` words of `-D`s. For the size of the symbols there is only
a bound, which is too large by one for every file. -/
structure Counted (pr : Profile) (fin : Strip) (l : Linker) (files : List Obj) (early zeros : Nat) :
    Prop where
  csize : l.csize = l.coptsize.sum
  pooled : ∃ loads, Loaded pr [] files loads ∧ l.constab = loads.flatMap Prod.snd ∧
    l.coptsize = loads.map (·.2.length)
  tsize : l.tsize = total (·.text.length) files
  dsize : l.dsize + early = total (·.data.length) files + zeros
  ssize : fin.sflag = false → fin.xflag = false →
    namesSize 5 (files.flatMap (localSyms fin)) + files.length ≤ l.ssize
  none : files = [] → l.ssize = 0
  threaded : l.symtab.table.Threaded
  found : ∀ o ∈ files, ∀ s ∈ o.syms, s.ext = true → fin.drops s.typed = false →
    l.symtab.Meets pr s.name

section Counted

variable {pr : Profile} {strip fin : Strip} {l l' : Linker} {files : List Obj} {early zeros : Nat}
  {o : Obj}

theorem Counted.same (counted : Counted pr fin l files early zeros) (same : SameCounts pr l l') :
    Counted pr fin l' files early zeros where
  csize := by rw [same.csize, same.coptsize, counted.csize]
  pooled := by
    rw [same.constab, same.coptsize]
    exact counted.pooled
  tsize := by rw [same.tsize, counted.tsize]
  dsize := by rw [same.dsize, counted.dsize]
  ssize keep keep' := by
    rw [same.ssize]
    exact counted.ssize keep keep'
  none empty := by rw [same.ssize, counted.none empty]
  threaded := same.grows.threaded counted.threaded
  found o mem s at_s outer kept := same.grows.meets _ (counted.found o mem s at_s outer kept)

theorem Counted.adds (counted : Counted pr fin l files early zeros) (within : strip.Within fin)
    (adds : Adds pr strip l o l') : Counted pr fin l' (files ++ [o]) early zeros := by
  obtain ⟨own, newindex, consts, constab, coptsize, csize⟩ := adds.const
  constructor
  · rw [csize, coptsize, counted.csize, sum_append, sum_singleton]
  · obtain ⟨loads, loaded, pool, counts⟩ := counted.pooled
    rw [pool] at consts constab
    refine ⟨loads ++ [(newindex, own)], loaded.snoc consts, ?_, ?_⟩
    · rw [constab, flatMap_append, flatMap_singleton]
    · rw [coptsize, counts, map_append, map_singleton]
  · rw [adds.tsize, total_append, counted.tsize]
    simp
  · have := counted.dsize
    rw [adds.dsize, total_append]
    simp only [total_cons, total_nil]
    omega
  · intro keep keep'
    have bound := counted.ssize keep keep'
    have marks : strip.marksFiles = true := by
      cases s : strip.sflag with
      | true => rw [within.sflag s] at keep; cases keep
      | false =>
        cases x : strip.xflag with
        | true => rw [within.xflag x] at keep'; cases keep'
        | false => simp [Strip.marksFiles, s, x]
    have locals := namesSize_filter_le 5 (p := fun s => !s.ext && fin.takes s)
      (q := fun s => !s.ext && strip.takes s)
      (fun s both => by
        simp only [Bool.and_eq_true] at both ⊢
        exact ⟨both.1, within.takes both.2⟩) o.syms
    have own : namesSize 5 (localSyms fin o) =
        o.file.length + 5 + namesSize 5 (o.syms.filter fun s => !s.ext && fin.takes s) := by
      have : fin.marksFiles = true := by simp [Strip.marksFiles, keep, keep']
      rw [localSyms, this, if_pos rfl, namesSize_append]
      simp [namesSize, makeFileSymbol]
    rw [adds.ssize, Strip.fileSymbolSize, if_pos marks, flatMap_append, namesSize_append,
      length_append, flatMap_singleton, own]
    simp only [length_singleton]
    omega
  · simp
  · exact adds.grows.threaded counted.threaded
  · intro o' mem s at_s outer kept
    obtain old | new := mem_append.mp mem
    · exact adds.grows.meets _ (counted.found o' old s at_s outer kept)
    · obtain rfl := mem_singleton.mp new
      exact adds.meets counted.threaded s at_s outer (within.takes_typed outer kept)

end Counted

/-! ### The members of an archive -/

variable {a : Archive}

section Members

variable {b : Build} {strip fin : Strip} {t t' t'' : Taken} {members : List Member} {loc : Nat}
  {m : Member}

/-- `o` is the object of the member at `loc`. -/
def IsMember (members : List Member) (loc : Nat) (o : Obj) : Prop :=
  ∃ m o', memberAt loc 6 members = some m ∧ m.obj = some o' ∧ o = { o' with file := baseName m.name }

/-- From `t` to `t'` members of the archive were taken and written down. -/
def Takes (pr : Profile) (strip : Strip) (members : List Member) (t t' : Taken) : Prop :=
  ∃ locs objs, t'.liblist = t.liblist ++ locs.map some ∧ t'.files = t.files ++ objs ∧
    t'.members = t.members ++ locs ∧ List.Forall₂ (IsMember members) locs objs ∧
    ∀ fin early zeros, strip.Within fin → Counted pr fin t.l t.files early zeros →
      Counted pr fin t'.l t'.files early zeros

theorem Takes.refl (pr : Profile) (strip : Strip) (members : List Member) (t : Taken) :
    Takes pr strip members t t :=
  ⟨[], [], by simp, by simp, by simp, .nil, fun _ _ _ _ counted => counted⟩

theorem Takes.trans {pr : Profile} (first : Takes pr strip members t t')
    (second : Takes pr strip members t' t'') : Takes pr strip members t t'' := by
  obtain ⟨locs, objs, list, files, taken, are, counts⟩ := first
  obtain ⟨locs', objs', list', files', taken', are', counts'⟩ := second
  refine ⟨locs ++ locs', objs ++ objs', ?_, ?_, ?_, rel_append are are', ?_⟩
  · rw [list', list, map_append, append_assoc]
  · rw [files', files, append_assoc]
  · rw [taken', taken, append_assoc]
  · intro fin early zeros within counted
    exact counts' fin early zeros within (counts fin early zeros within counted)

/-- Where the members of an archive end up. -/
def spans (members : List Member) : Nat := (members.map Member.span).sum

end Members

/-! ### The trace of pass 1 -/

/-- What is left behind of the files `opened`: the entries of `liblist`, the visits and the
objects. -/
inductive Traced (disk : Disk) :
    List (Arg × Name) → List (Option Nat) → List Visit → List Obj → Prop where
  | nil : Traced disk [] [] [] []
  | object {cp path o opened list visits objs} : disk path = some (.object o) →
      Traced disk opened list visits objs →
      Traced disk ((cp, path) :: opened) list (.object cp path :: visits)
        ({ o with file := baseName cp } :: objs)
  | archive {cp path a locs taken opened list visits objs} : disk path = some (.archive a) →
      List.Forall₂ (IsMember a.members) locs taken → Traced disk opened list visits objs →
      Traced disk ((cp, path) :: opened) (locs.map some ++ none :: list)
        (.archive cp path locs :: visits) (taken ++ objs)

theorem Traced.opened {disk : Disk} {opened : List (Arg × Name)} {list : List (Option Nat)}
    {visits : List Visit} {objs : List Obj} (traced : Traced disk opened list visits objs) :
    visits.map Visit.opened = opened := by
  induction traced with
  | nil => rfl
  | object _ _ ih | archive _ _ _ ih => simp [Visit.opened, ih]

/-- From `st` to `st'` the files `opened` were scanned and `zeros` words of `-D`s counted. -/
def Advances (pr : Profile) (disk : Disk) (opened : List (Arg × Name)) (zeros : Nat)
    (st st' : Pass1) : Prop :=
  st.strip.Within st'.strip ∧ (st.strip.Coherent → st'.strip.Coherent) ∧
    ∃ list visits objs, st'.liblist = st.liblist ++ list ∧ st'.visits = st.visits ++ visits ∧
      st'.files = st.files ++ objs ∧ Traced disk opened list visits objs ∧
      ∀ fin sum, st'.strip.Within fin → Counted pr fin st.l st.files st.early sum →
        Counted pr fin st'.l st'.files st'.early (sum + zeros)

variable {path : Name} {cp : Arg} {zeros' : Nat} {acts : List Act}

section Advances

variable {b : Build} {disk : Disk} {st st' st'' : Pass1}

/-- An act that touches neither the list of files nor the counters. -/
theorem Advances.still {pr : Profile} (within : st.strip.Within st'.strip)
    (coherent : st.strip.Coherent → st'.strip.Coherent) (list : st'.liblist = st.liblist)
    (visits : st'.visits = st.visits) (files : st'.files = st.files)
    (early : st'.early = st.early) (same : SameCounts pr st.l st'.l) :
    Advances pr disk [] 0 st st' := by
  refine ⟨within, coherent, [], [], [], by simp [list], by simp [visits], by simp [files], .nil, ?_⟩
  intro fin sum _ counted
  rw [files, early]
  exact counted.same same

theorem Traced.append {opened opened' : List (Arg × Name)} {list list' : List (Option Nat)}
    {visits visits' : List Visit} {objs objs' : List Obj}
    (first : Traced disk opened list visits objs) (second : Traced disk opened' list' visits' objs') :
    Traced disk (opened ++ opened') (list ++ list') (visits ++ visits') (objs ++ objs') := by
  induction first with
  | nil => exact second
  | object is_object _ ih => exact .object is_object ih
  | archive is_archive are _ ih =>
    rw [append_assoc, append_assoc, cons_append]
    exact .archive is_archive are ih

theorem Advances.trans {pr : Profile} {opened opened' : List (Arg × Name)} {zeros : Nat}
    (first : Advances pr disk opened zeros st st')
    (second : Advances pr disk opened' zeros' st' st'') :
    Advances pr disk (opened ++ opened') (zeros + zeros') st st'' := by
  obtain ⟨within, coherent, list, visits, objs, list_eq, visits_eq, objs_eq, traced, counts⟩ := first
  obtain ⟨within', coherent', list', visits', objs', list_eq', visits_eq', objs_eq', traced',
    counts'⟩ := second
  refine ⟨within.trans within', coherent' ∘ coherent, list ++ list', visits ++ visits', objs ++ objs',
    ?_, ?_, ?_, traced.append traced', ?_⟩
  · rw [list_eq', list_eq, append_assoc]
  · rw [visits_eq', visits_eq, append_assoc]
  · rw [objs_eq', objs_eq, append_assoc]
  · intro fin sum inside counted
    rw [← Nat.add_assoc]
    exact counts' fin _ inside (counts fin sum (within'.trans inside) counted)

end Advances

/-! ### Pass 2 follows the trace -/

section Replay

variable {disk disk' : Disk} {libdir : List Name} {opened : List (Arg × Name)}
  {list : List (Option Nat)} {visits : List Visit} {objs : List Obj}

theorem uptoMark_marked (locs : List Nat) (rest : List (Option Nat)) :
    uptoMark (locs.map some ++ none :: rest) = some (locs, rest) := by
  induction locs with
  | nil => rfl
  | cons loc locs ih => simp [uptoMark, ih]

theorem memberEmits {locs : List Nat} {taken : List Obj}
    (are : List.Forall₂ (IsMember a.members) locs taken) :
    locs.mapM (memberEmit a) = .ok (taken.map Emit.file) := by
  rw [mapM_eq_ok, forall₂_map_right_iff]
  refine are.imp ?_
  rintro loc o ⟨m, o', at_loc, holds, rfl⟩
  simp [memberEmit, at_loc, holds]

/-- What pass 2 writes if it follows the trace: the objects, and the words of the `-D`s. -/
structure Replays (objs : List Obj) (zeros : Nat) (emits : List Emit) : Prop where
  obj : emits.filterMap Emit.obj? = objs
  data : (emits.map Emit.data).sum = total (·.data.length) objs + zeros

theorem Replays.files (taken : List Obj) : Replays taken 0 (taken.map Emit.file) := by
  constructor
  · induction taken with
    | nil => rfl
    | cons o rest ih => simp [Emit.obj?, ih]
  · simp [total, Function.comp_def, Emit.data]

theorem Replays.append {objs objs' : List Obj} {zeros : Nat} {emits emits' : List Emit}
    (first : Replays objs zeros emits) (second : Replays objs' zeros' emits') :
    Replays (objs ++ objs') (zeros + zeros') (emits ++ emits') := by
  constructor
  · rw [filterMap_append, first.obj, second.obj]
  · rw [map_append, sum_append, first.data, second.data, total_append]
    omega

/-- The first file of a trace is visited as it was if it holds what it held. -/
theorem Traced.relocateFile {f : Arg × Name} (traced : Traced disk (f :: opened) list visits objs)
    (held : disk' f.2 = disk f.2) :
    ∃ list' visit visits' taken objs', visits = visit :: visits' ∧ objs = taken ++ objs' ∧
      Traced disk opened list' visits' objs' ∧ ∀ tail done before,
        Ld.relocateFile disk' ⟨list ++ tail, done, before⟩ f.2 f.1 =
          .ok ⟨list' ++ tail, done ++ [visit], before ++ taken.map Emit.file⟩ := by
  cases traced with
  | @object cp path o _ _ _ _ is_object later =>
    have held : disk' path = some (.object o) := held.trans is_object
    refine ⟨_, _, _, [_], _, rfl, rfl, later, fun tail done before => ?_⟩
    simp [Ld.relocateFile, held]
  | @archive cp path ar locs taken _ rest _ _ is_archive are later =>
    have held : disk' path = some (.archive ar) := held.trans is_archive
    refine ⟨rest, _, _, taken, _, rfl, rfl, later, fun tail done before => ?_⟩
    simp [Ld.relocateFile, held, uptoMark_marked, memberEmits are, bind, Except.bind]

end Replay

/-! ### The sizes -/

section Sizes

variable {pr : Profile} {opt : Options} {st : Pass1} {y : Layout} {emits : List Emit} {zeros : Nat}
  {parts : Parts}

end Sizes

/-! ### The theorem -/

end V7Besm.Ld

import V7Besm.Ld.Files

/-!
The names of a link.

Only the order in which the external names of the files come up decides what the hash
table looks like: merging changes types and values, the layout changes values, and
neither touches a name. So the table pass 2 searches is `nameTable`, a function of the
files' names, and a reference is bound to an entry of exactly its name as long as no
name's probe path in that table meets an extension of it.
-/

namespace V7Besm.Ld

open Fallible List

variable {pr : Profile} {l l' : Linker} {o : Obj} {objs : List Obj}

/-- A name is entered unless the search finds an entry for it. -/
def enterName (pr : Profile) (t : Probe.Table Name) (n : Name) : Probe.Table Name :=
  match t.find (pr.NSYM + 2) (home pr) hits n with
  | none => t
  | some hp => if t.slot hp = none then t.push n hp else t

/-- The names of the external symbols of a file, in order. -/
def Obj.extNames (o : Obj) : List Name := (o.syms.filter Nlist.ext).map Nlist.name

/-- The table of names after the files. -/
def nameTable (pr : Profile) (objs : List Obj) : Probe.Table Name :=
  (objs.flatMap Obj.extNames).foldl (enterName pr) .empty

/-- Each external name of the files is found under exactly that name: its probe path meets
no proper extension of it. -/
def Bound (pr : Profile) (objs : List Obj) : Prop :=
  ∀ n ∈ objs.flatMap Obj.extNames, ∀ k n',
    (nameTable pr objs).OnPath (pr.NSYM + 2) (home pr) n k →
      (nameTable pr objs).names[k]? = some n' → ¬ n <+: n'

/-! ### Pass 1 builds the table of names -/

variable {newindex : List Nat} {b : Bias} {cursym : Nlist} {s s' s'' : Symtab}

/-- Only an undefined or a common symbol stays what it is, and only an external one can become
absolute. -/
theorem relocateCursym_cases {cbasaddr : Int} {sym : Nlist}
    (ok : relocateCursym newindex cbasaddr b cursym = .ok sym) :
    sym = { cursym with seg := sym.seg, value := sym.value } ∧
      (sym.seg = cursym.seg ∨ cursym.ext = true ∧ sym.seg ≠ .comm ∧ cursym.seg ≠ .comm) ∧
      (cursym.seg = .comm → sym = cursym) := by
  unfold relocateCursym at ok
  split at ok
  next seg =>
    dsimp only at ok
    split at ok
    next => cases ok
    next =>
      split at ok
      next => cases ok
      next =>
        cases ok
        simp [seg]
  all_goals
    cases ok
    try split
    all_goals
      cases cursym
      simp_all

theorem relocateCursym_ok {cbasaddr : Int} {sym : Nlist}
    (ok : relocateCursym newindex cbasaddr b cursym = .ok sym) :
    sym.name = cursym.name ∧ sym.ext = cursym.ext := by
  rw [(relocateCursym_cases ok).1]
  exact ⟨rfl, rfl⟩

variable {st st' : Scan}

/-- What one symbol does to the table: nothing, or an insertion under its name and a
merge. -/
theorem scanSymbol_cases (ok : scanSymbol pr newindex b st cursym = .ok st') :
    (cursym.ext = false ∧ st'.symtab = st.symtab) ∨
      (cursym.ext = true ∧ ∃ sym hp sp new s,
        relocateCursym newindex 0 b cursym = .ok sym ∧ sym.name = cursym.name ∧
        lookupSymbol pr st.symtab cursym.name = some hp ∧
        enterSymbol pr st.symtab sym hp = .ok (s, sp, new) ∧
        (st'.symtab = s ∧ new = true ∨
          ∃ e, s.symtab[sp]? = some e ∧ new = false ∧
            st'.symtab = s.merge sp (mergeSymbol e sym).1 (mergeSymbol e sym).2.1)) := by
  unfold scanSymbol at ok
  split at ok
  next inner =>
    cases ok
    exact .inl ⟨by simpa using inner, rfl⟩
  next outer =>
    obtain ⟨sym, relocates, ok⟩ := bind_eq_ok.mp ok
    obtain ⟨same, -⟩ := relocateCursym_ok relocates
    refine .inr ⟨by simpa using outer, sym, ?_⟩
    rw [same] at ok
    split at ok
    next => cases ok
    next hp found =>
      obtain ⟨⟨s, sp, new⟩, enters, ok⟩ := bind_eq_ok.mp ok
      refine ⟨hp, sp, new, s, relocates, same, found, enters, ?_⟩
      dsimp only at ok
      split at ok
      next fresh =>
        cases ok
        exact .inl ⟨rfl, fresh⟩
      next known =>
        split at ok
        next => cases ok
        next e at_sp =>
          cases ok
          exact .inr ⟨e, at_sp, by simpa using known, rfl⟩

theorem scanSymbol_reached (reached : st.symtab.Reached pr)
    (ok : scanSymbol pr newindex b st cursym = .ok st') :
    st'.symtab.Reached pr := by
  obtain ⟨-, same⟩ | ⟨-, sym, hp, sp, new, s, -, same, found, enters, then_⟩ := scanSymbol_cases ok
  · rwa [same]
  · have entered : s.Reached pr := by
      refine .step (.enter sym) reached ?_
      simp [Symtab.step, same, found, enters]
    obtain ⟨rfl, -⟩ | ⟨e, -, -, merged⟩ := then_
    · exact entered
    · rw [merged]
      exact .step (.merge sp _ _) entered rfl

variable {syms : List Nlist}

theorem scanSymbols_reached (reached : st.symtab.Reached pr)
    (ok : scanSymbols pr newindex b st syms = .ok st') :
    st'.symtab.Reached pr := by
  induction syms generalizing st with
  | nil =>
    cases ok
    exact reached
  | cons cursym rest ih =>
    obtain ⟨st₁, one, ok⟩ := bind_eq_ok.mp ok
    exact ih (scanSymbol_reached reached one) ok

/-- Every table pass 1 makes, of objects and of library members kept or skipped, is one that
insertions, merges and rip-outs lead to. -/
theorem scanObject_reached {libflg kept : Bool} (reached : l.symtab.Reached pr)
    (ok : scanObject pr libflg l o = .ok (l', kept)) : l'.symtab.Reached pr := by
  obtain ⟨constab, newindex, st, -, symbols, left⟩ := scanObject_cases ok
  have scanned := scanSymbols_reached reached symbols
  cases left with
  | keeps => exact scanned
  | skips => exact .step (.rip l.symtab.symtab.length) scanned rfl

theorem pass1_reached (reached : l.symtab.Reached pr) (ok : pass1 pr l objs = .ok l') :
    l'.symtab.Reached pr := by
  induction objs generalizing l with
  | nil =>
    cases ok
    exact reached
  | cons o objs ih =>
    obtain ⟨⟨m, kept⟩, scans, ok⟩ := bind_eq_ok.mp ok
    exact ih (scanObject_reached reached scans) ok

theorem enterSymbol_table {sym : Nlist} {hp sp : Nat} {new : Bool}
    (found : lookupSymbol pr s sym.name = some hp)
    (enters : enterSymbol pr s sym hp = .ok (s', sp, new)) :
    s'.table = enterName pr s.table sym.name := by
  unfold lookupSymbol at found
  simp only [enterName, found]
  obtain ⟨held, rfl, -⟩ | ⟨free, -, -, -, rfl⟩ := Symtab.enterSymbol_cases enters
  · rw [if_neg]
    simp [Symtab.table, held]
  · rw [if_pos (show s.table.slot hp = none from free)]
    simp [Symtab.table, Probe.Table.push]

theorem scanSymbol_table (ok : scanSymbol pr newindex b st cursym = .ok st') :
    st'.symtab.table =
      if cursym.ext then enterName pr st.symtab.table cursym.name else st.symtab.table := by
  obtain ⟨inner, same⟩ | ⟨outer, sym, hp, sp, new, s, -, same, found, enters, then_⟩ :=
    scanSymbol_cases ok
  · simp [inner, same]
  · rw [if_pos outer, ← same]
    rw [← same] at found
    rw [← enterSymbol_table found enters]
    obtain ⟨rfl, -⟩ | ⟨e, -, -, merged⟩ := then_
    · rfl
    · rw [merged, Symtab.table_merge]

theorem scanSymbols_table (ok : scanSymbols pr newindex b st syms = .ok st') :
    st'.symtab.table =
      ((syms.filter Nlist.ext).map Nlist.name).foldl (enterName pr) st.symtab.table := by
  induction syms generalizing st with
  | nil =>
    cases ok
    rfl
  | cons cursym rest ih =>
    obtain ⟨st₁, one, ok⟩ := bind_eq_ok.mp ok
    rw [ih ok, scanSymbol_table one, filter_cons]
    split <;> rfl

theorem pass1_table (ok : pass1 pr l objs = .ok l') :
    l'.symtab.table = (objs.flatMap Obj.extNames).foldl (enterName pr) l.symtab.table := by
  induction objs generalizing l with
  | nil =>
    cases ok
    rfl
  | cons o objs ih =>
    obtain ⟨m, newindex, scanned, rest⟩ := pass1_cons ok
    obtain ⟨st, symbols, same, -⟩ := scanned.symbols
    rw [ih rest, flatMap_cons, foldl_append, same, scanSymbols_table symbols]
    rfl

/-! ### The table holds external symbols only -/

/-- Every entry has the `N_EXT` bit. -/
def Symtab.External (s : Symtab) : Prop := ∀ e ∈ s.symtab, e.ext = true

/-! ### The layout keeps the names -/

/-- Only types and values differ. -/
structure Symtab.Keeps (s s' : Symtab) : Prop where
  hshtab : s'.hshtab = s.hshtab
  symhash : s'.symhash = s.symhash
  names : s'.symtab.map Nlist.name = s.symtab.map Nlist.name
  exts : s'.symtab.map Nlist.ext = s.symtab.map Nlist.ext

namespace Symtab.Keeps

theorem refl (s : Symtab) : s.Keeps s := ⟨rfl, rfl, rfl, rfl⟩

theorem trans (first : s.Keeps s') (second : s'.Keeps s'') : s.Keeps s'' :=
  ⟨second.hshtab.trans first.hshtab, second.symhash.trans first.symhash,
    second.names.trans first.names, second.exts.trans first.exts⟩

theorem merge (s : Symtab) (sp : Nat) (seg : Seg) (value : Int) :
    s.Keeps (s.merge sp seg value) := by
  refine ⟨rfl, rfl, congrArg Probe.Table.names (table_merge s sp seg value), ?_⟩
  apply ext_getElem?
  intro i
  simp only [Symtab.merge, List.getElem?_map, List.getElem?_modify]
  cases s.symtab[i]? with
  | none => rfl
  | some e => by_cases same : sp = i <;> simp [same]

theorem table (keeps : s.Keeps s') : s'.table = s.table := by
  simp [Symtab.table, keeps.hshtab, keeps.symhash, keeps.names]

theorem external (keeps : s.Keeps s') (external : s.External) : s'.External := by
  intro e mem
  have : e.ext ∈ s.symtab.map Nlist.ext := by
    rw [← keeps.exts]
    exact mem_map_of_mem mem
  obtain ⟨d, old, same⟩ := mem_map.mp this
  rw [← same]
  exact external d old

end Symtab.Keeps

theorem defineSymbol_keeps {sp : Option Nat} {value : Int} {seg : Seg}
    (ok : defineSymbol s sp value seg = .ok s') : s.Keeps s' := by
  unfold defineSymbol at ok
  split at ok
  next =>
    cases ok
    exact .refl s
  next sp =>
    split at ok
    next =>
      cases ok
      exact .refl s
    next e _ =>
      split at ok
      next =>
        cases ok
        exact .merge s sp seg value
      next => cases ok

theorem defineEnds_keeps {own : List (Option Nat)} {etextValue : Nat}
    (ok : defineEnds s own l etextValue = .ok s') : s.Keeps s' := by
  obtain ⟨s₁, one, ok⟩ := bind_eq_ok.mp ok
  obtain ⟨s₂, two, ok⟩ := bind_eq_ok.mp ok
  obtain ⟨s₃, three, ok⟩ := bind_eq_ok.mp ok
  obtain ⟨s₄, four, five⟩ := bind_eq_ok.mp ok
  exact (defineSymbol_keeps one).trans <| (defineSymbol_keeps two).trans <|
    (defineSymbol_keeps three).trans <| (defineSymbol_keeps four).trans (defineSymbol_keeps five)

theorem layCommons_keeps {cmsize size : Nat} {tab tab' : List Nlist}
    (ok : layCommons cmsize tab = .ok (tab', size)) :
    tab'.map Nlist.name = tab.map Nlist.name ∧ tab'.map Nlist.ext = tab.map Nlist.ext := by
  induction tab generalizing cmsize tab' with
  | nil =>
    cases ok
    exact ⟨rfl, rfl⟩
  | cons sp rest ih =>
    simp only [layCommons] at ok
    split at ok
    next =>
      obtain ⟨next, -, ok⟩ := bind_eq_ok.mp ok
      obtain ⟨⟨tab₁, size₁⟩, more, done⟩ := bind_eq_ok.mp ok
      cases done
      obtain ⟨names, exts⟩ := ih more
      simp [names, exts]
    next =>
      obtain ⟨⟨tab₁, size₁⟩, more, done⟩ := bind_eq_ok.mp ok
      cases done
      obtain ⟨names, exts⟩ := ih more
      simp [names, exts]

variable {corigin torigin dorigin cmorigin borigin : Nat}

theorem placeSymbol_ok {arflag : Bool} {sp sp' : Nlist}
    (ok : placeSymbol arflag corigin torigin dorigin cmorigin borigin sp = .ok sp') :
    sp'.name = sp.name ∧ sp'.ext = sp.ext ∧ sp'.seg ≠ .comm ∧
      (arflag = false → sp'.seg ≠ .undf) := by
  unfold placeSymbol at ok
  dsimp only at ok
  split at ok
  next => cases ok
  next placed is_placed =>
    split at ok
    next => cases ok
    next =>
      cases ok
      split at is_placed
      next undf =>
        split at is_placed
        next real =>
          cases is_placed
          exact ⟨rfl, rfl, by simp [undf], by simp [real]⟩
        next => cases is_placed
      all_goals
        cases is_placed
        simp_all

theorem mapM_placeSymbol_keeps {arflag : Bool} {tab tab' : List Nlist}
    (ok : tab.mapM (placeSymbol arflag corigin torigin dorigin cmorigin borigin) = .ok tab') :
    tab'.map Nlist.name = tab.map Nlist.name ∧ tab'.map Nlist.ext = tab.map Nlist.ext := by
  have each := mapM_eq_ok.mp ok
  clear ok
  induction each with
  | nil => exact ⟨rfl, rfl⟩
  | cons placed _ ih =>
    obtain ⟨name, ext, -⟩ := placeSymbol_ok placed
    simp [ih, name, ext]

variable {opt : Options}

theorem defineCommons_keeps {mode : Mode} {cmsize : Nat}
    (ok : defineCommons opt mode l = .ok (s, cmsize)) : l.symtab.Keeps s := by
  unfold defineCommons at ok
  split at ok
  next =>
    obtain ⟨s₁, ends, ok⟩ := bind_eq_ok.mp ok
    obtain ⟨⟨tab, size⟩, lays, done⟩ := bind_eq_ok.mp ok
    cases done
    obtain ⟨names, exts⟩ := layCommons_keeps lays
    exact (defineEnds_keeps ends).trans ⟨rfl, rfl, names, exts⟩
  next =>
    cases ok
    exact .refl _

theorem le_ALIGN (x : Nat) {y : Nat} (pos : 0 < y) : x ≤ ALIGN x y := by
  unfold ALIGN
  have := Nat.mod_lt (x + y - 1) pos
  omega

/-- What the layout is, in terms of the sizes pass 1 counted. -/
structure LaidOut (opt : Options) (l : Linker) (y : Layout) : Prop where
  keeps : l.symtab.Keeps y.symtab
  corigin : y.corigin = opt.basaddr
  torigin : y.torigin = opt.basaddr + l.csize
  dorigin : y.dorigin = y.torigin + l.tsize +
    if y.nflag then y.dorigin - (y.torigin + l.tsize) else 0
  commons : ∃ cmsize, y.borigin = y.dorigin + l.dsize + cmsize ∧ y.bsize = l.bsize + cmsize
  resolved : opt.rflag = false → ∀ e ∈ y.symtab.symtab, e.seg ≠ .undf ∧ e.seg ≠ .comm
  final : opt.rflag = false → y.rflag = false

theorem exists_undf_of_forced (plain : opt.rflag = false)
    (forced : (chooseMode pr opt l).rflag = true) :
    (chooseMode pr opt l).dflag = false ∧ ∃ sp ∈ l.symtab.symtab, sp.seg = .undf := by
  simp only [chooseMode, plain, Bool.not_false, Bool.true_and, Bool.false_or] at forced ⊢
  refine ⟨by rw [forced]; simp, ?_⟩
  simp only [anyUndefined, any_eq_true, decide_eq_true_eq] at forced
  obtain ⟨sp, -, undf, -⟩ := forced
  obtain ⟨e, at_sp, seg⟩ := Option.map_eq_some_iff.mp undf
  exact ⟨e, mem_of_getElem? at_sp, seg⟩

/-- The origins of the segments, and that without `-r` every symbol got a definition. -/
theorem assignAddresses_ok {y : Layout}
    (ok : assignAddresses pr opt l = .ok y) : LaidOut opt l y := by
  obtain ⟨⟨s, cmsize⟩, commons, ok⟩ := bind_eq_ok.mp ok
  unfold stackSegments at ok
  dsimp only at ok
  split at ok
  next => cases ok
  next =>
    obtain ⟨tab, places, ok⟩ := bind_eq_ok.mp ok
    obtain ⟨bsize, adds, ok⟩ := bind_eq_ok.mp ok
    cases ok
    constructor
    · obtain ⟨names, exts⟩ := mapM_placeSymbol_keeps places
      exact (defineCommons_keeps commons).trans ⟨rfl, rfl, names, exts⟩
    · rfl
    · rfl
    · dsimp only
      split
      next =>
        have := le_ALIGN (opt.basaddr + l.csize + l.tsize) (y := 1024) (by decide)
        omega
      next => rfl
    · exact ⟨cmsize, rfl, (addSize_ok adds).1⟩
    · intro plain e mem
      obtain ⟨i, at_i⟩ := mem_iff_getElem?.mp mem
      obtain ⟨sp, -, placed⟩ := getElem?_of_mapM' places at_i
      obtain ⟨-, -, not_comm, not_undf⟩ := placeSymbol_ok placed
      exact ⟨not_undf plain, not_comm⟩
    · intro plain
      obtain forced | free := Bool.eq_false_or_eq_true (chooseMode pr opt l).rflag
      swap
      · exact free
      exfalso
      obtain ⟨dflag, e, mem, undf⟩ := exists_undf_of_forced plain forced
      simp only [defineCommons, dflag, forced, Bool.not_true, Bool.or_self, Bool.false_eq_true,
        if_false] at commons
      cases commons
      obtain ⟨i, at_i⟩ := mem_iff_getElem?.mp mem
      obtain ⟨sp', -, placed⟩ := getElem?_of_mapM places at_i
      -- such a link reports the undefined symbol
      simp [plain, placeSymbol, undf] at placed

/-! ### The symbols of pass 1 are external -/

theorem scanSymbol_external (external : st.symtab.External)
    (ok : scanSymbol pr newindex b st cursym = .ok st') :
    st'.symtab.External := by
  obtain ⟨-, same⟩ | ⟨outer, sym, hp, sp, new, s, relocates, -, -, enters, then_⟩ :=
    scanSymbol_cases ok
  · rwa [same]
  have entered : s.External := by
    obtain ⟨-, rfl, -⟩ | ⟨-, -, -, -, rfl⟩ := Symtab.enterSymbol_cases enters
    · exact external
    · intro e mem
      obtain old | new := mem_append.mp mem
      · exact external e old
      · obtain rfl := mem_singleton.mp new
        rwa [(relocateCursym_ok relocates).2]
  obtain ⟨rfl, -⟩ | ⟨e, -, -, merged⟩ := then_
  · exact entered
  · rw [merged]
    exact (Symtab.Keeps.merge s sp _ _).external entered

theorem scanSymbols_external (external : st.symtab.External)
    (ok : scanSymbols pr newindex b st syms = .ok st') :
    st'.symtab.External := by
  induction syms generalizing st with
  | nil =>
    cases ok
    exact external
  | cons cursym rest ih =>
    obtain ⟨st₁, one, ok⟩ := bind_eq_ok.mp ok
    exact ih (scanSymbol_external external one) ok

theorem pass1_external (external : l.symtab.External) (ok : pass1 pr l objs = .ok l') :
    l'.symtab.External := by
  induction objs generalizing l with
  | nil =>
    cases ok
    exact external
  | cons o objs ih =>
    obtain ⟨m, newindex, scanned, rest⟩ := pass1_cons ok
    obtain ⟨st, symbols, same, -⟩ := scanned.symbols
    refine ih ?_ rest
    rw [same]
    exact scanSymbols_external external symbols

/-! ### A successful lookup -/

/-- Where names are bound, the search of the final table for an external name of the files
ends at the entry of that name. -/
theorem lookupName_of_bound {n : Name} {sp : Nat} (bound : Bound pr objs)
    (mem : n ∈ objs.flatMap Obj.extNames) (sound : s.Sound pr)
    (table : s.table = nameTable pr objs) (found : lookupName pr s n = some sp) :
    ∃ e, s.symtab[sp]? = some e ∧ e.name = n := by
  obtain ⟨hp, at_hp, holds⟩ := Option.bind_eq_some_iff.mp found
  have exact : s.table.slot hp = some sp → s.table.names[sp]? = some n := by
    refine (sound.laid.exact_iff hits_refl at_hp).mp ?_ sp
    rw [sound.laid.exact_iff_path hits_refl at_hp]
    intro k n' path name
    rw [table] at path name
    exact Bool.eq_false_iff.mpr fun hit => bound n mem k n' path name (hits_iff.mp hit)
  simpa [Symtab.table] using exact holds

theorem enterName_names (pr : Profile) (t : Probe.Table Name) (n : Name) :
    (enterName pr t n).names ⊆ t.names ++ [n] := by
  unfold enterName
  split
  next => exact subset_append_left _ _
  next hp _ =>
    split
    next => exact fun _ mem => mem
    next => exact subset_append_left _ _

theorem foldl_enterName_names (pr : Profile) (t : Probe.Table Name) (names : List Name) :
    (names.foldl (enterName pr) t).names ⊆ t.names ++ names := by
  induction names generalizing t with
  | nil => simp
  | cons n names ih =>
    intro a mem
    have := ih (enterName pr t n) mem
    rw [append_cons]
    obtain old | later := mem_append.mp this
    · exact mem_append_left _ (enterName_names pr t n old)
    · exact mem_append_right _ later

/-- Names are bound when none of them is a proper prefix of another. -/
theorem bound_of_prefix_free
    (free : ∀ n ∈ objs.flatMap Obj.extNames, ∀ n' ∈ objs.flatMap Obj.extNames,
      n <+: n' → n = n') : Bound pr objs := by
  rintro n mem k n' ⟨d, -, holds, other⟩ name ext
  have stored : n' ∈ objs.flatMap Obj.extNames := by
    simpa [Probe.Table.empty] using
      foldl_enterName_names pr .empty _ (mem_of_getElem? name)
  obtain ⟨i, at_i, differs⟩ := other d (Nat.le_refl d)
  cases holds.symm.trans at_i
  rw [free n mem n' stored ext] at differs
  exact differs name

end V7Besm.Ld

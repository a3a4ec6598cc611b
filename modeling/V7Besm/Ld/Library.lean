import V7Besm.Ld.Bind

/-!
Library members that are skipped.

`scan_object` scans a member in place and then decides. The names it entered go last and
are ripped out again, so of them nothing stays. An older entry is changed by a definition,
which makes the member needed, or by a common symbol, which does not: an undefined entry
becomes common, a common one may grow. Such a change is not taken back, and it is never
reversed by a later one, so a skipped member leaves no trace exactly if none of its common
symbols does this (`noTrace_iff_harmless`).
-/

namespace V7Besm.Ld

open Fallible Function List

/-! ### The entries in front of the member's -/

/-- The table without the entries from `savindex` on. -/
def Symtab.upTo (s : Symtab) (savindex : Nat) : Symtab := s.rip (s.symtab.length - savindex)

/-- An entry the member's common symbols can make of `e`. -/
def Nlist.Swells (e e' : Nlist) : Prop :=
  e' = e ∨ (e.seg = .undf ∧ e'.seg = .comm) ∨ (e.seg = .comm ∧ e'.seg = .comm ∧ e.value < e'.value)

/-- Each entry of `s'` is one the entry of `s` can have swollen to. -/
structure Symtab.Below (s s' : Symtab) : Prop where
  hshtab : s'.hshtab = s.hshtab
  symhash : s'.symhash = s.symhash
  length : s'.symtab.length = s.symtab.length
  entry : ∀ (k : Nat) e, s.symtab[k]? = some e → ∃ e', s'.symtab[k]? = some e' ∧ e.Swells e'

/-- The entry the search for a name ends at. -/
def sought (pr : Profile) (t : Probe.Table Name) (n : Name) : Option Nat :=
  (t.find (pr.NSYM + 2) (home pr) hits n).bind t.slot

/-- The symbol is no common symbol for which the search in `t` ends at one of the entries
`old` that is undefined, or common and smaller. -/
def Spares (pr : Profile) (old : List Nlist) (t : Probe.Table Name) (c : Nlist) : Prop :=
  c.ext = true → c.seg = .comm → ∀ k e, sought pr t c.name = some k → old[k]? = some e →
    e.seg ≠ .undf ∧ (e.seg = .comm → c.value ≤ e.value)

/-- None of the symbols changes one of the entries `old`, with the names in the order they
come up. -/
def Harmless (pr : Profile) (old : List Nlist) : Probe.Table Name → List Nlist → Prop
  | _, [] => True
  | t, c :: rest =>
    Spares pr old t c ∧ Harmless pr old (if c.ext then enterName pr t c.name else t) rest

theorem Nlist.Swells.trans {e₁ e₂ e₃ : Nlist} (first : e₁.Swells e₂) (second : e₂.Swells e₃) :
    e₁.Swells e₃ := by
  obtain rfl | ⟨undf, comm⟩ | ⟨comm, comm', less⟩ := first
  · exact second
  · obtain rfl | ⟨undf', -⟩ | ⟨-, comm', -⟩ := second
    · exact .inr (.inl ⟨undf, comm⟩)
    · rw [comm] at undf'
      cases undf'
    · exact .inr (.inl ⟨undf, comm'⟩)
  · obtain rfl | ⟨undf', -⟩ | ⟨-, comm'', less'⟩ := second
    · exact .inr (.inr ⟨comm, comm', less⟩)
    · rw [comm'] at undf'
      cases undf'
    · exact .inr (.inr ⟨comm, comm'', by omega⟩)

theorem Nlist.Swells.antisymm {e e' : Nlist} (there : e.Swells e') (back : e'.Swells e) :
    e' = e := by
  obtain same | ⟨undf, comm⟩ | ⟨comm, comm', less⟩ := there
  · exact same
  · obtain same | ⟨undf', -⟩ | ⟨-, comm', -⟩ := back
    · exact same.symm
    · rw [comm] at undf'
      cases undf'
    · rw [undf] at comm'
      cases comm'
  · obtain same | ⟨undf', -⟩ | ⟨-, -, less'⟩ := back
    · exact same.symm
    · rw [comm'] at undf'
      cases undf'
    · omega

namespace Symtab

variable {pr : Profile} {s s' s'' : Symtab} {n : Nat}

theorem Below.refl (s : Symtab) : s.Below s := ⟨rfl, rfl, rfl, fun _ e at_k => ⟨e, at_k, .inl rfl⟩⟩

theorem Below.trans (first : s.Below s') (second : s'.Below s'') : s.Below s'' where
  hshtab := second.hshtab.trans first.hshtab
  symhash := second.symhash.trans first.symhash
  length := second.length.trans first.length
  entry k e at_k := by
    obtain ⟨e', at_k', swells⟩ := first.entry k e at_k
    obtain ⟨e'', at_k'', swells'⟩ := second.entry k e' at_k'
    exact ⟨e'', at_k'', swells.trans swells'⟩

theorem Below.antisymm (there : s.Below s') (back : s'.Below s) : s' = s := by
  have entries : s'.symtab = s.symtab := by
    apply ext_getElem?
    intro k
    cases at_k : s.symtab[k]? with
    | none =>
      have beyond := List.getElem?_eq_none_iff.mp at_k
      rw [← there.length] at beyond
      exact List.getElem?_eq_none beyond
    | some e =>
      obtain ⟨e', at_k', swells⟩ := there.entry k e at_k
      obtain ⟨e'', at_k'', swells'⟩ := back.entry k e' at_k'
      cases at_k.symm.trans at_k''
      rw [at_k', swells.antisymm swells']
  cases s
  cases s'
  simp only [Symtab.mk.injEq]
  exact ⟨there.hshtab, entries, there.symhash⟩

/-! ### Ripping out and changing -/

theorem ripLast_merge (s : Symtab) (sp : Nat) (seg : Seg) (value : Int) :
    (s.merge sp seg value).ripLast = s.ripLast.merge sp seg value := by
  have shorter (f : Nlist → Nlist) :
      (s.symtab.modify sp f).dropLast = s.symtab.dropLast.modify sp f := by
    apply ext_getElem?
    intro i
    simp only [List.getElem?_dropLast, List.getElem?_modify, length_modify]
    split <;> rfl
  unfold ripLast merge
  dsimp only
  split
  next => rfl
  next => simp only [shorter]

theorem rip_merge (s : Symtab) (sp : Nat) (seg : Seg) (value : Int) (count : Nat) :
    (s.merge sp seg value).rip count = (s.rip count).merge sp seg value := by
  induction count generalizing s with
  | zero => rfl
  | succ count ih => rw [rip, ripLast_merge, ih, rip]

/-- Ripping out the entry just made gives the table back. -/
theorem ripLast_enter {cursym : Nlist} {hp sp : Nat}
    (enters : enterSymbol pr s cursym hp = .ok (s', sp, true)) : s'.ripLast = s := by
  obtain ⟨-, -, old⟩ | ⟨free, -, -, -, rfl⟩ := enterSymbol_cases enters
  · cases old
  · have slots : update (update s.hshtab hp (some s.symtab.length)) hp none =
        s.hshtab := by
      rw [update_idem, update_eq_self_iff, free]
    simp [ripLast, slots]

theorem upTo_enter {cursym : Nlist} {hp sp : Nat} (le : n ≤ s.symtab.length)
    (enters : enterSymbol pr s cursym hp = .ok (s', sp, true)) : s'.upTo n = s.upTo n := by
  have longer : s'.symtab.length = s.symtab.length + 1 := by
    obtain ⟨-, -, old⟩ | ⟨-, -, -, -, rfl⟩ := enterSymbol_cases enters
    · cases old
    · simp
  rw [upTo, longer, Nat.succ_sub le, rip, ripLast_enter enters, upTo]

theorem rip_symtab (count : Nat) (sizes : s.symhash.length = s.symtab.length) :
    (s.rip count).symtab = s.symtab.take (s.symtab.length - count) := by
  induction count generalizing s with
  | zero => simp [rip]
  | succ count ih =>
    have shorter : s.ripLast.symtab = s.symtab.dropLast ∧
        s.ripLast.symhash = s.symhash.dropLast := by
      unfold ripLast
      split
      next none =>
        have no : s.symhash = [] := List.getLast?_eq_none_iff.mp none
        rw [no] at sizes
        have : s.symtab = [] := length_eq_zero_iff.mp sizes.symm
        simp [no, this]
      next => exact ⟨rfl, rfl⟩
    rw [rip, ih (by rw [shorter.1, shorter.2]; simp [sizes]), shorter.1,
      dropLast_eq_take, take_take, length_take]
    congr 1
    omega

theorem getElem?_upTo (sound : s.Sound pr) (le : n ≤ s.symtab.length) (k : Nat) :
    (s.upTo n).symtab[k]? = if k < n then s.symtab[k]? else none := by
  have sizes : s.symhash.length = s.symtab.length := by
    simpa [table] using sound.laid.size
  rw [upTo, rip_symtab _ sizes, show s.symtab.length - (s.symtab.length - n) = n by omega,
    List.getElem?_take]

theorem upTo_length (s : Symtab) : s.upTo s.symtab.length = s := by
  rw [upTo, Nat.sub_self, rip]

theorem below_merge {sp : Nat} {seg : Seg} {value : Int}
    (swells : ∀ e, s.symtab[sp]? = some e → e.Swells { e with seg := seg, value := value }) :
    s.Below (s.merge sp seg value) where
  hshtab := rfl
  symhash := rfl
  length := length_merge s sp seg value
  entry k e at_k := by
    simp only [merge, List.getElem?_modify, at_k]
    obtain rfl | other := eq_or_ne sp k
    · exact ⟨_, by simp, swells e at_k⟩
    · exact ⟨e, by simp [other], .inl rfl⟩

theorem merge_eq_self_iff {sp : Nat} {seg : Seg} {value : Int} :
    s.merge sp seg value = s ↔
      ∀ e, s.symtab[sp]? = some e → { e with seg := seg, value := value } = e := by
  constructor
  · intro same e at_sp
    have := congrArg (fun t : Symtab => t.symtab[sp]?) same
    simpa [merge, List.getElem?_modify, at_sp] using this
  intro same
  have entries : s.symtab.modify sp (fun e => { e with seg := seg, value := value }) =
      s.symtab := by
    apply ext_getElem?
    intro k
    rw [List.getElem?_modify]
    obtain rfl | other := eq_or_ne sp k
    · cases at_k : s.symtab[sp]? with
      | none => rfl
      | some e => simp [same e at_k]
    · cases s.symtab[k]? with
      | none => rfl
      | some e => simp [other]
  simp only [merge, entries]

end Symtab

/-! ### One symbol of the member -/

section Step

variable {pr : Profile} {newindex : List Nat} {b : Bias} {st st' : Scan} {cursym sym : Nlist}
  {n : Nat}

theorem relocateCursym_comm {cbasaddr : Int}
    (ok : relocateCursym newindex cbasaddr b cursym = .ok sym) :
    (sym.seg = .comm ↔ cursym.seg = .comm) ∧ (cursym.seg = .comm → sym = cursym) := by
  obtain ⟨-, same | ⟨-, left, right⟩, still⟩ := relocateCursym_cases ok
  · exact ⟨by rw [same], still⟩
  · exact ⟨iff_of_false left right, still⟩

/-- A second sighting that is no definition leaves the entry as it is, unless it is common
and the entry undefined, or common and smaller. -/
theorem mergeSymbol_swells {e sym : Nlist} (defines : (mergeSymbol e sym).2.2 = false) :
    e.Swells { e with seg := (mergeSymbol e sym).1, value := (mergeSymbol e sym).2.1 } ∧
      ({ e with seg := (mergeSymbol e sym).1, value := (mergeSymbol e sym).2.1 } = e ↔
        (sym.seg = .comm → e.seg ≠ .undf ∧ (e.seg = .comm → sym.value ≤ e.value))) := by
  have kept (differs : sym.seg = .comm → e.seg ≠ .undf ∧ e.seg ≠ .comm) :
      e.Swells e ∧ (e = e ↔
        (sym.seg = .comm → e.seg ≠ .undf ∧ (e.seg = .comm → sym.value ≤ e.value))) := by
    refine ⟨.inl rfl, fun _ comm => ⟨(differs comm).1, fun comm' => ?_⟩, fun _ => rfl⟩
    exact absurd comm' (differs comm).2
  unfold mergeSymbol at defines ⊢
  split at defines
  next undf =>
    rw [if_pos undf]
    exact kept fun comm => by rw [undf] at comm; cases comm
  next =>
    rw [if_neg ‹_›]
    split at defines
    next open_ =>
      rw [if_pos open_]
      split at defines
      next comm =>
        -- two common symbols, or a common one after an undefined one
        rw [if_pos comm]
        obtain undf | comm' := open_
        · refine ⟨.inr (.inl ⟨undf, rfl⟩), fun same => ?_, fun spares => absurd undf (spares comm).1⟩
          have := congrArg Nlist.seg same
          rw [undf] at this
          cases this
        split
        next more =>
          refine ⟨.inr (.inr ⟨comm', rfl, more⟩), fun same => ?_, fun spares => ?_⟩
          · have := congrArg Nlist.value same
            dsimp only at this
            omega
          · have := (spares comm).2 comm'
            omega
        next less =>
          rw [← comm']
          refine ⟨.inl rfl, fun _ _ => ⟨by simp [comm'], fun _ => by omega⟩, fun _ => rfl⟩
      next other =>
        rw [if_neg other]
        split at defines
        next => cases defines
        next =>
          rw [if_neg ‹_›]
          exact kept fun comm => absurd comm other
    next closed =>
      rw [if_neg closed]
      exact kept fun _ => by simpa using closed

theorem sought_eq {s : Symtab} {c : Nlist} {hp : Nat}
    (found : lookupSymbol pr s c.name = some hp) : sought pr s.table c.name = s.hshtab hp := by
  unfold lookupSymbol at found
  rw [sought, found]
  rfl

/-- A common symbol of the member meets the entry `sp` and is merged into it. -/
theorem upTo_merge_cases {sp : Nat} {e : Nlist} (sound : st.symtab.Sound pr)
    (le : n ≤ st.symtab.symtab.length) (relocates : relocateCursym newindex 0 b cursym = .ok sym)
    (outer : cursym.ext = true) (meets : sought pr st.symtab.table cursym.name = some sp)
    (at_sp : st.symtab.symtab[sp]? = some e) (defines : (mergeSymbol e sym).2.2 = false) :
    let s' := st.symtab.merge sp (mergeSymbol e sym).1 (mergeSymbol e sym).2.1
    (st.symtab.upTo n).Below (s'.upTo n) ∧
      (s'.upTo n = st.symtab.upTo n ↔
        Spares pr (st.symtab.upTo n).symtab st.symtab.table cursym) := by
  obtain ⟨swells, same_iff⟩ := mergeSymbol_swells defines
  obtain ⟨comm_iff, same_sym⟩ := relocateCursym_comm relocates
  have entry : ∀ e', (st.symtab.upTo n).symtab[sp]? = some e' → e' = e := by
    intro e' at_old
    rw [Symtab.getElem?_upTo sound le] at at_old
    split at at_old
    · exact Option.some.inj (at_old.symm.trans at_sp)
    · cases at_old
  intro s'
  simp only [s', Symtab.upTo, Symtab.rip_merge, Symtab.length_merge]
  refine ⟨Symtab.below_merge fun e' at_old => entry e' at_old ▸ swells, ?_⟩
  rw [Symtab.merge_eq_self_iff]
  constructor
  · intro same _ comm k e' found at_old
    cases meets.symm.trans found
    cases entry e' at_old
    rw [← same_sym comm]
    exact same_iff.mp (same e at_old) (comm_iff.mpr comm)
  · intro spares e' at_old
    cases entry e' at_old
    refine same_iff.mpr fun comm => ?_
    have comm' := comm_iff.mp comm
    rw [same_sym comm']
    exact spares outer comm' sp e meets at_old

/-- One symbol of a member that defines nothing: what is in front of the member's entries
swells, and stays as it is if the symbol spares it. -/
theorem scanSymbol_upTo (sound : st.symtab.Sound pr) (le : n ≤ st.symtab.symtab.length)
    (ok : scanSymbol pr newindex b st cursym = .ok st') (nothing : st'.ndef = 0) :
    st.ndef = 0 ∧ (st.symtab.upTo n).Below (st'.symtab.upTo n) ∧
      (st'.symtab.upTo n = st.symtab.upTo n ↔
        Spares pr (st.symtab.upTo n).symtab st.symtab.table cursym) := by
  cases outer : cursym.ext with
  | false =>
    simp only [scanSymbol, outer, Bool.not_false, if_true] at ok
    cases ok
    refine ⟨nothing, .refl _, fun _ ext => ?_, fun _ => rfl⟩
    rw [outer] at ext
    cases ext
  | true =>
    simp only [scanSymbol, outer, Bool.not_true, Bool.false_eq_true, if_false] at ok
    obtain ⟨sym, relocates, ok⟩ := bind_eq_ok.mp ok
    have same := (relocateCursym_ok relocates).1
    split at ok
    next => cases ok
    next hp found =>
      have meets := sought_eq found
      rw [same] at meets
      obtain ⟨⟨s, sp, new⟩, enters, ok⟩ := bind_eq_ok.mp ok
      cases new with
      | true =>
        cases ok
        rw [Symtab.upTo_enter le enters]
        refine ⟨nothing, .refl _, fun _ _ _ k e at_k => ?_, fun _ => rfl⟩
        obtain ⟨-, -, old⟩ | ⟨free, -⟩ := Symtab.enterSymbol_cases enters
        · cases old
        · rw [meets, free] at at_k
          cases at_k
      | false =>
        obtain ⟨held, rfl, -⟩ | ⟨-, -, -, fresh, -⟩ := Symtab.enterSymbol_cases enters
        · simp only [Bool.false_eq_true, if_false] at ok
          split at ok
          next => cases ok
          next e at_sp =>
            cases ok
            cases defines : (mergeSymbol e sym).2.2 with
            | true => simp [defines] at nothing
            | false =>
              refine ⟨by simpa [defines] using nothing, ?_⟩
              exact upTo_merge_cases sound le relocates outer (meets.trans held) at_sp defines
        · cases fresh

theorem enterName_length (t : Probe.Table Name) (name : Name) :
    t.names.length ≤ (enterName pr t name).names.length := by
  unfold enterName
  split
  next => exact Nat.le_refl _
  next =>
    split
    next => simp [Probe.Table.push]
    next => exact Nat.le_refl _

theorem scanSymbol_length (ok : scanSymbol pr newindex b st cursym = .ok st') :
    st.symtab.symtab.length ≤ st'.symtab.symtab.length := by
  have names (s : Symtab) : s.table.names.length = s.symtab.length := by simp [Symtab.table]
  rw [← names, ← names, scanSymbol_table ok]
  split
  next => exact enterName_length _ _
  next => exact Nat.le_refl _

theorem scanSymbols_upTo {syms : List Nlist} (reached : st.symtab.Reached pr)
    (le : n ≤ st.symtab.symtab.length)
    (ok : scanSymbols pr newindex b st syms = .ok st') (nothing : st'.ndef = 0) :
    st.ndef = 0 ∧ (st.symtab.upTo n).Below (st'.symtab.upTo n) ∧
      (st'.symtab.upTo n = st.symtab.upTo n ↔
        Harmless pr (st.symtab.upTo n).symtab st.symtab.table syms) := by
  induction syms generalizing st with
  | nil =>
    cases ok
    exact ⟨nothing, .refl _, by simp [Harmless]⟩
  | cons cursym rest ih =>
    obtain ⟨st₁, one, ok⟩ := bind_eq_ok.mp ok
    have reached₁ := scanSymbol_reached reached one
    obtain ⟨nothing₁, below, after⟩ := ih reached₁ (Nat.le_trans le (scanSymbol_length one)) ok
    obtain ⟨nothing₀, below₀, here⟩ := scanSymbol_upTo reached.sound le one nothing₁
    refine ⟨nothing₀, below₀.trans below, ?_⟩
    rw [Harmless, ← here, ← scanSymbol_table one]
    constructor
    · intro same
      -- what has swollen does not shrink again
      have kept : st₁.symtab.upTo n = st.symtab.upTo n := below₀.antisymm (same ▸ below)
      refine ⟨kept, ?_⟩
      rw [← kept]
      exact after.mp (same.trans kept.symm)
    · rintro ⟨kept, harmless⟩
      rw [← kept] at harmless
      exact (after.mpr harmless).trans kept

end Step

/-! ### A member that is skipped -/

section Member

variable {pr : Profile} {strip : Strip} {l l' : Linker} {o : Obj}

/-- The member `o` is scanned at `l`, which becomes `l'`, and leaves no trace: the linker is
the same, and so is every link in which the files before the member lead to `l`, with the
member and without it. -/
structure NoTrace (pr : Profile) (strip : Strip) (l : Linker) (o : Obj) (l' : Linker) : Prop where
  same : l' = l
  unlinked : ∀ opt final out before after kept, scanItems pr .init before = .ok (l, kept) →
    linkItems pr opt final out (before ++ ⟨strip, true, o⟩ :: after) =
      linkItems pr opt final out (before ++ after)

/-- A skipped member changes nothing but the table of symbols, and of that only what is in
front of its own entries. -/
theorem scanObject_skips (skipped : strip.scanObject pr true l o = .ok (l', false)) :
    ∃ newindex b st st', st.symtab = l.symtab ∧
      scanSymbols pr newindex b st (o.syms.filter strip.takes) = .ok st' ∧ st'.ndef = 0 ∧
        l' = { l with symtab := st'.symtab.upTo l.symtab.symtab.length } := by
  obtain ⟨constab, newindex, st', -, symbols, left⟩ := Strip.scanObject_cases skipped
  cases left with
  | skips _ nothing => exact ⟨newindex, _, _, st', rfl, symbols, nothing, rfl⟩

theorem scanItems_append (l : Linker) (items items' : List Item) :
    scanItems pr l (items ++ items') =
      (do
        let (l, objs) ← scanItems pr l items
        let (l, objs') ← scanItems pr l items'
        .ok (l, objs ++ objs')) := by
  induction items generalizing l with
  | nil =>
    simp only [nil_append, scanItems, bind, Except.bind]
    cases scanItems pr l items' <;> rfl
  | cons item rest ih =>
    simp only [cons_append, scanItems, ih, bind, Except.bind]
    cases item.strip.scanObject pr item.libflg l item.obj with
    | error d => rfl
    | ok r =>
      dsimp only
      cases scanItems pr r.1 rest with
      | error d => rfl
      | ok r' =>
        dsimp only
        cases scanItems pr r'.1 items' with
        | error d => rfl
        | ok r'' =>
          dsimp only
          split <;> rfl

/-- A skipped member leaves no trace if and only if none of its common symbols meets an
undefined entry of the table or a smaller common one. -/
theorem noTrace_iff_harmless (reached : l.symtab.Reached pr)
    (skipped : strip.scanObject pr true l o = .ok (l', false)) :
    NoTrace pr strip l o l' ↔
      Harmless pr l.symtab.symtab l.symtab.table (o.syms.filter strip.takes) := by
  obtain ⟨newindex, b, st, st', start, symbols, nothing, rfl⟩ := scanObject_skips skipped
  rw [← start] at reached
  have stays := (scanSymbols_upTo reached (Nat.le_refl _) symbols nothing).2.2
  rw [Symtab.upTo_length, start] at stays
  rw [← stays]
  constructor
  · intro none
    exact congrArg Linker.symtab none.same
  · intro same
    refine ⟨by rw [same], ?_⟩
    intro opt final out before after kept leads
    simp only [linkItems, scanItems_append, leads, scanItems, skipped, bind, Except.bind, same]
    cases scanItems pr l after <;> rfl

end Member

/-! ### A common symbol for a name that is only referred to -/

/-- The name `x`. -/
def nameX : Name := [120]

/-- An object file that refers to `x`, and a member with only the common symbol `x`, of five
words. -/
def refersX : Obj := ⟨[97], [], [], [], 0, [⟨nameX, true, .undf, 0⟩], false⟩

def commonX : Obj := ⟨[98], [], [], [], 0, [⟨nameX, true, .comm, 5⟩], false⟩

theorem noTrace_iff_harmless_common :
    ∃ l l', scanItems .host .init [plain refersX] = .ok (l, [refersX]) ∧
      ({} : Strip).scanObject .host true l commonX = .ok (l', false) ∧
      (NoTrace .host {} l commonX l' ↔
        Harmless .host l.symtab.symtab l.symtab.table (commonX.syms.filter ({} : Strip).takes)) := by
  have scans : scanObject .host false .init refersX = .ok (_, true) := rfl
  exact ⟨_, _, rfl, rfl, noTrace_iff_harmless (scanObject_reached .empty scans) rfl⟩

/-- The member is skipped and yet turns the undefined `x` into a common symbol: the link
that fails without the member succeeds with it. -/
theorem skipped_common_leaves_trace :
    ∃ l l', scanItems .host .init [plain refersX] = .ok (l, [refersX]) ∧
      ({} : Strip).scanObject .host true l commonX = .ok (l', false) ∧
      l'.symtab.symtab ≠ l.symtab.symtab ∧ ¬ NoTrace .host {} l commonX l' ∧
      linkItems .host {} {} [111] [plain refersX] = .error (.undefinedReference nameX) ∧
      (linkItems .host {} {} [111] [plain refersX, ⟨{}, true, commonX⟩]).toOption.isSome := by
  refine ⟨_, _, rfl, rfl, by decide, ?_, by decide +kernel, by decide +kernel⟩
  intro none
  have := congrArg (fun l : Linker => l.symtab.symtab) none.same
  revert this
  decide

end V7Besm.Ld

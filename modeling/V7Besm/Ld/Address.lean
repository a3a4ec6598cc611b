import V7Besm.Ld.Bind

/-!
The addresses of a linked program.

The words of a file's segment are found in the output behind those of the files in
front of it, and the program is laid out as const, text, data, commons and bss from
the base address on. `finalAddress` reads the address of a word off that layout, and
`target` is what a half-word's record says its field should hold: the final address of
the word or symbol it refers to, plus the addend in the object.

The linker adds in integers but stores fifteen bits. It looks at the sizes of single
segments, at symbols that do not fit in 24 bits and at short fields, and never at the
sum of the segments, so a long field is right exactly when its target lies in the
address space.
-/

namespace V7Besm.Ld

open Fallible List

/-! ### Where things are in the program -/

section Program

variable (opt : Options) (objs : List Obj) (out : Obj)

/-- The first word of the text, behind the const segment. -/
def textBase : Nat := opt.basaddr + out.const.length

def dataBase : Nat := textBase opt out + out.text.length

/-- The first word of the files' own bss, behind the data and the commons. -/
def bssBase : Nat := dataBase opt out + out.data.length + (out.bss - total (·.bss) objs)

/-- The final address of the word that has the address `a` in its file `o`, `before` being
the files in front of it. A const word is where the pool has it. -/
def finalAddress (before : List Obj) (o : Obj) (rel : Rel) (a : Int) : Option Int :=
  match rel with
  | .const =>
    if a < BADDR then none
    else ((newindexOf before o)[(a - BADDR).toNat]?).map fun p => ((opt.basaddr + p : Nat) : Int)
  | .text =>
    some (textBase opt out + total (·.text.length) before + (a - BADDR - o.const.length))
  | .data =>
    some (dataBase opt out + total (·.data.length) before +
      (a - BADDR - o.const.length - o.text.length))
  | .bss =>
    some (bssBase opt objs out + total (·.bss) before +
      (a - BADDR - o.const.length - o.text.length - o.data.length))
  | _ => none

/-- The value of a global symbol in the output's symbol table. -/
def globalValue (n : Name) : Option Int :=
  (out.syms.find? fun e => e.ext && e.name == n).map Nlist.value

/-- The address a half-word `t` of the file `o` is to hold, as its record `r` says. -/
def target (before : List Obj) (o : Obj) (t : Nat) (r : Rec) : Option Int :=
  match r.rel with
  | .ext => (o.syms[r.index]?).bind fun s =>
    (globalValue out s.name).map fun v => v + field t r
  | rel => finalAddress opt objs out before o rel (field t r)

/-- The record names something to add. -/
def Rec.relocates (r : Rec) : Prop :=
  r.rel = .const ∨ r.rel = .text ∨ r.rel = .data ∨ r.rel = .bss ∨ r.rel = .ext

/-- The final address of the word an external symbol is defined as; an absolute one is its
value. -/
def definedAddress (before : List Obj) (o : Obj) (s : Nlist) : Option Int :=
  match s.seg with
  | .const => finalAddress opt objs out before o .const s.value
  | .text => finalAddress opt objs out before o .text s.value
  | .data => finalAddress opt objs out before o .data s.value
  | .bss => finalAddress opt objs out before o .bss s.value
  | _ => some s.value

end Program

/-- Of the cell `c` that was written to `cells` at `pos`, both half-words are as `P` says. -/
def CellAt (P : Nat → Rec → Nat → Prop) (cells : List Cell) (pos : Nat) (c : Cell) : Prop :=
  ∃ c', cells[pos]? = some c' ∧ P c.hi c.rhi c'.hi ∧ P c.lo c.rlo c'.lo

/-- `P` holds of every half-word of every file (its files in front, the file, the half-word,
the record) and the half-word the output has for it. A const word that is merged away has
no place of its own. -/
def Everywhere (objs : List Obj) (out : Obj)
    (P : List Obj → Obj → Nat → Rec → Nat → Prop) : Prop :=
  ∀ before o after, objs = before ++ o :: after →
    (∀ (w : Nat) c, o.text[w]? = some c →
      CellAt (P before o) out.text (total (·.text.length) before + w) c) ∧
    (∀ (w : Nat) c, o.data[w]? = some c →
      CellAt (P before o) out.data (total (·.data.length) before + w) c) ∧
    ∀ (w : Nat) c, o.const[w]? = some c → mergeable c = false →
      ∃ p, (newindexOf before o)[w]? = some p ∧ CellAt (P before o) out.const p c

variable {cells : List Cell} {pos : Nat} {c : Cell}

theorem CellAt.and {P Q : Nat → Rec → Nat → Prop} (first : CellAt P cells pos c)
    (second : CellAt Q cells pos c) :
    CellAt (fun t r t' => P t r t' ∧ Q t r t') cells pos c := by
  obtain ⟨c', at_pos, hi, lo⟩ := first
  obtain ⟨d, at_pos', hi', lo'⟩ := second
  cases at_pos.symm.trans at_pos'
  exact ⟨c', at_pos, ⟨hi, hi'⟩, lo, lo'⟩

theorem CellAt.mono {P Q : Nat → Rec → Nat → Prop} (imp : ∀ t r t', P t r t' → Q t r t')
    (holds : CellAt P cells pos c) :
    CellAt Q cells pos c := by
  obtain ⟨c', at_pos, hi, lo⟩ := holds
  exact ⟨c', at_pos, imp _ _ _ hi, imp _ _ _ lo⟩

theorem Everywhere.combine {objs : List Obj} {out : Obj}
    {P Q R : List Obj → Obj → Nat → Rec → Nat → Prop} (first : Everywhere objs out P)
    (second : Everywhere objs out Q)
    (imp : ∀ before o t r t', P before o t r t' → Q before o t r t' → R before o t r t') :
    Everywhere objs out R := by
  intro before o after split
  obtain ⟨text, data, const⟩ := first before o after split
  obtain ⟨text', data', const'⟩ := second before o after split
  have both : ∀ t r t', P before o t r t' ∧ Q before o t r t' → R before o t r t' :=
    fun t r t' h => imp before o t r t' h.1 h.2
  refine ⟨?_, ?_, ?_⟩
  · intro w c at_w
    exact ((text w c at_w).and (text' w c at_w)).mono both
  · intro w c at_w
    exact ((data w c at_w).and (data' w c at_w)).mono both
  · intro w c at_w unmerged
    obtain ⟨p, at_p, cell⟩ := const w c at_w unmerged
    obtain ⟨p', at_p', cell'⟩ := const' w c at_w unmerged
    cases at_p.symm.trans at_p'
    exact ⟨p, at_p, (cell.and cell').mono both⟩

/-- Every relocated half-word holds its target. -/
def Exact (opt : Options) (objs : List Obj) (out : Obj) : Prop :=
  Everywhere objs out fun before o t r t' =>
    r.relocates → ∃ v, target opt objs out before o t r = some v ∧ (field t' r : Int) = v

/-- The target of every long field is an address. -/
def InRange (opt : Options) (objs : List Obj) (out : Obj) : Prop :=
  Everywhere objs out fun before o t r _ =>
    r.relocates → r.short = false →
      ∀ v, target opt objs out before o t r = some v → 0 ≤ v ∧ v < 0o100000

/-- Every external symbol that a file defines has, in the output, the final address of the
word it is defined as. -/
def Defined (opt : Options) (objs : List Obj) (out : Obj) : Prop :=
  ∀ before o after, objs = before ++ o :: after → ∀ s ∈ o.syms, s.ext = true →
    s.seg ≠ .undf → s.seg ≠ .comm →
      ∃ v, definedAddress opt objs out before o s = some v ∧ globalValue out s.name = some v

/-! ### One half-word -/

variable {pr : Profile} {opt : Options} {objs : List Obj} {out : Obj}

variable {r r' : Rec}

/-- The record keeps its width, and without global symbols it is not external. -/
theorem addend_rec {env : Env} {a : Nat} {ad : Int} {name : Option Name}
    (ok : addend env a r = .ok (ad, r', name)) :
    r'.short = r.short ∧ (env.symtab = [] → r'.rel ≠ .ext) := by
  unfold addend at ok
  split at ok
  next rel =>
    split at ok
    next => cases ok
    next =>
      split at ok
      next => cases ok
      next =>
        cases ok
        simp [rel]
  case h_2 rel | h_3 rel | h_4 rel =>
    cases ok
    simp [rel]
  next =>
    obtain ⟨sp, -, ok⟩ := bind_eq_ok.mp ok
    split at ok
    next => cases ok
    next at_sp =>
      have some_left : env.symtab ≠ [] := by
        rintro empty
        simp [empty] at at_sp
      split at ok
      all_goals
        cases ok
        exact ⟨rfl, fun empty => absurd empty some_left⟩
  next other =>
    cases ok
    exact ⟨rfl, fun _ => other⟩

variable {t : Nat}

/-- A short field holds the sum, which was checked to fit; a long one its lowest fifteen
bits. -/
theorem relocateHalfword_ok {env : Env} {t' : Nat} (final : env.rflag = false)
    (ok : relocateHalfword env t r = .ok (t', r')) :
    ∃ ad name, addend env (field t r) r = .ok (ad, r', name) ∧
      (r.short = true → (field t' r : Int) = field t r + ad) ∧
      (r.short = false → (field t' r : Int) = (field t r + ad) % 0o100000) := by
  obtain ⟨⟨ad, r₁, name⟩, adds, ok⟩ := bind_eq_ok.mp ok
  have width := (addend_rec adds).1
  dsimp only at ok
  split at ok
  next short =>
    rw [width] at short
    split at ok
    next => cases ok
    next fits =>
      cases ok
      refine ⟨ad, name, adds, ?_, by simp [short]⟩
      intro _
      simp only [final, Bool.not_false, Bool.true_and, Bool.not_eq_eq_eq_not, Bool.not_true,
        Bool.not_eq_false] at fits
      simp only [field, short, if_true] at fits ⊢
      exact shortAddrGet_shortAddrPut fits
  next long =>
    rw [width] at long
    cases ok
    refine ⟨ad, name, adds, by simp [long], ?_⟩
    intro _
    simp only [field, long]
    exact longGet_longPut

/-! ### The symbols of a file in pass 2 -/

/-- One symbol: what it adds to the map, to the output and, if it is defined here, what it
was compared with. -/
theorem readSymbol_cases {newindex : List Nat} {cbasaddr : Int} {b : Bias} {s : Symtab}
    {st st' : Symbols} {symno : Nat} {cursym : Nlist}
    (ok : readSymbol pr newindex cbasaddr b s st symno cursym = .ok st') :
    ∃ sym, relocateCursym newindex cbasaddr b cursym = .ok sym ∧
      ((cursym.ext = false ∧ st'.local = st.local ∧ st'.written = st.written ++ [sym]) ∨
        (cursym.ext = true ∧ st'.written = st.written ∧
          ∃ sp, lookupName pr s cursym.name = some sp ∧
            ((sym.seg = .undf ∨ sym.seg = .comm) ∧ st'.local = st.local ++ [(symno, sp)] ∨
              st'.local = st.local ∧ ∃ e, s.symtab[sp]? = some e ∧ sym.seg = e.seg ∧
                sym.value = e.value))) := by
  obtain ⟨sym, relocates, ok⟩ := bind_eq_ok.mp ok
  obtain ⟨name, ext⟩ := relocateCursym_ok relocates
  refine ⟨sym, relocates, ?_⟩
  split at ok
  next inner =>
    cases ok
    rw [ext] at inner
    exact .inl ⟨by simpa using inner, rfl, rfl⟩
  next outer =>
    rw [ext] at outer
    rw [name] at ok
    split at ok
    next => cases ok
    next sp found =>
      split at ok
      next open_ =>
        split at ok
        next => cases ok
        next =>
          cases ok
          exact .inr ⟨by simpa using outer, rfl, sp, found, .inl ⟨open_, rfl⟩⟩
      next =>
        split at ok
        next => cases ok
        next e at_sp =>
          split at ok
          next => cases ok
          next agree =>
            cases ok
            push Not at agree
            exact .inr ⟨by simpa using outer, rfl, sp, found, .inr ⟨rfl, e, at_sp, agree⟩⟩

/-- What the loop over a file's symbols leaves behind. -/
theorem readSymbols_ok {newindex : List Nat} {cbasaddr : Int} {b : Bias} {s : Symtab}
    {st st' : Symbols} {symno : Nat} {syms : List Nlist}
    (ok : readSymbols pr newindex cbasaddr b s st symno syms = .ok st') :
    (∀ sn sp, (sn, sp) ∈ st'.local → (sn, sp) ∈ st.local ∨
      ∃ i cursym, sn = symno + i ∧ syms[i]? = some cursym ∧ cursym.ext = true ∧
        lookupName pr s cursym.name = some sp) ∧
    (∀ d ∈ st'.written, d ∈ st.written ∨ d.ext = false) ∧
    ∀ cursym ∈ syms, cursym.ext = true → ∃ sym sp,
      relocateCursym newindex cbasaddr b cursym = .ok sym ∧
      lookupName pr s cursym.name = some sp ∧
        (sym.seg ≠ .undf → sym.seg ≠ .comm →
          ∃ e, s.symtab[sp]? = some e ∧ sym.seg = e.seg ∧ sym.value = e.value) := by
  induction syms generalizing st symno with
  | nil =>
    cases ok
    exact ⟨fun _ _ mem => .inl mem, fun _ mem => .inl mem, by simp⟩
  | cons cursym rest ih =>
    obtain ⟨st₁, one, ok⟩ := bind_eq_ok.mp ok
    obtain ⟨locals, written, others⟩ := ih ok
    obtain ⟨sym, relocates, this⟩ := readSymbol_cases one
    refine ⟨?_, ?_, ?_⟩
    · intro sn sp mem
      obtain old | ⟨i, d, sn_eq, at_i, ext, found⟩ := locals sn sp mem
      · obtain ⟨-, same, -⟩ | ⟨ext, -, sp₁, found, ⟨-, more⟩ | ⟨same, -⟩⟩ := this
        · rw [same] at old
          exact .inl old
        · rw [more] at old
          obtain old | new := mem_append.mp old
          · exact .inl old
          · cases mem_singleton.mp new
            exact .inr ⟨0, cursym, rfl, rfl, ext, found⟩
        · rw [same] at old
          exact .inl old
      · exact .inr ⟨i + 1, d, by omega, at_i, ext, found⟩
    · intro d mem
      obtain old | inner := written d mem
      · obtain ⟨inner, -, more⟩ | ⟨-, same, -⟩ := this
        · rw [more] at old
          obtain old | new := mem_append.mp old
          · exact .inl old
          · obtain rfl := mem_singleton.mp new
            rw [(relocateCursym_ok relocates).2]
            exact .inr inner
        · rw [same] at old
          exact .inl old
      · exact .inr inner
    · intro d mem ext
      obtain rfl | later := mem_cons.mp mem
      · obtain ⟨inner, -⟩ | ⟨-, -, sp, found, this⟩ := this
        · rw [inner] at ext
          cases ext
        · refine ⟨sym, sp, relocates, found, ?_⟩
          intro not_undf not_comm
          obtain ⟨undf | comm, -⟩ | ⟨-, agrees⟩ := this
          · exact absurd undf not_undf
          · exact absurd comm not_comm
          · exact agrees
      · exact others d later ext

/-! ### A successful link -/

/-- The passes of a link that succeeded, and the file they made. -/
structure LinkDone (pr : Profile) (opt : Options) (objs : List Obj) (out : Obj) (l : Linker)
    (y : Layout) (parts : Parts) : Prop where
  first : pass1 pr .init objs = .ok l
  layout : LaidOut opt l y
  linked : Linked pr l y .init ⟨0, y.torigin, y.dorigin, y.borigin⟩ objs parts
  const : out.const = parts.const
  text : out.text = parts.text ++
    List.replicate (if y.nflag then y.dorigin - (y.torigin + l.tsize) else 0) zeroCell
  data : out.data = parts.data
  bss : out.bss = y.bsize
  syms : out.syms = parts.syms ++ y.symtab.symtab

theorem link_ok {name : Name} (ok : link pr opt name objs = .ok out) :
    ∃ l y parts, LinkDone pr opt objs out l y parts := by
  obtain ⟨l, first, ok⟩ := bind_eq_ok.mp ok
  obtain ⟨y, assigns, ok⟩ := bind_eq_ok.mp ok
  obtain ⟨parts, second, ok⟩ := bind_eq_ok.mp ok
  cases ok
  refine ⟨l, y, parts, ?_⟩
  constructor
  · exact first
  · exact assignAddresses_ok assigns
  · exact linked_of_passes first rfl rfl second
  all_goals rfl

namespace LinkDone

variable {l : Linker} {y : Layout} {parts : Parts}

section

variable (done : LinkDone pr opt objs out l y parts)

include done

/-- The origins of the layout are where the output has its segments. -/
theorem bases :
    y.torigin = textBase opt out ∧ y.dorigin = dataBase opt out ∧
      y.borigin = bssBase opt objs out := by
  obtain ⟨-, -, csize, tsize, dsize, bsize⟩ := pass1_sizes done.first
  obtain ⟨consts, texts, datas⟩ := done.linked.lengths init_constab
  have pool : l.constab = poolOf objs := by simpa using pass1_constab init_constab done.first
  have const_len : out.const.length = l.csize := by
    rw [done.const]
    simp only [Linker.init, length_nil, nil_append, poolOf, foldl_nil] at csize consts
    rw [pool] at csize
    simp only [poolOf] at csize
    omega
  have text_len : y.torigin + out.text.length = y.dorigin := by
    have layout := done.layout.dorigin
    have all : l.tsize = total (·.text.length) objs := by simpa [Linker.init] using tsize
    rw [done.text, length_append, length_replicate, texts]
    omega
  have torigin : y.torigin = textBase opt out := by
    rw [done.layout.torigin, textBase, const_len]
  have dorigin : y.dorigin = dataBase opt out := by
    rw [dataBase, ← torigin, text_len]
  refine ⟨torigin, dorigin, ?_⟩
  obtain ⟨cmsize, borigin, bss⟩ := done.layout.commons
  have own : l.bsize = total (·.bss) objs := by simpa [Linker.init] using bsize
  have data_len : out.data.length = l.dsize := by
    rw [done.data, datas, dsize]
    simp [Linker.init]
  rw [bssBase, ← dorigin, done.bss, borigin, bss, own, data_len]
  omega

theorem sound : y.symtab.Sound pr := by
  have reached := pass1_reached .empty done.first
  have keeps := done.layout.keeps
  constructor
  · have same := congrArg List.length keeps.names
    simp only [length_map] at same
    rw [same]
    exact reached.sound.fits
  · rw [keeps.table]
    exact reached.sound.laid

theorem table : y.symtab.table = nameTable pr objs := by
  rw [done.layout.keeps.table, pass1_table done.first]
  rfl

theorem external : y.symtab.External :=
  done.layout.keeps.external (pass1_external (by intro e mem; cases mem) done.first)

end

theorem written_local {fin m : Linker} {org : Origins}
    (linked : Linked pr fin y m org objs parts) : ∀ e ∈ parts.syms, e.ext = false := by
  induction linked with
  | nil => simp
  | cons scanned grows base relocated consts rest ih =>
    intro e mem
    obtain here | later := mem_append.mp mem
    · obtain ⟨st, reads, -, syms⟩ := relocated.symbols
      rw [syms] at here
      obtain rfl | here := mem_cons.mp here
      · rfl
      · obtain ⟨d, written, rfl⟩ := mem_map.mp here
        obtain none_ | inner := (readSymbols_ok reads).2.1 d written
        · cases none_
        · exact inner
    · exact ih e later

/-- The output's value of a name is that of the entry of the table. -/
theorem globalValue_eq (done : LinkDone pr opt objs out l y parts) {sp : Nat} {e : Nlist}
    (at_sp : y.symtab.symtab[sp]? = some e) : globalValue out e.name = some e.value := by
  have mem : e ∈ y.symtab.symtab := mem_of_getElem? at_sp
  have skip : parts.syms.find? (fun d => d.ext && d.name == e.name) = none := by
    rw [List.find?_eq_none]
    intro d here
    simp [written_local done.linked d here]
  have found : y.symtab.symtab.find? (fun d => d.ext && d.name == e.name) = some e := by
    have any : (y.symtab.symtab.find? (fun d => d.ext && d.name == e.name)).isSome := by
      rw [List.find?_isSome]
      exact ⟨e, mem, by simp [done.external e mem]⟩
    obtain ⟨d, is_d⟩ := Option.isSome_iff_exists.mp any
    have same : d.name = e.name := by
      have passes := List.find?_some is_d
      simpa [done.external d (mem_of_find?_eq_some is_d)] using passes
    obtain ⟨i, at_i⟩ := mem_iff_getElem?.mp (mem_of_find?_eq_some is_d)
    -- a name has one entry
    have index : i = sp := by
      refine done.sound.laid.index_unique hits_refl (n := e.name) ?_ ?_
      · simp [Symtab.table, at_i, same]
      · simp [Symtab.table, at_sp]
    rw [index, at_sp] at at_i
    rw [is_d, Option.some.inj at_i]
  rw [globalValue, done.syms, List.find?_append, skip, Option.none_or, found]
  rfl

section File

variable {before after : List Obj} {o : Obj} {m m' : Linker} {org : Origins} {env : Env}
  {one : Parts}

/-- A cell of the file, written where the output has it. -/
theorem cellAt_of_relocateCell {P : Nat → Rec → Nat → Prop} {c' : Cell}
    (written : cells[pos]? = some c') (ok : relocateCell env c = .ok c')
    (each : ∀ t r t' r', relocateHalfword env t r = .ok (t', r') → P t r t') :
    CellAt P cells pos c := by
  obtain ⟨⟨hi, rhi⟩, first, ok⟩ := bind_eq_ok.mp ok
  obtain ⟨⟨lo, rlo⟩, second, ok⟩ := bind_eq_ok.mp ok
  cases ok
  exact ⟨_, written, each _ _ _ _ first, each _ _ _ _ second⟩

variable (done : LinkDone pr opt objs out l y parts)
  (file : FileLinked pr l y ⟨0, y.torigin, y.dorigin, y.borigin⟩ [] before o parts m m' org env one)

include done file

/-- The biases of a file are the difference between the final address of a word and its
address in the file. -/
theorem bias_eq :
    env.bias.ctrel = textBase opt out + total (·.text.length) before - BADDR - o.const.length ∧
    env.bias.cdrel = dataBase opt out + total (·.data.length) before - BADDR - o.const.length -
      o.text.length ∧
    env.bias.cbrel = bssBase opt objs out + total (·.bss) before - BADDR - o.const.length -
      o.text.length - o.data.length := by
  obtain ⟨torigin, dorigin, borigin⟩ := done.bases
  have text := file.torigin
  have data := file.dorigin
  have bss := file.borigin
  dsimp only at text data bss
  rw [file.relocated.bias_eq]
  simp only [Bias.shift, readHeader]
  omega

/-- The entry a file's symbol number stands for has the symbol's name. -/
theorem lookupLocal_ok (bound : Bound pr objs) (split : objs = before ++ o :: after) {sn sp : Nat}
    (ok : lookupLocal env sn = .ok sp) :
    ∃ s e, o.syms[sn]? = some s ∧ y.symtab.symtab[sp]? = some e ∧ e.name = s.name := by
  unfold lookupLocal at ok
  split at ok
  next => cases ok
  next lp found =>
    cases ok
    obtain ⟨st, reads, same, -⟩ := file.relocated.symbols
    have number : lp.1 = sn := by simpa using List.find?_some found
    have mem : (lp.1, lp.2) ∈ st.local := by
      rw [← same]
      exact mem_of_find?_eq_some found
    obtain none_ | ⟨i, s, sn_eq, at_i, ext, finds⟩ := (readSymbols_ok reads).1 _ _ mem
    · cases none_
    have named : s.name ∈ objs.flatMap Obj.extNames := by
      rw [split]
      refine mem_flatMap.mpr ⟨o, by simp, mem_map.mpr ⟨s, ?_, rfl⟩⟩
      exact mem_filter.mpr ⟨mem_of_getElem? at_i, ext⟩
    obtain ⟨e, at_sp, name⟩ := lookupName_of_bound bound named done.sound done.table finds
    refine ⟨s, e, ?_, at_sp, name⟩
    rwa [← number, sn_eq, Nat.zero_add]

/-- What is added to a field makes its target of it. -/
theorem addend_target (plain : opt.rflag = false) (bound : Bound pr objs)
    (split : objs = before ++ o :: after) {ad : Int} {name : Option Name}
    (relocates : r.relocates) (ok : addend env (field t r) r = .ok (ad, r', name)) :
    target opt objs out before o t r = some (field t r + ad) := by
  obtain ⟨ctrel, cdrel, cbrel⟩ := done.bias_eq file
  have index : env.newindex = newindexOf before o := file.relocated.newindex_eq
  have base : env.cbasaddr = opt.basaddr := by
    rw [file.relocated.cbasaddr_eq, done.layout.corigin]
  unfold addend at ok
  unfold target
  obtain const | text | data | bss | ext := relocates
  · simp only [const] at ok ⊢
    split at ok
    next => cases ok
    next inside =>
      split at ok
      next => cases ok
      next p at_p =>
        cases ok
        rw [index] at at_p
        have place : ((field t r : Int) - BADDR).toNat = field t r - BADDR := by omega
        rw [finalAddress, if_neg (by omega), place, at_p, base, Option.map_some]
        congr 1
        omega
  · simp only [text] at ok ⊢
    cases ok
    rw [finalAddress, ctrel]
    congr 1
    omega
  · simp only [data] at ok ⊢
    cases ok
    rw [finalAddress, cdrel]
    congr 1
    omega
  · simp only [bss] at ok ⊢
    cases ok
    rw [finalAddress, cbrel]
    congr 1
    omega
  · simp only [ext] at ok ⊢
    obtain ⟨sp, finds, ok⟩ := bind_eq_ok.mp ok
    obtain ⟨s, e, at_sn, at_sp, same⟩ := done.lookupLocal_ok file bound split finds
    rw [file.relocated.symtab_eq, at_sp] at ok
    dsimp only at ok
    obtain ⟨not_undf, not_comm⟩ := done.layout.resolved plain e (mem_of_getElem? at_sp)
    rw [if_neg (by simp [not_undf, not_comm])] at ok
    cases ok
    rw [at_sn, Option.bind_some, ← same, done.globalValue_eq at_sp, Option.map_some, Int.add_comm]

/-- A const word that is not merged away is relocated and written at its index. -/
theorem const_written {w : Nat} (at_w : o.const[w]? = some c) (unmerged : mergeable c = false) :
    ∃ p c', (newindexOf before o)[w]? = some p ∧ out.const[p]? = some c' ∧
      relocateCell env c = .ok c' := by
  obtain ⟨-, -, words⟩ := pool_ok (loadConstants_ok file.scanned.consts).2
  obtain ⟨p, at_p, -, stays⟩ := words w c at_w
  obtain ⟨le, holds⟩ := stays unmerged
  have own : (m'.constab.drop m.constab.length)[p - m.constab.length]? = some c := by
    rwa [List.getElem?_drop, show m.constab.length + (p - m.constab.length) = p by omega]
  obtain ⟨c', at_c', relocates⟩ := getElem?_of_mapM file.consts own
  refine ⟨p, c', at_p, ?_, relocates⟩
  have written := file.const _ _ at_c'
  rw [done.const]
  simpa [poolOf, show m.constab.length + (p - m.constab.length) = p by omega] using written

end File

/-- A property of the half-words of every file and what the output has for them, from what
relocating them does. -/
theorem everywhere (done : LinkDone pr opt objs out l y parts)
    {P : List Obj → Obj → Nat → Rec → Nat → Prop}
    (each : ∀ before o after m m' org env one, objs = before ++ o :: after →
      FileLinked pr l y ⟨0, y.torigin, y.dorigin, y.borigin⟩ [] before o parts m m' org env one →
        ∀ t r t' r', relocateHalfword env t r = .ok (t', r') → P before o t r t') :
    Everywhere objs out P := by
  intro before o after split
  have linked := done.linked
  rw [split] at linked
  obtain ⟨m, m', org, env, one, file⟩ := linked.file init_constab
  have halves := each before o after m m' org env one split file
  refine ⟨?_, ?_, ?_⟩
  · intro w c at_w
    obtain ⟨c', at_c', relocates⟩ := getElem?_of_mapM file.relocated.text at_w
    refine cellAt_of_relocateCell ?_ relocates halves
    have written := file.text w c' at_c'
    rwa [done.text, List.getElem?_append_left (List.getElem?_eq_some_iff.mp written).1]
  · intro w c at_w
    obtain ⟨c', at_c', relocates⟩ := getElem?_of_mapM file.relocated.data at_w
    refine cellAt_of_relocateCell ?_ relocates halves
    rw [done.data]
    exact file.data w c' at_c'
  · intro w c at_w unmerged
    obtain ⟨p, c', at_p, written, relocates⟩ := done.const_written file at_w unmerged
    exact ⟨p, at_p, cellAt_of_relocateCell written relocates halves⟩

/-- A definition's word is where the output's symbol says. -/
theorem defined (done : LinkDone pr opt objs out l y parts) (bound : Bound pr objs) :
    Defined opt objs out := by
  intro before o after split s mem ext not_undf not_comm
  have linked := done.linked
  rw [split] at linked
  obtain ⟨m, m', org, env, one, file⟩ := linked.file init_constab
  obtain ⟨ctrel, cdrel, cbrel⟩ := done.bias_eq file
  obtain ⟨st, reads, -, -⟩ := file.relocated.symbols
  obtain ⟨sym, sp, relocates, finds, agrees⟩ := (readSymbols_ok reads).2.2 s mem ext
  have named : s.name ∈ objs.flatMap Obj.extNames := by
    rw [split]
    refine mem_flatMap.mpr ⟨o, by simp, mem_map.mpr ⟨s, ?_, rfl⟩⟩
    exact mem_filter.mpr ⟨mem, ext⟩
  obtain ⟨e, at_sp, same⟩ := lookupName_of_bound bound named done.sound done.table finds
  have address : definedAddress opt objs out before o s = some sym.value ∧
      sym.seg ≠ .undf ∧ sym.seg ≠ .comm := by
    unfold relocateCursym at relocates
    unfold definedAddress
    rw [done.layout.corigin] at relocates
    cases seg : s.seg with
    | undf => exact absurd seg not_undf
    | comm => exact absurd seg not_comm
    | const =>
      simp only [seg] at relocates ⊢
      split at relocates
      next => cases relocates
      next inside =>
        split at relocates
        next => cases relocates
        next p at_p =>
          cases relocates
          rw [nil_append] at at_p
          rw [finalAddress, if_neg (by omega), at_p]
          simp [Int.add_comm]
    | text =>
      simp only [seg] at relocates ⊢
      cases relocates
      simp only [finalAddress, ctrel, ne_eq, reduceCtorEq, not_false_eq_true, and_self,
        and_true, Option.some.injEq]
      omega
    | data =>
      simp only [seg] at relocates ⊢
      cases relocates
      simp only [finalAddress, cdrel, ne_eq, reduceCtorEq, not_false_eq_true, and_self,
        and_true, Option.some.injEq]
      omega
    | bss =>
      simp only [seg] at relocates ⊢
      cases relocates
      simp only [finalAddress, cbrel, ne_eq, reduceCtorEq, not_false_eq_true, and_self,
        and_true, Option.some.injEq]
      omega
    | _ =>
      simp only [seg, ext, if_true] at relocates
      cases relocates
      simp
  obtain ⟨e', at_sp', -, value⟩ := agrees address.2.1 address.2.2
  cases at_sp.symm.trans at_sp'
  refine ⟨sym.value, address.1, ?_⟩
  rw [← same, done.globalValue_eq at_sp, value]

end LinkDone

/-- In a link without `-r` that no diagnostic stops, and whose names are bound exactly, the
output's symbols are the final addresses of their definitions, and every relocated
half-word of the const, text and data images holds the final address it refers to plus
its addend if and only if all of these for long fields are addresses. -/
theorem link_exact_iff {name : Name} (ok : link pr opt name objs = .ok out)
    (plain : opt.rflag = false) (bound : Bound pr objs) :
    Defined opt objs out ∧ (Exact opt objs out ↔ InRange opt objs out) := by
  obtain ⟨l, y, parts, done⟩ := link_ok ok
  refine ⟨done.defined bound, ?_⟩
  have written : Everywhere objs out fun before o t r t' => r.relocates →
      ∃ v, target opt objs out before o t r = some v ∧
        (r.short = true → (field t' r : Int) = v) ∧
        (r.short = false → (field t' r : Int) = v % 0o100000) := by
    apply done.everywhere
    intro before o after m m' org env one split file t r t' r' relocated relocates
    have final : env.rflag = false := by
      rw [file.relocated.rflag_eq]
      exact done.layout.final plain
    obtain ⟨ad, name, adds, short, long⟩ := relocateHalfword_ok final relocated
    exact ⟨_, done.addend_target file plain bound split relocates adds, short, long⟩
  constructor
  · intro exact
    refine exact.combine written ?_
    intro before o t r t' is_v holds relocates long v is_target
    obtain ⟨v₁, is_v₁, equal⟩ := is_v relocates
    obtain ⟨v₂, is_v₂, -, mod⟩ := holds relocates
    cases is_target.symm.trans is_v₁
    cases is_target.symm.trans is_v₂
    have := mod long
    omega
  · intro in_range
    refine in_range.combine written ?_
    intro before o t r t' bounds holds relocates
    obtain ⟨v, is_v, short, long⟩ := holds relocates
    refine ⟨v, is_v, ?_⟩
    cases width : r.short with
    | true => exact short width
    | false =>
      obtain ⟨low, high⟩ := bounds relocates width v is_v
      rw [long width]
      omega

/-- A file that defines `close` in its text, and one that calls it. -/
def definesClose : Obj := ⟨[97], [], [⟨0, 0, RABS, RABS⟩], [], 0, [⟨close, true, .text, 8⟩], false⟩

def callsClose : Obj :=
  ⟨[98], [], [⟨0, 0, RABS, { RABS with rel := .ext }⟩], [], 0, [⟨close, true, .undf, 0⟩], false⟩

theorem link_exact_iff_close :
    ∃ out, link .host {} [99] [definesClose, callsClose] = .ok out ∧
      Defined {} [definesClose, callsClose] out ∧
      (Exact {} [definesClose, callsClose] out ↔ InRange {} [definesClose, callsClose] out) :=
  ⟨_, rfl, link_exact_iff
    (show link .host {} [99] [definesClose, callsClose] = .ok _ from rfl) rfl
    (bound_of_prefix_free (by decide))⟩

/-- A file with 20000 words of bss, and one with 12767 of its own whose text refers to the
last of them. -/
def bssOnly : Obj := ⟨[97], [], [], [], 20000, [], false⟩

def bssUser : Obj :=
  ⟨[98], [], [⟨0, 9 + 12766, RABS, { RABS with rel := .bss }⟩], [], 12767, [], false⟩

/-- The output of their link: the reference to the word 32775 holds 7. -/
def bssLinked : Obj where
  file := [99]
  const := []
  text := [⟨0, 7, RABS, { RABS with rel := .bss }⟩]
  data := []
  bss := 32767
  syms := [⟨[97], false, .fn, 8⟩, ⟨[98], false, .fn, 8⟩]
  relflg := true

/-- No segment is too large, the link succeeds, and the address of the last bss word, 32775,
comes out as 7. -/
theorem link_wraps :
    link .host {} [99] [bssOnly, bssUser] = .ok bssLinked ∧
      target {} [bssOnly, bssUser] bssLinked [bssOnly] bssUser (9 + 12766)
        { RABS with rel := .bss } = some 32775 ∧ ¬ Exact {} [bssOnly, bssUser] bssLinked := by
  refine ⟨by rfl, by decide, ?_⟩
  intro exact
  obtain ⟨text, -⟩ := exact [bssOnly] bssUser [] rfl
  obtain ⟨c', at_pos, -, lo⟩ := text 0 _ rfl
  cases at_pos
  obtain ⟨v, is_v, equal⟩ := lo (by simp [Rec.relocates])
  have is_v' : target {} [bssOnly, bssUser] bssLinked [bssOnly] bssUser (9 + 12766)
      { RABS with rel := .bss } = some 32775 := by decide
  cases is_v.symm.trans is_v'
  revert equal
  decide

end V7Besm.Ld

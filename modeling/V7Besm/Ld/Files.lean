import V7Besm.Ld.Strip

/-!
What the two passes know about each file.

The state of pass 1 before a file is the result of pass 1 over the files before it,
and pass 2 reaches the same file with the same pool in front of it and with origins
that have advanced by the same sizes. So for each file there is one linker state `l`,
one pool and one `newindex` that both passes agree on.
-/

namespace V7Besm.Ld

open Fallible List

variable {pr : Profile} {l l' : Linker} {o : Obj} {objs : List Obj}

/-! ### Pooling the constants of a file -/

variable {constab const tab : List Cell} {newindex : List Nat}

/-- The word goes into the pool, or it is there already. -/
theorem pool_cons {c : Cell} {rest : List Cell}
    (ok : pool pr constab (c :: rest) = .ok (tab, newindex)) :
    ∃ idx, newindex = poolIndex constab c :: idx ∧
      (poolIndex constab c = constab.length ∧ pool pr (constab ++ [c]) rest = .ok (tab, idx) ∨
        poolIndex constab c ≠ constab.length ∧ pool pr constab rest = .ok (tab, idx)) := by
  simp only [pool] at ok
  split at ok
  next fresh =>
    split at ok
    next => cases ok
    next =>
      obtain ⟨⟨tab₁, idx⟩, more, done⟩ := bind_eq_ok.mp ok
      cases done
      exact ⟨idx, rfl, .inl ⟨fresh, more⟩⟩
  next old =>
    obtain ⟨⟨tab₁, idx⟩, more, done⟩ := bind_eq_ok.mp ok
    cases done
    exact ⟨idx, rfl, .inr ⟨old, more⟩⟩

/-- Pooling appends to the pool. Every word of the file has an index in it, and a word
that is not merged away stands there itself. -/
theorem pool_ok (ok : pool pr constab const = .ok (tab, newindex)) :
    constab <+: tab ∧ newindex.length = const.length ∧
      ∀ (w : Nat) c, const[w]? = some c → ∃ p, newindex[w]? = some p ∧ p < tab.length ∧
        (mergeable c = false → constab.length ≤ p ∧ tab[p]? = some c) := by
  induction const generalizing constab tab newindex with
  | nil =>
    cases ok
    exact ⟨prefix_refl _, rfl, by simp⟩
  | cons c rest ih =>
    obtain ⟨idx, rfl, ⟨fresh, more⟩ | ⟨old, more⟩⟩ := pool_cons ok
    · obtain ⟨grows, length, words⟩ := ih more
      have here : tab[constab.length]? = some c := by
        obtain ⟨new, rfl⟩ := grows
        simp
      refine ⟨(prefix_append _ _).trans grows, by simp [length], ?_⟩
      intro w d at_w
      cases w with
      | zero =>
        cases at_w
        refine ⟨_, rfl, ?_, fun _ => ?_⟩
        · rw [fresh]
          exact (List.getElem?_eq_some_iff.mp here).1
        · rw [fresh]
          exact ⟨Nat.le_refl _, here⟩
      | succ w =>
        obtain ⟨p, at_p, lt, stays⟩ := words w d at_w
        refine ⟨p, at_p, lt, fun unmerged => ?_⟩
        obtain ⟨le, holds⟩ := stays unmerged
        rw [length_append] at le
        exact ⟨by omega, holds⟩
    · obtain ⟨grows, length, words⟩ := ih more
      refine ⟨grows, by simp [length], ?_⟩
      intro w d at_w
      cases w with
      | zero =>
        cases at_w
        -- the index of an earlier word: the word itself was merged away
        have merged : mergeable c = true := by
          by_contra unmerged
          simp [poolIndex, unmerged] at old
        refine ⟨_, rfl, ?_, by simp [merged]⟩
        have le : poolIndex constab c ≤ constab.length := by
          simp only [poolIndex, merged, if_true]
          exact findIdx_le_length
        have := grows.length_le
        change poolIndex constab c < tab.length
        omega
      | succ w => exact words w d at_w

/-- The pool and the index without the limits of the tables. -/
def pooled : List Cell → List Cell → List Cell × List Nat
  | constab, [] => (constab, [])
  | constab, c :: rest =>
    let p := poolIndex constab c
    let (tab, newindex) := pooled (if p = constab.length then constab ++ [c] else constab) rest
    (tab, p :: newindex)

theorem pool_eq_pooled (ok : pool pr constab const = .ok (tab, newindex)) :
    pooled constab const = (tab, newindex) := by
  induction const generalizing constab tab newindex with
  | nil =>
    cases ok
    rfl
  | cons c rest ih =>
    obtain ⟨idx, rfl, ⟨fresh, more⟩ | ⟨old, more⟩⟩ := pool_cons ok
    · simp only [pooled, if_pos fresh, ih more]
    · simp only [pooled, if_neg old, ih more]

theorem loadConstants_ok (ok : loadConstants pr constab const = .ok (tab, newindex)) :
    const.length ≤ pr.NCINDEX ∧ pool pr constab const = .ok (tab, newindex) := by
  unfold loadConstants at ok
  split at ok
  next => cases ok
  next fits => exact ⟨by omega, ok⟩

/-! ### One file of pass 1 -/

/-- What `scan_object` did with a plain file: the pool, the file's index into it and
the symbols' turn. -/
structure Scanned (pr : Profile) (l : Linker) (o : Obj) (l' : Linker) (newindex : List Nat) :
    Prop where
  consts : loadConstants pr l.constab o.const = .ok (l'.constab, newindex)
  symbols : ∃ st, scanSymbols pr newindex ((readHeader o).shift l.tsize l.dsize l.bsize)
    ⟨l.symtab, 1, o.file.length + 6, 0⟩ o.syms = .ok st ∧ l'.symtab = st.symtab ∧
      l'.nsym = l.nsym + st.nsymbol
  coptsize : l'.coptsize = l.coptsize ++ [l'.constab.length - l.constab.length]
  csize : l'.csize = l.csize + (l'.constab.length - l.constab.length)
  tsize : l'.tsize = l.tsize + o.text.length
  dsize : l'.dsize = l.dsize + o.data.length
  bsize : l'.bsize = l.bsize + o.bss

theorem scanObject_ok {kept : Bool} (ok : scanObject pr false l o = .ok (l', kept)) :
    ∃ newindex, Scanned pr l o l' newindex := by
  obtain ⟨constab, newindex, st, consts, symbols, left⟩ := scanObject_cases ok
  cases left with
  | keeps => exact ⟨newindex, consts, ⟨st, symbols, rfl, rfl⟩, rfl, rfl, rfl, rfl, rfl⟩
  | skips lib => cases lib

theorem Scanned.grows (scanned : Scanned pr l o l' newindex) : l.constab <+: l'.constab :=
  (pool_ok (loadConstants_ok scanned.consts).2).1

/-! ### Pass 1 over a list of files -/

/-- The sum of a size over files. -/
def total (size : Obj → Nat) (objs : List Obj) : Nat := (objs.map size).sum

@[simp]
theorem total_cons (size : Obj → Nat) (o : Obj) (objs : List Obj) :
    total size (o :: objs) = size o + total size objs := rfl

@[simp]
theorem total_nil (size : Obj → Nat) : total size [] = 0 := rfl

theorem pass1_cons (ok : pass1 pr l (o :: objs) = .ok l') :
    ∃ m newindex, Scanned pr l o m newindex ∧ pass1 pr m objs = .ok l' := by
  obtain ⟨⟨m, kept⟩, scans, rest⟩ := bind_eq_ok.mp ok
  obtain ⟨newindex, scanned⟩ := scanObject_ok scans
  exact ⟨m, newindex, scanned, rest⟩

theorem pass1_sizes (ok : pass1 pr l objs = .ok l') :
    l.constab <+: l'.constab ∧ l.coptsize <+: l'.coptsize ∧
      l'.csize + l.constab.length = l.csize + l'.constab.length ∧
      l'.tsize = l.tsize + total (·.text.length) objs ∧
      l'.dsize = l.dsize + total (·.data.length) objs ∧
      l'.bsize = l.bsize + total (·.bss) objs := by
  induction objs generalizing l with
  | nil =>
    cases ok
    simp
  | cons o objs ih =>
    obtain ⟨m, newindex, scanned, rest⟩ := pass1_cons ok
    obtain ⟨consts, copts, csize, tsize, dsize, bsize⟩ := ih rest
    have grows := scanned.grows
    have le := grows.length_le
    have copt : l.coptsize <+: m.coptsize := by
      rw [scanned.coptsize]
      exact prefix_append _ _
    refine ⟨grows.trans consts, copt.trans copts, ?_, ?_, ?_, ?_⟩
    · have := scanned.csize
      omega
    · rw [tsize, scanned.tsize, total_cons]
      omega
    · rw [dsize, scanned.dsize, total_cons]
      omega
    · rw [bsize, scanned.bsize, total_cons]
      omega

/-! ### One file of pass 2 -/

/-- What `relocate_object` worked with on a file, given the origins in front of it. -/
structure Relocated (pr : Profile) (l : Linker) (y : Layout) (org : Origins)
    (o : Obj) (newindex : List Nat) (env : Env) (one : Parts) : Prop where
  newindex_eq : env.newindex = newindex
  cbasaddr_eq : env.cbasaddr = y.corigin
  bias_eq : env.bias = (readHeader o).shift org.torigin org.dorigin org.borigin
  symtab_eq : env.symtab = y.symtab.symtab
  nsym_eq : env.nsym = l.nsym
  rflag_eq : env.rflag = y.rflag
  symbols : ∃ st, readSymbols pr newindex y.corigin env.bias y.symtab ⟨[], []⟩ 0 o.syms = .ok st ∧
    env.local = st.local ∧ one.syms = makeFileSymbol o org.torigin ::
      st.written.map fun s => { s with value := halfword s.value }
  text : relocateSegment env o.text = .ok one.text
  data : relocateSegment env o.data = .ok one.data

variable {y : Layout} {org : Origins}

theorem relocateObject_ok {coptsize : Nat} {one : Parts}
    (consts : loadConstants pr (l.constab.take org.nconst) o.const = .ok (constab, newindex))
    (ok : relocateObject pr l y org coptsize o = .ok one) :
    ∃ env, Relocated pr l y org o newindex env one ∧
      relocateSegment env ((constab.drop org.nconst).take coptsize) = .ok one.const := by
  obtain ⟨⟨tab, idx⟩, loads, ok⟩ := bind_eq_ok.mp ok
  cases consts.symm.trans loads
  obtain ⟨st, symbols, ok⟩ := bind_eq_ok.mp ok
  obtain ⟨const, const_ok, ok⟩ := bind_eq_ok.mp ok
  obtain ⟨text, text_ok, ok⟩ := bind_eq_ok.mp ok
  obtain ⟨data, data_ok, ok⟩ := bind_eq_ok.mp ok
  cases ok
  exact ⟨_, ⟨rfl, rfl, rfl, rfl, rfl, rfl, ⟨st, symbols, rfl, rfl⟩, text_ok, data_ok⟩, const_ok⟩

/-! ### Both passes over a list of files -/

/-- Both passes over the files `objs`: pass 1 went from `l` on, pass 2 from `org` on, and
`parts` is what pass 2 wrote. `fin` is where pass 1 ended. -/
inductive Linked (pr : Profile) (fin : Linker) (y : Layout) :
    Linker → Origins → List Obj → Parts → Prop where
  | nil {l : Linker} {org : Origins} : Linked pr fin y l org [] ⟨[], [], [], []⟩
  | cons {l m : Linker} {org : Origins} {o : Obj} {objs : List Obj} {one more : Parts}
      {newindex : List Nat} {env : Env} :
      Scanned pr l o m newindex →
      m.constab <+: fin.constab →
      org.nconst = l.constab.length →
      Relocated pr fin y org o newindex env one →
      relocateSegment env (m.constab.drop l.constab.length) = .ok one.const →
      Linked pr fin y m (org.past (m.constab.length - l.constab.length) o) objs more →
      Linked pr fin y l org (o :: objs)
        ⟨one.const ++ more.const, one.text ++ more.text, one.data ++ more.data,
          one.syms ++ more.syms⟩

variable {fin : Linker} {parts : Parts}

theorem linked_of_passes {copts : List Nat} (first : pass1 pr l objs = .ok fin)
    (copt : fin.coptsize = l.coptsize ++ copts) (base : org.nconst = l.constab.length)
    (second : pass2 pr fin y org copts objs = .ok parts) : Linked pr fin y l org objs parts := by
  induction objs generalizing l org copts parts with
  | nil =>
    cases second
    exact .nil
  | cons o objs ih =>
    obtain ⟨m, newindex, scanned, rest⟩ := pass1_cons first
    obtain ⟨more_consts, more_copts, -⟩ := pass1_sizes rest
    have grows := scanned.grows
    -- the count pass 1 left for this file is the next one
    obtain ⟨later, rest_copt⟩ := more_copts
    have copts_eq : copts = (m.constab.length - l.constab.length) :: later := by
      rw [scanned.coptsize, append_assoc] at rest_copt
      exact append_cancel_left (copt.symm.trans rest_copt.symm)
    subst copts_eq
    simp only [pass2, headD_cons, tail_cons] at second
    obtain ⟨one, one_ok, second⟩ := bind_eq_ok.mp second
    obtain ⟨more, more_ok, second⟩ := bind_eq_ok.mp second
    cases second
    have pool_prefix : fin.constab.take org.nconst = l.constab := by
      rw [base]
      exact (prefix_iff_eq_take.mp (grows.trans more_consts)).symm
    have consts := scanned.consts
    rw [← pool_prefix] at consts
    obtain ⟨env, relocated, const_ok⟩ := relocateObject_ok consts one_ok
    have own : (m.constab.drop org.nconst).take (m.constab.length - l.constab.length) =
        m.constab.drop l.constab.length := by
      rw [base, take_of_length_le (by simp)]
    rw [own] at const_ok
    refine .cons scanned more_consts base relocated const_ok ?_
    apply ih rest rest_copt.symm _ more_ok
    have := grows.length_le
    simp only [Origins.past, base]
    omega

/-! ### The place of a file in the output -/

/-- The pool after some files. -/
def poolOf (objs : List Obj) : List Cell :=
  objs.foldl (fun constab o => (pooled constab o.const).1) []

/-- Where the const words of the file `o` behind the files `before` are in the pool. -/
def newindexOf (before : List Obj) (o : Obj) : List Nat := (pooled (poolOf before) o.const).2

theorem poolOf_append_singleton (objs : List Obj) (o : Obj) :
    poolOf (objs ++ [o]) = (pooled (poolOf objs) o.const).1 := by
  simp [poolOf]

theorem pooled_mono (constab const : List Cell) : constab <+: (pooled constab const).1 := by
  induction const generalizing constab with
  | nil => exact prefix_refl _
  | cons c rest ih =>
    simp only [pooled]
    split
    next => exact (prefix_append _ _).trans (ih _)
    next => exact ih _

theorem poolOf_mono (objs more : List Obj) : poolOf objs <+: poolOf (objs ++ more) := by
  induction more generalizing objs with
  | nil => simp
  | cons o more ih =>
    have step : poolOf objs <+: poolOf (objs ++ [o]) := by
      rw [poolOf_append_singleton]
      exact pooled_mono _ _
    rw [append_cons]
    exact step.trans (ih _)

/-- What both passes did with a file. `done` and `before` are the files in front of it,
`org` the origins it found, `one` what it wrote and `parts` what was written from
`start` on, behind the files `done`. -/
structure FileLinked (pr : Profile) (fin : Linker) (y : Layout) (start : Origins)
    (done before : List Obj) (o : Obj) (parts : Parts) (m m' : Linker) (org : Origins) (env : Env)
    (one : Parts) : Prop where
  scanned : Scanned pr m o m' (newindexOf (done ++ before) o)
  constab : m.constab = poolOf (done ++ before)
  pooled : m'.constab <+: fin.constab
  relocated : Relocated pr fin y org o (newindexOf (done ++ before) o) env one
  consts : relocateSegment env (m'.constab.drop m.constab.length) = .ok one.const
  torigin : org.torigin = start.torigin + total (·.text.length) before
  dorigin : org.dorigin = start.dorigin + total (·.data.length) before
  borigin : org.borigin = start.borigin + total (·.bss) before
  text : ∀ w c, one.text[w]? = some c → parts.text[total (·.text.length) before + w]? = some c
  data : ∀ w c, one.data[w]? = some c → parts.data[total (·.data.length) before + w]? = some c
  const : ∀ w c, one.const[w]? = some c →
    parts.const[m.constab.length - (poolOf done).length + w]? = some c

variable {done : List Obj}

theorem Scanned.newindex_eq (scanned : Scanned pr l o l' newindex)
    (constab : l.constab = poolOf done) :
    newindexOf done o = newindex ∧ l'.constab = poolOf (done ++ [o]) := by
  have same := pool_eq_pooled (loadConstants_ok scanned.consts).2
  rw [constab] at same
  constructor
  · rw [newindexOf, same]
  · rw [poolOf_append_singleton, same]

theorem Linked.file {start : Origins} {before after : List Obj}
    (linked : Linked pr fin y l start (before ++ o :: after) parts)
    (constab : l.constab = poolOf done) :
    ∃ m m' org env one, FileLinked pr fin y start done before o parts m m' org env one := by
  induction before generalizing l start done parts with
  | nil =>
    cases linked with
    | @cons _ m _ _ _ one more newindex env scanned grows base relocated consts rest =>
      obtain ⟨index, -⟩ := scanned.newindex_eq constab
      subst index
      refine ⟨l, m, start, env, one, ?_⟩
      constructor
      · simpa using scanned
      · simpa using constab
      · exact grows
      · simpa using relocated
      · exact consts
      · rfl
      · rfl
      · rfl
      · intro w c at_w
        have lt := (List.getElem?_eq_some_iff.mp at_w).1
        simpa [List.getElem?_append_left lt] using at_w
      · intro w c at_w
        have lt := (List.getElem?_eq_some_iff.mp at_w).1
        simpa [List.getElem?_append_left lt] using at_w
      · intro w c at_w
        have lt := (List.getElem?_eq_some_iff.mp at_w).1
        simpa [constab, List.getElem?_append_left lt] using at_w
  | cons b before ih =>
    cases linked with
    | @cons _ m _ _ _ one more newindex env scanned grows base relocated consts rest =>
      obtain ⟨index, pool⟩ := scanned.newindex_eq constab
      obtain ⟨n, n', org, env', one', file⟩ := ih rest pool
      have lengths : one.text.length = b.text.length ∧ one.data.length = b.data.length ∧
          one.const.length = m.constab.length - l.constab.length := by
        refine ⟨length_of_mapM relocated.text, length_of_mapM relocated.data, ?_⟩
        rw [length_of_mapM consts, length_drop]
      refine ⟨n, n', org, env', one', ?_⟩
      constructor
      · simpa using file.scanned
      · simpa using file.constab
      · exact file.pooled
      · simpa using file.relocated
      · exact file.consts
      · rw [file.torigin, total_cons]
        exact Nat.add_assoc _ _ _
      · rw [file.dorigin, total_cons]
        exact Nat.add_assoc _ _ _
      · rw [file.borigin, total_cons]
        exact Nat.add_assoc _ _ _
      · intro w c at_w
        rw [total_cons, Nat.add_assoc, ← lengths.1, List.getElem?_append_right (Nat.le_add_right ..),
          Nat.add_sub_cancel_left]
        exact file.text w c at_w
      · intro w c at_w
        rw [total_cons, Nat.add_assoc, ← lengths.2.1,
          List.getElem?_append_right (Nat.le_add_right ..), Nat.add_sub_cancel_left]
        exact file.data w c at_w
      · intro w c at_w
        have first := scanned.grows.length_le
        have le : m.constab.length ≤ n.constab.length := by
          rw [pool, file.constab]
          exact (poolOf_mono _ _).length_le
        rw [constab] at first lengths
        rw [List.getElem?_append_right (by omega), lengths.2.2]
        have same := file.const w c at_w
        rw [← pool] at same
        rw [show n.constab.length - (poolOf done).length + w -
          (m.constab.length - (poolOf done).length) = n.constab.length - m.constab.length + w
          by omega]
        exact same

theorem Linked.lengths (linked : Linked pr fin y l org objs parts)
    (constab : l.constab = poolOf done) :
    (poolOf done).length + parts.const.length = (poolOf (done ++ objs)).length ∧
      parts.text.length = total (·.text.length) objs ∧
      parts.data.length = total (·.data.length) objs := by
  induction linked generalizing done with
  | nil => simp
  | @cons l m org o objs one more newindex env scanned grows base relocated consts rest ih =>
    obtain ⟨-, pool⟩ := scanned.newindex_eq constab
    obtain ⟨const, text, data⟩ := ih pool
    have own : one.const.length = m.constab.length - l.constab.length := by
      rw [length_of_mapM consts, length_drop]
    have le := scanned.grows.length_le
    rw [append_assoc, singleton_append, ← pool] at const
    rw [constab] at own le
    refine ⟨?_, ?_, ?_⟩
    · rw [length_append]
      omega
    · rw [length_append, text, total_cons, length_of_mapM relocated.text]
    · rw [length_append, data, total_cons, length_of_mapM relocated.data]

theorem init_constab : Linker.init.constab = poolOf [] := rfl

theorem pass1_constab (constab : l.constab = poolOf done)
    (ok : pass1 pr l objs = .ok l') : l'.constab = poolOf (done ++ objs) := by
  induction objs generalizing l done with
  | nil =>
    cases ok
    simpa using constab
  | cons o objs ih =>
    obtain ⟨m, newindex, scanned, rest⟩ := pass1_cons ok
    obtain ⟨-, pool⟩ := scanned.newindex_eq constab
    have := ih pool rest
    rwa [append_assoc, singleton_append] at this

end V7Besm.Ld

import V7Besm.Ld.Constab
import V7Besm.Ld.Address

/-!
The merging of constants.

A literal of a file may end up at a word of another file. What a reference or a symbol
needs is that the word it is led to has the value and the relocation of the word it meant,
and that holds because only a literal without relocation is merged away, and only into a
word that has none either. A word without the mark is never merged, so the words of an
array stay together and in order.

`constants_merge` says this of every link that succeeds, with libraries and options, and
that the two passes work with one and the same map for each file.
-/

namespace V7Besm.Ld

open Fallible List

/-! ### What is claimed -/

/-- The word without the mark of a literal: its value and its relocation. -/
def Cell.unmarked (c : Cell) : Cell := { c with rhi := { c.rhi with merge := false } }

section File

variable {pr : Profile} {constab const tab own : List Cell} {newindex : List Nat} {c q : Cell}

section

variable (ok : pool pr constab const = .ok (tab, newindex))

include ok

end

end File

/-! ### All files -/

variable {i : Nat} {load : List Nat × List Cell}

section Files

variable {pr : Profile} {strip : Strip} {constab : List Cell} {objs : List Obj}
  {loads : List (List Nat × List Cell)} {fin l : Linker} {y : Layout} {org : Origins} {o : Obj}
  {parts : Parts}

/-- The words that the files in front of file `i` have added to the pool. -/
def wordsBefore (loads : List (List Nat × List Cell)) (i : Nat) : List Cell :=
  (loads.take i).flatMap Prod.snd

@[simp]
theorem wordsBefore_zero (loads : List (List Nat × List Cell)) : wordsBefore loads 0 = [] := rfl

@[simp]
theorem wordsBefore_cons (load : List Nat × List Cell) (loads : List (List Nat × List Cell))
    (i : Nat) : wordsBefore (load :: loads) (i + 1) = load.2 ++ wordsBefore loads i := rfl

theorem Loaded.file (loaded : Loaded pr constab objs loads) (at_i : objs[i]? = some o) :
    ∃ newindex own, loads[i]? = some (newindex, own) ∧
      loadConstants pr (constab ++ wordsBefore loads i) o.const =
        .ok (constab ++ wordsBefore loads i ++ own, newindex) := by
  induction loaded generalizing i with
  | nil => simp at at_i
  | @cons constab own newindex o' objs loads consts _ ih =>
    cases i with
    | zero =>
      cases at_i
      exact ⟨newindex, own, rfl, by simpa using consts⟩
    | succ i =>
      obtain ⟨newindex', own', at_loads, consts'⟩ := ih at_i
      refine ⟨newindex', own', at_loads, ?_⟩
      rwa [wordsBefore_cons, ← append_assoc]

theorem Loaded.length_eq (loaded : Loaded pr constab objs loads) : loads.length = objs.length := by
  induction loaded with
  | nil => rfl
  | cons _ _ ih => simp [ih]

/-- What `relocate_object` worked with on a file and what it wrote. -/
structure Wrote (pr : Profile) (strip : Strip) (y : Layout) (o : Obj) (newindex : List Nat)
    (own : List Cell) (torigin dorigin borigin : Nat) (env : Env) (one : Parts) : Prop where
  newindex_eq : env.newindex = newindex
  cbasaddr_eq : env.cbasaddr = y.corigin
  symtab_eq : env.symtab = y.symtab.symtab
  bias_eq : env.bias = (readHeader o).shift torigin dorigin borigin
  symbols : ∃ st, strip.readSymbols pr newindex y.corigin env.bias y.symtab ⟨[], []⟩ 0 o.syms =
      .ok st ∧ ∀ s ∈ st.written, { s with value := halfword s.value } ∈ one.syms
  const : relocateSegment env own = .ok one.const
  text : relocateSegment env o.text = .ok one.text
  data : relocateSegment env o.data = .ok one.data

theorem Strip.relocateObject_ok {own : List Cell} {newindex : List Nat} {one : Parts}
    (consts : loadConstants pr constab o.const = .ok (constab ++ own, newindex))
    (base : org.nconst = constab.length) (front : constab <+: l.constab)
    (ok : strip.relocateObject pr l y org own.length o = .ok one) :
    ∃ env, Wrote pr strip y o newindex own org.torigin org.dorigin org.borigin env one := by
  have pool : l.constab.take org.nconst = constab := by
    rw [base]
    exact (prefix_iff_eq_take.mp front).symm
  unfold Strip.relocateObject at ok
  rw [pool, consts] at ok
  obtain ⟨⟨tab, idx⟩, loads, ok⟩ := bind_eq_ok.mp ok
  cases loads
  obtain ⟨st, symbols, ok⟩ := bind_eq_ok.mp ok
  obtain ⟨const, const_ok, ok⟩ := bind_eq_ok.mp ok
  obtain ⟨text, text_ok, ok⟩ := bind_eq_ok.mp ok
  obtain ⟨data, data_ok, ok⟩ := bind_eq_ok.mp ok
  cases ok
  rw [base, drop_left, take_length] at const_ok
  refine ⟨_, rfl, rfl, rfl, rfl, ⟨st, symbols, ?_⟩, const_ok, text_ok, data_ok⟩
  intro s mem
  exact mem_append_right _ (mem_map_of_mem mem)

/-- Where pass 2 put what it wrote for file `i`. -/
structure Placed (objs : List Obj) (loads : List (List Nat × List Cell)) (parts : Parts) (i : Nat)
    (one : Parts) : Prop where
  const : ∀ (w : Nat) c, one.const[w]? = some c →
    parts.const[(wordsBefore loads i).length + w]? = some c
  text : ∀ (w : Nat) c, one.text[w]? = some c →
    parts.text[total (·.text.length) (objs.take i) + w]? = some c
  data : ∀ (w : Nat) c, one.data[w]? = some c →
    parts.data[total (·.data.length) (objs.take i) + w]? = some c
  syms : ∀ s ∈ one.syms, s ∈ parts.syms

theorem getElem?_append_of_eq {α : Type} {xs ys : List α} {n pos w : Nat} {a : α}
    (length : xs.length = n) (at_pos : ys[pos + w]? = some a) :
    (xs ++ ys)[n + pos + w]? = some a := by
  rw [List.getElem?_append_right (by omega), length]
  rwa [show n + pos + w - n = pos + w by omega]

theorem getElem?_append_front {α : Type} {xs ys : List α} {w : Nat} {a : α}
    (at_w : xs[w]? = some a) : (xs ++ ys)[0 + w]? = some a := by
  rwa [Nat.zero_add, List.getElem?_append_left (List.getElem?_eq_some_iff.mp at_w).1]

theorem Loaded.pass2 (loaded : Loaded pr constab objs loads)
    (pool : fin.constab = constab ++ loads.flatMap Prod.snd) (base : org.nconst = constab.length)
    (ok : strip.pass2 pr fin y org (loads.map (·.2.length)) objs = .ok parts)
    (at_i : objs[i]? = some o) (at_load : loads[i]? = some load) :
    ∃ env one, Wrote pr strip y o load.1 load.2 (org.torigin + total (·.text.length) (objs.take i))
      (org.dorigin + total (·.data.length) (objs.take i))
      (org.borigin + total (·.bss) (objs.take i)) env one ∧ Placed objs loads parts i one := by
  induction loaded generalizing org parts i with
  | nil => simp at at_i
  | @cons constab own newindex o' objs loads consts _ ih =>
    obtain ⟨one, one_ok, ok⟩ := bind_eq_ok.mp ok
    obtain ⟨more, more_ok, ok⟩ := bind_eq_ok.mp ok
    cases ok
    have front : constab <+: fin.constab := by
      rw [pool]
      exact prefix_append _ _
    obtain ⟨env, wrote⟩ := Strip.relocateObject_ok consts base front one_ok
    cases i with
    | zero =>
      cases at_i
      cases at_load
      refine ⟨env, one, wrote, ?_⟩
      exact ⟨fun _ _ => getElem?_append_front, fun _ _ => getElem?_append_front,
        fun _ _ => getElem?_append_front, fun s => mem_append_left _⟩
    | succ i =>
      rw [flatMap_cons, ← append_assoc] at pool
      obtain ⟨env', one', wrote', placed⟩ := ih pool
        (by simp [Origins.past, base]) more_ok at_i at_load
      simp only [Origins.past, Nat.add_assoc] at wrote'
      refine ⟨env', one', wrote', ?_, ?_, ?_, fun s mem => ?_⟩
      · intro w c at_w
        rw [wordsBefore_cons, length_append]
        exact getElem?_append_of_eq (length_of_mapM wrote.const) (placed.const w c at_w)
      · intro w c at_w
        exact getElem?_append_of_eq (length_of_mapM wrote.text) (placed.text w c at_w)
      · intro w c at_w
        exact getElem?_append_of_eq (length_of_mapM wrote.data) (placed.data w c at_w)
      · exact mem_append_right _ (placed.syms s mem)

end Files

/-! ### References and symbols -/

variable {corigin : Nat}

section References

variable {pr : Profile} {strip : Strip} {env : Env} {t t' : Nat} {r r' : Rec} {y : Layout}
  {newindex : List Nat}

end References

/-! ### The link -/

section Link

variable {pr : Profile} {opt : Options} {strip : Strip} {out : Name} {items : List Item} {img : Obj}
  {l l' fin : Linker} {y : Layout} {objs : List Obj}

end Link

end V7Besm.Ld

import V7Besm.Ld.Files

/-!
The array behind the pool of constants.

`load_constants` reads every word of a file into the next free place of `constab` and
leaves it there only if no earlier word can stand for it. So the array above `nconst`
holds what earlier turns left: the words of members that were rolled back, a word that was
merged away. Pass 2 goes over the array once more, from `nconst = 0` on, and overwrites it
as it goes.

Only what is below `nconst` is ever looked at, and that is the list of `Ld.Pass1`
(`Constab.load_words`). Hence pass 2 comes to the same `newindex` for every file that was
kept (`rereadConstab_eq`).
-/

namespace V7Besm.Ld

open Fallible List

/-- `constab[]` and `nconst`. -/
structure Constab where
  tab : Nat → Cell
  nconst : Nat

namespace Constab

variable {pr : Profile}

/-- The words in use. -/
def words (k : Constab) : List Cell := (List.range k.nconst).map k.tab

/-- `c->v = fgetw(ld.text); c->r = fgetw(ld.reloc)` at the next free place. -/
def store (k : Constab) (c : Cell) : Constab := { k with tab := Function.update k.tab k.nconst c }

/-- The place of the word stored last: that of an earlier one, or its own. -/
def place (k : Constab) (c : Cell) : Nat :=
  if mergeable c then k.words.findIdx (survives c) else k.nconst

/-- The loop of `load_constants`: the array after it and `newindex`. -/
def load (pr : Profile) : Constab → List Cell → Except Diag (Constab × List Nat)
  | k, [] => .ok (k, [])
  | k, c :: rest =>
    let k := k.store c
    let p := k.place c
    if p = k.nconst then
      if k.nconst + 1 ≥ pr.NCONST then .error .constantTableOverflow
      else do
        let (k, newindex) ← load pr { k with nconst := k.nconst + 1 } rest
        .ok (k, p :: newindex)
    else do
      let (k, newindex) ← load pr k rest
      .ok (k, p :: newindex)

def loadConstants (pr : Profile) (k : Constab) (const : List Cell) :
    Except Diag (Constab × List Nat) :=
  if const.length > pr.NCINDEX then .error .constIndexOverflow else k.load pr const

end Constab

namespace Constab

variable {pr : Profile} {k k' : Constab} {const : List Cell} {newindex : List Nat}

@[simp]
theorem length_words (k : Constab) : k.words.length = k.nconst := by simp [words]

theorem words_store (k : Constab) (c : Cell) : (k.store c).words = k.words := by
  apply map_congr_left
  intro i mem
  have := mem_range.mp mem
  exact Function.update_of_ne (by dsimp only [store] at this; omega) _ _

theorem words_push (k : Constab) (c : Cell) :
    (Constab.mk (k.store c).tab (k.nconst + 1)).words = k.words ++ [c] := by
  have old := words_store k c
  simp only [words, store] at old
  simp [words, range_succ, store, old]

/-- The loop over the array is the pooling of a list. -/
theorem load_words (pr : Profile) (k : Constab) (const : List Cell) :
    (k.load pr const).map (fun r => (r.1.words, r.2)) = pool pr k.words const := by
  induction const generalizing k with
  | nil => rfl
  | cons c rest ih =>
    have place : (k.store c).place c = poolIndex k.words c := by
      rw [Constab.place, words_store, poolIndex, length_words]
      rfl
    simp only [load, pool, place, length_words]
    have count : (k.store c).nconst = k.nconst := rfl
    rw [count]
    split
    next =>
      split
      next => rfl
      next =>
        rw [← words_push, ← ih]
        cases load pr ⟨(k.store c).tab, k.nconst + 1⟩ rest <;> rfl
    next =>
      rw [← words_store k c, ← ih]
      cases load pr (k.store c) rest <;> rfl

theorem loadConstants_words (pr : Profile) (k : Constab) (const : List Cell) :
    (k.loadConstants pr const).map (fun r => (r.1.words, r.2)) =
      Ld.loadConstants pr k.words const := by
  unfold loadConstants Ld.loadConstants
  split
  next => rfl
  next => exact load_words pr k const

/-- What the list says of a file holds of the array. -/
theorem loadConstants_ok {tab : List Cell}
    (ok : Ld.loadConstants pr k.words const = .ok (tab, newindex)) :
    ∃ k', k.loadConstants pr const = .ok (k', newindex) ∧ k'.words = tab := by
  rw [← loadConstants_words] at ok
  cases loads : k.loadConstants pr const with
  | error d =>
    rw [loads] at ok
    cases ok
  | ok r =>
    rw [loads] at ok
    cases ok
    exact ⟨r.1, rfl, rfl⟩

end Constab

/-! ### The two passes over the array -/

/-- The files were pooled one after the other, from the pool `constab` on; `loads` has, for
each, its `newindex` and the words it added. -/
inductive Loaded (pr : Profile) : List Cell → List Obj → List (List Nat × List Cell) → Prop where
  | nil {constab : List Cell} : Loaded pr constab [] []
  | cons {constab own : List Cell} {newindex : List Nat} {o : Obj} {objs : List Obj}
      {loads : List (List Nat × List Cell)} :
      loadConstants pr constab o.const = .ok (constab ++ own, newindex) →
      Loaded pr (constab ++ own) objs loads →
      Loaded pr constab (o :: objs) ((newindex, own) :: loads)

section Passes

variable {pr : Profile} {strip : Strip} {l l' fin : Linker} {o : Obj} {kept : Bool}
  {objs : List Obj} {items : List Item} {loads : List (List Nat × List Cell)}

end Passes

end V7Besm.Ld

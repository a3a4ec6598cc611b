import V7Besm.Words.Packed
import Mathlib.Algebra.BigOperators.Group.List.Basic
import Mathlib.Data.List.Nodup
import Mathlib.Tactic.Cases

/-!
A region of memory tiled by blocks, each with a header in its first word.

The header holds the address of the next block and whether the block is in use, so the list
of the blocks, lowest first, says what all the headers are (`Laid`), and no two blocks can
overlap. A block may be owned, and then its words are part of the list; so are those of a
block that has been given back and not been touched since. Merging, splitting, taking and
giving back are operations on lists, each with the few words of memory it changes.
-/

namespace V7Besm.Tiles

open Words

variable {W : Type}

/-- A block: unused, or used by nobody in particular, each with the number of its words behind
the header; owned, with its words; or given back, with the words its owner left. -/
inductive Cell (W : Type) where
  | idle (n : Nat)
  | gap (n : Nat)
  | owned (words : List W)
  | freed (words : List W)

namespace Cell

/-- The number of words, with the header. -/
def size : Cell W → Nat
  | idle n => n + 1
  | gap n => n + 1
  | owned words => words.length + 1
  | freed words => words.length + 1

def busy : Cell W → Bool
  | idle _ => false
  | gap _ => true
  | owned _ => true
  | freed _ => false

/-- The words that memory has to hold. -/
def words : Cell W → List W
  | idle _ => []
  | gap _ => []
  | owned words => words
  | freed words => words

/-- What was left in a block that is given back is forgotten. -/
def forget : Cell W → Cell W
  | idle n => idle n
  | gap n => gap n
  | owned words => owned words
  | freed words => idle words.length

theorem size_eq (c : Cell W) : ∃ n, c.size = n + 1 ∧ c.words.length ≤ n := by
  cases c with
  | idle n | gap n => exact ⟨n, rfl, Nat.zero_le _⟩
  | owned words | freed words => exact ⟨_, rfl, Nat.le_refl _⟩

theorem size_pos (c : Cell W) : 0 < c.size := by
  obtain ⟨n, size, -⟩ := c.size_eq
  omega

@[simp]
theorem size_forget (c : Cell W) : c.forget.size = c.size := by cases c <;> rfl

@[simp]
theorem busy_forget (c : Cell W) : c.forget.busy = c.busy := by cases c <;> rfl

end Cell

/-- The number of words of all the blocks. -/
def total (cs : List (Cell W)) : Nat := (cs.map Cell.size).sum

@[simp]
theorem total_nil : total ([] : List (Cell W)) = 0 := rfl

@[simp]
theorem total_cons (c : Cell W) (cs : List (Cell W)) : total (c :: cs) = c.size + total cs := by
  simp [total]

@[simp]
theorem total_append (cs cs' : List (Cell W)) : total (cs ++ cs') = total cs + total cs' := by
  simp [total]

theorem length_le_total (cs : List (Cell W)) : cs.length ≤ total cs := by
  induction cs with
  | nil => exact Nat.le_refl _
  | cons c cs ih =>
    have pos := c.size_pos
    rw [List.length_cons, total_cons]
    omega

variable {link : Nat → Bool → W} {m m' : Nat → W} {a h h' x : Nat} {c d : Cell W}
  {cs cs' pre post : List (Cell W)}

/-! ### Where a block is -/

/-- The block `c` has its header at `h`, if the blocks begin at `a`. -/
def BlockAt : Nat → List (Cell W) → Nat → Cell W → Prop
  | _, [], _, _ => False
  | a, d :: ds, h, c => (h = a ∧ c = d) ∨ BlockAt (a + d.size) ds h c

theorem blockAt_append : BlockAt a (cs ++ cs') h c ↔
    BlockAt a cs h c ∨ BlockAt (a + total cs) cs' h c := by
  induction cs generalizing a with
  | nil => simp [BlockAt]
  | cons d ds ih => simp [BlockAt, ih, Nat.add_assoc, or_assoc]

theorem blockAt_middle : BlockAt a (pre ++ c :: post) (a + total pre) c :=
  blockAt_append.mpr (.inr (.inl ⟨rfl, rfl⟩))

theorem BlockAt.split (here : BlockAt a cs h c) :
    ∃ pre post, cs = pre ++ c :: post ∧ h = a + total pre := by
  induction cs generalizing a with
  | nil => cases here
  | cons d ds ih =>
    rcases here with ⟨rfl, rfl⟩ | later
    · exact ⟨[], ds, rfl, rfl⟩
    · obtain ⟨pre, post, rfl, rfl⟩ := ih later
      exact ⟨d :: pre, post, rfl, by rw [total_cons, Nat.add_assoc]⟩

theorem BlockAt.bounds (here : BlockAt a cs h c) : a ≤ h ∧ h + c.size ≤ a + total cs := by
  obtain ⟨pre, post, rfl, rfl⟩ := here.split
  rw [total_append, total_cons]
  omega

theorem BlockAt.apart (first : BlockAt a cs h c) (second : BlockAt a cs h' d) (lt : h < h') :
    h + c.size ≤ h' := by
  induction cs generalizing a with
  | nil => cases first
  | cons e es ih =>
    rcases first with ⟨rfl, rfl⟩ | first
    · rcases second with ⟨rfl, rfl⟩ | second
      · omega
      · exact second.bounds.1
    · rcases second with ⟨rfl, rfl⟩ | second
      · have low := first.bounds.1
        omega
      · exact ih first second

theorem BlockAt.unique (first : BlockAt a cs h c) (second : BlockAt a cs h d) : c = d := by
  induction cs generalizing a with
  | nil => cases first
  | cons e es ih =>
    have pos := e.size_pos
    rcases first with ⟨rfl, rfl⟩ | first
    · rcases second with ⟨-, rfl⟩ | second
      · rfl
      · have low := second.bounds.1
        omega
    · rcases second with ⟨rfl, rfl⟩ | second
      · have low := first.bounds.1
        omega
      · exact ih first second

/-- A block is replaced by another one of the same size. -/
theorem blockAt_replace {e : Cell W} (size : d.size = c.size) :
    BlockAt a (pre ++ d :: post) h e ↔ (h = a + total pre ∧ e = d) ∨
      (h ≠ a + total pre ∧ BlockAt a (pre ++ c :: post) h e) := by
  have before : BlockAt a pre h e → h ≠ a + total pre := by
    intro here
    have ends := here.bounds.2
    have pos := e.size_pos
    omega
  have behind : BlockAt (a + total pre + c.size) post h e → h ≠ a + total pre := by
    intro here
    have begins := here.bounds.1
    have pos := c.size_pos
    omega
  rw [blockAt_append, blockAt_append, BlockAt, BlockAt, size]
  tauto

/-- There is a header at `x`. -/
def Header (a : Nat) (cs : List (Cell W)) (x : Nat) : Prop := ∃ c, BlockAt a cs x c

theorem header_append : Header a (cs ++ cs') x ↔ Header a cs x ∨ Header (a + total cs) cs' x := by
  simp only [Header, blockAt_append, exists_or]

theorem header_cons : Header a (c :: cs) x ↔ x = a ∨ Header (a + c.size) cs x := by
  simp only [Header, BlockAt, exists_or]
  simp

/-- The headers, in order. -/
def headers : Nat → List (Cell W) → List Nat
  | _, [] => []
  | a, c :: cs => a :: headers (a + c.size) cs

theorem mem_headers : x ∈ headers a cs ↔ Header a cs x := by
  induction cs generalizing a with
  | nil => simp [headers, Header, BlockAt]
  | cons c cs ih => rw [header_cons, headers, List.mem_cons, ih]

/-! ### Memory -/

/-- Memory from `a` on is tiled by the blocks. -/
def Laid (link : Nat → Bool → W) (m : Nat → W) : Nat → List (Cell W) → Prop
  | _, [] => True
  | a, c :: cs =>
    m a = link (a + c.size) c.busy ∧ At m (a + 1) c.words ∧ Laid link m (a + c.size) cs

theorem laid_append : Laid link m a (cs ++ cs') ↔
    Laid link m a cs ∧ Laid link m (a + total cs) cs' := by
  induction cs generalizing a with
  | nil => simp [Laid]
  | cons c cs ih => simp [Laid, ih, Nat.add_assoc, and_assoc]

theorem Laid.congr (laid : Laid link m a cs)
    (same : ∀ x, a ≤ x → x < a + total cs → m' x = m x) : Laid link m' a cs := by
  induction cs generalizing a with
  | nil => trivial
  | cons c cs ih =>
    obtain ⟨header, words, rest⟩ := laid
    obtain ⟨n, size, room⟩ := c.size_eq
    rw [total_cons] at same
    refine ⟨?_, ?_, ?_⟩
    · rw [same a (Nat.le_refl _) (by omega), header]
    · exact words.congr fun i lt => same _ (by omega) (by omega)
    · exact ih rest fun x low high => same x (by omega) (by omega)

theorem Laid.header (laid : Laid link m a cs) (here : BlockAt a cs h c) :
    m h = link (h + c.size) c.busy := by
  obtain ⟨pre, post, rfl, rfl⟩ := here.split
  exact (laid_append.mp laid).2.1

theorem Laid.words (laid : Laid link m a cs) (here : BlockAt a cs h c) : At m (h + 1) c.words := by
  obtain ⟨pre, post, rfl, rfl⟩ := here.split
  exact (laid_append.mp laid).2.2.1

/-! ### Forgetting -/

@[simp]
theorem total_forget (cs : List (Cell W)) : total (cs.map Cell.forget) = total cs := by
  simp [total, Function.comp_def]

theorem BlockAt.forget (here : BlockAt a cs h c) : BlockAt a (cs.map Cell.forget) h c.forget := by
  obtain ⟨pre, post, rfl, rfl⟩ := here.split
  rw [List.map_append, List.map_cons, ← total_forget pre]
  exact blockAt_middle

theorem BlockAt.of_forget (here : BlockAt a (cs.map Cell.forget) h c) :
    ∃ d, BlockAt a cs h d ∧ c = d.forget := by
  induction cs generalizing a with
  | nil => cases here
  | cons d ds ih =>
    rcases here with ⟨rfl, rfl⟩ | later
    · exact ⟨d, .inl ⟨rfl, rfl⟩, rfl⟩
    · rw [Cell.size_forget] at later
      obtain ⟨e, there, same⟩ := ih later
      exact ⟨e, .inr there, same⟩

theorem blockAt_forget_owned {ws : List W} :
    BlockAt a (cs.map Cell.forget) h (.owned ws) ↔ BlockAt a cs h (.owned ws) := by
  constructor
  · intro here
    obtain ⟨d, there, same⟩ := here.of_forget
    cases d with
    | owned ws' => exact same ▸ there
    | idle n | gap n | freed ws' => cases same
  · exact fun here => here.forget

/-- What was left in blocks given back is forgotten. -/
theorem Laid.forget (laid : Laid link m a cs) : Laid link m a (cs.map Cell.forget) := by
  induction cs generalizing a with
  | nil => trivial
  | cons c cs ih =>
    obtain ⟨header, words, rest⟩ := laid
    rw [List.map_cons, Laid, Cell.size_forget, Cell.busy_forget]
    refine ⟨header, ?_, ih rest⟩
    cases c with
    | idle n | gap n | owned ws => exact words
    | freed ws => exact at_nil

end V7Besm.Tiles

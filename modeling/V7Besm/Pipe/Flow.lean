import V7Besm.Pipe.Code
import Mathlib.Data.List.Infix

/-!
The bytes of a pipe.

`Flow k rest` says that the bytes stored so far are those the file holds behind
what the earlier fillings of the file delivered, that the bytes read are a part of
them up to `f_offset`, and that `rest` is what is still to be stored of the last chunk.
-/

namespace V7Besm.Pipe

open List

variable {f g : Int → Byte} {o b m n c : Int} {k : Store} {src : Int → Byte} {io : Io}
  {rest : List Byte}

/-! ### Slices -/

@[simp] theorem slice_length : (slice f o n).length = n.toNat := by
  simp [slice]

@[simp] theorem slice_zero : slice f o 0 = [] := rfl

theorem slice_of_nonpos (nonpos : n ≤ 0) : slice f o n = [] := by
  simp [slice, Int.toNat_of_nonpos nonpos]

theorem slice_add (first : 0 ≤ m) (second : 0 ≤ n) :
    slice f o (m + n) = slice f o m ++ slice f (o + m) n := by
  obtain ⟨m, rfl⟩ := Int.eq_ofNat_of_zero_le first
  obtain ⟨n, rfl⟩ := Int.eq_ofNat_of_zero_le second
  simp only [slice, ← Int.natCast_add, Int.toNat_natCast, range_add, map_append, map_map]
  congr 1
  refine map_congr_left fun i _ => ?_
  simp [Int.add_assoc]

theorem slice_congr (agree : ∀ i, o ≤ i → i < o + n → f i = g i) : slice f o n = slice g o n := by
  refine map_congr_left fun i mem => agree _ (by omega) ?_
  have := mem_range.mp mem
  omega

theorem slice_fill : slice (fill f o g b n) o n = slice g b n := by
  refine map_congr_left fun i mem => ?_
  have := mem_range.mp mem
  rw [fill, if_pos (by omega)]
  congr 1
  omega

theorem slice_fill_below : slice (fill f o g b n) 0 o = slice f 0 o :=
  slice_congr fun i _ below => if_neg (by omega)

theorem fill_of_nonpos (nonpos : n ≤ 0) : fill f o g b n = f := funext fun i => if_neg (by omega)

/-! ### The file and its history -/

namespace Store

/-- The bytes read, in order. -/
def got (k : Store) : List Byte := k.reads.flatMap (·.bytes)

/-- The chunks, one behind the other. -/
def given (k : Store) : List Byte := k.chunks.flatMap (·.bytes)

/-- The chunk begun last. -/
def lastChunk (k : Store) : List Byte := (k.chunks.getLast?.map (·.bytes)).getD []

end Store

structure Flow (k : Store) (rest : List Byte) : Prop where
  nonneg : 0 ≤ k.offset
  le : k.offset ≤ k.size
  room : k.size + rest.length ≤ 2 * PIPSIZ - 1
  window : ∃ old, k.stored = old ++ slice k.data 0 k.size ∧ k.got = old ++ slice k.data 0 k.offset
  chunked : k.given = k.stored ++ rest
  last : rest <:+ k.lastChunk
  sizes : ∀ x ∈ k.chunks, x.bytes.length = (min x.left PIPSIZ).toNat
  returned : ∀ r ∈ k.reads, r.val1 = r.bytes.length

namespace Flow

theorem delivered (flow : Flow k rest) : k.got <+: k.stored := by
  obtain ⟨old, stored, got⟩ := flow.window
  refine ⟨slice k.data (0 + k.offset) (k.size - k.offset), ?_⟩
  have le := flow.le
  rw [got, stored, append_assoc, ← slice_add flow.nonneg (by omega)]
  congr 2
  omega

/-- A read of `c` bytes got the next `n` bytes of the file. -/
theorem took (flow : Flow k rest) (nonneg : 0 ≤ n) (le : k.offset + n ≤ k.size) :
    Flow (k.took c ⟨b, c - n, k.offset + n, slice k.data k.offset n⟩) rest := by
  obtain ⟨old, stored, got⟩ := flow.window
  refine { flow with nonneg := ?_, le, window := ⟨old, stored, ?_⟩, returned := ?_ }
  · have := flow.nonneg
    simp only [Store.took]
    omega
  · have new : (k.took c ⟨b, c - n, k.offset + n, slice k.data k.offset n⟩).got =
        k.got ++ slice k.data k.offset n := by
      simp [Store.got, Store.took]
    rw [new, got, append_assoc]
    simp only [Store.took]
    rw [slice_add flow.nonneg nonneg, Int.zero_add]
  · refine forall_mem_append.mpr ⟨flow.returned, forall_mem_singleton.mpr ?_⟩
    simp
    omega

/-- The reader has caught up, and the file is empty again. -/
theorem reset (flow : Flow k rest) (same : k.offset = k.size) :
    Flow { k with offset := 0, size := 0 } rest := by
  obtain ⟨old, stored, got⟩ := flow.window
  have nonneg := flow.nonneg
  have room := flow.room
  refine { flow with nonneg := Int.le_refl 0, le := Int.le_refl 0, room := ?_, window := ?_ }
  · simp only
    omega
  · exact ⟨k.stored, by simp, by
      rw [stored, ← same, ← got]
      simp [Store.got]⟩

theorem begin (flow : Flow k []) (room : k.size < PIPSIZ) :
    Flow (k.begin src b c) (slice src b (min c PIPSIZ)) := by
  refine { flow with room := ?_, chunked := ?_, last := ?_, sizes := ?_ }
  · simp only [Store.begin, slice_length, PIPSIZ] at room ⊢
    omega
  · have old := flow.chunked
    simp only [Store.given, append_nil] at old
    simp [Store.given, Store.begin, old]
  · simp [Store.lastChunk, Store.begin]
  · exact forall_mem_append.mpr ⟨flow.sizes, forall_mem_singleton.mpr (by simp)⟩

/-- `writei` stores the next `n` bytes of its chunk at the end of the file. -/
theorem put (flow : Flow k (slice src io.base io.count)) (atEnd : io.offset = k.size)
    (nonneg : 0 ≤ n) (le : n ≤ io.count) :
    Flow (k.put src io n) (slice src (io.base + n) (io.count - n)) := by
  obtain ⟨old, stored, got⟩ := flow.window
  have bounds := flow.le
  have offset := flow.nonneg
  have size : (k.put src io n).size = k.size + n := by
    simp only [Store.put, atEnd]
    split <;> omega
  have whole : slice src io.base io.count =
      slice src io.base n ++ slice src (io.base + n) (io.count - n) := by
    rw [← slice_add nonneg (by omega)]
    congr 1
    omega
  refine { flow with le := ?_, room := ?_, window := ⟨old, ?_, ?_⟩, chunked := ?_, last := ?_ }
  · rw [size]
    simp only [Store.put]
    omega
  · have room := flow.room
    simp only [slice_length] at room ⊢
    omega
  · rw [size, slice_add (by omega) nonneg, Int.zero_add, ← append_assoc]
    simp only [Store.put, atEnd, slice_fill_below, slice_fill]
    rw [← stored]
  · have below : slice (fill k.data io.offset src io.base n) 0 k.offset = slice k.data 0 k.offset :=
      slice_congr fun i _ lt => if_neg (by omega)
    simp only [Store.put, below]
    exact got
  · have chunked := flow.chunked
    rwa [whole, ← append_assoc] at chunked
  · have last := flow.last
    rw [whole] at last
    exact (suffix_append _ _).trans last

end Flow

theorem Store.put_of_nonpos (nonpos : n ≤ 0) (le : io.offset ≤ k.size) : k.put src io n = k := by
  have size : ¬ io.offset + n > k.size := by omega
  simp [Store.put, fill_of_nonpos nonpos, slice_of_nonpos nonpos, size]

end V7Besm.Pipe

import V7Besm.Pipe.Stream

/-!
Pipes deliver the written stream.

Each routine keeps the protocol of the pipe, as long as no read has a negative
count: such a read moves `f_offset` back.
-/

namespace V7Besm.Pipe

open Coop Coop.Proto

variable {p q : Pid} {g : Role} {s s' : World} {T : Pid → Role} {k : Store} {rest : List Byte}
  {c : Chan} {n count base : Int} {io : Io} {src : Int → Byte}

/-! ### Transfers -/

theorem bread_spec (has : Has p g s T) (ne : g ≠ .out) :
    proto.wp p bread (fun r s' T' => Has p g s' T' ∧ 0 ≤ r ∧ r ≤ BSIZEW) s T := by
  refine wp_loop (fun _ s T => Has p g s T) has ?_
  intro _ s T has
  refine wp_bind fun s' drift => ?_
  replace has := has.drift drift
  refine wp_bind (has.read ?_)
  split
  · exact wp_bind (has.read ⟨has, has.held.calm.resid⟩)
  · exact wp_seq (has.sleep_io ne) fun _ s T has => has

/-- `readi` has moved the `n` bytes of the file from `f_offset` on. -/
def Moved (k : Store) (io : Io) (n : Int) (io' : Io) : Prop :=
  0 ≤ n ∧ k.offset + n ≤ k.size ∧
    io' = ⟨io.base + n, io.count - n, k.offset + n, slice k.data k.offset n⟩

theorem Moved.step {io' : Io} {m : Int} (moved : Moved k io n io') (nonneg : 0 ≤ m)
    (inside : io'.offset + m ≤ k.size) :
    Moved k io (n + m) (io'.moved m (slice k.data io'.offset m)) := by
  obtain ⟨start, _, rfl⟩ := moved
  simp only at inside ⊢
  refine ⟨by omega, by omega, ?_⟩
  simp only [Io.moved, Io.mk.injEq]
  refine ⟨by omega, by omega, by omega, ?_⟩
  rw [slice_add start nonneg]

theorem readi_spec (has : Has p (.locked k) s T) (nonneg : 0 ≤ io.count)
    (offset : io.offset = k.offset) (bytes : io.bytes = []) :
    proto.wp p (readi io) (fun io' s' T' => Has p (.locked k) s' T' ∧ ∃ n, Moved k io n io') s T := by
  have flow : Flow k [] := has.held.part.2.1
  have start : Moved k io 0 io := by
    refine ⟨Int.le_refl 0, by simpa using flow.le, ?_⟩
    cases io
    simp_all
  unfold readi
  split
  · exact ⟨has, 0, start⟩
  split
  · have := flow.nonneg
    omega
  refine wp_loop (fun io' s T => Has p (.locked k) s T ∧ 0 < io'.count ∧ ∃ n, Moved k io n io')
    ⟨has, by omega, 0, start⟩ ?_
  rintro io' s T ⟨has, positive, n, moved⟩
  refine wp_bind (has.read ?_)
  have store : s.store = k := has.held.part.1
  dsimp only
  split
  · exact ⟨has, n, moved⟩
  rename_i more
  rw [store] at more
  refine wp_seq (bread_spec has (by simp)) ?_
  rintro resid s T ⟨has, low, high⟩
  refine wp_bind (has.read ?_)
  have store' : s.store = k := has.held.part.1
  rw [store, store']
  generalize hm : min _ (BSIZE - wtob resid) = m
  have bounds : 0 ≤ m ∧ m ≤ io'.count ∧ io'.offset + m ≤ k.size := by
    simp only [BSIZE, BSIZEW, wtob] at *
    split at hm <;> omega
  have next : Moved k io (n + m) (if m ≠ 0 then io'.moved m (slice k.data io'.offset m) else io') := by
    split
    · exact moved.step bounds.1 bounds.2.2
    · rename_i zero
      simpa [not_not.mp zero] using moved
  have left : 0 ≤ (if m ≠ 0 then io'.moved m (slice k.data io'.offset m) else io').count := by
    split
    · simp only [Io.moved]
      omega
    · omega
  generalize (if m ≠ 0 then io'.moved m (slice k.data io'.offset m) else io') = io' at next left ⊢
  split
  · exact ⟨has, by omega, _, next⟩
  · exact ⟨has, _, next⟩

/-- What `writei` still has to do. -/
def Pending (k : Store) (io : Io) : Prop :=
  0 < io.count ∧ io.offset = k.size ∨ io.count < 0 ∧ io.offset ≤ k.size

theorem Calm.put (calm : Calm s) (le : s.store.size ≤ k.size) : Calm { s with store := k } :=
  { calm with size := fun h => Int.le_trans (calm.size h) le }

theorem Has.put (has : Has p (.storing k (slice src io.base io.count)) s T) (pending : Pending k io)
    (hn : n = min (BSIZE - io.offset % BSIZE) io.count) :
    ∃ k', Has p (.storing k' (slice src (io.moved n []).base (io.moved n []).count))
        { s with store := s.store.put src io n } T ∧
      ((io.moved n []).count = 0 ∨ Pending k' (io.moved n [])) := by
  obtain ⟨⟨calm, alone, lock, store, flow⟩, up⟩ := has
  have on : io.offset % BSIZE < BSIZE := Int.emod_lt_of_pos _ (by decide)
  rcases pending with ⟨positive, atEnd⟩ | ⟨negative, below⟩
  · have bounds : 0 < n ∧ n ≤ io.count := by omega
    have size : (k.put src io n).size = k.size + n := by
      simp only [Store.put, atEnd]
      split <;> omega
    refine ⟨k.put src io n, ⟨⟨calm.put (by rw [store, size]; omega), alone, lock, ?_, ?_⟩, up⟩, ?_⟩
    · exact congrArg (Store.put · src io n) store
    · exact flow.put atEnd (by omega) bounds.2
    · simp only [Io.moved, Pending, size]
      omega
  · have all : n = io.count := by
      omega
    have same : s.store.put src io n = k := by
      rw [store, Store.put_of_nonpos (by omega) below]
    refine ⟨k, ⟨⟨calm.put (Int.le_of_eq (by rw [same, store])), alone, lock, same, ?_⟩, up⟩, .inl ?_⟩
    · rw [slice_of_nonpos (by omega)] at flow
      rw [slice_of_nonpos (by simp only [Io.moved]; omega)]
      exact flow
    · simp only [Io.moved]
      omega

theorem writei_spec (io : Io) (has : Has p (.storing k (slice src io.base io.count)) s T)
    (offset : io.offset = k.size) :
    proto.wp p (writei src io) (fun _ s' T' => ∃ k', Has p (.storing k' []) s' T') s T := by
  have flow : Flow k _ := has.held.part.2
  unfold writei
  split
  · have := flow.nonneg
    have := flow.le
    omega
  split
  · rename_i zero
    rw [zero] at has
    exact ⟨k, has⟩
  refine wp_loop (fun io s T => ∃ k, Has p (.storing k (slice src io.base io.count)) s T ∧ Pending k io)
    ⟨k, has, by unfold Pending; omega⟩ ?_
  rintro io s T ⟨k, has, pending⟩
  refine wp_seq (bread_spec has (by simp)) ?_
  rintro _ s T ⟨has, -, -⟩
  obtain ⟨k', stored, next⟩ := has.put pending rfl
  refine wp_bind (wp_modify stored.flow ?_)
  dsimp only
  split
  · rename_i more
    exact ⟨k', stored, next.resolve_left more⟩
  · rename_i zero
    rw [not_not.mp zero] at stored
    exact ⟨k', stored⟩

/-! ### Calls -/

/-- The reader stores `f_offset`, and resets the pipe if it has caught up. -/
theorem Has.took {io' : Io} (has : Has p (.locked k) s T) (moved : Moved k io n io') :
    Has p (.locked (k.took io.count io')) { s with store := s.store.took io.count io' } T := by
  obtain ⟨⟨calm, alone, lock, store, flow, empty⟩, up⟩ := has
  obtain ⟨nonneg, inside, rfl⟩ := moved
  refine ⟨⟨calm.put (Int.le_of_eq (by rw [store]; rfl)), alone, lock, ?_, flow.took nonneg inside, empty⟩, up⟩
  · exact congrArg (Store.took · io.count _) store

theorem Has.caughtUp (has : Has p (.locked k) s T) :
    Has p (.locked s.caughtUp.store) s.caughtUp T := by
  obtain ⟨⟨calm, alone, lock, rfl, flow, empty⟩, up⟩ := has
  unfold World.caughtUp
  split
  · rename_i same
    have reset := flow.reset same
    dsimp only
    split
    · rename_i full
      refine ⟨⟨?_, alone, lock, rfl, reset, fun _ => rfl⟩, Drift.wakeup.awake up⟩
      exact {
        want := calm.want
        inode := fun q h => calm.inode q (wchan_wakeup h).2
        full := fun q h => absurd rfl (wchan_wakeup h).1
        empty := fun q h => calm.empty q (wchan_wakeup h).2
        size := nofun
        resid := calm.resid }
    · rename_i notFull
      exact ⟨⟨{ calm with size := fun h => absurd h notFull }, alone, lock, rfl, reset, fun _ => rfl⟩, up⟩
  · exact ⟨⟨calm, alone, lock, rfl, flow, empty⟩, up⟩

theorem Has.unlock {α : Type} {f : Unit → C α} {Q : α → World → (Pid → Role) → Prop}
    (has : Has p (.locked k) s T)
    (next : ∀ s', Out p s' T → s'.store = k → proto.wp p (f ()) Q s' T) :
    proto.wp p (Pipe.prele >>= f) Q s T := by
  obtain ⟨out, store⟩ := has.prele
  exact wp_bind (wp_modify out.flow (next _ out store))

theorem Inv.mark_empty (inv : Inv s T) (empty : s.store.size = 0) : Inv { s with iread := true } T := by
  cases inv with
  | free free out =>
    exact .free ⟨{ free.calm with empty := fun _ _ => rfl }, free.lock, free.flow, fun _ => empty⟩ out
  | held q held up =>
    refine .held q ⟨{ held.calm with empty := fun _ _ => rfl }, held.alone, held.lock, ?_⟩ up
    have part := held.part
    cases role : T q with
    | out => simp [role, Part] at part
    | locked k =>
      rw [role] at part
      exact ⟨part.1, part.2.1, fun _ => part.1 ▸ empty⟩
    | storing k rest =>
      rwa [role] at part

theorem readp_spec (out : Out p s T) (nonneg : 0 ≤ count) :
    proto.wp p (readp count) (proto.back p) s T := by
  refine wp_loop (fun _ s T => Out p s T) out ?_
  intro _ s T out
  refine wp_seq (plock_spec out) ?_
  intro _ s T has
  refine wp_bind (has.read ?_)
  split
  · rename_i empty
    refine has.unlock fun s' out store => ?_
    refine wp_bind (out.read ?_)
    split
    · exact out.leave
    have marked : Out p { s' with iread := true } T :=
      ⟨Inv.mark_empty out.holds (by rw [store]; exact empty), out.awake⟩
    refine wp_bind (wp_modify marked.flow ?_)
    refine wp_seq (marked.sleepSig rfl) ?_
    intro again s T out
    split
    · exact out
    · exact out.leave
  · refine wp_seq (readi_spec has nonneg rfl rfl) ?_
    rintro io s' T ⟨has, n, moved⟩
    have took := has.took moved
    refine wp_bind (wp_modify took.flow ?_)
    have reset := took.caughtUp
    refine wp_bind (wp_modify reset.flow ?_)
    exact reset.unlock fun s' out _ => out.leave

theorem Has.mark_full (has : Has p (.locked k) s T) (full : PIPSIZ ≤ s.store.size) :
    Has p (.locked k) { s with iwrite := true } T :=
  ⟨{ has.held with
      calm := { has.held.calm with full := fun _ _ => rfl, size := fun _ => full }
      part := has.held.part }, has.awake⟩

theorem Has.begin (src : Int → Byte) (base c : Int) (has : Has p (.locked k) s T)
    (room : s.store.size < PIPSIZ) :
    Has p (.storing (k.begin src base c) (slice src base (min c PIPSIZ)))
      { s with store := s.store.begin src base c } T := by
  obtain ⟨⟨calm, alone, lock, rfl, flow, empty⟩, up⟩ := has
  exact ⟨⟨calm.put (Int.le_refl _), alone, lock, rfl, flow.begin room⟩, up⟩

/-- The writer unlocks the pipe, and a reader that waits is told. -/
theorem Has.notify (has : Has p (.storing k []) s T) :
    (∃ rest, Flow s.prele.store rest) ∧ Out p s.prele.notify T := by
  obtain ⟨⟨calm, alone, -, store, flow⟩, up⟩ := has
  have calm' := calm.prele
  rw [calm.prele_eq] at calm' ⊢
  have up' := (Drift.wakeup (c := .inode)).awake
    up
  have out : ∀ q, Function.update T p Role.out q = .out := by
    intro q
    by_cases e : q = p
    · simp [e]
    · simpa [Function.update_of_ne e] using alone q e
  refine ⟨⟨[], store ▸ flow⟩, ?_⟩
  unfold World.notify
  split
  · refine ⟨.free ⟨?_, rfl, store ▸ flow, nofun⟩ out, Drift.wakeup.awake up'⟩
    exact {
      want := nofun
      inode := fun q h => calm'.inode q (wchan_wakeup h).2
      full := fun q h => calm'.full q (wchan_wakeup h).2
      empty := fun q h => absurd rfl (wchan_wakeup h).1
      size := calm'.size
      resid := calm'.resid }
  · rename_i unread
    exact ⟨.free ⟨calm', rfl, store ▸ flow, fun h => absurd h unread⟩ out, up'⟩

theorem writep_spec (out : Out p s T) : proto.wp p (writep src count) (proto.back p) s T := by
  refine wp_loop (fun _ s T => Out p s T) out ?_
  rintro ⟨c, base⟩ s T out
  refine wp_seq (plock_spec out) ?_
  intro _ s T has
  split
  · exact has.unlock fun s' out _ => out.leave
  refine wp_bind (has.read ?_)
  split
  · refine has.unlock fun s' out _ => ?_
    refine wp_bind (out.error fun s' out => ?_)
    refine wp_bind (wp_act (out.drift Drift.psignal).flow ?_)
    exact (out.drift Drift.psignal).leave
  refine wp_bind (has.read ?_)
  split
  · rename_i full
    have marked := has.mark_full full
    refine wp_bind (wp_modify marked.flow ?_)
    have noted : ({ s with iwrite := true } : World).prele.iwrite = true := by
      rw [marked.held.calm.prele_eq]
      rfl
    obtain ⟨out, -⟩ := marked.prele
    refine wp_bind (wp_modify out.flow ?_)
    refine wp_seq (out.sleepSig noted) ?_
    intro again s T out
    split
    · exact out
    · exact out.leave
  · rename_i room
    have begun := has.begin src base c (by omega)
    refine wp_bind (wp_act begun.flow ?_)
    refine wp_seq (writei_spec ⟨base, min c PIPSIZ, s.store.size, []⟩ begun rfl) ?_
    rintro io s' T ⟨k', done⟩
    obtain ⟨safe, out⟩ := done.notify
    refine wp_bind (wp_modify safe ?_)
    exact wp_bind (wp_modify out.flow out)

theorem closef_spec (out : Out p s T) : proto.wp p closef (proto.back p) s T := by
  refine wp_seq (plock_spec out) ?_
  intro _ s T has
  have cleared : Has p (.locked s.store)
      ((({ s with iread := false, iwrite := false } : World).wakeup .full).wakeup .empty) T := by
    obtain ⟨⟨calm, alone, lock, -, flow, empty⟩, up⟩ := has
    refine ⟨⟨?_, alone, lock, rfl, flow, nofun⟩, Drift.wakeup.awake (Drift.wakeup.awake up)⟩
    exact {
      want := calm.want
      inode := fun q h => calm.inode q (wchan_wakeup (wchan_wakeup h).2).2
      full := fun q h => absurd rfl (wchan_wakeup (wchan_wakeup h).2).1
      empty := fun q h => absurd rfl (wchan_wakeup h).1
      size := nofun
      resid := calm.resid }
  refine wp_bind (wp_modify cleared.flow ?_)
  generalize (({ s with iread := false, iwrite := false } : World).wakeup .full).wakeup .empty = s
    at cleared ⊢
  have less : Has p _ { s with count := s.count - 1 } T :=
    cleared.drift ⟨rfl, rfl, rfl, rfl, rfl, fun _ _ h => h, .inl rfl⟩
  refine wp_bind (wp_modify less.flow ?_)
  exact wp_modify less.prele.1.flow less.prele.1.leave

/-! ### Runs -/

/-- A read does not ask for a negative number of bytes. -/
def Call.proper : Call → Bool
  | .read count => decide (0 ≤ count)
  | _ => true

theorem call_spec {call : Call} (out : Out p s T) (proper : call.proper = true) :
    proto.wp p call.code (proto.back p) s T := by
  cases call with
  | read count => exact wp_bind (out.error fun s' out => readp_spec out (by simpa [Call.proper] using proper))
  | write src count => exact wp_bind (out.error fun s' out => writep_spec out)
  | close => exact wp_bind (out.error fun s' out => closef_spec out)

theorem sound : proto.Sound (sharing.only Call.proper) where
  env _ _ run := Drift.env run
  trans _ _ _ first second := (Drift.env first).trans second
  intr _ _ _ _ inv taken := inv.drift (Drift.intr taken)
  call p k s T inv out entry := by
    simp only [System.only, sharing, Bool.and_eq_true, decide_eq_true_eq] at entry
    exact call_spec ⟨holds_of_inv inv out, entry.1⟩ entry.2

/-- Everybody who is inside a call sleeps on the pipe. -/
def Stuck (x : Config Pid World) : Prop :=
  x.cpu = none ∧ ∀ p, x.thr p ≠ none → ∃ c, x.st.wchan p = some c ∧ c ≠ .io

/-- The pipe delivers the written stream. -/
structure Delivers (x : Config Pid World) : Prop where
  /-- What was read is the beginning of what was stored. -/
  got : x.st.store.got <+: x.st.store.stored
  /-- What was stored is the chunks, one behind the other; only the last may not be
  there as a whole. -/
  whole : ∃ rest, x.st.store.given = x.st.store.stored ++ rest ∧ rest <:+ x.st.store.lastChunk
  /-- A write of at most `PIPSIZ` bytes is one chunk. -/
  chunks : ∀ c ∈ x.st.store.chunks, c.bytes.length = (min c.left PIPSIZ).toNat
  /-- A read returns the number of bytes it got. -/
  returned : ∀ r ∈ x.st.store.reads, r.val1 = r.bytes.length
  size : x.st.store.size ≤ 2 * PIPSIZ - 1
  /-- If nobody is left to go on, readers sleep for bytes and writers for room. -/
  stuck : Stuck x → ∀ p, x.thr p ≠ none →
    x.st.wchan p = some .empty ∧ x.st.store.size = 0 ∨
      x.st.wchan p = some .full ∧ PIPSIZ ≤ x.st.store.size

theorem inv_fresh (data : Int → Byte) : Inv (fresh data) fun _ => .out := by
  refine .free ⟨⟨?_, ?_, ?_, ?_, ?_, ?_⟩, rfl, ⟨?_, ?_, ?_, ⟨[], rfl, rfl⟩, rfl, ?_, ?_, ?_⟩, ?_⟩ fun _ => rfl
  all_goals simp [fresh, Store.lastChunk, PIPSIZ]

theorem stuck_of_inv {x : Config Pid World} (inv : Inv x.st T) (out : ∀ p, x.thr p = none → T p = .out)
    (stuck : Stuck x) (inside : x.thr p ≠ none) :
    x.st.wchan p = some .empty ∧ x.st.store.size = 0 ∨
      x.st.wchan p = some .full ∧ PIPSIZ ≤ x.st.store.size := by
  obtain ⟨c, asleep, ne⟩ := stuck.2 p inside
  cases inv with
  | free free _ =>
    cases c with
    | inode => simpa [free.lock] using free.calm.want (free.calm.inode p asleep)
    | full => exact .inr ⟨asleep, free.calm.size (free.calm.full p asleep)⟩
    | empty => exact .inl ⟨asleep, free.empty (free.calm.empty p asleep)⟩
    | io => exact absurd rfl ne
  | held q held up =>
    -- the holder of the lock is inside, and sleeps for the disk if at all
    have holder : x.thr q ≠ none := by
      intro outside
      have part := held.part
      rwa [out q outside] at part
    obtain ⟨d, sleeps, ne⟩ := stuck.2 q holder
    simp [sleeps, ne] at up

/-- In every run without a negative read count, the pipe delivers what was written into it. -/
theorem delivers_of_run {data : Int → Byte} {x : Config Pid World}
    (run : sharing.Reach (System.Calls Call.proper) (System.quiet (fresh data)) x) : Delivers x := by
  rw [← System.reach_only_iff] at run
  have start : proto.Good (System.quiet (fresh data)) := .quiet (inv_fresh data) fun _ => rfl
  have meets : proto.Meets fun _ (_ : Event Pid Call Intr) => True := by
    intro x p c _ _ _
    cases c.head <;> trivial
  have flow : ∃ rest, Flow x.st.store rest := by
    refine start.always sound meets
      (fun _ _ _ _ safe => safe) (fun i s s' safe taken => ?_) (inv_fresh data).flow run
    rwa [(Drift.intr taken).store]
  obtain ⟨rest, flow⟩ := flow
  refine ⟨flow.delivered, ⟨rest, flow.chunked, flow.last⟩, flow.sizes, flow.returned, ?_, ?_⟩
  · have := flow.room
    omega
  · intro stuck p inside
    obtain ⟨T, inv, out⟩ := (start.reach sound meets run).inv stuck.1
    exact stuck_of_inv inv out stuck inside

/-- A writer with the bytes 0, 1, 2, … -/
def counting : Int → Byte := fun i => BitVec.ofInt 8 i

def newPipe : Config Pid World := System.quiet (fresh fun _ => 0)

/-- A reader and a writer that wait for each other: the reader sleeps first, and a
write of 5000 bytes goes through in two chunks. -/
theorem delivers_of_run_both : ∃ x, sharing.Reach (System.Calls Call.proper) newPipe x ∧
    x.st.store.reads.map (·.val1) = [100, 3996] ∧ x.st.store.chunks.map (·.left) = [5000, 904] ∧
    Delivers x := by
  obtain ⟨x, run, reads, chunks⟩ := (sharing.only Call.proper).exists_of_play 200 newPipe
    [.call 1 (.read 100), .call 2 (.write counting 5000), .dispatch 1, .call 1 (.read 4000), .dispatch 2]
    (fun x => x.st.store.reads.map (·.val1) = [100, 3996] ∧
      x.st.store.chunks.map (·.left) = [5000, 904]) (by decide +kernel)
  have proper := sharing.reach_only_iff.mp run
  exact ⟨x, proper, reads, chunks, delivers_of_run proper⟩

/-- Six bytes are read, then minus five, then ten: five bytes are read twice. -/
theorem read_negative_repeats : ∃ x, sharing.Reach (fun _ _ => True) newPipe x ∧
    ¬ x.st.store.got <+: x.st.store.stored :=
  sharing.exists_of_play 200 newPipe
    [.call 1 (.write counting 10), .call 2 (.read 6), .call 2 (.read (-5)), .call 2 (.read 10)] _
    (by decide +kernel)

end V7Besm.Pipe

import V7Besm.Bio.Steps

/-!
Steps that concern the block a header stands for: what the history and the
platters say of it, and the queue of its driver.
-/

namespace V7Besm.Bio

open Function

variable {c c' : Cache} {L L' : Lists} {st : Hdr → Cond} {bp bq : Hdr} {p : Pid} {k : Snap}
  {m : Major} {w : Bool}

/-! ### Flags that do not matter -/

theorem Fit.wanted {v : Look} {x : Cond} (fit : Fit v x) (b : Bool) :
    Fit { v with flags := { v.flags with wanted := b } } x := by
  cases x with
  | head => exact fit
  | free => exact { fit with }
  | held q k w => exact { fit with }
  | io q r d b => exact { fit with }
  | async => exact { fit with }
  | pinned d =>
    have held := fit.held
    exact ⟨fit.async, { held with snap := rfl }, fit.delwri, fun d e => { (fit.clean d e) with }⟩

theorem Inv.wanted (inv : Inv c L st) (bp : Hdr) (b : Bool) :
    Inv (c.flag bp fun f => { f with wanted := b }) L st := by
  have := inv.touch bp
    (fun b' => { b' with flags := { b'.flags with wanted := b } }) (inv.head bp)
    (fun _ => ⟨rfl, rfl, rfl, rfl⟩) ((inv.fit bp).wanted b)
  rwa [update_eq_self] at this

/-- Nobody minds `B_AGE` on a header that no process holds. -/
theorem Inv.age (inv : Inv c L st) (loose : st bp = .free ∨ st bp = .async) (b : Bool) :
    Inv (c.flag bp fun f => { f with age := b }) L st := by
  have fit := inv.fit bp
  have := inv.touch bp
    (fun b' => { b' with flags := { b'.flags with age := b } }) (inv.head bp)
    (fun _ => ⟨rfl, rfl, rfl, rfl⟩) (by
      rcases loose with is | is
      · rw [is] at fit ⊢
        exact { fit with }
      · rw [is] at fit ⊢
        exact { fit with })
  rwa [update_eq_self] at this

/-! ### Blocks -/

theorem update_block {α : Type} (f : Dev → Int → α) (dev dev' : Dev) (blkno blkno' : Int) (x : α)
    (ne : ¬ (dev' = dev ∧ blkno' = blkno)) :
    update f dev (update (f dev) blkno x) dev' blkno' = f dev' blkno' := by
  by_cases e : dev' = dev
  · subst e
    rw [update_self, update_of_ne (fun e' => ne ⟨rfl, e'⟩)]
  · rw [update_of_ne e]

/-- A step that changes what is said of the block of one header. -/
theorem Inv.at_block (inv : Inv c L st) {x : Cond} (pool : bp.isPool = true)
    (dev : (c.buf bp).dev ≠ NODEV) (head : x ≠ .head) (buf : c'.buf = c.buf)
    (queue : c'.queue = c.queue) (faulty : c'.faulty = c.faulty)
    (off : ∀ d b, ¬ (d = (c.buf bp).dev ∧ b = (c.buf bp).blkno) → c'.disk d b = c.disk d b ∧
      c'.last d b = c.last d b ∧ c'.lastResid d b = c.lastResid d b)
    (here : Fit (look c' bp) x) : Inv c' L (update st bp x) := by
  refine inv.step (inv.wired.congr fun _ => by rw [buf]; exact ⟨rfl, rfl, rfl, rfl⟩)
    (by simp [head, pool]) here (fun bq ne pool' => ?_) (fun _ _ => by rw [buf])
    (fun _ _ _ => by rw [queue]; exact id) (by rw [queue]; exact inv.nodup) fun d b rel absent => ?_
  · -- two headers of the pool stand for different blocks
    obtain ⟨disk, last, resid⟩ := off _ _ fun same =>
      ne (inv.wired.unique bp bq pool pool' dev same.1.symm same.2.symm).symm
    simp only [look, lookOf, Reliable, buf, queue, faulty, disk, last, resid]
  · rw [Absent, buf] at absent
    obtain ⟨disk, last, -⟩ := off d b fun same => absent bp pool ⟨same.1.symm, same.2.symm⟩
    rw [disk, last]
    exact inv.away d b ((reliable_congr faulty).mp rel) absent

/-- The history takes the words of a header that a process holds. -/
theorem Inv.record (inv : Inv c L st) (held : st bp = .held p k w) (dev : (c.buf bp).dev ≠ NODEV) :
    Inv (written bp c) L (update st bp (.held p (look (written bp c) bp).snap true)) ∧
      (look (written bp c) bp).last = (c.buf bp).data := by
  obtain ⟨fit, pool⟩ := inv.held held
  have eq : written bp c = c.setLast (c.buf bp).dev (c.buf bp).blkno (c.buf bp).data := by
    rw [written, if_neg dev]
  rw [eq]
  refine ⟨inv.at_block pool dev nofun rfl rfl rfl ?_ ?_, ?_⟩
  · exact fun d b other => ⟨rfl, update_block _ _ _ _ _ _ other, rfl⟩
  · exact { fit with snap := rfl, disk := fun _ _ h => by simp at h }
  · simp [look, lookOf, Cache.setLast]

/-- The history takes the residue of a header that a process holds. -/
theorem Inv.recordResid (inv : Inv c L st) (held : st bp = .held p k w) (dev : (c.buf bp).dev ≠ NODEV) :
    Inv (putOff bp c) L (update st bp (.held p (look (putOff bp c) bp).snap w)) := by
  obtain ⟨fit, pool⟩ := inv.held held
  exact inv.at_block pool dev nofun rfl rfl rfl
    (fun d b other => ⟨rfl, rfl, update_block _ _ _ _ _ _ other⟩)
    { fit with snap := rfl }

/-- The platter takes the words of a header that its driver has taken up. -/
theorem Inv.write (inv : Inv c L st) (held : st bp = .held p k true)
    (dev : (c.buf bp).dev ≠ NODEV) (words : Words) :
    Inv (c.write (c.buf bp).dev (c.buf bp).blkno words) L st := by
  obtain ⟨fit, pool⟩ := inv.held held
  have same : Inv (c.write (c.buf bp).dev (c.buf bp).blkno words) L
      (update st bp (.held p k true)) := inv.at_block pool dev nofun rfl rfl rfl
    (fun d b other => ⟨update_block _ _ _ _ _ _ other, rfl, rfl⟩)
    { fit with disk := fun _ _ h => by simp at h }
  rwa [← held, update_eq_self] at same

/-! ### Into a queue and out of it -/

theorem mem_setQueue {m' : Major} {q : List Hdr} :
    bq ∈ (setQueue m q c).queue m' ↔ if m' = m then bq ∈ q else bq ∈ c.queue m' := by
  simp only [setQueue, update_apply]
  split <;> exact Iff.rfl

/-- A step that puts one header into a queue or takes it out. -/
theorem Inv.requeue (inv : Inv c L st) {x : Cond} {q : List Hdr}
    (pool : bp.isPool = true) (head : x ≠ .head) (nodup : q.Nodup)
    (others : ∀ bq, bq ≠ bp → (bq ∈ q ↔ bq ∈ c.queue m))
    (here : Fit (look (setQueue m q c) bp) x) : Inv (setQueue m q c) L (update st bp x) := by
  have mem : ∀ bq m', bq ≠ bp → (bq ∈ (setQueue m q c).queue m' ↔ bq ∈ c.queue m') := by
    intro bq m' ne
    rw [mem_setQueue]
    split
    · rename_i e
      rw [e, others bq ne]
    · rfl
  refine inv.step (inv.wired.congr fun _ => ⟨rfl, rfl, rfl, rfl⟩)
    (by simp [pool, head]) here (fun bq ne _ => ?_) (fun _ _ => rfl)
    (fun bq m' ne => (mem bq m' ne).mp) (fun m' => ?_) inv.away
  · have same : (fun m' => bq ∈ (setQueue m q c).queue m') = fun m' => bq ∈ c.queue m' :=
      funext fun m' => propext (mem bq m' ne)
    simp only [look, lookOf, same]
    rfl
  · simp only [setQueue, update_apply]
    split
    · exact nodup
    · exact inv.nodup m'

/-- A process hands the header it holds to the driver. -/
theorem Inv.push (inv : Inv c L st) (held : st bp = .held p k w)
    (row : bdevsw (c.buf bp).dev = some m) (done : (c.buf bp).flags.done = false)
    (delwri : (c.buf bp).flags.delwri = false) (request : (look c bp).Request) :
    Inv (setQueue m (c.queue m ++ [bp]) c) L (update st bp
      (if (c.buf bp).flags.async then .async
        else .io p (c.buf bp).flags.read (c.buf bp).dev (c.buf bp).blkno)) := by
  obtain ⟨fit, pool⟩ := inv.held held
  have mem : ∀ m', bp ∈ (setQueue m (c.queue m ++ [bp]) c).queue m' ↔
      bdevsw (c.buf bp).dev = some m' := by
    intro m'
    have idle : bp ∉ c.queue m' := fit.idle m'
    rw [mem_setQueue, row]
    split
    · rename_i e
      simp [e]
    · rename_i e
      simp [idle, Ne.symm e]
  refine inv.requeue pool (by split <;> exact nofun) ?_ (fun bq ne => by simp [ne]) ?_
  · refine List.nodup_append.mpr ⟨inv.nodup m, by simp, ?_⟩
    rintro a mem b mem' rfl
    exact fit.idle m (List.mem_singleton.mp mem' ▸ mem)
  · split
    · rename_i async
      exact ⟨fit.busy, async, delwri, done, ⟨by simp [look, lookOf, setQueue, row], mem⟩, request⟩
    · rename_i sync
      have sync : (c.buf bp).flags.async = false := by simpa using sync
      exact ⟨fit.busy, sync, delwri, rfl, rfl, rfl,
        .inl ⟨done, ⟨by simp [look, lookOf, setQueue, row], mem⟩, request⟩⟩

/-- A header in a queue is a request that has not ended. -/
theorem Inv.queued (inv : Inv c L st) (mem : bp ∈ c.queue m) :
    (st bp = .async ∨ ∃ q, st bp = .io q (c.buf bp).flags.read (c.buf bp).dev (c.buf bp).blkno) ∧
      ((c.buf bp).flags.async = true ↔ st bp = .async) ∧
      (c.buf bp).flags.busy = true ∧ (c.buf bp).flags.done = false ∧
      (c.buf bp).flags.delwri = false ∧ bdevsw (c.buf bp).dev = some m ∧ (look c bp).Request := by
  cases is : st bp with
  | head => exact absurd mem ((inv.fits is).1 m)
  | free => exact absurd mem ((inv.fits is : (look c bp).Free).idle m)
  | held q k w => exact absurd mem ((inv.fits is : (look c bp).Held k w).idle m)
  | pinned d => exact absurd mem ((inv.fits is : (look c bp).Pinned d).held.idle m)
  | async =>
    have fit : (look c bp).Async := inv.fits is
    have async : (c.buf bp).flags.async = true := fit.async
    exact ⟨.inl rfl, by simp [async], fit.busy, fit.done, fit.delwri,
      (fit.queued.2 m).mp mem, fit.request⟩
  | io q r d b =>
    have fit : (look c bp).Io r d b := inv.fits is
    obtain ⟨done, queued, request⟩ := fit.state.resolve_right fun h => h.2.1 m mem
    have sync : (c.buf bp).flags.async = false := fit.async
    refine ⟨.inr ⟨q, ?_⟩, by simp [sync], fit.busy, done, fit.delwri, (queued.2 m).mp mem, request⟩
    rw [← fit.read, ← fit.dev, ← fit.blkno]
    rfl

/-- The driver takes up the first header of its queue; for the moment it holds
it, as a process would. -/
theorem Inv.pop (inv : Inv c L st) {rest : List Hdr} (first : c.queue m = bp :: rest) (p : Pid) :
    Inv (setQueue m rest c) L
      (update st bp (.held p (look (setQueue m rest c) bp).snap true)) := by
  have mem : bp ∈ c.queue m := by simp [first]
  obtain ⟨cond, -, busy, done, delwri, row, request⟩ := inv.queued mem
  have pool : bp.isPool = true := inv.isPool (by rcases cond with h | ⟨q, h⟩ <;> simp [h])
  have nodup := inv.nodup m
  rw [first, List.nodup_cons] at nodup
  refine inv.requeue pool nofun nodup.2 (fun bq ne => by simp [first, ne]) ?_
  refine ⟨busy, fun m' mem' => ?_, rfl, fun _ h => ?_, fun r => (request r).1,
    fun _ _ h => by simp at h⟩
  · rcases em (m' = m) with rfl | ne
    · exact nodup.1 (by simpa using mem_setQueue.mp mem')
    · have mem' := mem_setQueue.mp mem'
      rw [if_neg ne] at mem'
      exact ne (Option.some.inj ((inv.queued mem').2.2.2.2.2.1.symm.trans row))
  · change (c.buf bp).flags.delwri = true at h
    simp [delwri] at h

end V7Besm.Bio

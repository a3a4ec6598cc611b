import V7Besm.Bio.Blocks

/-!
What the interrupts do to the invariant.

A driver ends the request at the head of its queue and starts the next. The
header of a request that nobody waits for becomes free; for every other header
the condition stays what it was (`After`). What a process can rely on about
links and blocks while interrupts are let in is `Drift`.
-/

namespace V7Besm.Bio

open Coop Function List

variable {σ : Type} {s s' : Kernel σ} {c c' c'' : Cache} {L : Lists} {st st' st'' : Hdr → Cond}
  {bp : Hdr} {p : Pid} {k : Snap} {w : Bool}

/-- What interrupts leave alone: the device chains, and the blocks of the
headers, except that a header may lose its block when a transfer of it fails. -/
structure Drift (c c' : Cache) : Prop where
  forw : ∀ h, (c'.buf h).forw = (c.buf h).forw
  blkno : ∀ h, (c'.buf h).blkno = (c.buf h).blkno
  dev : ∀ h, (c'.buf h).dev = (c.buf h).dev ∨ (c'.buf h).dev = NODEV ∧
    (c'.buf h).flags.done = true ∧ ¬ Reliable c (c.buf h).dev (c.buf h).blkno
  done : ∀ h, (c.buf h).flags.done = true → (c'.buf h).flags.done = true
  delwri : ∀ h, (c'.buf h).flags.delwri = (c.buf h).flags.delwri
  faulty : c'.faulty = c.faulty
  last : c'.last = c.last
  lastResid : c'.lastResid = c.lastResid

namespace Drift

theorem refl (c : Cache) : Drift c c :=
  ⟨fun _ => rfl, fun _ => rfl, fun _ => .inl rfl, fun _ => id, fun _ => rfl, rfl, rfl, rfl⟩

theorem trans (first : Drift c c') (second : Drift c' c'') : Drift c c'' where
  forw h := (second.forw h).trans (first.forw h)
  blkno h := (second.blkno h).trans (first.blkno h)
  dev h := by
    rcases second.dev h with e | ⟨e, done, bad⟩
    · rw [e]
      rcases first.dev h with e | ⟨e, done, bad⟩
      · exact .inl e
      · exact .inr ⟨e, second.done h done, bad⟩
    · rcases first.dev h with e' | ⟨e', -, bad'⟩
      · rw [e', first.blkno h, reliable_congr first.faulty] at bad
        exact .inr ⟨e, done, bad⟩
      · exact .inr ⟨e, done, bad'⟩
  done h := second.done h ∘ first.done h
  delwri h := (second.delwri h).trans (first.delwri h)
  faulty := second.faulty.trans first.faulty
  last := second.last.trans first.last
  lastResid := second.lastResid.trans first.lastResid

theorem of_buf (buf : c'.buf = c.buf) (faulty : c'.faulty = c.faulty) (last : c'.last = c.last)
    (lastResid : c'.lastResid = c.lastResid) : Drift c c' := by
  refine ⟨fun h => ?_, fun h => ?_, fun h => .inl ?_, fun h => ?_, fun h => ?_, faulty, last,
    lastResid⟩ <;> rw [buf]
  exact id

theorem set (c : Cache) (bp : Hdr) (f : Buf → Buf) (keep : ∀ b, (f b).forw = b.forw ∧
      (f b).blkno = b.blkno ∧ (f b).dev = b.dev ∧ (b.flags.done = true → (f b).flags.done = true) ∧
      (f b).flags.delwri = b.flags.delwri) : Drift c (c.set bp f) :=
  ⟨buf_set_field c bp f Buf.forw fun b => (keep b).1,
    buf_set_field c bp f Buf.blkno fun b => (keep b).2.1,
    fun h => .inl (buf_set_field c bp f Buf.dev (fun b => (keep b).2.2.1) h), fun h is => by
      rw [buf_set_at c bp f fun b => b.flags.done]
      split
      · rename_i e
        exact (keep _).2.2.2.1 (e ▸ is)
      · exact is,
    buf_set_field c bp f (fun b => b.flags.delwri) fun b => (keep b).2.2.2.2, rfl, rfl, rfl⟩

theorem drop (c : Cache) (bad : (c.buf bp).flags.error = true → (c.buf bp).flags.done = true ∧
    ¬ Reliable c (c.buf bp).dev (c.buf bp).blkno) : Drift c (dropError bp c) := by
  unfold dropError
  split
  · rename_i error
    have field := fun {α : Type} (g : Buf → α) => buf_set_field c bp (fun b => { b with dev := NODEV }) g
    refine ⟨field Buf.forw (fun _ => rfl), field Buf.blkno (fun _ => rfl), fun h => ?_, fun h is => ?_,
      field (fun b => b.flags.delwri) (fun _ => rfl), rfl, rfl, rfl⟩
    · by_cases e : h = bp
      · subst e
        rw [buf_set_self]
        exact .inr ⟨rfl, bad error⟩
      · rw [buf_set_of_ne c bp _ e]
        exact .inl rfl
    · rwa [field (fun b => b.flags.done) (fun _ => rfl)]
  · exact refl c

theorem links (only : OnlyHeaders c c') (forw : ∀ h, (c'.buf h).forw = (c.buf h).forw)
    (same : ∀ h, body (c'.buf h) = body (c.buf h)) : Drift c c' := by
  simp only [body, Prod.mk.injEq] at same
  exact ⟨forw, fun h => (same h).2.2.1, fun h => .inl (same h).2.1,
    fun h is => (same h).1 ▸ is, fun h => by rw [(same h).1], only.faulty, only.last, only.lastResid⟩

theorem put (bp : Hdr) (c : Cache) : Drift c (putAvail bp c) := by
  unfold putAvail
  refine trans ?_ (set _ bp _ fun _ => ⟨rfl, rfl, rfl, id, rfl⟩)
  split
  · exact links ⟨rfl, rfl, rfl, rfl, rfl⟩ (fun h => by simp [linkFront]) (fun h => by simp [linkFront])
  · exact links ⟨rfl, rfl, rfl, rfl, rfl⟩ (fun h => by simp [linkBack]) (fun h => by simp [linkBack])

end Drift

/-! ### The end of a request -/

/-- What `wakeFree` does to the headers. -/
def clearFree (c : Cache) : Cache :=
  if (c.buf .bfreelist).flags.wanted then c.flag .bfreelist fun f => { f with wanted := false }
  else c

theorem cache_wakeWanted (bp : Hdr) (s : Kernel σ) : (wakeWanted bp s).cache = s.cache := by
  unfold wakeWanted
  split <;> rfl

theorem cache_wakeFree (s : Kernel σ) : (wakeFree s).cache = clearFree s.cache := by
  unfold wakeFree clearFree Kernel.buf
  split <;> rfl

attribute [local simp] Kernel.onCache Kernel.buf setQueue

theorem cache_release (bp : Hdr) (s : Kernel σ) :
    (release bp s).cache = putAvail bp (dropError bp (clearFree s.cache)) := by
  simp [release, cache_wakeFree, cache_wakeWanted]

theorem Inv.cleared (inv : Inv c L st) : Inv (clearFree c) L st := by
  unfold clearFree
  split
  · exact inv.wanted _ _
  · exact inv

theorem buf_clearFree (pool : bp.isPool = true) : (clearFree c).buf bp = c.buf bp := by
  unfold clearFree
  split
  · exact buf_set_of_ne _ _ _ (by rintro rfl; simp [Hdr.isPool] at pool)
  · rfl

theorem only_clearFree (c : Cache) : OnlyHeaders c (clearFree c) := by
  unfold clearFree
  split <;> exact ⟨rfl, rfl, rfl, rfl, rfl⟩

/-- A header that lost its block for an error, or has none, can be released as
it is. -/
theorem clean_dropError (clean : (c.buf bp).flags.error = false → (look c bp).Clean) :
    (look (dropError bp c) bp).Clean := by
  unfold dropError
  split
  · have nodev : ¬ Reliable c NODEV (c.buf bp).blkno := fun r => r.ne_nodev rfl
    rw [look_set_self]
    exact ⟨fun d => absurd rfl d, fun r => absurd r nodev, fun r => absurd r nodev⟩
  · rename_i error
    exact clean (by simpa using error)

/-- A process, or a driver, releases the header it holds. -/
theorem Inv.letGo (inv : Inv s.cache L st) (held : st bp = .held p k w)
    (clean : (s.buf bp).flags.error = false → (look s.cache bp).Clean) :
    ∃ L', Inv (release bp s).cache L' (update st bp .free) := by
  have pool : bp.isPool = true := inv.isPool (by simp [held])
  have same := buf_clearFree (c := s.cache) pool
  have first := inv.cleared.drop held
  rw [cache_release]
  have second := first.put (update_self ..) (clean_dropError fun e => by
    rw [same] at e
    rw [look_congr (only_clearFree s.cache) (by rw [same])]
    exact clean e)
  simpa using second

theorem buf_flag_self (c : Cache) (bp : Hdr) (f : Flags → Flags) :
    (c.flag bp f).buf bp = { c.buf bp with flags := f (c.buf bp).flags } := buf_set_self ..

theorem look_flag_self (c : Cache) (bp : Hdr) (f : Flags → Flags) : look (c.flag bp f) bp =
    lookOf c bp { c.buf bp with flags := f (c.buf bp).flags } := look_set_self ..

/-- A driver marks the request it has taken up as done. -/
theorem Inv.ended (inv : Inv s.cache L st) (held : st bp = .held p k w)
    (delwri : (s.buf bp).flags.delwri = false) (settled : (look s.cache bp).Settled) (q : Pid) :
    ∃ L', Inv (complete bp s).cache L' (update st bp
      (if (s.buf bp).flags.async then .free
        else .io q (s.buf bp).flags.read (s.buf bp).dev (s.buf bp).blkno)) := by
  obtain ⟨fit, pool⟩ := inv.held held
  have done := inv.touch bp (x := .held p { k with flags := { k.flags with done := true } } false)
    (fun b => { b with flags := { b.flags with done := true } }) (by simp [pool])
    (fun _ => ⟨rfl, rfl, rfl, rfl⟩)
    ⟨fit.busy, fit.idle, by rw [← fit.snap]; rfl, fun _ _ => rfl, fit.error,
      fun r _ _ => (settled r).2.2.1⟩
  have self := buf_flag_self s.cache bp fun f => { f with done := true }
  unfold complete
  by_cases async : (s.buf bp).flags.async = true
  · rw [if_pos (by simpa [self] using async), if_pos async]
    have after := done.letGo (s := s.onCache (·.flag bp fun f => { f with done := true }))
      (update_self ..) fun _ => by
        rw [Kernel.cache_onCache, look_flag_self]
        exact ⟨fun _ h => by simp only [lookOf] at h; exact absurd (delwri.symm.trans h) (by simp),
          fun r _ => ⟨(settled r).2.1, .inl (settled r).2.2.2⟩, fun r _ => (settled r).2.2.1⟩
    simpa using after
  · rw [if_neg (by simpa [self] using async), if_neg async]
    have sync : (s.cache.buf bp).flags.async = false := by simpa using async
    have after := (done.wanted bp false).relabel bp
      (x := .io q (s.buf bp).flags.read (s.buf bp).dev (s.buf bp).blkno) (by simp [pool]) (by
        rw [look_flag_self, buf_set_self]
        exact ⟨fit.busy, sync, delwri, rfl, rfl, rfl, .inr ⟨rfl, fit.idle, settled⟩⟩)
    rw [update_idem] at after
    exact ⟨L, after⟩

theorem only_dropError (bp : Hdr) (c : Cache) : OnlyHeaders c (dropError bp c) := by
  unfold dropError
  split <;> exact ⟨rfl, rfl, rfl, rfl, rfl⟩

theorem only_putAvail (bp : Hdr) (c : Cache) : OnlyHeaders c (putAvail bp c) := by
  unfold putAvail
  split <;> exact ⟨rfl, rfl, rfl, rfl, rfl⟩

theorem only_release (bp : Hdr) (s : Kernel σ) : OnlyHeaders s.cache (release bp s).cache := by
  rw [cache_release]
  exact (only_clearFree s.cache).trans ((only_dropError bp _).trans (only_putAvail bp _))

theorem only_complete (bp : Hdr) (s : Kernel σ) : OnlyHeaders s.cache (complete bp s).cache := by
  unfold complete
  dsimp only
  split
  · have done := OnlyHeaders.set s.cache bp fun b => { b with flags := { b.flags with done := true } }
    exact done.trans (only_release bp (s.onCache (·.flag bp fun f => { f with done := true })))
  · exact ⟨rfl, rfl, rfl, rfl, rfl⟩

theorem drift_clearFree (c : Cache) : Drift c (clearFree c) := by
  unfold clearFree
  split
  · exact .set c _ _ fun _ => ⟨rfl, rfl, rfl, id, rfl⟩
  · exact .refl c

theorem drift_release (pool : bp.isPool = true)
    (bad : (s.buf bp).flags.error = true → (s.buf bp).flags.done = true ∧
      ¬ Reliable s.cache (s.buf bp).dev (s.buf bp).blkno) :
    Drift s.cache (release bp s).cache := by
  have clear := drift_clearFree s.cache
  rw [cache_release]
  refine clear.trans (.trans (.drop _ ?_) (.put bp _))
  rwa [buf_clearFree pool, reliable_congr clear.faulty]

theorem drift_complete (pool : bp.isPool = true) (bad : (s.buf bp).flags.error = true →
      ¬ Reliable s.cache (s.buf bp).dev (s.buf bp).blkno) :
    Drift s.cache (complete bp s).cache := by
  have done := Drift.set s.cache bp (fun b => { b with flags := { b.flags with done := true } })
    fun _ => ⟨rfl, rfl, rfl, fun _ => rfl, rfl⟩
  have self := buf_flag_self s.cache bp fun f => { f with done := true }
  unfold complete
  dsimp only
  split
  · refine done.trans (drift_release (s := s.onCache (·.flag bp fun f => { f with done := true }))
      pool ?_)
    rw [Kernel.buf, Kernel.cache_onCache, self]
    exact fun error => ⟨rfl, bad error⟩
  · have wanted := Drift.set (s.cache.flag bp fun f => { f with done := true }) bp
      (fun b => { b with flags := { b.flags with wanted := false } })
      fun _ => ⟨rfl, rfl, rfl, id, rfl⟩
    exact done.trans wanted

/-! ### The driver -/

/-- The conditions after an interrupt: requests that nobody waits for may have
ended. -/
def After (st st' : Hdr → Cond) : Prop := ∀ bp, st' bp = st bp ∨ st bp = .async ∧ st' bp = .free

theorem After.refl (st : Hdr → Cond) : After st st := fun _ => .inl rfl

theorem After.trans (first : After st st') (second : After st' st'') : After st st'' := by
  intro bp
  rcases second bp with e | ⟨async, free⟩
  · rw [e]
    exact first bp
  · rcases first bp with e | ⟨-, free'⟩
    · exact .inr ⟨e ▸ async, free⟩
    · rw [async] at free'
      cases free'

variable {m : Major} {rest : List Hdr}

/-- The header at the head of the queue has moved its words, and the driver is
done with it. -/
theorem Inv.finish (inv : Inv c L st) (first : c.queue m = bp :: rest)
    (held : Inv s.cache L (update st bp (.held p k w)))
    (flags : (s.buf bp).flags.async = (c.buf bp).flags.async ∧
      (s.buf bp).flags.read = (c.buf bp).flags.read ∧ (s.buf bp).flags.delwri = false)
    (dev : (s.buf bp).dev = (c.buf bp).dev) (blkno : (s.buf bp).blkno = (c.buf bp).blkno)
    (settled : (look s.cache bp).Settled) :
    ∃ L' st', Inv (complete bp s).cache L' st' ∧ After st st' := by
  obtain ⟨cond, async, -⟩ := inv.queued (first ▸ mem_cons_self)
  rcases cond with is | ⟨q, is⟩
  · obtain ⟨L', done⟩ := held.ended (update_self ..) flags.2.2 settled 0
    rw [if_pos (by rw [flags.1, async, is]), update_idem] at done
    refine ⟨L', _, done, fun bq => ?_⟩
    by_cases e : bq = bp
    · subst e
      exact .inr ⟨is, update_self ..⟩
    · exact .inl (update_of_ne e ..)
  · obtain ⟨L', done⟩ := held.ended (update_self ..) flags.2.2 settled q
    have sync : ¬ (s.buf bp).flags.async = true := by
      rw [flags.1, async, is]
      simp
    rw [if_neg sync, update_idem, flags.2.1, dev, blkno, ← is, update_eq_self] at done
    exact ⟨L', st, done, .refl st⟩

/-- Words are moved between a header that its driver has taken up and its block. -/
theorem Inv.transferred (inv : Inv c L st) (held : st bp = .held p k true)
    (dev : (c.buf bp).dev ≠ NODEV) (into onto : Words) :
    ∃ k, Inv (transfer bp into onto c) L (update st bp (.held p k true)) := by
  obtain ⟨fit, pool⟩ := inv.held held
  unfold transfer
  dsimp only
  split
  · refine ⟨{ k with data := into }, inv.touch bp (fun b => { b with data := into }) (by simp [pool])
      (fun _ => ⟨rfl, rfl, rfl, rfl⟩) ?_⟩
    exact { fit with snap := by rw [← fit.snap]; rfl, disk := fun _ _ h => by simp at h }
  · refine ⟨k, ?_⟩
    rw [← held, update_eq_self]
    exact inv.write held dev onto

theorem setQueue_transfer (m : Major) (l : List Hdr) (into onto : Words) :
    setQueue m l (transfer bp into onto c) = transfer bp into onto (setQueue m l c) := by
  unfold transfer
  dsimp only [setQueue]
  split <;> rfl

/-- The words that are moved are the only change to a header. -/
theorem buf_transfer (into onto : Words) : (transfer bp into onto c).buf bp =
    if (c.buf bp).flags.read then { c.buf bp with data := into } else c.buf bp := by
  unfold transfer
  dsimp only
  split
  · rw [buf_set_self]
  · rfl

theorem transfer_same (bp : Hdr) (into onto : Words) (c : Cache) :
    ((transfer bp into onto c).buf bp).flags = (c.buf bp).flags ∧
      ((transfer bp into onto c).buf bp).dev = (c.buf bp).dev ∧
      ((transfer bp into onto c).buf bp).blkno = (c.buf bp).blkno ∧
      (transfer bp into onto c).faulty = c.faulty := by
  rw [buf_transfer]
  refine ⟨?_, ?_, ?_, ?_⟩
  · split <;> rfl
  · split <;> rfl
  · split <;> rfl
  · unfold transfer
    dsimp only
    split <;> rfl

theorem Inv.queue_pool (inv : Inv c L st) (mem : bp ∈ c.queue m) : bp.isPool = true :=
  inv.isPool (by rcases (inv.queued mem).1 with h | ⟨q, h⟩ <;> simp [h])

/-- The driver gives up on the header it has taken up. -/
theorem Inv.givenUp (inv : Inv c L st) {n : Nat} (first : c.queue m = bp :: rest)
    (held : Inv s.cache L (update st bp (.held p k true)))
    (flags : (s.buf bp).flags = (c.buf bp).flags) (dev : (s.buf bp).dev = (c.buf bp).dev)
    (blkno : (s.buf bp).blkno = (c.buf bp).blkno)
    (faulty : s.cache.faulty (c.buf bp).dev (c.buf bp).blkno = true) :
    ∃ L' st', Inv (giveUp bp n s).cache L' st' ∧ After st st' := by
  obtain ⟨-, -, -, done, delwri, row, -⟩ := inv.queued (first ▸ mem_cons_self)
  have pool := inv.queue_pool (first ▸ mem_cons_self)
  have fit : (look s.cache bp).Held k true := held.fits (update_self ..)
  have unreliable : ¬ Reliable s.cache (s.buf bp).dev (s.buf bp).blkno := by
    rintro ⟨m, -, -, ok⟩
    rw [dev, blkno, faulty] at ok
    cases ok
  have touched := held.touch bp
    (x := .held p { k with flags := { k.flags with error := true }, resid := k.wcount - n } true)
    (fun b => { b with flags := { b.flags with error := true }, resid := b.wcount - n })
    (by simp [pool]) (fun _ => ⟨rfl, rfl, rfl, rfl⟩)
    ⟨fit.busy, fit.idle, by rw [← fit.snap]; rfl, fit.delwri, fun r => absurd r unreliable,
      fun r => absurd r unreliable⟩
  rw [update_idem] at touched
  refine inv.finish first touched ?_ ?_ ?_ ?_
  · simp only [Kernel.buf, Kernel.onCache, buf_set_self]
    change (s.cache.buf bp).flags = _ at flags
    rw [flags]
    exact ⟨rfl, rfl, delwri⟩
  · simpa using dev
  · simpa using blkno
  · rw [Kernel.cache_onCache, look_set_self]
    exact fun r => absurd r unreliable

/-- `start` only ends requests that are refused. -/
theorem Inv.started {l : List Hdr} (inv : Inv s.cache L st) (queue : s.cache.queue m = l) :
    ∃ L' st', Inv (start m l s).cache L' st' ∧ After st st' := by
  induction l generalizing s L st with
  | nil => exact ⟨L, st, inv, .refl st⟩
  | cons bp rest ih =>
    rw [start]
    split
    · rename_i refused
      have faulty := ((Bool.and_eq_true ..).mp refused).2
      obtain ⟨L₁, st₁, inv₁, after₁⟩ := inv.givenUp
        (s := s.onCache (setQueue m rest)) queue (inv.pop queue 0) rfl rfl rfl faulty
      have rest' : (giveUp bp 0 (s.onCache (setQueue m rest))).cache.queue m = rest := by
        unfold giveUp
        rw [(only_complete bp _).queue]
        simp [Cache.set]
      obtain ⟨L₂, st₂, inv₂, after₂⟩ := ih inv₁ rest'
      exact ⟨L₂, st₂, inv₂, after₁.trans after₂⟩
    · exact ⟨L, st, inv, .refl st⟩

theorem Inv.handed (inv : Inv s.cache L st) (held : st bp = .held p k w)
    (row : bdevsw (s.buf bp).dev = some m) (done : (s.buf bp).flags.done = false)
    (delwri : (s.buf bp).flags.delwri = false) (request : (look s.cache bp).Request) :
    ∃ L' st', Inv (enqueue m bp s).cache L' st' ∧ After (update st bp
      (if (s.buf bp).flags.async then .async
        else .io p (s.buf bp).flags.read (s.buf bp).dev (s.buf bp).blkno)) st' := by
  have pushed := inv.push held row done delwri request
  unfold enqueue
  split
  · exact Inv.started (s := s.onCache (setQueue m (s.cache.queue m ++ [bp]))) pushed
      (by simp)
  · exact ⟨L, _, pushed, .refl _⟩

theorem Inv.restarted (inv : Inv s.cache L st') (after : After st st')
    (queue : s.cache.queue m = rest) :
    ∃ L' st', Inv (start m rest s).cache L' st' ∧ After st st' := by
  obtain ⟨L', st'', inv', after'⟩ := inv.started queue
  exact ⟨L', st'', inv', after.trans after'⟩

/-- The driver takes up a request and moves its words. -/
theorem Inv.served (inv : Inv c L st) (first : c.queue m = bp :: rest) (into onto : Words) :
    ∃ k, Inv (setQueue m rest (transfer bp into onto c)) L
      (update st bp (.held 0 k true)) := by
  obtain ⟨-, -, -, -, -, row, -⟩ := inv.queued (first ▸ mem_cons_self)
  have dev : (c.buf bp).dev ≠ NODEV := fun e => by simp [e, bdevsw_nodev] at row
  obtain ⟨k, moved⟩ := (inv.pop first 0).transferred (update_self ..) dev into onto
  rw [update_idem] at moved
  rw [setQueue_transfer]
  exact ⟨k, moved⟩

/-- The request at the head of the queue fails part of the way. -/
theorem Inv.failed (inv : Inv s.cache L st) (first : s.cache.queue m = bp :: rest)
    (faulty : s.cache.faulty (s.buf bp).dev (s.buf bp).blkno = true) (n : Nat) :
    ∃ L' st', Inv (giveUp bp n (s.onCache fun c => setQueue m rest (movePart bp n c))).cache L' st' ∧
      After st st' := by
  obtain ⟨k, moved⟩ : ∃ k, Inv (setQueue m rest (movePart bp n s.cache)) L
    (update st bp (.held 0 k true)) := inv.served first ..
  have same := fun into onto => transfer_same bp into onto s.cache
  exact inv.givenUp first moved (same ..).1 (same ..).2.1 (same ..).2.2.1
    ((congrFun (congrFun (same ..).2.2.2 _) _).trans faulty)

/-- All the words of a request to read, or to write, that does what it should. -/
theorem settled_moveAll (request : (look c bp).Request) :
    (lookOf (setQueue m rest (moveAll bp c)) bp
      { (moveAll bp c).buf bp with resid := 0 }).Settled := by
  unfold moveAll transfer
  dsimp only
  split
  · rename_i read
    intro r
    rw [buf_set_self] at r ⊢
    obtain ⟨error, disk⟩ := request r
    have disk : c.disk (c.buf bp).dev (c.buf bp).blkno = c.last (c.buf bp).dev (c.buf bp).blkno := by
      change (if (c.buf bp).flags.read = true then _ else _) at disk
      rwa [if_pos read] at disk
    exact ⟨error, disk, disk, rfl⟩
  · rename_i write
    intro r
    obtain ⟨error, data⟩ := request r
    have data : (c.buf bp).data = c.last (c.buf bp).dev (c.buf bp).blkno := by
      change (if (c.buf bp).flags.read = true then _ else _) at data
      rwa [if_neg write] at data
    refine ⟨error, data, ?_, rfl⟩
    simpa [lookOf, Cache.write] using data

theorem settled_done (request : (look c bp).Request) (m : Major) (rest : List Hdr) :
    (look (setQueue m rest ((moveAll bp c).set bp fun b => { b with resid := 0 })) bp).Settled := by
  have eq := look_set_self (setQueue m rest (moveAll bp c)) bp fun b => { b with resid := 0 }
  exact eq.symm ▸ settled_moveAll request

/-- The request at the head of the queue ends well. -/
theorem Inv.moved (inv : Inv s.cache L st) (first : s.cache.queue m = bp :: rest) :
    ∃ L' st', Inv (complete bp (s.onCache fun c =>
      setQueue m rest ((moveAll bp c).set bp fun b => { b with resid := 0 }))).cache L' st' ∧
      After st st' := by
  obtain ⟨-, -, -, -, delwri, -, request⟩ := inv.queued (first ▸ mem_cons_self)
  have pool := inv.queue_pool (first ▸ mem_cons_self)
  obtain ⟨k, served⟩ := inv.served first
    (s.cache.disk (s.cache.buf bp).dev (s.cache.buf bp).blkno) (s.cache.buf bp).data
  have fit : (look (setQueue m rest (moveAll bp s.cache)) bp).Held k true :=
    served.fits (update_self ..)
  have touched := served.touch bp (x := .held 0 { k with resid := 0 } true)
    (fun b => { b with resid := 0 }) (by simp [pool]) (fun _ => ⟨rfl, rfl, rfl, rfl⟩)
    { fit with
      snap := by rw [← fit.snap]; rfl
      disk := fun _ _ h => by simp at h }
  rw [update_idem] at touched
  obtain ⟨flags, dev, blkno, -⟩ := transfer_same bp
    (s.cache.disk (s.cache.buf bp).dev (s.cache.buf bp).blkno) (s.cache.buf bp).data s.cache
  refine inv.finish (s := s.onCache fun c =>
      setQueue m rest ((moveAll bp c).set bp fun b => { b with resid := 0 })) first touched
    ?_ ?_ ?_ (settled_done request m rest)
  · simp only [Kernel.buf, Kernel.cache_onCache, setQueue, moveAll, buf_set_self, flags]
    exact ⟨trivial, trivial, delwri⟩
  · simp only [Kernel.buf, Kernel.cache_onCache, setQueue, moveAll, buf_set_self, dev]
  · simp only [Kernel.buf, Kernel.cache_onCache, setQueue, moveAll, buf_set_self, blkno]

/-- Every interrupt keeps the invariant. -/
theorem Inv.intr (inv : Inv s.cache L st) {i : Intr} (taken : Bio.intr i s = some s') :
    ∃ L' st', Inv s'.cache L' st' ∧ After st st' := by
  cases i with
  | done m =>
    simp only [Bio.intr] at taken
    split at taken
    · cases taken
    · rename_i bp rest first
      cases taken
      obtain ⟨L₁, st₁, inv₁, after₁⟩ := inv.moved first
      exact inv₁.restarted after₁ (by
        rw [(only_complete bp _).queue]
        simp)
  | fail m n =>
    simp only [Bio.intr] at taken
    split at taken
    · cases taken
    rename_i bp rest first
    split at taken
    · rename_i fails
      cases taken
      rw [Bool.and_eq_true] at fails
      obtain ⟨L₁, st₁, inv₁, after₁⟩ := inv.failed first fails.1 n
      exact inv₁.restarted after₁ (by
        unfold giveUp
        rw [(only_complete bp _).queue]
        simp [Cache.set])
    · cases taken
  | power b =>
    cases taken
    exact ⟨L, st, { inv with wired := inv.wired.congr fun _ => ⟨rfl, rfl, rfl, rfl⟩ }, .refl st⟩

/-! ### What the interrupts leave alone -/

theorem drift_transfer (into onto : Words) : Drift c (transfer bp into onto c) := by
  unfold transfer
  dsimp only
  split
  · exact .set c bp _ fun _ => ⟨rfl, rfl, rfl, id, rfl⟩
  · exact .of_buf rfl rfl rfl rfl

theorem drift_setQueue (m : Major) (l : List Hdr) (c : Cache) : Drift c (setQueue m l c) :=
  .of_buf rfl rfl rfl rfl

theorem drift_giveUp (pool : bp.isPool = true) (n : Nat)
    (faulty : s.cache.faulty (s.buf bp).dev (s.buf bp).blkno = true) :
    Drift s.cache (giveUp bp n s).cache := by
  have error := Drift.set s.cache bp
    (fun b => { b with flags := { b.flags with error := true }, resid := b.wcount - n })
    fun _ => ⟨rfl, rfl, rfl, id, rfl⟩
  refine error.trans (drift_complete (s := s.onCache (·.set bp fun b =>
    { b with flags := { b.flags with error := true }, resid := b.wcount - n })) pool fun _ => ?_)
  rintro ⟨m, -, -, ok⟩
  simp only [Kernel.buf, Kernel.cache_onCache, buf_set_self] at ok
  exact absurd (faulty.symm.trans ok) (by simp)

theorem drift_start {l : List Hdr} (pool : ∀ bp ∈ l, bp.isPool = true) :
    Drift s.cache (start m l s).cache := by
  induction l generalizing s with
  | nil => exact .refl _
  | cons bp rest ih =>
    rw [start]
    split
    · rename_i refused
      have faulty := ((Bool.and_eq_true ..).mp refused).2
      refine .trans ?_ (ih fun bq mem => pool bq (mem_cons_of_mem _ mem))
      exact .trans (drift_setQueue m rest s.cache)
        (drift_giveUp (s := s.onCache (setQueue m rest)) (pool bp mem_cons_self) 0 faulty)
    · exact .refl _

theorem Inv.drift_enqueue (inv : Inv s.cache L st) (pool : bp.isPool = true) :
    Drift s.cache (enqueue m bp s).cache := by
  unfold enqueue
  split
  · refine .trans ?_ (drift_start fun bq mem => ?_)
    · exact drift_setQueue m _ s.cache
    · rcases mem_append.mp mem with mem | mem
      · exact inv.queue_pool mem
      · exact mem_singleton.mp mem ▸ pool
  · exact drift_setQueue m _ s.cache

theorem Inv.drift_intr (inv : Inv s.cache L st) {i : Intr} (taken : Bio.intr i s = some s') :
    Drift s.cache s'.cache := by
  have pool : ∀ {m bp rest}, s.cache.queue m = bp :: rest → ∀ bq ∈ bp :: rest, bq.isPool = true :=
    fun first bq mem => inv.queue_pool (first ▸ mem)
  cases i with
  | done m =>
    simp only [Bio.intr] at taken
    split at taken
    · cases taken
    rename_i bp rest first
    cases taken
    have moved : Drift s.cache (moveAll bp s.cache) := drift_transfer _ _
    have set := Drift.set (moveAll bp s.cache) bp (fun b => { b with resid := 0 })
      fun _ => ⟨rfl, rfl, rfl, id, rfl⟩
    refine .trans (.trans ?_ (drift_complete (pool first bp mem_cons_self) ?_))
      (drift_start fun bq mem => pool first bq (mem_cons_of_mem _ mem))
    · exact moved.trans (set.trans (drift_setQueue m rest _))
    · have request := (inv.queued (first ▸ mem_cons_self)).2.2.2.2.2.2
      have settled := settled_done request m rest
      exact fun error r => Bool.false_ne_true ((settled r).1.symm.trans error)
  | fail m n =>
    simp only [Bio.intr] at taken
    split at taken
    · cases taken
    rename_i bp rest first
    split at taken
    · rename_i fails
      rw [Bool.and_eq_true] at fails
      cases taken
      have moved : Drift s.cache (movePart bp n s.cache) := drift_transfer _ _
      refine .trans (.trans ?_ (drift_giveUp (pool first bp mem_cons_self) n ?_))
        (drift_start fun bq mem => pool first bq (mem_cons_of_mem _ mem))
      · exact moved.trans (drift_setQueue m rest _)
      · simp only [Kernel.buf, Kernel.cache_onCache, setQueue, movePart, transfer_same]
        exact fails.1
    · cases taken
  | power b =>
    cases taken
    exact .of_buf rfl rfl rfl rfl

end V7Besm.Bio

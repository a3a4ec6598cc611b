import V7Besm.Bio.Spec

/-!
Reading and writing a buffer the process holds: `iowait`, `bwrite`, `bawrite`,
`bdwrite` and the start of a read.
-/

namespace V7Besm.Bio

open Coop Coop.Proto Function

variable {σ δ : Type} {C : Client σ δ} {s : Kernel σ} {bp : Hdr} {p : Pid} {k : Snap} {w : Bool}
  {h : Hold} {e : Int} {v v' : View σ} {T T' : Pid → Own δ} {d : δ} {lv : Level} {m : Major}
  {dev : Dev} {blkno : Int} {r : Bool}

/-! ### Waiting -/

/-- A transfer of the block is over; if the block is reliable it went well. -/
structure Snap.Settled (k : Snap) (C : Client σ δ) (r : Bool) (dev : Dev) (blkno : Int) : Prop where
  done : k.flags.done = true
  async : k.flags.async = false
  delwri : k.flags.delwri = false
  read : k.flags.read = r
  dev : k.dev = dev
  blkno : k.blkno = blkno
  good : C.Reliable k.dev k.blkno → k.flags.error = false ∧ k.data = k.last ∧ k.resid = 0

/-- The process that waits for a request holds the header once it is done. -/
theorem Now.settle (now : Now C p h e v s T) (own : h bp = some (.io r dev blkno))
    (done : (s.buf bp).flags.done = true) :
    ∃ k, Now C p (update h bp (some (.held k false))) e v s T ∧ k.Settled C r dev blkno := by
  obtain ⟨fit, pool⟩ : (look s.cache bp).Io r dev blkno ∧ bp.isPool = true := by
    obtain ⟨L, st, inv, tok, pins⟩ := now.cached
    have is := tok p bp
    rw [update_self, own] at is
    have is := Cond.token_io.mp is.symm
    exact ⟨inv.fits is, inv.isPool (by simp [is])⟩
  obtain ⟨-, idle, settled⟩ := fit.state.resolve_left fun h => by
    have := h.1
    change (s.buf bp).flags.done = false at this
    simp [done] at this
  have next := now.step Cond.only_held (.refl s) rfl now.sees rfl fun L st inv tok =>
    ⟨Cond.token_io.mp (tok.symm.trans own) ▸ Cond.only_io, L, _,
      inv.relabel bp (x := .held p _ false) (by simp [pool]) ⟨fit.busy, idle, rfl,
        fun _ _ => done, fun r => (settled r).1, fun r _ _ => (settled r).2.2.1⟩, .refl _⟩
  rw [Cond.token_held_self] at next
  refine ⟨_, next, done, fit.async, fit.delwri, fit.read, fit.dev, fit.blkno, fun r => ?_⟩
  have r := now.reliable.mpr r
  exact ⟨(settled r).1, (settled r).2.1, (settled r).2.2.2⟩

/-- `geterror` sets the `u_error` of the process that runs. -/
theorem Now.geterror (now : Now C p h e v s T) (bp : Hdr)
    {Q : Unit → Kernel σ → (Pid → Own δ) → Prop}
    (post : ∀ s' e', ((s.buf bp).flags.error = false → e' = e) → Now C p h e' v s' T → Q () s' T) :
    C.proto.wp p (geterror bp) Q s T := by
  have set : ∀ x, Now C p h x v { s with error := update s.error p x } T := fun x =>
    { now with error := by simp only [now.error, update_idem] }
  generalize eq : (if (s.buf bp).error = 0 then EIO else (s.buf bp).error) = x
  have next : Now C p h (if (s.buf bp).flags.error then x else e) v
      (if (s.buf bp).flags.error then { s with error := update s.error p x } else s) T := by
    split
    · exact set x
    · exact now
  subst eq
  exact now.act next rfl (post _ _ (fun ok => by simp [ok]) next)

theorem iowait_spec (now : Now C p h e v s T) (own : h bp = some (.io r dev blkno))
    (ready : Ready C p d v T) :
    C.proto.wp p (iowait bp) (fun _ s' T' => ∃ k e' v',
      Now C p (update h bp (some (.held k false))) e' v' s' T' ∧ Back C p d v T v' T' ∧
        k.Settled C r dev blkno ∧ (C.Reliable dev blkno → e' = e)) s T := by
  refine wp_bind (wp_loop (fun _ s T' => ∃ v', Now C p h e v' s T' ∧ Back C p d v T v' T')
    ⟨v, now, .refl ..⟩ ?_)
  rintro _ s T' ⟨v', now, back⟩
  refine wp_bind (now.read ?_)
  split
  · rename_i done
    obtain ⟨k, now, settled⟩ := now.settle own done
    refine wp_bind (now.window fun s now _ _ => now.geterror bp fun s' e' error now' => ?_)
    refine ⟨k, e', v', now', back, settled, fun r => error ?_⟩
    have flag : (s.buf bp).flags.error = k.flags.error :=
      congrArg (·.flags.error) (now.held (update_self ..)).1.snap
    rw [flag]
    exact (settled.good (by rwa [settled.dev, settled.blkno])).1
  · refine wp_bind (now.sleep (back.ready ready) fun s T'' v'' now back' => ?_)
    exact ⟨v'', now, back.trans back'⟩

theorem iowait_done (now : Now C p h e v s T) (own : h bp = some (.held k w))
    (done : k.flags.done = true) :
    C.proto.wp p (iowait bp) (fun _ s' T' => T' = T ∧ ∃ e', Now C p h e' v s' T ∧
      (C.Reliable k.dev k.blkno → e' = e)) s T := by
  refine wp_bind (wp_loop (fun _ s T' => T' = T ∧ Now C p h e v s T) ⟨rfl, now⟩ ?_)
  rintro _ s T' ⟨rfl, now⟩
  refine wp_bind (now.read ?_)
  rw [now.done own, if_pos done]
  refine wp_bind (now.window fun s now _ _ => now.geterror bp fun s' e' error now' => ?_)
  refine ⟨rfl, e', now', fun r => error ?_⟩
  have fit := (now.held own).1
  obtain rfl := fit.snap
  exact fit.error (now.reliable.mpr r)

/-! ### Writing -/

/-- What the client sees after a buffer was written. -/
def View.record (v : View σ) (k : Snap) : View σ :=
  { v with last := update v.last k.dev (update (v.last k.dev) k.blkno k.data) }

/-- What the client sees after a write was put off. -/
def View.putOff (v : View σ) (k : Snap) : View σ :=
  let row := update (v.lastResid k.dev) k.blkno k.resid
  { v.record k with lastResid := update v.lastResid k.dev row }

/-- The flags while a write is prepared. -/
abbrev writeFlags (f : Flags) : Flags :=
  { f with read := false, done := false, error := false, delwri := false, age := false }

/-- A header while its write is prepared. -/
def Snap.writing (k : Snap) : Snap :=
  { k with
    last := k.data
    flags := { k.flags with read := false, done := false, error := false, delwri := false, age := false } }

/-- A header whose write is put off. -/
def Snap.putOff (k : Snap) : Snap :=
  { k with
    last := k.data
    lastResid := k.resid
    flags := { k.flags with delwri := true, done := true } }

theorem written_of_ne {c : Cache} (dev : (c.buf bp).dev ≠ NODEV) :
    written bp c = c.setLast (c.buf bp).dev (c.buf bp).blkno (c.buf bp).data := if_neg dev

section

variable (now : Now C p h e v s T) (own : h bp = some (.held k w))
include now own

theorem Now.record (dev : k.dev ≠ NODEV) :
    Now C p (update h bp (some (.held k.writing true))) e (v.record k)
      (s.onCache fun c => (written bp c).flag bp writeFlags) T := by
  obtain ⟨fit, pool⟩ := now.held own
  obtain rfl := now.sees
  obtain rfl := fit.snap
  have next := now.of_held own (x := .held p (look s.cache bp).snap.writing true) Cond.only_held
    (.onCache (fun c => (written bp c).flag bp writeFlags) s)
    ?_ (?_ : _ = (view s).record (look s.cache bp).snap) rfl fun L st inv is => ?_
  · rwa [Cond.token_held_self] at next
  · rw [Kernel.cache_onCache, written_of_ne dev]
    rfl
  · simp only [view, Kernel.onCache, written_of_ne dev]
    rfl
  have first := (inv.record is dev).1
  have fit := first.fits (update_self ..)
  have second := first.touch bp (x := .held p (look s.cache bp).snap.writing true) (fun b =>
      { b with flags := writeFlags b.flags })
    (by simp [pool]) (fun _ => ⟨rfl, rfl, rfl, rfl⟩) ?_
  · rw [update_idem] at second
    exact ⟨L, _, second, .refl _⟩
  · refine ⟨fit.busy, fit.idle, ?_, fun _ h => ?_, fun _ => rfl, fun _ _ h => ?_⟩
    · rw [written_of_ne dev]
      simp [look, lookOf, Look.snap, Snap.writing, Cache.setLast]
    · cases h
    · cases h

theorem Now.putOff (dev : k.dev ≠ NODEV) :
    Now C p (update h bp (some (.held k.putOff false))) e (v.putOff k)
      (s.onCache fun c => (putOff bp (written bp c)).flag bp fun f =>
        { f with delwri := true, done := true }) T := by
  obtain ⟨fit, pool⟩ := now.held own
  obtain rfl := now.sees
  obtain rfl := fit.snap
  have next := now.of_held own (x := .held p (look s.cache bp).snap.putOff false) Cond.only_held
    (.onCache (fun c => (Bio.putOff bp (written bp c)).flag bp fun f =>
      { f with delwri := true, done := true }) s)
    ?_ (?_ : _ = (view s).putOff (look s.cache bp).snap) rfl fun L st inv is => ?_
  · rwa [Cond.token_held_self] at next
  · rw [Kernel.cache_onCache, written_of_ne dev]
    rfl
  · simp only [view, Kernel.onCache, written_of_ne dev]
    rfl
  have buf : (written bp s.cache).buf = s.cache.buf := by rw [written_of_ne dev]; rfl
  have first := (inv.record is dev).1
  have second := first.recordResid (update_self ..) (by rw [buf]; exact dev)
  rw [update_idem] at second
  have fit := second.fits (update_self ..)
  have third := second.touch bp (x := .held p (look s.cache bp).snap.putOff false) (fun b =>
      { b with flags := { b.flags with delwri := true, done := true } })
    (by simp [pool]) (fun _ => ⟨rfl, rfl, rfl, rfl⟩) ?_
  · rw [update_idem] at third
    exact ⟨L, _, third, .refl _⟩
  · refine ⟨fit.busy, fit.idle, ?_, fun _ _ => rfl, fit.error, fun _ h => ?_⟩
    · rw [written_of_ne dev]
      simp [look, lookOf, Look.snap, Snap.putOff, Bio.putOff, Cache.setLast]
    · cases h

/-- A header with a block is on the chain of a device. -/
theorem Now.row (dev : k.dev ≠ NODEV) : ∃ m, bdevsw k.dev = some m := by
  obtain ⟨fit, pool⟩ := now.held own
  obtain rfl := fit.snap
  obtain ⟨L, st, inv, -⟩ := now.cached
  obtain ⟨m, row, -⟩ := inv.wired.dev bp pool dev
  exact ⟨m, row⟩

/-- Nobody else has a claim on a header the process holds. -/
theorem Now.alone : (∀ q, q ≠ p → (T q).hold bp = none) ∧ C.pin v.core bp = none := by
  obtain ⟨L, st, inv, tok, pins⟩ := now.cached
  have is := tok p bp
  rw [update_self, own] at is
  have is := Cond.token_held.mp is.symm
  refine ⟨fun q ne => ?_, ?_⟩
  · have := tok q bp
    rw [update_of_ne ne, is] at this
    rw [this, Cond.token, if_neg ne]
  · rw [pins bp, is]
    rfl

end

theorem Inv.loose {c : Cache} {L : Lists} {st : Hdr → Cond} (inv : Inv c L st)
    (pool : bp.isPool = true) (nobody : ∀ q, (st bp).token q = none) (unpinned : (st bp).pin = none) :
    st bp = .free ∨ st bp = .async := by
  cases is : st bp with
  | head => simp [(inv.head bp).mp is] at pool
  | free => exact .inl rfl
  | async => exact .inr rfl
  | held q k w | io q r d b => simpa [is] using nobody q
  | pinned d => simp [is, Cond.pin] at unpinned

section

variable (now : Now C p h e v s T)

include now

/-- The process may still age a header it has just given to the driver. -/
theorem Now.age (mine : h bp = none) (pool : bp.isPool = true)
    (others : ∀ q, q ≠ p → (T q).hold bp = none) (unpinned : C.pin v.core bp = none) :
    Now C p h e v (s.onCache (·.flag bp fun f => { f with age := true })) T := by
  obtain ⟨L, st, inv, tok, pins⟩ := now.cached
  have nobody : ∀ q, (st bp).token q = none := fun q => by
    rw [← tok q bp]
    by_cases e : q = p
    · rw [e, update_self, mine]
    · rw [update_of_ne e, others q e]
  have loose := inv.loose pool nobody (by rw [← pins bp, unpinned])
  exact { now with cached := ⟨L, st, inv.age loose true, tok, pins⟩ }

theorem Now.setWcount (own : h bp = some (.held k w)) :
    Now C p (update h bp (some (.held { k with wcount := BSIZEW } w)))
      e v (s.onCache (·.set bp fun b => { b with wcount := BSIZEW })) T :=
  now.touch own (fun b => { b with wcount := BSIZEW }) { k with wcount := BSIZEW } w
    (fun _ => ⟨rfl, rfl, rfl, rfl⟩) fun fit => by
      obtain rfl := fit.snap
      exact { fit with snap := rfl }

/-- A buffer without a block is not written, but its flags are changed. -/
theorem Now.record_nodev (own : h bp = some (.held k w)) (dev : k.dev = NODEV) :
    Now C p (update h bp (some (.held { k.writing with last := k.last } true))) e v
      (s.onCache fun c => (written bp c).flag bp writeFlags) T := by
  have fit := (now.held own).1
  obtain rfl := fit.snap
  have next := now.touch own (fun b => { b with flags := writeFlags b.flags })
    { (look s.cache bp).snap.writing with last := (look s.cache bp).snap.last } true
    (fun _ => ⟨rfl, rfl, rfl, rfl⟩) fun fit =>
      ⟨fit.busy, fit.idle, rfl, nofun, fun _ => rfl, nofun⟩
  have eq : written bp s.cache = s.cache := if_pos dev
  simp only [Kernel.onCache, eq]
  exact next

theorem Now.markAsync (own : h bp = some (.held k w)) :
    Now C p (update h bp (some (.held { k with flags := { k.flags with async := true } } w)))
      e v (s.onCache (·.flag bp fun f => { f with async := true })) T :=
  now.touch own (fun b => { b with flags := { b.flags with async := true } })
    { k with flags := { k.flags with async := true } } w (fun _ => ⟨rfl, rfl, rfl, rfl⟩) fun fit => by
      obtain rfl := fit.snap
      exact { fit with snap := rfl }

theorem Now.tape (m : Major) : (s.buf (.tab m)).flags.tape = false := by
  obtain ⟨L, st, inv, -⟩ := now.cached
  exact (inv.fits ((inv.head (.tab m)).mpr rfl)).2

section

variable (own : h bp = some (.held k w))
include own

/-- A write is put off only for a buffer with valid words. -/
theorem Now.undelayed (dev : k.dev ≠ NODEV)
    (undone : k.flags.done = false) : k.flags.delwri = false := by
  have fit := (now.held own).1
  obtain rfl := fit.snap
  by_contra delwri
  rw [Bool.not_eq_false] at delwri
  have done : (look s.cache bp).flags.done = true := fit.delwri dev delwri
  have undone : (look s.cache bp).flags.done = false := undone
  simp [done] at undone

/-- The first part of `bwrite`: the request is made. -/
theorem bwrite_head {Q : Unit → Kernel σ → (Pid → Own δ) → Prop}
    (post : ∀ s', k.dev ≠ NODEV → Now C p (update h bp k.writing.given) e (v.record k) s' T →
      C.proto.wp p (afterWrite lv (s.buf bp).flags bp) Q s' T) :
    C.proto.wp p (bwrite lv bp) Q s T := by
  have fit := (now.held own).1
  have sameDev : (s.buf bp).dev = k.dev := congrArg Snap.dev fit.snap
  refine wp_bind (now.read ?_)
  generalize s.buf bp = b at post sameDev
  rw [sameDev]
  by_cases dev : k.dev = NODEV
  · rw [dev, bdevsw_nodev]
    have noted := now.record_nodev own dev
    refine now.acts noted rfl fun s now => ?_
    have full := now.setWcount (update_self ..)
    exact now.acts full rfl fun s now => trivial
  · obtain ⟨m, row⟩ := now.row own dev
    rw [row]
    have noted := now.record own dev
    refine now.acts noted rfl fun s now => ?_
    have full := now.setWcount (update_self ..)
    rw [update_idem] at full
    refine now.acts full rfl fun s now => ?_
    refine wp_seq (strategy_spec now (update_self ..) row rfl rfl rfl fun _ => rfl) ?_
    rintro _ s' T' ⟨rfl, now⟩
    rw [update_idem] at now
    exact post s' dev now

/-- `bwrite` of a buffer that is not asynchronous. -/
theorem bwrite_sync (sync : k.flags.async = false) (ready : Ready C p d (v.record k) T) :
    C.proto.wp p (bwrite lv bp) (fun _ s' T' => ∃ e' v',
      Now C p (update h bp none) e' v' s' T' ∧ Back C p d (v.record k) T v' T' ∧
        k.dev ≠ NODEV ∧ (C.Reliable k.dev k.blkno → e' = e)) s T := by
  have flag := now.async own
  refine bwrite_head now own fun s' dev now => ?_
  have given : k.writing.given = some (.io false k.dev k.blkno) := if_neg (by simp [Snap.writing, sync])
  rw [given] at now
  unfold afterWrite
  rw [flag, sync]
  refine wp_seq (iowait_spec now (update_self ..) ready) ?_
  rintro _ s'' T' ⟨k', e', v', now, back, settled, error⟩
  rw [update_idem] at now
  refine wp_mono ?_ (brelse_spec now (update_self ..) fun _ =>
    ⟨fun _ h => absurd (settled.delwri.symm.trans h) (by simp),
      fun r _ => ⟨(settled.good r).2.1, .inl (settled.good r).2.2⟩⟩)
  rintro _ s₃ T₃ ⟨rfl, now⟩
  rw [update_idem] at now
  exact ⟨e', v', now, back, dev, error⟩

/-- `bwrite` of an asynchronous buffer does not sleep. -/
theorem bwrite_async (async : k.flags.async = true) :
    C.proto.wp p (bwrite lv bp) (fun _ s' T' => T' = T ∧ ∃ e',
      Now C p (update h bp none) e' (v.record k) s' T ∧ k.dev ≠ NODEV ∧
        (k.flags.delwri = true → e' = e)) s T := by
  have flag := now.async own
  have delwri := now.delwri own
  have pool := (now.held own).2
  obtain ⟨others, unpinned⟩ := now.alone own
  refine bwrite_head now own fun s' dev now => ?_
  have given : k.writing.given = none := if_pos async
  rw [given] at now
  unfold afterWrite
  rw [flag, delwri, async, if_neg (by simp)]
  split
  · have aged := now.age (update_self ..) pool others unpinned
    refine wp_bind (now.act aged rfl ?_)
    exact aged.pause fun s now _ _ => ⟨rfl, e, now, dev, fun _ => rfl⟩
  · rename_i fresh
    exact now.geterror bp fun s' e' _ now => ⟨rfl, e', now, dev, fun h => absurd h fresh⟩

theorem bawrite_spec :
    C.proto.wp p (bawrite lv bp) (fun _ s' T' => T' = T ∧ ∃ e',
      Now C p (update h bp none) e' (v.record k) s' T ∧ k.dev ≠ NODEV ∧
        (k.flags.delwri = true → e' = e)) s T := by
  have marked := now.markAsync own
  refine now.acts marked rfl fun s now => ?_
  refine wp_mono ?_ (bwrite_async now (update_self ..) rfl)
  rintro _ s' T' ⟨rfl, e', now, dev, error⟩
  rw [update_idem] at now
  exact ⟨rfl, e', now, dev, error⟩

theorem bdwrite_spec :
    C.proto.wp p (bdwrite lv bp) (fun _ s' T' => T' = T ∧
      Now C p (update h bp none) e (v.putOff k) s' T) s T := by
  have sameDev : (s.buf bp).dev = k.dev := congrArg Snap.dev (now.held own).1.snap
  refine wp_bind (now.read ?_)
  rw [sameDev]
  by_cases dev : k.dev = NODEV
  · rw [dev, bdevsw_nodev]
    trivial
  obtain ⟨m, row⟩ := now.row own dev
  rw [row]
  refine wp_bind (now.read ?_)
  have tape : (s.buf (.tab m)).flags.tape = false := now.tape m
  rw [tape, if_neg (by simp)]
  have put := now.putOff own dev
  refine now.acts put rfl fun s now => ?_
  simpa only [update_idem] using brelse_spec now (update_self ..) fun _ =>
    ⟨fun _ _ => rfl, fun _ _ => ⟨rfl, .inr rfl⟩⟩

end

end

/-! ### Reading -/

theorem startRead_spec (now : Now C p h e v s T) (own : h bp = some (.held k false))
    (row : bdevsw k.dev = some m) (undone : k.flags.done = false) (async : Bool) :
    C.proto.wp p (startRead async m bp) (fun _ s' T' => T' = T ∧
      Now C p (update h bp (if k.flags.async || async then none
        else some (.io true k.dev k.blkno))) e v s' T) s T := by
  have delwri : k.flags.delwri = false := now.undelayed own (by rintro e; simp [e, bdevsw_nodev] at row) undone
  have marked := now.touch own (fun b => { b with flags := { b.flags with
      read := true, async := b.flags.async || async } })
    { k with flags := { k.flags with read := true, async := k.flags.async || async } } false
    (fun _ => ⟨rfl, rfl, rfl, rfl⟩) fun fit => by
      obtain rfl := fit.snap
      exact { fit with snap := rfl }
  refine wp_bind (now.act marked rfl (wp_bind (marked.window fun s now _ _ => ?_)))
  have full := now.setWcount (update_self ..)
  rw [update_idem] at full
  refine wp_bind (now.act full rfl (wp_bind (full.window fun s now _ _ => ?_)))
  refine wp_mono ?_ (strategy_spec now (update_self ..) row rfl undone delwri fun _ => rfl)
  rintro _ s' T' ⟨rfl, now⟩
  rw [update_idem] at now
  exact ⟨rfl, now⟩

end V7Besm.Bio

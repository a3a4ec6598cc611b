import V7Besm.Bio.Own

/-!
What the routines of `dev/bio.c` do for the process that calls them.

A routine that does not sleep leaves everybody else's ghost values alone and
what the client sees too, except for the block it writes. A routine that sleeps
asks for the client's invariant (`Ready`) and hands it back (`Back`).
-/

namespace V7Besm.Bio

open Coop Coop.Proto Function

variable {σ δ α β : Type} {C : Client σ δ} {s s' : Kernel σ} {c : Cache} {bp : Hdr} {p : Pid}
  {k : Snap} {w : Bool} {h h' : Hold} {e e' : Int} {v v' : View σ} {T T' : Pid → Own δ} {d : δ}
  {lv : Level} {m : Major} {dev : Dev} {blkno : Int}

/-- If the process may go to sleep, the client's invariant holds. -/
def Ready (C : Client σ δ) (p : Pid) (d : δ) (v : View σ) (T : Pid → Own δ) : Prop :=
  C.sleeps p v.core → C.inv v (update (fun q => (T q).cli) p d)

/-- The process did not sleep, or it did and the client's invariant holds now. -/
def Back (C : Client σ δ) (p : Pid) (d : δ) (v : View σ) (T : Pid → Own δ) (v' : View σ)
    (T' : Pid → Own δ) : Prop :=
  T' = T ∧ v' = v ∨ C.sleeps p v.core ∧ C.inv v' (update (fun q => (T' q).cli) p d)

theorem Back.refl (C : Client σ δ) (p : Pid) (d : δ) (v : View σ) (T : Pid → Own δ) :
    Back C p d v T v T := .inl ⟨rfl, rfl⟩

theorem Back.trans {v'' : View σ} {T'' : Pid → Own δ} (first : Back C p d v T v' T')
    (second : Back C p d v' T' v'' T'') : Back C p d v T v'' T'' := by
  rcases first with ⟨rfl, rfl⟩ | ⟨sleeps, inv⟩
  · exact second
  · rcases second with ⟨rfl, rfl⟩ | ⟨-, inv⟩
    · exact .inr ⟨sleeps, inv⟩
    · exact .inr ⟨sleeps, inv⟩

theorem Back.ready (ready : Ready C p d v T) (back : Back C p d v T v' T') : Ready C p d v' T' := by
  rcases back with ⟨rfl, rfl⟩ | ⟨-, inv⟩
  · exact ready
  · exact fun _ => inv

/-! ### The client's invariant -/

theorem Client.now_of_inv {o : Own δ} (holds : C.proto.inv s T) (own : T p = o) :
    Now C p o.hold o.err (view s) s T ∧ C.inv (view s) (update (fun q => (T q).cli) p o.cli) := by
  subst own
  obtain ⟨cached, error, faulty, inv⟩ := holds
  rw [update_eq_self p fun q => (T q).cli]
  refine ⟨⟨?_, ?_, faulty, rfl⟩, inv⟩
  · rwa [update_eq_self p fun q => (T q).hold]
  · rwa [update_eq_self p fun q => (T q).err]

theorem Now.holds (now : Now C p h e v s T) (inv : C.inv v (update (fun q => (T q).cli) p d)) :
    C.proto.inv s (update T p ⟨h, e, d⟩) := by
  refine ⟨?_, now.error.trans (comp_update Own.err T p ⟨h, e, d⟩).symm, now.faulty, ?_⟩
  · change Cached _ (Own.hold ∘ update T p _) _
    rw [comp_update, show s.core = v.core from congrArg View.core now.sees]
    exact now.cached
  · change C.inv _ (Own.cli ∘ update T p _)
    rwa [comp_update, now.sees]

/-! ### Single actions -/

theorem Now.does {f : Pid → Kernel σ → α × Kernel σ} {Q : α → Kernel σ → (Pid → Own δ) → Prop}
    (next : C.may p s → Now C p h' e' v' (f p s).2 T ∧ C.guar p s.core (f p s).2.core ∧
      Q (f p s).1 (f p s).2 T) : C.proto.wp p (.act f) Q s T := by
  intro may
  obtain ⟨next, guar, post⟩ := next may
  refine ⟨⟨⟨update (fun q => (T q).hold) p h', ?_⟩, guar⟩, post⟩
  rw [show (f p s).2.core = v'.core from congrArg View.core next.sees]
  exact next.cached

section

variable (now : Now C p h e v s T)

include now

/-- An action that does not touch the client's state. -/
theorem Now.act {f : Pid → Kernel σ → α × Kernel σ} {Q : α → Kernel σ → (Pid → Own δ) → Prop}
    (next : Now C p h' e' v' (f p s).2 T) (core : v'.core = v.core)
    (post : Q (f p s).1 (f p s).2 T) : C.proto.wp p (.act f) Q s T := by
  have same : (f p s).2.core = s.core := by
    rwa [← now.sees, ← next.sees] at core
  exact Now.does fun _ => ⟨next, same ▸ C.guar_refl p s.core, post⟩

theorem Now.read {f : Kernel σ → α} {Q : α → Kernel σ → (Pid → Own δ) → Prop}
    (post : Q (f s) s T) : C.proto.wp p (.read f) Q s T := now.act now rfl post

theorem Now.window {Q : Unit → Kernel σ → (Pid → Own δ) → Prop}
    (post : ∀ s', Now C p h e v s' T → Drift s.cache s'.cache → StaysFree s s' → Q () s' T) :
    C.proto.wp p .window Q s T := by
  intro s' env
  obtain ⟨now', drift, free⟩ := now.env env
  exact post s' now' drift free

theorem Now.pause {Q : Unit → Kernel σ → (Pid → Own δ) → Prop}
    (post : ∀ s', Now C p h e v s' T → Drift s.cache s'.cache → StaysFree s s' → Q () s' T) :
    C.proto.wp p (pause lv) Q s T := by
  cases lv with
  | spl0 => exact now.window post
  | spl6 => exact post s now (.refl _) fun _ _ => id

/-- An action, and then the interrupts that come in behind it. -/
theorem Now.acts {f : Pid → Kernel σ → α × Kernel σ} {K : α → Unit → Code Pid (Kernel σ) β}
    {Q : β → Kernel σ → (Pid → Own δ) → Prop} (next : Now C p h' e' v' (f p s).2 T)
    (core : v'.core = v.core)
    (post : ∀ s', Now C p h' e' v' s' T → C.proto.wp p (K (f p s).1 ()) Q s' T) :
    C.proto.wp p (.act f >>= fun a => V7Besm.pause lv >>= K a) Q s T :=
  wp_bind (now.act next core (wp_bind (next.pause fun s' now _ _ => post s' now)))

theorem Now.sleep {chan : Chan} {Q : Unit → Kernel σ → (Pid → Own δ) → Prop}
    (ready : Ready C p d v T)
    (post : ∀ s' T' v', Now C p h e v' s' T' → Back C p d v T v' T' → Q () s' T') :
    C.proto.wp p (sleep chan) Q s T := by
  have next : Now C p h e v { s with wchan := update s.wchan p (some chan) } T := { now with }
  refine wp_bind (now.act next rfl fun sleeps => ?_)
  have sleeps : C.sleeps p v.core := now.sees ▸ sleeps
  refine ⟨⟨h, e, d⟩, next.holds (ready sleeps), fun s' T' inv own => ?_⟩
  obtain ⟨now', inv'⟩ := C.now_of_inv inv own
  exact post s' T' (view s') now' (.inr ⟨sleeps, inv'⟩)

/-- The process changes fields of a header it holds. -/
theorem Now.touch (own : h bp = some (.held k w)) (f : Buf → Buf) (k' : Snap) (w' : Bool)
    (alike : ∀ b, Alike (f b) b)
    (fit : (look s.cache bp).Held k w → (lookOf s.cache bp (f (s.cache.buf bp))).Held k' w') :
    Now C p (update h bp (some (.held k' w'))) e v (s.onCache (·.set bp f)) T := by
  have pool := (now.held own).2
  have next := now.on_held own (f := (·.set bp f)) Cond.only_held
    (.set s.cache bp f) fun L st inv is => ⟨L, inv.touch bp f (by simp [pool]) alike
      (fit (inv.fits is))⟩
  rwa [Cond.token_held_self] at next

end

/-! ### Calls -/

/-- A process enters the kernel: it owns no header. -/
theorem Client.enter (holds : C.proto.inv s T) (rest : C.proto.rest p (T p)) :
    Now C p (fun _ => none) (T p).err (view s) s T ∧
      C.inv (view s) (update (fun q => (T q).cli) p (T p).cli) ∧ C.rest p (T p).cli := by
  obtain ⟨now, inv⟩ := C.now_of_inv holds rfl
  obtain ⟨hold, rest⟩ := rest
  exact ⟨hold ▸ now, inv, rest⟩

theorem Now.back (now : Now C p (fun _ => none) e v s T)
    (inv : C.inv v (update (fun q => (T q).cli) p d)) (rest : C.rest p d) :
    C.proto.back p () s T := ⟨⟨fun _ => none, e, d⟩, now.holds inv, rfl, rest⟩

theorem Client.inv_intr {i : Intr} (holds : C.proto.inv s T) (taken : intr i s = some s') :
    C.proto.inv s' T := by
  obtain ⟨now, inv⟩ := C.now_of_inv (p := 0) holds rfl
  have same : update T 0 ⟨(T 0).hold, (T 0).err, (T 0).cli⟩ = T := update_eq_self 0 T
  exact same ▸ (now.intr taken).1.holds inv

/-- What is left to prove of a system whose interrupts are those of the devices. -/
theorem Client.sound {κ : Type} {S : System Pid (Kernel σ) κ Intr} (devices : S.intr = intr)
    (call : ∀ p k s T, C.proto.inv s T → C.proto.rest p (T p) → S.entry p s k = true →
      C.proto.wp p (S.code k) (C.proto.back p) s T) : C.proto.Sound S where
  env s s' env := by
    unfold System.Env at env
    rwa [devices] at env
  trans s₁ s₂ s₃ first second := by
    unfold System.Env at first
    rw [devices] at first
    exact first.trans second
  intr i s s' T inv taken := C.inv_intr inv (devices ▸ taken)
  call := call

/-! ### Headers the client refers to -/

/-- The process leaves a header it holds to the client. -/
theorem Now.park (now : Now C p h e v s T) (own : h bp = some (.held k false)) (x : Pin) (core : σ)
    (async : k.flags.async = false) (delwri : k.flags.delwri = x.delwri)
    (clean : x.dirty = false → k.flags.error = false → (look s.cache bp).Clean)
    (pin : C.pin core = update (C.pin v.core) bp (some x)) :
    Now C p (update h bp none) e { v with core := core } { s with core := core } T := by
  obtain ⟨fit, pool⟩ := now.held own
  obtain ⟨L, st, inv, tok, pins⟩ := now.cached
  have is := tok p bp
  rw [update_self, own] at is
  have is := Cond.token_held.mp is.symm
  refine ⟨?_, now.error, now.faulty, by rw [← now.sees]; rfl⟩
  obtain rfl := fit.snap
  have next := inv.relabel bp (x := .pinned x) (by simp [pool]) ⟨async, fit, delwri, clean⟩
  exact Cached.next tok pins (is ▸ Cond.only_held.token) (fun _ _ => rfl) next
    (.refl _) pin

/-- The process takes over a header the client refers to. -/
theorem Now.unpark (now : Now C p h e v s T) {x : Pin} (pinned : C.pin v.core bp = some x) (core : σ)
    (pin : C.pin core = update (C.pin v.core) bp none) :
    ∃ k, Now C p (update h bp (some (.held k false))) e { v with core := core }
        { s with core := core } T ∧ h bp = none ∧ k.flags.async = false ∧
      k.flags.delwri = x.delwri ∧ (x.dirty = false → k.flags.error = false →
        (look s.cache bp).Clean) ∧ (look s.cache bp).snap = k := by
  obtain ⟨L, st, inv, tok, pins⟩ := now.cached
  have is : st bp = .pinned x := by
    have := (pins bp).symm.trans pinned
    cases is : st bp with
    | pinned y =>
      rw [is] at this
      cases this
      rfl
    | _ => simp [is, Cond.pin] at this
  have fit : (look s.cache bp).Pinned x := inv.fits is
  have pool : bp.isPool = true := inv.isPool (by simp [is])
  have next := inv.relabel bp (x := .held p (look s.cache bp).snap false) (by simp [pool]) fit.held
  have cached := Cached.next tok pins
    (is ▸ fun _ _ => rfl) Cond.only_held.token next (.refl _) pin
  rw [Cond.token_held_self] at cached
  have own := tok p bp
  rw [update_self, is] at own
  exact ⟨_, ⟨cached, now.error, now.faulty, by rw [← now.sees]; rfl⟩, own, fit.async, fit.delwri,
    fit.clean, rfl⟩

/-! ### `brelse` -/

/-- Nothing is lost if a header with these fields is released. -/
structure Snap.Clean (k : Snap) (C : Client σ δ) : Prop where
  delwri : k.dev ≠ NODEV → k.flags.delwri = true → k.data = k.last
  done : C.Reliable k.dev k.blkno → k.flags.done = true →
    k.data = k.last ∧ (k.resid = 0 ∨ k.resid = k.lastResid)

section

variable (now : Now C p h e v s T)

include now

theorem Now.clean (own : h bp = some (.held k false)) (clean : k.Clean C) :
    (look s.cache bp).Clean := by
  have fit := (now.held own).1
  obtain rfl := fit.snap
  exact ⟨clean.delwri, fun r => clean.done (now.reliable.mp r), fun r d => fit.disk r d rfl⟩

theorem Now.clean_snap (clean : (look s.cache bp).Clean) : (look s.cache bp).snap.Clean C :=
  ⟨clean.delwri, fun r => clean.done (now.reliable.mpr r)⟩

/-- A header with an error loses its block; then nothing is lost. -/
theorem Now.dropped (own : h bp = some (.held k false))
    (clean : k.flags.error = false → k.Clean C) :
    ∃ k', Now C p (update h bp (some (.held k' false))) e v (s.onCache (dropError bp)) T ∧
      k'.Clean C := by
  have next := now.on_held own Cond.only_held (only_dropError bp s.cache)
    fun L st inv is => ⟨L, inv.drop is⟩
  rw [Cond.token_held_self] at next
  refine ⟨_, next, ?_⟩
  refine next.clean_snap (clean_dropError fun error => now.clean own (clean ?_))
  rwa [← (now.held own).1.snap]

theorem Now.put (own : h bp = some (.held k false)) (clean : k.Clean C) :
    Now C p (update h bp none) e v (s.onCache (putAvail bp)) T :=
  now.on_held own Cond.only_free (only_putAvail bp s.cache)
    fun _ _ inv is => inv.put is (now.clean own clean)

theorem Now.woken (bp : Hdr) : Now C p h e v (wakeWanted bp s) T := by
  have inside := Inside.wakeWanted bp s
  refine now.same inside (by rw [cache_wakeWanted]) ?_ fun L st inv =>
    ⟨L, st, by rw [cache_wakeWanted]; exact inv, .refl _⟩
  rw [← now.sees]
  simp only [view, cache_wakeWanted, inside.core]

theorem Now.wokenFree : Now C p h e v (wakeFree s) T := by
  have inside := Inside.wakeFree s
  have only := only_clearFree s.cache
  refine now.same inside (by rw [cache_wakeFree, only.faulty]) ?_ fun L st inv =>
    ⟨L, st, by rw [cache_wakeFree]; exact inv.cleared, .refl _⟩
  rw [← now.sees]
  simp only [view, cache_wakeFree, inside.core, only.last, only.lastResid]

theorem brelse_spec (own : h bp = some (.held k false))
    (clean : k.flags.error = false → k.Clean C) :
    C.proto.wp p (brelse lv bp)
      (fun _ s' T' => T' = T ∧ Now C p (update h bp none) e v s' T) s T := by
  refine now.acts (now.woken bp) rfl fun s now => ?_
  refine now.acts now.wokenFree rfl fun s now => ?_
  obtain ⟨k', dropped, clean'⟩ := now.dropped own clean
  refine now.acts dropped rfl fun s now => ?_
  have put := now.put (update_self ..) clean'
  rw [update_idem] at put
  refine wp_bind (now.act put rfl ?_)
  exact put.pause fun s now _ _ => ⟨rfl, now⟩

end

/-! ### `iodone` and the strategy routines -/

theorem Now.want (now : Now C p h e v s T) (bp : Hdr) (b : Bool) :
    Now C p h e v (s.onCache (·.flag bp fun f => { f with wanted := b })) T :=
  now.same (.onCache _ s) rfl now.sees fun L st inv => ⟨L, st, inv.wanted bp b, .refl _⟩

/-- The token of a header whose request is over or in the hands of the driver. -/
def Snap.given (k : Snap) : Option Token :=
  if k.flags.async then none else some (.io k.flags.read k.dev k.blkno)

section

variable (now : Now C p h e v s T)

include now

theorem Now.wakeup (chan : Chan) : Now C p h e v (s.wakeup chan) T := { now with }

section

variable (own : h bp = some (.held k w))
include own

/-- A request that failed at once is one that is over. -/
theorem Now.over (async : k.flags.async = false)
    (delwri : k.flags.delwri = false) (done : k.flags.done = true)
    (bad : ¬ C.Reliable k.dev k.blkno) :
    Now C p (update h bp (some (.io k.flags.read k.dev k.blkno))) e v s T := by
  have pool := (now.held own).2
  have next := now.of_held own (x := .io p k.flags.read k.dev k.blkno) Cond.only_io (.refl s)
    rfl now.sees rfl fun L st inv is => by
      have fit : (look s.cache bp).Held k w := inv.fits is
      obtain rfl := fit.snap
      exact ⟨L, _, inv.relabel bp (x := .io p _ _ _) (by simp [pool]) ⟨fit.busy, async, delwri, rfl, rfl, rfl,
        .inr ⟨done, fit.idle, fun r => absurd (now.reliable.mp r) bad⟩⟩, .refl _⟩
  rwa [Cond.token_io_self] at next

/-- `iodone` for a request the driver cannot express. -/
theorem iodone_spec (delwri : k.flags.delwri = false) (bad : ¬ C.Reliable k.dev k.blkno) :
    C.proto.wp p (iodone lv bp)
      (fun _ s' T' => T' = T ∧ Now C p (update h bp k.given) e v s' T) s T := by
  have done := now.touch own (fun b => { b with flags := { b.flags with done := true } })
    { k with flags := { k.flags with done := true } } false (fun _ => ⟨rfl, rfl, rfl, rfl⟩) fun fit => by
      obtain rfl := fit.snap
      exact ⟨fit.busy, fit.idle, rfl, fun _ _ => rfl, fit.error,
        fun r => absurd (now.reliable.mp r) bad⟩
  refine now.acts done rfl fun s now => ?_
  refine wp_bind (now.read ?_)
  have own' := update_self bp (some (Token.held
    { k with flags := { k.flags with done := true } } false)) h
  have fit := (now.held own').1
  have async : (s.buf bp).flags.async = k.flags.async := (now.async own' :)
  rw [Snap.given, ← async]
  split
  · have clean : Snap.Clean { k with flags := { k.flags with done := true } } C :=
      ⟨fun _ d => absurd (delwri.symm.trans d) (by simp), fun r => absurd r bad⟩
    simpa only [update_idem] using brelse_spec now own' fun _ => clean
  · rename_i sync
    have sync : k.flags.async = false := by simpa [async] using sync
    refine now.acts (now.want bp false) rfl fun s now => ?_
    refine wp_bind (now.act (now.wakeup _) rfl ?_)
    refine (now.wakeup _).pause fun s now _ _ => ⟨rfl, ?_⟩
    have := now.over own' sync delwri rfl bad
    rwa [update_idem] at this

/-- A header the process holds gets an error; its block is not reliable. -/
theorem Now.fault (bad : ¬ C.Reliable k.dev k.blkno) :
    Now C p (update h bp (some (.held { k with flags := { k.flags with error := true } } w)))
      e v (s.onCache (·.flag bp fun f => { f with error := true })) T :=
  now.touch own (fun b => { b with flags := { b.flags with error := true } })
    { k with flags := { k.flags with error := true } } w (fun _ => ⟨rfl, rfl, rfl, rfl⟩) fun fit => by
      obtain rfl := fit.snap
      exact { fit with snap := rfl, error := fun r => absurd (now.reliable.mp r) bad }

/-- Fields of a header the process holds that nobody else looks at. -/
theorem Now.setResid :
    Now C p (update h bp (some (.held { k with resid := k.wcount } w)))
      e v (s.onCache (·.set bp fun b => { b with resid := b.wcount })) T :=
  now.touch own (fun b => { b with resid := b.wcount }) { k with resid := k.wcount } w
    (fun _ => ⟨rfl, rfl, rfl, rfl⟩) fun fit => by
      obtain rfl := fit.snap
      exact { fit with snap := rfl }

theorem Now.handed (row : bdevsw k.dev = some m)
    (done : k.flags.done = false) (delwri : k.flags.delwri = false)
    (ask : C.Reliable k.dev k.blkno → if k.flags.read then w = false else k.data = k.last) :
    Now C p (update h bp k.given) e v (enqueue m bp s) T := by
  obtain ⟨fit, pool⟩ := now.held own
  have inside := Inside.enqueue m bp s
  have drift : Drift s.cache (enqueue m bp s).cache := by
    obtain ⟨L, st, inv, -⟩ := now.cached
    exact inv.drift_enqueue pool
  have seen : view (enqueue m bp s) = v := by
    rw [← now.sees]
    simp only [view, inside.core, drift.last, drift.lastResid]
  obtain rfl := fit.snap
  have request : (look s.cache bp).Request := fun r => by
    refine ⟨fit.error r, ?_⟩
    have ask : if (look s.cache bp).flags.read then w = false
      else (look s.cache bp).data = (look s.cache bp).last := ask (now.reliable.mp r)
    split
    · rename_i read
      rw [if_pos read] at ask
      exact fit.disk r delwri ask
    · rename_i write
      rwa [if_neg write] at ask
  have next := now.of_held own (x := if (s.buf bp).flags.async then .async
      else .io p (s.buf bp).flags.read (s.buf bp).dev (s.buf bp).blkno)
    (by split; exacts [Cond.only_async, Cond.only_io]) inside drift.faulty seen rfl fun L st inv is =>
      inv.handed is row done delwri request
  have tok : Cond.token (if (s.buf bp).flags.async then .async
      else .io p (s.buf bp).flags.read (s.buf bp).dev (s.buf bp).blkno) p =
      (look s.cache bp).snap.given := by
    change _ = if (s.buf bp).flags.async then none else _
    split
    · rfl
    · exact Cond.token_io_self
  rwa [tok] at next

/-- The strategy routine takes a request for one block. -/
theorem strategy_spec (row : bdevsw k.dev = some m)
    (full : k.wcount = BSIZEW) (done : k.flags.done = false) (delwri : k.flags.delwri = false)
    (ask : C.Reliable k.dev k.blkno → if k.flags.read then w = false else k.data = k.last) :
    C.proto.wp p (strategy lv m bp)
      (fun _ s' T' => T' = T ∧ Now C p (update h bp k.given) e v s' T) s T := by
  have snap := (now.held own).1.snap
  refine wp_bind (now.read ?_)
  split
  · rename_i isBad
    have bad : ¬ C.Reliable k.dev k.blkno := by
      rintro ⟨m', row', inReach, -⟩
      obtain rfl : m' = m := Option.some.inj (row'.symm.trans row)
      have dev : (s.buf bp).dev = k.dev := congrArg Snap.dev snap
      have blkno : (s.buf bp).blkno = k.blkno := congrArg Snap.blkno snap
      have wcount : (s.buf bp).wcount = BSIZEW := (congrArg Snap.wcount snap).trans full
      rw [bad_eq wcount, dev, blkno, inReach] at isBad
      simp at isBad
    refine now.acts (now.fault own bad) rfl fun s now => ?_
    have resid := now.setResid (update_self ..)
    rw [update_idem] at resid
    refine now.acts resid rfl fun s now => ?_
    refine wp_mono ?_ (iodone_spec now (update_self ..) delwri bad)
    rintro _ s' T' ⟨rfl, now⟩
    rw [update_idem] at now
    exact ⟨rfl, now⟩
  · refine wp_bind (now.act (now.handed own row done delwri ask) rfl ?_)
    exact (now.handed own row done delwri ask).pause fun s now _ _ => ⟨rfl, now⟩

end

end

end V7Besm.Bio

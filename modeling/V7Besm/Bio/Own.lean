import V7Besm.Bio.Interrupt
import V7Besm.Coop.Logic

/-!
Ownership of buffers.

A client of the cache keeps state of its own (`core`) and a ghost value for each
process. `Client.proto` is the protocol its processes follow: the buffers are in
order, each process owns its tokens and its `u_error`, and the client's own
invariant holds of what it can see (`View`): its state and the history of the
blocks. `Now` says what the running process owns at a moment; the lemmas of this
module carry it over one action.
-/

namespace V7Besm.Bio

open Coop Function

/-- What a process owns: headers, its `u_error`, and what the client gives it. -/
structure Own (δ : Type) where
  hold : Hold
  err : Int
  cli : δ

/-- What a client sees of a state. -/
structure View (σ : Type) where
  core : σ
  last : Dev → Int → Words
  lastResid : Dev → Int → Int

/-- A client of the cache. `pin` are the headers its state refers to; between two
calls no process owns a header by itself. `faulty` are the blocks whose transfers
may fail. -/
structure Client (σ δ : Type) where
  faulty : Dev → Int → Bool
  inv : View σ → (Pid → δ) → Prop
  pin : σ → Hdr → Option Pin
  rest : Pid → δ → Prop
  guar : Pid → σ → σ → Prop
  may : Pid → Kernel σ → Prop
  sleeps : Pid → σ → Prop
  guar_refl : ∀ p x, guar p x x

variable {σ δ : Type} {s s' : Kernel σ} {c c' : Cache} {L L' : Lists} {st st' : Hdr → Cond}
  {bp : Hdr} {p q : Pid} {k : Snap} {w : Bool} {h h' : Hold} {e e' : Int} {v v' : View σ}
  {T T' : Pid → Own δ}

def view (s : Kernel σ) : View σ := ⟨s.core, s.cache.last, s.cache.lastResid⟩

/-- Any number of interrupts. -/
def Env (s s' : Kernel σ) : Prop := Relation.ReflTransGen (fun s s' => ∃ i, intr i s = some s') s s'

/-- The protocol of a client. -/
def Client.proto (C : Client σ δ) : Proto Pid (Kernel σ) (Own δ) where
  inv s T := Cached s.cache (fun p => (T p).hold) (C.pin s.core) ∧ s.error = (fun p => (T p).err) ∧
    s.cache.faulty = C.faulty ∧ C.inv (view s) fun p => (T p).cli
  rest p g := g.hold = (fun _ => none) ∧ C.rest p g.cli
  env := Env
  guar p s s' := (∃ G, Cached s'.cache G (C.pin s'.core)) ∧ C.guar p s.core s'.core
  may := C.may
  sleeps p s := C.sleeps p s.core

/-- Process `p` runs; it owns the tokens `h`, its `u_error` is `e`, and the client
sees `v`. -/
structure Now (C : Client σ δ) (p : Pid) (h : Hold) (e : Int) (v : View σ) (s : Kernel σ)
    (T : Pid → Own δ) : Prop where
  cached : Cached s.cache (update (fun q => (T q).hold) p h) (C.pin v.core)
  error : s.error = update (fun q => (T q).err) p e
  faulty : s.cache.faulty = C.faulty
  sees : view s = v

/-- Transfers of the block cannot fail. -/
def Client.Reliable (C : Client σ δ) (dev : Dev) (blkno : Int) : Prop :=
  ∃ m, bdevsw dev = some m ∧ reach m dev blkno = true ∧ C.faulty dev blkno = false

variable {dev : Dev} {blkno : Int}

theorem Now.reliable {C : Client σ δ} (now : Now C p h e v s T) :
    Reliable s.cache dev blkno ↔ C.Reliable dev blkno := by
  unfold Bio.Reliable Client.Reliable
  rw [now.faulty]

/-! ### What interrupts leave alone outside the cache -/

/-- Nothing but the cache and the sleepers differs. -/
structure Inside (s s' : Kernel σ) : Prop where
  core : s'.core = s.core
  error : s'.error = s.error

namespace Inside

theorem refl (s : Kernel σ) : Inside s s := ⟨rfl, rfl⟩

theorem trans {s'' : Kernel σ} (first : Inside s s') (second : Inside s' s'') : Inside s s'' :=
  ⟨second.core.trans first.core, second.error.trans first.error⟩

theorem onCache (f : Cache → Cache) (s : Kernel σ) : Inside s (s.onCache f) := ⟨rfl, rfl⟩

theorem wakeWanted (bp : Hdr) (s : Kernel σ) : Inside s (wakeWanted bp s) := by
  unfold Bio.wakeWanted
  split <;> exact ⟨rfl, rfl⟩

theorem wakeFree (s : Kernel σ) : Inside s (wakeFree s) := by
  unfold Bio.wakeFree
  split <;> exact ⟨rfl, rfl⟩

theorem complete (bp : Hdr) (s : Kernel σ) : Inside s (complete bp s) := by
  unfold Bio.complete
  dsimp only
  split
  · exact (onCache _ s).trans ((wakeWanted bp _).trans ((wakeFree _).trans (onCache _ _)))
  · exact ⟨rfl, rfl⟩

theorem start (m : Major) (l : List Hdr) (s : Kernel σ) : Inside s (start m l s) := by
  induction l generalizing s with
  | nil => exact refl s
  | cons bp rest ih =>
    rw [Bio.start]
    split
    · refine trans ?_ (ih _)
      exact (onCache _ s).trans ((onCache _ _).trans (complete bp _))
    · exact refl s

theorem enqueue (m : Major) (bp : Hdr) (s : Kernel σ) : Inside s (enqueue m bp s) := by
  unfold Bio.enqueue
  split
  · exact (onCache _ s).trans (start m _ _)
  · exact onCache _ s

theorem intr {i : Intr} (taken : intr i s = some s') : Inside s s' := by
  cases i with
  | done m =>
    simp only [Bio.intr] at taken
    split at taken
    · cases taken
    · cases taken
      exact (onCache _ s).trans ((complete _ _).trans (start m _ _))
  | fail m n =>
    simp only [Bio.intr] at taken
    split at taken
    · cases taken
    · split at taken
      · cases taken
        exact (onCache _ s).trans ((onCache _ _).trans ((complete _ _).trans (start m _ _)))
      · cases taken
  | power b =>
    cases taken
    exact onCache _ s

end Inside

/-! ### Tokens -/

variable {x : Cond}

theorem Cond.token_held : x.token p = some (.held k w) ↔ x = .held p k w := by
  cases x with
  | held q k' w' =>
    simp only [token, Cond.held.injEq]
    split
    · rename_i e
      simp [e]
    · rename_i e
      simp [Ne.symm e]
  | io q r d b =>
    simp only [token]
    split <;> simp
  | _ => simp [token]

variable {r : Bool}

theorem Cond.token_io : x.token p = some (.io r dev blkno) ↔ x = .io p r dev blkno := by
  cases x with
  | io q r d b =>
    simp only [token, Cond.io.injEq]
    split
    · rename_i e
      simp [e]
    · rename_i e
      simp [Ne.symm e]
  | held q k' w' =>
    simp only [token]
    split <;> simp
  | _ => simp [token]

@[simp] theorem Cond.token_held_self : (Cond.held p k w).token p = some (.held k w) := by
  simp [token]

@[simp] theorem Cond.token_io_self : (Cond.io p r dev blkno).token p = some (.io r dev blkno) := by
  simp [token]

@[simp] theorem Cond.token_free : Cond.free.token p = none := rfl

@[simp] theorem Cond.token_async : Cond.async.token p = none := rfl

/-- Nobody but `p` owns the header, and the client does not refer to it. -/
structure Cond.Only (p : Pid) (x : Cond) : Prop where
  token : ∀ q, q ≠ p → x.token q = none
  pin : x.pin = none

theorem Cond.only_held : (Cond.held p k w).Only p := ⟨fun q ne => by simp [Cond.token, ne], rfl⟩

theorem Cond.only_io : (Cond.io p r dev blkno).Only p := ⟨fun q ne => by simp [Cond.token, ne], rfl⟩

theorem Cond.only_free : Cond.free.Only p := ⟨fun _ _ => rfl, rfl⟩

theorem Cond.only_async : Cond.async.Only p := ⟨fun _ _ => rfl, rfl⟩

theorem After.token (after : After st st') (bp : Hdr) (q : Pid) :
    (st' bp).token q = (st bp).token q := by
  rcases after bp with e | ⟨async, free⟩
  · rw [e]
  · rw [async, free]
    rfl

theorem After.pin (after : After st st') (bp : Hdr) : (st' bp).pin = (st bp).pin := by
  rcases after bp with e | ⟨async, free⟩
  · rw [e]
  · rw [async, free]
    rfl

/-- One header changes its condition, and interrupts may have come in. -/
theorem Cached.next {G : Pid → Hold} {pin pin' : Hdr → Option Pin}
    (tok : ∀ q bq, update G p h q bq = (st bq).token q) (pins : ∀ bq, pin bq = (st bq).pin)
    (was : ∀ q, q ≠ p → (st bp).token q = none) (is : ∀ q, q ≠ p → x.token q = none)
    (inv : Inv c' L' st') (after : After (update st bp x) st')
    (pinned : pin' = update pin bp x.pin) :
    Cached c' (update G p (update h bp (x.token p))) pin' := by
  refine ⟨L', st', inv, fun q bq => ?_, fun bq => ?_⟩
  · rw [after.token]
    have tok := tok q bq
    by_cases e : bq = bp
    · subst e
      rw [update_self]
      by_cases eq : q = p
      · subst eq
        simp
      · rw [is q eq]
        rw [was q eq, update_of_ne eq] at tok
        rwa [update_of_ne eq]
    · rw [update_of_ne e]
      by_cases eq : q = p
      · subst eq
        simpa [e] using tok
      · rw [update_of_ne eq] at tok ⊢
        exact tok
  · rw [after.pin, pinned]
    by_cases e : bq = bp
    · subst e
      simp
    · rw [update_of_ne e, update_of_ne e]
      exact pins bq

/-! ### The running process -/

variable {C : Client σ δ}

theorem Inv.free_of_busy (inv : Inv c L st) (pool : bp.isPool = true)
    (busy : (c.buf bp).flags.busy = false) : st bp = .free := by
  have no : ∀ b : Bool, b = (c.buf bp).flags.busy → b ≠ true := fun b e => by simp [e, busy]
  cases is : st bp with
  | head => simp [(inv.head bp).mp is] at pool
  | free => rfl
  | held q k w => exact absurd (inv.fits is : (look c bp).Held k w).busy (no _ rfl)
  | io q r d b => exact absurd (inv.fits is : (look c bp).Io r d b).busy (no _ rfl)
  | async => exact absurd (inv.fits is : (look c bp).Async).busy (no _ rfl)
  | pinned d => exact absurd (inv.fits is : (look c bp).Pinned d).held.busy (no _ rfl)

/-- Nobody takes a header that is free. -/
def StaysFree (s s' : Kernel σ) : Prop :=
  ∀ bq, bq.isPool = true → (s.buf bq).flags.busy = false → (s'.buf bq).flags.busy = false

namespace Now

section

variable (now : Now C p h e v s T)

include now

theorem same (inside : Inside s s') (faulty : s'.cache.faulty = s.cache.faulty) (seen : view s' = v)
    (step : ∀ L st, Inv s.cache L st → ∃ L' st', Inv s'.cache L' st' ∧ After st st') :
    Now C p h e v s' T := by
  obtain ⟨L, st, inv, tok, pins⟩ := now.cached
  obtain ⟨L', st', inv', after⟩ := step L st inv
  refine ⟨⟨L', st', inv', fun q bq => ?_, fun bq => ?_⟩, inside.error.trans now.error,
    faulty.trans now.faulty, seen⟩
  · rw [after.token]
    exact tok q bq
  · rw [after.pin]
    exact pins bq

/-- One interrupt takes nothing from the running process. -/
theorem intr {i : Intr} (taken : Bio.intr i s = some s') :
    Now C p h e v s' T ∧ Drift s.cache s'.cache ∧ StaysFree s s' := by
  obtain ⟨L, st, inv, -⟩ := now.cached
  obtain ⟨L', st', inv', after⟩ := inv.intr taken
  have drift := inv.drift_intr taken
  have inside := Inside.intr taken
  refine ⟨now.same inside drift.faulty ?_ fun L st inv => inv.intr taken, drift,
    fun bq pool busy => ?_⟩
  · rw [← now.sees]
    simp only [view, inside.core, drift.last, drift.lastResid]
  · have free := inv.free_of_busy pool busy
    rcases after bq with e | ⟨-, e⟩
    · exact (inv'.fits (e.trans free) : (look s'.cache bq).Free).busy
    · exact (inv'.fits e : (look s'.cache bq).Free).busy

theorem env (env : Env s s') : Now C p h e v s' T ∧ Drift s.cache s'.cache ∧ StaysFree s s' := by
  induction env with
  | refl => exact ⟨now, .refl _, fun _ _ => id⟩
  | tail _ step ih =>
    obtain ⟨i, taken⟩ := step
    obtain ⟨now₁, drift₁, free₁⟩ := ih
    obtain ⟨now₂, drift₂, free₂⟩ := now₁.intr taken
    exact ⟨now₂, drift₁.trans drift₂, fun bq pool => free₂ bq pool ∘ free₁ bq pool⟩

/-- An action on a header that is the process's own, or nobody's. -/
theorem step (only : x.Only p) (inside : Inside s s') (faulty : s'.cache.faulty = s.cache.faulty)
    (seen : view s' = v') (core : v'.core = v.core)
    (step : ∀ L st, Inv s.cache L st → h bp = (st bp).token p → (st bp).Only p ∧
      ∃ L' st', Inv s'.cache L' st' ∧ After (update st bp x) st') :
    Now C p (update h bp (x.token p)) e v' s' T := by
  obtain ⟨L, st, inv, tok, pins⟩ := now.cached
  have own := tok p bp
  rw [update_self] at own
  obtain ⟨was, L', st', inv', after⟩ := step L st inv own
  refine ⟨Cached.next tok pins was.token only.token inv' after ?_, inside.error.trans now.error,
    faulty.trans now.faulty, seen⟩
  rw [core, only.pin, ← was.pin, ← pins bp, update_eq_self]

theorem of_held (own : h bp = some (.held k w)) (only : x.Only p) (inside : Inside s s')
    (faulty : s'.cache.faulty = s.cache.faulty) (seen : view s' = v') (core : v'.core = v.core)
    (step : ∀ L st, Inv s.cache L st → st bp = .held p k w →
      ∃ L' st', Inv s'.cache L' st' ∧ After (update st bp x) st') :
    Now C p (update h bp (x.token p)) e v' s' T := by
  refine now.step only inside faulty seen core fun L st inv tok => ?_
  have is := Cond.token_held.mp (tok.symm.trans own)
  exact ⟨is ▸ Cond.only_held, step L st inv is⟩

/-- Only headers change, so the client sees the same. -/
theorem view_onCache {f : Cache → Cache}
    (only : OnlyHeaders s.cache (f s.cache)) : view (s.onCache f) = v := by
  rw [← now.sees]
  simp only [view, Kernel.cache_onCache, only.last, only.lastResid]
  rfl

/-- The process changes headers, among them the condition of one it holds. -/
theorem on_held (own : h bp = some (.held k w)) {f : Cache → Cache} (mine : x.Only p)
    (only : OnlyHeaders s.cache (f s.cache))
    (step : ∀ L st, Inv s.cache L st → st bp = .held p k w →
      ∃ L', Inv (f s.cache) L' (update st bp x)) :
    Now C p (update h bp (x.token p)) e v (s.onCache f) T :=
  now.of_held own mine (.onCache f s) only.faulty (now.view_onCache only) rfl fun L st inv is => by
    obtain ⟨L', inv'⟩ := step L st inv is
    exact ⟨L', _, inv', .refl _⟩

theorem held (own : h bp = some (.held k w)) : (look s.cache bp).Held k w ∧ bp.isPool = true := by
  obtain ⟨L, st, inv, tok, pins⟩ := now.cached
  have is := tok p bp
  rw [update_self, own] at is
  have is := Cond.token_held.mp is.symm
  exact ⟨inv.fits is, inv.isPool (by simp [is])⟩

section

variable (own : h bp = some (.held k w))
include own

theorem done : (s.buf bp).flags.done = k.flags.done := congrArg (·.flags.done) (now.held own).1.snap

theorem delwri : (s.buf bp).flags.delwri = k.flags.delwri :=
  congrArg (·.flags.delwri) (now.held own).1.snap

theorem async : (s.buf bp).flags.async = k.flags.async :=
  congrArg (·.flags.async) (now.held own).1.snap

end

end

end Now

end V7Besm.Bio

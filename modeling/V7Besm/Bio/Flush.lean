import V7Besm.Bio.Find

/-!
`bflush`: what it writes, and what it leaves.

It looks at the available list only, so the delayed writes of buffers that are
busy at the time stay as they are.
-/

namespace V7Besm.Bio

open Coop Coop.Proto Links Function

variable {σ δ : Type} {C : Client σ δ} {s : Kernel σ} {bp : Hdr} {p : Pid} {h : Hold} {e : Int}
  {v : View σ} {T : Pid → Own δ} {dev : Dev}

/-- `bflush dev` has to write the buffer. -/
def Due (c : Cache) (dev : Dev) (bp : Hdr) : Prop :=
  (c.buf bp).flags.delwri = true ∧ (dev = NODEV ∨ dev = (c.buf bp).dev)

section

variable (now : Now C p h e v s T)

include now

theorem delayed_spec :
    C.proto.wp p (delayed dev) (fun r s' T' => T' = T ∧ s' = s ∧
      match r with
      | none => ∀ bq, bq.isPool = true → (s.buf bq).flags.busy = false → ¬ Due s.cache dev bq
      | some bp => bp.isPool = true ∧ (s.buf bp).flags.busy = false ∧
          (s.buf bp).flags.delwri = true) s T := by
  obtain ⟨L, st, inv, -⟩ := now.cached
  have ring := inv.wired.av
  refine wp_bind (now.read ?_)
  refine wp_loop (fun bp s' T' => T' = T ∧ s' = s ∧ ∃ l,
      Path (fun h => (s.cache.buf h).avForw) .bfreelist l bp ∧ .bfreelist ∉ l ∧
        ∀ x ∈ l, ¬ Due s.cache dev x)
    ⟨rfl, rfl, [], rfl, by simp, by simp⟩ ?_
  rintro bp s' T' ⟨rfl, rfl, l, path, head, miss⟩
  split
  · rename_i eq
    subst eq
    refine ⟨rfl, rfl, fun bq pool free => miss bq ?_⟩
    rw [ring.eq_of_path path head]
    exact (inv.wired.avail bq).mpr ⟨pool, free⟩
  · rename_i ne
    have mem : bp ∈ L.av := (List.mem_cons.mp (ring.mem_of_path List.mem_cons_self path)).resolve_left ne
    obtain ⟨pool, free⟩ := (inv.wired.avail bp).mp mem
    refine wp_bind (now.read ?_)
    split
    · rename_i due
      exact ⟨rfl, rfl, pool, free, due.1⟩
    · rename_i notDue
      refine ⟨rfl, rfl, l ++ [bp], path.snoc, ?_, fun x mem => ?_⟩
      · simp [head, Ne.symm ne]
      · rcases List.mem_append.mp mem with mem | mem
        · exact miss x mem
        · rwa [List.mem_singleton.mp mem]

/-- A free buffer is marked asynchronous and taken. -/
theorem Now.takeAsync (pool : bp.isPool = true) (free : (s.buf bp).flags.busy = false)
    (late : (s.buf bp).flags.delwri = true) :
    ∃ k, Now C p (update h bp (some (.held k false))) e v
        (s.onCache fun c => (notavail bp c).flag bp fun f => { f with async := true }) T ∧
      h bp = none ∧ k.flags.async = true ∧ k.flags.delwri = true ∧ k.Clean C := by
  obtain ⟨k, taken, unheld, -, clean, -, -, -, delwri⟩ := now.take pool free
  have marked := taken.markAsync (update_self ..)
  rw [update_idem] at marked
  exact ⟨_, marked, unheld, rfl, delwri.trans late, clean.delwri, clean.done⟩

theorem Now.nobody (pool : bp.isPool = true) (free : (s.buf bp).flags.busy = false) :
    (∀ q, update (fun q => (T q).hold) p h q bp = none) ∧ C.pin v.core bp = none := by
  obtain ⟨L, st, inv, tok, pins⟩ := now.cached
  have is := inv.free_of_busy pool free
  refine ⟨fun q => ?_, ?_⟩
  · rw [tok q bp, is]
    rfl
  · rw [pins bp, is]
    rfl

/-- A header that is nobody's is free, or its write is not put off. -/
theorem Now.free_or_early (pool : bp.isPool = true)
    (nobody : ∀ q, update (fun q => (T q).hold) p h q bp = none)
    (unpinned : C.pin v.core bp = none) :
    (s.buf bp).flags.busy = false ∨ (s.buf bp).flags.delwri = false := by
  obtain ⟨L, st, inv, tok, pins⟩ := now.cached
  rcases inv.loose pool (fun q => (tok q bp).symm.trans (nobody q))
    ((pins bp).symm.trans unpinned) with is | is
  · exact .inl (inv.fits is : (look s.cache bp).Free).busy
  · exact .inr (inv.fits is : (look s.cache bp).Async).delwri

theorem bflush_spec :
    C.proto.wp p (bflush dev) (fun _ s' T' => T' = T ∧ Now C p h e v s' T ∧
      (dev = NODEV → ∀ bq, bq.isPool = true → (s'.buf bq).flags.busy = false →
        (s'.buf bq).flags.delwri = false)) s T := by
  refine wp_seq (R := fun _ s T' => T' = T ∧ Now C p h e v s T ∧ ∀ bq, bq.isPool = true →
    (s.buf bq).flags.busy = false → ¬ Due s.cache dev bq)
    (wp_loop (fun _ s T' => T' = T ∧ Now C p h e v s T) ⟨rfl, now⟩ ?_) ?_
  · rintro _ s T' ⟨rfl, now⟩
    refine wp_seq (delayed_spec now) ?_
    rintro (_ | bp) s' T' ⟨rfl, rfl, found⟩
    · exact ⟨rfl, now, found⟩
    obtain ⟨pool, free, late⟩ := found
    obtain ⟨k, taken, unheld, async, delwri, clean⟩ := now.takeAsync pool free late
    refine wp_bind (now.act taken rfl ?_)
    refine wp_seq (bwrite_async taken (update_self ..) async) ?_
    rintro _ s' T' ⟨rfl, e', now, dev, error⟩
    rw [taken.record_same (update_self ..) (clean.delwri dev delwri), error delwri,
      update_idem, ← unheld, update_eq_self] at now
    exact ⟨rfl, now⟩
  · rintro _ s T' ⟨rfl, now, none⟩
    refine now.window fun s' now' drift _ => ⟨rfl, now', fun all bq pool free => ?_⟩
    have same : (s'.buf bq).flags.delwri = (s.buf bq).flags.delwri := drift.delwri bq
    obtain ⟨nobody, unpinned⟩ := now'.nobody pool free
    rw [same]
    rcases now.free_or_early pool nobody unpinned with free | early
    · by_contra late
      exact none bq pool free ⟨(Bool.not_eq_false _).mp late, .inl all⟩
    · exact early

/-- Which headers are busy with a delayed write is known from who holds what, so
code that does not sleep, and gives back all it takes, does not change it. -/
theorem Now.late_iff (pool : bp.isPool = true) :
    (s.buf bp).flags.busy = true ∧ (s.buf bp).flags.delwri = true ↔
      (∃ q k w, update (fun q => (T q).hold) p h q bp = some (.held k w) ∧
        k.flags.delwri = true) ∨ ∃ x, C.pin v.core bp = some x ∧ x.delwri = true := by
  obtain ⟨L, st, inv, tok, pins⟩ := now.cached
  simp only [tok _ bp, pins bp]
  have no : ∀ b, b = (s.buf bp).flags.delwri → b = false → ¬ (s.buf bp).flags.delwri = true := by
    rintro b rfl h
    simp [h]
  cases is : st bp with
  | head => simp [(inv.head bp).mp is] at pool
  | free =>
    have busy : (s.buf bp).flags.busy = false := (inv.fits is : (look s.cache bp).Free).busy
    simp [busy, Cond.pin]
  | held q k w =>
    have fit : (look s.cache bp).Held k w := inv.fits is
    have busy : (s.buf bp).flags.busy = true := fit.busy
    have delwri : (s.buf bp).flags.delwri = k.flags.delwri := congrArg (·.flags.delwri) fit.snap
    simp only [busy, delwri, true_and, Cond.token_held, Cond.pin]
    constructor
    · exact fun late => .inl ⟨q, k, w, rfl, late⟩
    · rintro (⟨q', k', w', eq, late⟩ | ⟨x, h, -⟩)
      · cases eq
        exact late
      · cases h
  | io q r d b =>
    have early := no _ rfl (inv.fits is : (look s.cache bp).Io r d b).delwri
    simp [early, Cond.token_held, Cond.pin]
  | async =>
    have early := no _ rfl (inv.fits is : (look s.cache bp).Async).delwri
    simp [early, Cond.pin]
  | pinned x =>
    have fit : (look s.cache bp).Pinned x := inv.fits is
    have busy : (s.buf bp).flags.busy = true := fit.held.busy
    have delwri : (s.buf bp).flags.delwri = x.delwri := fit.delwri
    simp [busy, delwri, Cond.token_held, Cond.pin]

end

end V7Besm.Bio

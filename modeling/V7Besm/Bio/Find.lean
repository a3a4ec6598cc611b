import V7Besm.Bio.Transfer

/-!
Finding a buffer: `getblk`, `geteblk`, `bread`, `breada` and `bflush`.
-/

namespace V7Besm.Bio

open Coop Coop.Proto Links Function List

variable {σ δ : Type} {C : Client σ δ} {s s' : Kernel σ} {bp : Hdr} {p : Pid} {k : Snap} {w : Bool}
  {h : Hold} {e : Int} {v v' : View σ} {T T' : Pid → Own δ} {d : δ} {lv : Level} {m : Major}
  {dev : Dev} {blkno : Int} {r : Bool}

theorem ne_nodev_of_row (row : bdevsw dev = some m) : dev ≠ NODEV := by
  rintro rfl
  simp [bdevsw_nodev] at row

/-! ### The chain of a device -/

/-- The search has gone past the headers of `l` and is at `bp`. -/
structure Passed (c : Cache) (m : Major) (dev : Dev) (blkno : Int) (l : List Hdr) (bp : Hdr) :
    Prop where
  path : Path (fun h => (c.buf h).forw) (.tab m) l bp
  head : .tab m ∉ l
  miss : ∀ x ∈ l, ¬ ((c.buf x).dev = dev ∧ (c.buf x).blkno = blkno)

variable {c : Cache} {l : List Hdr}

theorem Passed.drift {c' : Cache} (passed : Passed c m dev blkno l bp) (row : bdevsw dev = some m)
    (drift : Drift c c') : Passed c' m dev blkno l bp := by
  refine ⟨passed.path.congr drift.forw, passed.head, fun x mem hit => passed.miss x mem ?_⟩
  rw [drift.blkno x] at hit
  rcases drift.dev x with same | ⟨gone, -⟩
  · rwa [same] at hit
  · exact absurd (hit.1.symm.trans gone) (ne_nodev_of_row row)

variable {L : Lists}

/-- The search came back to the head of the chain: the block is in no buffer. -/
theorem Passed.absent (passed : Passed c m dev blkno l (.tab m)) (wired : Wired c L)
    (row : bdevsw dev = some m) : Absent c dev blkno := by
  intro bq pool hit
  obtain ⟨m', row', home⟩ := wired.dev bq pool (by rw [hit.1]; exact ne_nodev_of_row row)
  rw [hit.1, row] at row'
  obtain rfl := Option.some.inj row'
  have mem := (wired.mem bq (.tab m) rfl).mpr ⟨pool, home⟩
  rw [← (wired.chain (.tab m) rfl).eq_of_path passed.path passed.head] at mem
  exact passed.miss bq mem hit

theorem Passed.isPool (passed : Passed c m dev blkno l bp) (wired : Wired c L)
    (ne : bp ≠ .tab m) : bp.isPool = true := by
  have mem := (wired.chain (.tab m) rfl).mem_of_path mem_cons_self passed.path
  rcases mem_cons.mp mem with e | mem
  · exact absurd e ne
  · exact ((wired.mem bp (.tab m) rfl).mp mem).1

/-- What the search for a block answers. -/
def Found (c : Cache) (dev : Dev) (blkno : Int) : Option Hdr → Prop
  | none => Absent c dev blkno
  | some bp => bp.isPool = true ∧ (c.buf bp).dev = dev ∧ (c.buf bp).blkno = blkno

theorem chained_spec (now : Now C p h e v s T) (row : bdevsw dev = some m) :
    C.proto.wp p (chained m dev blkno) (fun r s' T' => T' = T ∧ Now C p h e v s' T ∧
      Found s'.cache dev blkno r) s T := by
  refine wp_bind (now.read ?_)
  refine wp_loop (fun bp s T' => T' = T ∧ Now C p h e v s T ∧ ∃ l, Passed s.cache m dev blkno l bp)
    ⟨rfl, now, [], rfl, by simp, by simp⟩ ?_
  rintro bp s T' ⟨rfl, now, l, passed⟩
  obtain ⟨L, st, inv, -⟩ := now.cached
  split
  · rename_i e
    subst e
    exact ⟨rfl, now, passed.absent inv.wired row⟩
  rename_i ne
  refine wp_bind (now.read ?_)
  split
  · rename_i miss
    have next : Passed s.cache m dev blkno (l ++ [bp]) (s.buf bp).forw := by
      refine ⟨passed.path.snoc, ?_, fun x mem => ?_⟩
      · simp [passed.head, Ne.symm ne]
      · rcases mem_append.mp mem with mem | mem
        · exact passed.miss x mem
        · rw [mem_singleton.mp mem]
          rintro ⟨rfl, rfl⟩
          simp [Kernel.buf] at miss
    exact wp_bind (now.window fun s' now drift _ => ⟨rfl, now, _, next.drift row drift⟩)
  · rename_i hit
    simp only [ne_eq, not_or, not_not] at hit
    exact ⟨rfl, now, passed.isPool inv.wired ne, hit.2, hit.1⟩

/-! ### The available list -/

/-- The first header of the available list, if the list is not empty. -/
theorem Wired.avForw (wired : Wired c L) (ne : (c.buf .bfreelist).avForw ≠ .bfreelist) :
    (c.buf .bfreelist).avForw.isPool = true ∧
      (c.buf (c.buf .bfreelist).avForw).flags.busy = false := by
  rcases mem_cons.mp (wired.av.next_mem mem_cons_self) with e | mem
  · exact absurd e ne
  · exact (wired.avail _).mp mem

theorem Wired.avForw_ne (wired : Wired c L) (pool : bp.isPool = true)
    (free : (c.buf bp).flags.busy = false) : (c.buf .bfreelist).avForw ≠ .bfreelist := by
  intro e
  have mem := (wired.avail bp).mpr ⟨pool, free⟩
  have path : Path (fun h => (c.buf h).avForw) .bfreelist [] .bfreelist := e
  rw [← wired.av.eq_of_path path (by simp)] at mem
  simp at mem

section

variable (now : Now C p h e v s T)
include now

theorem awaitFree_spec (ready : Ready C p d v T) :
    C.proto.wp p awaitFree (fun r s' T' =>
      r = true ∧ T' = T ∧ s' = s ∧ (∃ bq, bq.isPool = true ∧ (s.buf bq).flags.busy = false) ∨
      r = false ∧ ∃ v', Now C p h e v' s' T' ∧ Back C p d v T v' T') s T := by
  obtain ⟨L, st, inv, -⟩ := now.cached
  refine wp_bind (now.read ?_)
  split
  · refine wp_bind (now.act (now.want _ true) rfl ?_)
    exact wp_bind ((now.want _ true).sleep ready fun s' T' v' now back => .inr ⟨rfl, v', now, back⟩)
  · rename_i ne
    exact .inl ⟨rfl, rfl, rfl, _, inv.wired.avForw ne⟩

/-- The words of a header with a block are as the client sees them. -/
theorem Now.last (own : h bp = some (.held k w)) :
    k.last = v.last k.dev k.blkno ∧ k.lastResid = v.lastResid k.dev k.blkno := by
  have fit := (now.held own).1
  obtain rfl := now.sees
  obtain rfl := fit.snap
  exact ⟨rfl, rfl⟩

/-- Writing what the block has already changes nothing for the client. -/
theorem Now.record_same (own : h bp = some (.held k w))
    (same : k.data = k.last) : v.record k = v := by
  rw [View.record, same, (now.last own).1, update_eq_self, update_eq_self]

/-- The process takes a free header off the available list. -/
theorem Now.take (pool : bp.isPool = true) (free : (s.buf bp).flags.busy = false) :
    ∃ k, Now C p (update h bp (some (.held k false))) e v (s.onCache (notavail bp)) T ∧
      h bp = none ∧ k.flags.async = false ∧ k.Clean C ∧ k.dev = (s.buf bp).dev ∧
      k.blkno = (s.buf bp).blkno ∧ k.flags.done = (s.buf bp).flags.done ∧
      k.flags.delwri = (s.buf bp).flags.delwri := by
  have found : h bp = none ∧ (look s.cache bp).Free := by
    obtain ⟨L, st, inv, tok, -⟩ := now.cached
    have is := inv.free_of_busy pool free
    have own := tok p bp
    rw [update_self, is] at own
    exact ⟨own, inv.fits is⟩
  have next := now.step Cond.only_held (.onCache (notavail bp) s)
    rfl (now.view_onCache ⟨rfl, rfl, rfl, rfl, rfl⟩) rfl fun L st inv _ => by
      have is := inv.free_of_busy pool free
      obtain ⟨L', inv'⟩ := inv.take is p
      exact ⟨is ▸ Cond.only_free, L', _, inv', .refl _⟩
  rw [Cond.token_held_self] at next
  have self : body ((notavail bp s.cache).buf bp) =
      body { s.cache.buf bp with flags := { (s.cache.buf bp).flags with busy := true } } :=
    body_flag_self (unlinkAvail bp s.cache) bp _ (by simp [unlinkAvail])
  have eq : look (notavail bp s.cache) bp = lookOf s.cache bp
      { s.cache.buf bp with flags := { (s.cache.buf bp).flags with busy := true } } :=
    look_of_body ⟨rfl, rfl, rfl, rfl, rfl⟩ self
  obtain ⟨unheld, fit⟩ := found
  rw [eq] at next
  exact ⟨_, next, unheld, fit.async, ⟨fun dev d => (fit.delwri dev d).2, fun r =>
    fit.done (now.reliable.mpr r)⟩, rfl, rfl, rfl, rfl⟩

end

/-- A block that is in no buffer stays away while headers only lose blocks. -/
theorem Drift.absent {c' : Cache} (drift : Drift c c') (real : dev ≠ NODEV)
    (absent : Absent c dev blkno) : Absent c' dev blkno := by
  intro bq pool hit
  rw [drift.blkno bq] at hit
  rcases drift.dev bq with same | ⟨gone, -⟩
  · exact absent bq pool ⟨same ▸ hit.1, hit.2⟩
  · exact real (hit.1.symm.trans gone)

theorem block_notavail (bp : Hdr) (c : Cache) (bq : Hdr) :
    ((notavail bp c).buf bq).dev = (c.buf bq).dev ∧
      ((notavail bp c).buf bq).blkno = (c.buf bq).blkno := by
  have same := body_unlinkAvail bp c bq
  simp only [body, Prod.mk.injEq] at same
  rw [← same.2.1, ← same.2.2.1]
  have field := fun {α : Type} (g : Buf → α) => buf_set_field (unlinkAvail bp c) bp
    (fun b => { b with flags := { b.flags with busy := true } }) g
  exact ⟨field Buf.dev (fun _ => rfl) bq, field Buf.blkno (fun _ => rfl) bq⟩

theorem absent_notavail (absent : Absent c dev blkno) : Absent (notavail bp c) dev blkno := by
  intro bq pool hit
  rw [(block_notavail bp c bq).1, (block_notavail bp c bq).2] at hit
  exact absent bq pool hit

section

variable (now : Now C p h e v s T)
include now

/-- `takeFirst`, when there is a header on the available list. -/
theorem takeFirst_spec {bq : Hdr} (pool : bq.isPool = true) (free : (s.buf bq).flags.busy = false) :
    C.proto.wp p takeFirst (fun r s' T' => T' = T ∧
      match r with
      | none => Now C p h e v s' T
      | some bp => h bp = none ∧
          (∀ dev blkno, dev ≠ NODEV → Absent s.cache dev blkno → Absent s'.cache dev blkno) ∧
          ∃ k, Now C p (update h bp (some (.held k false))) e v s' T ∧
            k.flags.delwri = false ∧ k.flags.async = false) s T := by
  refine wp_bind (now.window fun s₁ now drift₁ free₁ => wp_bind (now.read ?_))
  obtain ⟨pool', free'⟩ : (s₁.buf .bfreelist).avForw.isPool = true ∧
      (s₁.buf (s₁.buf .bfreelist).avForw).flags.busy = false := by
    obtain ⟨L, st, inv, -⟩ := now.cached
    exact inv.wired.avForw (inv.wired.avForw_ne pool (free₁ bq pool free))
  generalize (s₁.buf .bfreelist).avForw = bp at pool' free'
  refine wp_bind (now.window fun s₂ now drift₂ free₂ => ?_)
  obtain ⟨k, taken, fresh, async, clean, -⟩ := now.take pool' (free₂ bp pool' free')
  refine wp_bind (now.act taken rfl (wp_bind (taken.window fun s₃ now drift₃ _ => ?_)))
  refine wp_bind (now.read ?_)
  have own := update_self bp (some (Token.held k false)) h
  rw [now.delwri own]
  split
  · rename_i late
    have marked := now.markAsync own
    rw [update_idem] at marked
    refine wp_bind (now.act marked rfl (wp_bind (marked.window fun s₄ now _ _ => ?_)))
    refine wp_seq (bwrite_async now (update_self ..) rfl) ?_
    rintro _ s₅ T' ⟨rfl, e', done, dev, error⟩
    rw [now.record_same (update_self ..) (clean.delwri dev late), error late,
      update_idem, ← fresh, update_eq_self] at done
    exact ⟨rfl, done⟩
  · rename_i early
    refine ⟨rfl, fresh, fun dev blkno real absent => ?_, k, now, by simpa using early, async⟩
    exact drift₃.absent real (absent_notavail (drift₂.absent real (drift₁.absent real absent)))

/-! ### `getblk` and `geteblk` -/

/-- A header as `getblk` returns it. If an interrupt took its block from it in
the meantime, the transfer that failed is over. -/
structure Snap.Fresh (k : Snap) (C : Client σ δ) (dev : Dev) (blkno : Int) : Prop where
  async : k.flags.async = false
  blkno : k.blkno = blkno
  dev : k.dev = dev ∨ k.dev = NODEV ∧ k.flags.done = true ∧ ¬ C.Reliable dev k.blkno
  clean : k.Clean C

theorem Now.assign (dp : Hdr) (dev : Dev) (blkno : Int)
    (own : h bp = some (.held k false)) (head : dp.isPool = false) (delwri : k.flags.delwri = false)
    (row : dev ≠ NODEV → (∃ m, bdevsw dev = some m ∧ dp = .tab m) ∧ Absent s.cache dev blkno) :
    ∃ k', Now C p (update h bp (some (.held k' false))) e v
        (s.onCache (assign bp dp dev blkno)) T ∧
      k'.flags = { busy := true } ∧ k'.dev = dev ∧ k'.blkno = blkno := by
  have fit := (now.held own).1
  obtain rfl := fit.snap
  have next := now.on_held own Cond.only_held
    ⟨rfl, rfl, rfl, rfl, rfl⟩ fun L st inv is => inv.reassign is delwri head row
  rw [Cond.token_held_self] at next
  have self := body_assign_self bp dp dev blkno s.cache
  simp only [body, Prod.mk.injEq] at self
  refine ⟨_, next, ?_, self.2.1, self.2.2.1⟩
  simp only [look, lookOf, Look.snap, self.1]

theorem getblk_spec (ready : Ready C p d v T) :
    C.proto.wp p (getblk dev blkno) (fun bp s' T' => ∃ k v',
      Now C p (update h bp (some (.held k false))) e v' s' T' ∧ Back C p d v T v' T' ∧
        h bp = none ∧ k.Fresh C dev blkno) s T := by
  unfold getblk
  split
  · trivial
  rename_i m row
  refine wp_loop (fun _ s T' => ∃ v', Now C p h e v' s T' ∧ Back C p d v T v' T')
    ⟨v, now, .refl ..⟩ ?_
  rintro _ s T' ⟨v', now, back⟩
  refine wp_bind (now.window fun s now _ _ => ?_)
  refine wp_seq (chained_spec now row) ?_
  rintro (_ | bp) s T'' ⟨rfl, now, found⟩
  · refine wp_seq (awaitFree_spec now (back.ready ready)) ?_
    rintro got s' T'' (⟨rfl, rfl, rfl, bq, pool, free⟩ | ⟨rfl, v'', now, back'⟩)
    · refine wp_seq (takeFirst_spec now pool free) ?_
      rintro (_ | bp) s'' T'' ⟨rfl, took⟩
      · exact ⟨v', took, back⟩
      obtain ⟨unheld, absent, k, now, delwri, async⟩ := took
      have real := ne_nodev_of_row row
      refine wp_bind (now.window fun s now drift _ => ?_)
      obtain ⟨k', assigned, flags, dev', blkno'⟩ := now.assign (.tab m) dev blkno (update_self ..)
        rfl delwri fun _ => ⟨⟨m, row, rfl⟩, drift.absent real (absent dev blkno real found)⟩
      rw [update_idem] at assigned
      refine wp_bind (now.act assigned rfl (wp_bind (assigned.window fun s now _ _ => ?_)))
      refine ⟨k', v', now, back, unheld, by rw [flags], blkno', .inl dev', ?_⟩
      exact ⟨fun _ h => by simp [flags] at h, fun _ h => by simp [flags] at h⟩
    · exact ⟨v'', now, back.trans back'⟩
  · obtain ⟨pool, dev', blkno'⟩ := found
    have reliable : Reliable s.cache dev blkno ↔ C.Reliable dev blkno := now.reliable
    refine wp_bind (now.window fun s₁ now drift₁ _ => wp_bind (now.read ?_))
    split
    · refine wp_bind (now.act (now.want bp true) rfl ?_)
      refine wp_bind ((now.want bp true).sleep (back.ready ready) fun s T'' v'' now back' => ?_)
      exact ⟨v'', now, back.trans back'⟩
    rename_i free
    have free : (s₁.buf bp).flags.busy = false := by simpa using free
    refine wp_bind (now.window fun s₂ now drift₂ free₂ => ?_)
    obtain ⟨k, taken, unheld, async, clean, kdev, kblkno, kdone, -⟩ := now.take pool (free₂ bp pool free)
    refine wp_bind (now.act taken rfl (wp_bind (taken.window fun s₃ now₃ _ _ => ?_)))
    have drift := drift₁.trans drift₂
    have kblkno := (kblkno.trans (drift.blkno bp)).trans blkno'
    refine ⟨k, v', now₃, back, unheld, async, kblkno, ?_, clean⟩
    rw [kdev, kdone, kblkno]
    rcases drift.dev bp with same | ⟨gone, done, bad⟩
    · exact .inl (same.trans dev')
    · rw [dev', blkno'] at bad
      exact .inr ⟨gone, done, fun r => bad (reliable.mpr r)⟩

theorem geteblk_spec (ready : Ready C p d v T) :
    C.proto.wp p geteblk (fun bp s' T' => ∃ k v',
      Now C p (update h bp (some (.held k false))) e v' s' T' ∧ Back C p d v T v' T' ∧
        h bp = none ∧ k.flags = { busy := true } ∧ k.dev = NODEV) s T := by
  refine wp_loop (fun _ s T' => ∃ v', Now C p h e v' s T' ∧ Back C p d v T v' T')
    ⟨v, now, .refl ..⟩ ?_
  rintro _ s T' ⟨v', now, back⟩
  refine wp_seq (awaitFree_spec now (back.ready ready)) ?_
  rintro got s' T'' (⟨rfl, rfl, rfl, bq, pool, free⟩ | ⟨rfl, v'', now, back'⟩)
  · refine wp_seq (takeFirst_spec now pool free) ?_
    rintro (_ | bp) s'' T'' ⟨rfl, took⟩
    · exact ⟨v', took, back⟩
    · obtain ⟨unheld, -, k, now, delwri, async⟩ := took
      refine wp_bind (now.window fun s now drift _ => ?_)
      obtain ⟨k', assigned, flags, dev', -⟩ := now.assign .bfreelist NODEV (s.buf bp).blkno
        (update_self ..) rfl delwri fun real => absurd rfl real
      rw [update_idem] at assigned
      refine wp_bind (now.act assigned rfl (wp_bind (assigned.window fun s now _ _ => ?_)))
      exact ⟨k', v', now, back, unheld, flags, dev'⟩
  · exact ⟨v'', now, back.trans back'⟩

end

/-! ### Reading -/

/-- A header as `bread` returns it: if the block is reliable it holds its words. -/
structure Snap.Read (k : Snap) (C : Client σ δ) (dev : Dev) (blkno : Int) : Prop where
  fresh : k.Fresh C dev blkno
  good : C.Reliable dev blkno → k.dev = dev ∧ k.flags.done = true ∧ k.data = k.last ∧
    (k.resid = 0 ∨ k.resid = k.lastResid)

theorem Snap.Fresh.read (fresh : k.Fresh C dev blkno) (done : k.flags.done = true) :
    k.Read C dev blkno := by
  refine ⟨fresh, fun r => ?_⟩
  have same : k.dev = dev := fresh.dev.resolve_right fun h => h.2.2 (fresh.blkno ▸ r)
  exact ⟨same, done, fresh.clean.done (by rwa [same, fresh.blkno]) done⟩

theorem Snap.Settled.isRead (settled : k.Settled C r dev blkno) : k.Read C dev blkno := by
  refine ⟨⟨settled.async, settled.blkno, .inl settled.dev, ?_, ?_⟩, fun r => ?_⟩
  · exact fun _ h => absurd (settled.delwri.symm.trans h) (by simp)
  · exact fun r _ => ⟨(settled.good r).2.1, .inl (settled.good r).2.2⟩
  · rw [← settled.dev, ← settled.blkno] at r
    exact ⟨settled.dev, settled.done, (settled.good r).2.1, .inl (settled.good r).2.2⟩

/-- `getblk` may return a header without its block only if that is done. -/
theorem Snap.Fresh.undone (fresh : k.Fresh C dev blkno) (undone : k.flags.done = false) :
    k.dev = dev := fresh.dev.resolve_right fun h => by simp [undone] at h

section

variable (now : Now C p h e v s T)
include now

theorem bread_spec (ready : Ready C p d v T) :
    C.proto.wp p (bread dev blkno) (fun bp s' T' => ∃ k e' v',
      Now C p (update h bp (some (.held k false))) e' v' s' T' ∧ Back C p d v T v' T' ∧
        h bp = none ∧ k.Read C dev blkno ∧ (C.Reliable dev blkno → e' = e)) s T := by
  unfold bread
  split
  · trivial
  rename_i m row
  refine wp_seq (getblk_spec now ready) ?_
  rintro bp s T' ⟨k, v', now, back, unheld, fresh⟩
  have own := update_self bp (some (Token.held k false)) h
  refine wp_bind (now.read ?_)
  rw [now.done own]
  split
  · rename_i done
    exact ⟨k, e, v', now, back, unheld, fresh.read done, fun _ => rfl⟩
  rename_i undone
  have undone : k.flags.done = false := by simpa using undone
  have dev' := fresh.undone undone
  refine wp_seq (startRead_spec now own (dev' ▸ row) undone false) ?_
  rintro _ s T'' ⟨rfl, now⟩
  rw [update_idem, fresh.async, if_neg (by simp)] at now
  refine wp_seq (iowait_spec now (update_self ..) (back.ready ready)) ?_
  rintro _ s T'' ⟨k', e', v'', now, back', settled, error⟩
  rw [update_idem] at now
  rw [dev', fresh.blkno] at settled error
  exact ⟨k', e', v'', now, back.trans back', unheld, settled.isRead, error⟩

theorem incore_spec :
    C.proto.wp p (incore dev blkno) (fun _ s' T' => T' = T ∧ Now C p h e v s' T) s T := by
  unfold incore
  split
  · trivial
  rename_i m row
  refine wp_seq (chained_spec now row) ?_
  rintro _ s T' ⟨rfl, now, -⟩
  exact ⟨rfl, now⟩

/-- What `readOne` leaves for `breada` to wait for: a buffer that is done, or a
request. -/
def Coming (C : Client σ δ) (p : Pid) (h : Hold) (e : Int) (v : View σ) (s : Kernel σ)
    (T : Pid → Own δ) (dev : Dev) (blkno : Int) (bp : Hdr) : Prop :=
  h bp = none ∧
    ((∃ k, Now C p (update h bp (some (.held k false))) e v s T ∧ k.Fresh C dev blkno ∧
      k.flags.done = true) ∨ Now C p (update h bp (some (.io true dev blkno))) e v s T)

theorem readOne_spec (row : bdevsw dev = some m) (ready : Ready C p d v T) :
    C.proto.wp p (readOne m dev blkno) (fun r s' T' => ∃ v', Back C p d v T v' T' ∧
      match r with
      | none => Now C p h e v' s' T'
      | some bp => Coming C p h e v' s' T' dev blkno bp) s T := by
  refine wp_seq (incore_spec now) ?_
  rintro there s T' ⟨rfl, now⟩
  split
  · exact ⟨v, .refl .., now⟩
  refine wp_seq (getblk_spec now ready) ?_
  rintro bp s T' ⟨k, v', now, back, unheld, fresh⟩
  have own := update_self bp (some (Token.held k false)) h
  refine wp_bind (now.read ?_)
  rw [now.done own]
  split
  · rename_i done
    exact ⟨v', back, unheld, .inl ⟨k, now, fresh, done⟩⟩
  · rename_i undone
    have undone : k.flags.done = false := by simpa using undone
    have dev' := fresh.undone undone
    refine wp_seq (startRead_spec now own (dev' ▸ row) undone false) ?_
    rintro _ s T'' ⟨rfl, now⟩
    rw [update_idem, fresh.async, if_neg (by simp), dev', fresh.blkno] at now
    exact ⟨v', back, unheld, .inr now⟩

theorem readAhead_spec {rablkno : Int} (row : bdevsw dev = some m) (ready : Ready C p d v T) :
    C.proto.wp p (readAhead m dev rablkno)
      (fun _ s' T' => ∃ v', Now C p h e v' s' T' ∧ Back C p d v T v' T') s T := by
  unfold readAhead
  split
  · exact ⟨v, now, .refl ..⟩
  refine wp_seq (incore_spec now) ?_
  rintro there s T' ⟨rfl, now⟩
  split
  · exact ⟨v, now, .refl ..⟩
  refine wp_seq (getblk_spec now ready) ?_
  rintro bp s T' ⟨k, v', now, back, unheld, fresh⟩
  have own := update_self bp (some (Token.held k false)) h
  have gone : update h bp none = h := by rw [← unheld, update_eq_self]
  refine wp_bind (now.read ?_)
  rw [now.done own]
  split
  · refine wp_mono ?_ (brelse_spec now own fun _ => fresh.clean)
    rintro _ s T'' ⟨rfl, now⟩
    rw [update_idem, gone] at now
    exact ⟨v', now, back⟩
  · rename_i undone
    have undone : k.flags.done = false := by simpa using undone
    have dev' := fresh.undone undone
    refine wp_mono ?_ (startRead_spec now own (dev' ▸ row) undone true)
    rintro _ s T'' ⟨rfl, now⟩
    rw [update_idem, Bool.or_true, if_pos rfl, gone] at now
    exact ⟨v', now, back⟩

theorem breada_spec {rablkno : Int} (ready : Ready C p d v T) :
    C.proto.wp p (breada dev blkno rablkno) (fun bp s' T' => ∃ k e' v',
      Now C p (update h bp (some (.held k false))) e' v' s' T' ∧ Back C p d v T v' T' ∧
        h bp = none ∧ k.Read C dev blkno ∧ (C.Reliable dev blkno → e' = e)) s T := by
  unfold breada
  split
  · trivial
  rename_i m row
  refine wp_seq (readOne_spec now row ready) ?_
  rintro (_ | bp) s T' ⟨v', back, one⟩
  · refine wp_seq (readAhead_spec one row (back.ready ready)) ?_
    rintro _ s T'' ⟨v'', now, back'⟩
    refine wp_mono ?_ (bread_spec now ((back.trans back').ready ready))
    rintro bp s T₃ ⟨k, e', v₃, now, back'', rest⟩
    exact ⟨k, e', v₃, now, (back.trans back').trans back'', rest⟩
  · obtain ⟨unheld, ⟨k, now, fresh, done⟩ | now⟩ := one
    · refine wp_seq (readAhead_spec now row (back.ready ready)) ?_
      rintro _ s T'' ⟨v'', now, back'⟩
      refine wp_seq (iowait_done now (update_self ..) done) ?_
      rintro _ s T₃ ⟨rfl, e', now, error⟩
      have read := fresh.read done
      exact ⟨k, e', v'', now, back.trans back', unheld, read, fun r => error (by
        rwa [(read.good r).1, fresh.blkno])⟩
    · refine wp_seq (readAhead_spec now row (back.ready ready)) ?_
      rintro _ s T'' ⟨v'', now, back'⟩
      refine wp_seq (iowait_spec now (update_self ..) ((back.trans back').ready ready)) ?_
      rintro _ s T₃ ⟨k, e', v₃, now, back'', settled, error⟩
      rw [update_idem] at now
      exact ⟨k, e', v₃, now, (back.trans back').trans back'', unheld, settled.isRead, error⟩

end

end V7Besm.Bio

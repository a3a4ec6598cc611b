import V7Besm.Bio.Inv

/-!
What each step of the cache does to the invariant.

A step works on one header and changes the condition of that header only. The
lemmas are about `Inv`; which process owns what follows from the conditions.
-/

namespace V7Besm.Bio

open Links Function List

/-! ### Fields of an updated cache -/

section Set

variable (c : Cache) (bp : Hdr) (f : Buf → Buf)

theorem buf_set : (c.set bp f).buf = update c.buf bp (f (c.buf bp)) := rfl

@[simp] theorem buf_set_self : (c.set bp f).buf bp = f (c.buf bp) := by simp [buf_set]

theorem buf_set_of_ne {bq : Hdr} (ne : bq ≠ bp) : (c.set bp f).buf bq = c.buf bq := by
  simp [buf_set, ne]

/-- A field that the update leaves alone is the same in every header. -/
theorem buf_set_field {α : Type} (g : Buf → α) (keep : ∀ b, g (f b) = g b) (bq : Hdr) :
    g ((c.set bp f).buf bq) = g (c.buf bq) := by
  by_cases e : bq = bp
  · subst e
    rw [buf_set_self, keep]
  · rw [buf_set_of_ne c bp f e]

theorem buf_set_at {α : Type} (g : Buf → α) (bq : Hdr) :
    g ((c.set bp f).buf bq) = if bq = bp then g (f (c.buf bp)) else g (c.buf bq) := by
  by_cases e : bq = bp
  · subst e
    rw [buf_set_self, if_pos rfl]
  · rw [buf_set_of_ne c bp f e, if_neg e]

end Set

/-- A header without its links. -/
def body (b : Buf) : Flags × Dev × Int × Int × Int × Words :=
  (b.flags, b.dev, b.blkno, b.wcount, b.resid, b.data)

/-- The links of a header. -/
def links (b : Buf) : Hdr × Hdr × Hdr × Hdr := (b.forw, b.back, b.avForw, b.avBack)

theorem block_of_body {b b' : Buf} (same : body b = body b') :
    b.flags = b'.flags ∧ b.dev = b'.dev ∧ b.blkno = b'.blkno := by
  simp only [body, Prod.mk.injEq] at same
  exact ⟨same.1, same.2.1, same.2.2.1⟩

section Links

variable (c : Cache) (bp x bq : Hdr)

@[simp] theorem setForw_fields :
    (((c.setForw bp x).buf bq).forw = if bq = bp then x else (c.buf bq).forw) ∧
    ((c.setForw bp x).buf bq).back = (c.buf bq).back ∧
    ((c.setForw bp x).buf bq).avForw = (c.buf bq).avForw ∧
    ((c.setForw bp x).buf bq).avBack = (c.buf bq).avBack ∧
    body ((c.setForw bp x).buf bq) = body (c.buf bq) := by
  by_cases e : bq = bp <;> simp [Cache.setForw, Cache.set, body, e]

@[simp] theorem setBack_fields :
    ((c.setBack bp x).buf bq).forw = (c.buf bq).forw ∧
    (((c.setBack bp x).buf bq).back = if bq = bp then x else (c.buf bq).back) ∧
    ((c.setBack bp x).buf bq).avForw = (c.buf bq).avForw ∧
    ((c.setBack bp x).buf bq).avBack = (c.buf bq).avBack ∧
    body ((c.setBack bp x).buf bq) = body (c.buf bq) := by
  by_cases e : bq = bp <;> simp [Cache.setBack, Cache.set, body, e]

@[simp] theorem setAvForw_fields :
    ((c.setAvForw bp x).buf bq).forw = (c.buf bq).forw ∧
    ((c.setAvForw bp x).buf bq).back = (c.buf bq).back ∧
    (((c.setAvForw bp x).buf bq).avForw = if bq = bp then x else (c.buf bq).avForw) ∧
    ((c.setAvForw bp x).buf bq).avBack = (c.buf bq).avBack ∧
    body ((c.setAvForw bp x).buf bq) = body (c.buf bq) := by
  by_cases e : bq = bp <;> simp [Cache.setAvForw, Cache.set, body, e]

@[simp] theorem setAvBack_fields :
    ((c.setAvBack bp x).buf bq).forw = (c.buf bq).forw ∧
    ((c.setAvBack bp x).buf bq).back = (c.buf bq).back ∧
    ((c.setAvBack bp x).buf bq).avForw = (c.buf bq).avForw ∧
    (((c.setAvBack bp x).buf bq).avBack = if bq = bp then x else (c.buf bq).avBack) ∧
    body ((c.setAvBack bp x).buf bq) = body (c.buf bq) := by
  by_cases e : bq = bp <;> simp [Cache.setAvBack, Cache.set, body, e]

variable (f : Flags → Flags)

@[simp] theorem flag_fields :
    ((c.flag bp f).buf bq).forw = (c.buf bq).forw ∧ ((c.flag bp f).buf bq).back = (c.buf bq).back ∧
    ((c.flag bp f).buf bq).avForw = (c.buf bq).avForw ∧
    ((c.flag bp f).buf bq).avBack = (c.buf bq).avBack := by
  by_cases e : bq = bp <;> simp [Cache.flag, Cache.set, e]

theorem body_flag_of_ne (ne : bq ≠ bp) : body ((c.flag bp f).buf bq) = body (c.buf bq) := by
  rw [Cache.flag, buf_set_of_ne _ _ _ ne]

theorem body_flag_self {b : Buf} (same : body (c.buf bp) = body b) :
    body ((c.flag bp f).buf bp) = body { b with flags := f b.flags } := by
  simp only [body, Prod.mk.injEq] at same
  simp [Cache.flag, body, same]

end Links

/-- Nothing but headers differs. -/
structure OnlyHeaders (c c' : Cache) : Prop where
  disk : c'.disk = c.disk
  queue : c'.queue = c.queue
  faulty : c'.faulty = c.faulty
  last : c'.last = c.last
  lastResid : c'.lastResid = c.lastResid

theorem OnlyHeaders.set (c : Cache) (bp : Hdr) (f : Buf → Buf) : OnlyHeaders c (c.set bp f) :=
  ⟨rfl, rfl, rfl, rfl, rfl⟩

theorem OnlyHeaders.trans {c c' c'' : Cache} (first : OnlyHeaders c c')
    (second : OnlyHeaders c' c'') : OnlyHeaders c c'' :=
  ⟨second.disk.trans first.disk, second.queue.trans first.queue,
    second.faulty.trans first.faulty, second.last.trans first.last,
    second.lastResid.trans first.lastResid⟩

variable {c c' : Cache} {L L' : Lists} {st : Hdr → Cond} {bp bq : Hdr} {p : Pid} {k : Snap}
  {x : Cond} {w : Bool}

theorem reliable_congr (faulty : c'.faulty = c.faulty) {dev : Dev} {blkno : Int} :
    Reliable c' dev blkno ↔ Reliable c dev blkno := by
  unfold Reliable
  rw [faulty]

theorem look_of_body (only : OnlyHeaders c c') {b : Buf} (same : body (c'.buf bq) = body b) :
    look c' bq = lookOf c bq b := by
  simp only [body, Prod.mk.injEq] at same
  obtain ⟨flags, dev, blkno, wcount, resid, data⟩ := same
  simp only [look, lookOf, flags, dev, blkno, wcount, resid, data, only.disk, only.queue,
    only.last, only.lastResid, Reliable, only.faulty]

theorem look_congr (only : OnlyHeaders c c') (same : body (c'.buf bq) = body (c.buf bq)) :
    look c' bq = look c bq := look_of_body only same

theorem look_set_self (c : Cache) (bp : Hdr) (f : Buf → Buf) :
    look (c.set bp f) bp = lookOf c bp (f (c.buf bp)) :=
  look_of_body (.set c bp f) (by rw [buf_set_self])

/-! ### Wiring -/

/-- Two headers that differ in nothing the wiring depends on. -/
def Alike (b b' : Buf) : Prop :=
  links b = links b' ∧ b.flags.busy = b'.flags.busy ∧ b.dev = b'.dev ∧ b.blkno = b'.blkno

/-- The wiring is a matter of links, devices and `busy` only. -/
theorem Wired.congr (wired : Wired c L) (same : ∀ h, Alike (c'.buf h) (c.buf h)) : Wired c' L := by
  have link := fun h => (same h).1
  have busy := fun h => (same h).2.1
  have dev := fun h => (same h).2.2.1
  have blkno := fun h => (same h).2.2.2
  simp only [links, Prod.mk.injEq] at link
  have forw : (fun h => (c'.buf h).forw) = fun h => (c.buf h).forw := funext fun h => (link h).1
  have back : (fun h => (c'.buf h).back) = fun h => (c.buf h).back := funext fun h => (link h).2.1
  have avForw : (fun h => (c'.buf h).avForw) = fun h => (c.buf h).avForw :=
    funext fun h => (link h).2.2.1
  have avBack : (fun h => (c'.buf h).avBack) = fun h => (c.buf h).avBack :=
    funext fun h => (link h).2.2.2
  refine ⟨?_, fun h head => ?_, wired.head, wired.mem, fun h => ?_, fun h pool => ?_,
    fun h h' pool pool' => ?_⟩
  · rw [avForw, avBack]
    exact wired.av
  · rw [forw, back]
    exact wired.chain h head
  · rw [busy]
    exact wired.avail h
  · rw [dev]
    exact wired.dev h pool
  · rw [dev, dev, blkno, blkno]
    exact wired.unique h h' pool pool'

/-- The rings of two heads have no header in common. -/
theorem Wired.apart (wired : Wired c L) {h h' y : Hdr} (head : h.isPool = false)
    (head' : h'.isPool = false) (ne : h ≠ h') (mem : y ∈ h :: L.chain h) :
    y ∉ h' :: L.chain h' := by
  intro mem'
  rcases mem_cons.mp mem with rfl | mem
  · rcases mem_cons.mp mem' with eq | mem'
    · exact ne eq
    · have := ((wired.mem y h' head').mp mem').1
      simp [head] at this
  · obtain ⟨ypool, yhome⟩ := (wired.mem y h head).mp mem
    rcases mem_cons.mp mem' with rfl | mem'
    · simp [head'] at ypool
    · exact ne (yhome.symm.trans ((wired.mem y h' head').mp mem').2)

/-! ### The general step -/

section

variable (inv : Inv c L st)
include inv

theorem Inv.fits (is : st bp = x) : Fit (look c bp) x := is ▸ inv.fit bp

/-- A step that changes how one header looks, and nothing about the others. -/
theorem Inv.step (wired : Wired c' L')
    (pool : x = .head ↔ bp.isPool = false) (here : Fit (look c' bp) x)
    (there : ∀ bq, bq ≠ bp → bq.isPool = true → look c' bq = look c bq)
    (flags : ∀ bq, bq ≠ bp → (c'.buf bq).flags = (c.buf bq).flags)
    (queue : ∀ bq m, bq ≠ bp → bq ∈ c'.queue m → bq ∈ c.queue m) (nodup : ∀ m, (c'.queue m).Nodup)
    (away : ∀ dev blkno, Reliable c' dev blkno → Absent c' dev blkno →
      c'.disk dev blkno = c'.last dev blkno) :
    Inv c' L' (update st bp x) := by
  refine ⟨wired, fun bq => ?_, fun bq => ?_, nodup, away⟩
  · by_cases e : bq = bp
    · subst e
      rwa [update_self]
    · rw [update_of_ne e]
      exact inv.head bq
  · by_cases e : bq = bp
    · subst e
      rwa [update_self]
    rw [update_of_ne e]
    by_cases head : st bq = .head
    · obtain ⟨idle, tape⟩ : (look c bq).Idle ∧ (c.buf bq).flags.tape = false := inv.fits head
      rw [head]
      refine ⟨fun m mem => idle m (queue bq m e mem), ?_⟩
      change (c'.buf bq).flags.tape = false
      rw [flags bq e, tape]
    · rw [there bq e (by rwa [← Bool.not_eq_false, ← inv.head])]
      exact inv.fit bq

theorem Inv.isPool (held : st bp ≠ .head) : bp.isPool = true := by
  rwa [← Bool.not_eq_false, ← inv.head]

theorem Inv.held (held : st bp = .held p k w) : (look c bp).Held k w ∧ bp.isPool = true :=
  ⟨inv.fits held, inv.isPool (by simp [held])⟩

/-- A header can be seen as being in another condition it fits. -/
theorem Inv.relabel (bp : Hdr) (pool : x = .head ↔ bp.isPool = false)
    (here : Fit (look c bp) x) : Inv c L (update st bp x) :=
  inv.step inv.wired pool here (fun _ _ _ => rfl) (fun _ _ => rfl) (fun _ _ _ mem => mem) inv.nodup
    inv.away

/-- A step on a header that leaves its block and its links alone. -/
theorem Inv.touch (bp : Hdr) (f : Buf → Buf) (pool : x = .head ↔ bp.isPool = false)
    (alike : ∀ b, Alike (f b) b) (here : Fit (lookOf c bp (f (c.buf bp))) x) :
    Inv (c.set bp f) L (update st bp x) := by
  have same : ∀ h, Alike ((c.set bp f).buf h) (c.buf h) := by
    intro h
    by_cases e : h = bp
    · rw [e, buf_set_self]
      exact alike _
    · rw [buf_set_of_ne c bp f e]
      exact ⟨rfl, rfl, rfl, rfl⟩
  refine inv.step (inv.wired.congr same) pool ?_ (fun bq ne _ => ?_)
    (fun bq ne => by rw [buf_set_of_ne c bp f ne]) (fun _ _ _ mem => mem) inv.nodup ?_
  · rwa [look_set_self]
  · exact look_congr (.set c bp f) (by rw [buf_set_of_ne c bp f ne])
  · intro d b rel absent
    refine inv.away d b rel fun h pool => ?_
    rw [← (same h).2.2.1, ← (same h).2.2.2]
    exact absent h pool

/-! ### On and off the available list -/

/-- A step that puts one header on the available list or takes it off. -/
theorem Inv.reavail (av : List Hdr) {b : Buf}
    (only : OnlyHeaders c c') (pool : x = .head ↔ bp.isPool = false)
    (forw : ∀ h, (c'.buf h).forw = (c.buf h).forw) (back : ∀ h, (c'.buf h).back = (c.buf h).back)
    (others : ∀ bq, bq ≠ bp → body (c'.buf bq) = body (c.buf bq))
    (self : body (c'.buf bp) = body b) (dev : b.dev = (c.buf bp).dev)
    (blkno : b.blkno = (c.buf bp).blkno)
    (ring : Ring (fun h => (c'.buf h).avForw) (fun h => (c'.buf h).avBack) .bfreelist av)
    (avail : bp ∈ av ↔ bp.isPool = true ∧ b.flags.busy = false)
    (avail' : ∀ bq, bq ≠ bp → (bq ∈ av ↔ bq ∈ L.av)) (here : Fit (lookOf c bp b) x) :
    Inv c' { L with av := av } (update st bp x) := by
  have others' := fun bq ne => block_of_body (others bq ne)
  have self' := block_of_body self
  have block : ∀ bq, (c'.buf bq).dev = (c.buf bq).dev ∧ (c'.buf bq).blkno = (c.buf bq).blkno := by
    intro bq
    by_cases e : bq = bp
    · rw [e, self'.2.1, self'.2.2]
      exact ⟨dev, blkno⟩
    · exact (others' bq e).2
  have wired := inv.wired
  refine inv.step ⟨ring, fun h head => ?_, wired.head, wired.mem, fun bq => ?_, fun bq p => ?_,
    fun bq br p p' => ?_⟩ pool ?_ (fun bq ne _ => ?_) (fun bq ne => (others' bq ne).1)
    (fun bq m _ => ?_) ?_ ?_
  · exact (wired.chain h head).frame (fun y _ => forw y) (fun y _ => back y)
  · by_cases e : bq = bp
    · rwa [e, self'.1]
    · rw [(others' bq e).1, avail' bq e]
      exact wired.avail bq
  · rw [(block bq).1]
    exact wired.dev bq p
  · rw [(block bq).1, (block br).1, (block bq).2, (block br).2]
    exact wired.unique bq br p p'
  · rwa [look_of_body only self]
  · exact look_congr only (others bq ne)
  · rw [only.queue]
    exact id
  · rw [only.queue]
    exact inv.nodup
  · intro d b' rel absent
    rw [only.disk, only.last]
    refine inv.away d b' ((reliable_congr only.faulty).mp rel) fun h hp => ?_
    rw [← (block h).1, ← (block h).2]
    exact absent h hp

end

attribute [local simp] unlinkAvail notavail linkFront linkBack unchain chainFront

theorem body_unlinkAvail (bp : Hdr) (c : Cache) (bq : Hdr) :
    body ((unlinkAvail bp c).buf bq) = body (c.buf bq) := by
  simp

theorem Inv.take (inv : Inv c L st) (free : st bp = .free) (p : Pid) :
    ∃ L', Inv (notavail bp c) L'
      (update st bp (.held p (look (notavail bp c) bp).snap false)) := by
  have fit : (look c bp).Free := inv.fits free
  have pool : bp.isPool = true := inv.isPool (by simp [free])
  have self : body ((notavail bp c).buf bp) =
      body { c.buf bp with flags := { (c.buf bp).flags with busy := true } } :=
    body_flag_self (unlinkAvail bp c) bp _ (by simp)
  have only : OnlyHeaders c (notavail bp c) := ⟨rfl, rfl, rfl, rfl, rfl⟩
  have av := inv.wired.av
  have there := (inv.wired.avail bp).mpr ⟨pool, fit.busy⟩
  refine ⟨_, inv.reavail (L.av.erase bp) only (by simp [pool]) (fun h => ?_) (fun h => ?_)
    (fun bq ne => ?_) self rfl rfl (av.erase there ?_ ?_ ?_ ?_) ?_
    (fun bq ne => mem_erase_of_ne ne) ?_⟩
  · simp
  · simp
  · rw [notavail, body_flag_of_ne _ _ _ _ ne]
    simp
  · simp
  · simp
  · intro y ne
    simp [ne]
  · intro y ne
    simp [ne]
  · simp [av.nodup.of_cons.not_mem_erase]
  · rw [look_of_body only self]
    exact ⟨rfl, fit.idle, rfl, fun d h => (fit.delwri d h).1, fit.error, fun r d _ => fit.disk r d⟩

/-- The links of the available list after `bp` is put on it. -/
theorem ring_link {av : List Hdr} (front : Bool)
    (ring : Ring (fun h => (c.buf h).avForw) (fun h => (c.buf h).avBack) .bfreelist av)
    (out : bp ∉ Hdr.bfreelist :: av) :
    Ring (fun h => ((if front then linkFront bp c else linkBack bp c).buf h).avForw)
      (fun h => ((if front then linkFront bp c else linkBack bp c).buf h).avBack) .bfreelist
      (if front then bp :: av else av ++ [bp]) := by
  have ne : Hdr.bfreelist ≠ bp := fun e => out (by simp [e])
  cases front with
  | true =>
    have next : (c.buf .bfreelist).avForw ≠ bp := fun e =>
      out (e ▸ ring.next_mem mem_cons_self)
    refine ring.pushFront out ?_ ?_ ?_ ?_ ?_ ?_
    · simp
    · simp [ne.symm]
    · simp
    · simp [next]
    · intro y hy hy'
      simp [hy, hy']
    · intro y hy hy'
      simp [hy, hy']
  | false =>
    have prev : (c.buf .bfreelist).avBack ≠ bp := fun e =>
      out (e ▸ ring.prev_mem mem_cons_self)
    refine ring.pushBack out ?_ ?_ ?_ ?_ ?_ ?_
    · simp
    · simp [ne.symm]
    · simp
    · simp [prev]
    · intro y hy hy'
      simp [hy, hy']
    · intro y hy hy'
      simp [hy, hy']

/-- A process puts the header it holds on the available list. -/
theorem Inv.put (inv : Inv c L st) (held : st bp = .held p k w)
    (clean : (look c bp).Clean) :
    ∃ L', Inv (putAvail bp c) L' (update st bp .free) := by
  obtain ⟨fit, pool⟩ := inv.held held
  generalize age : (c.buf bp).flags.age = front
  have same : ∀ h, body ((if front then linkFront bp c else linkBack bp c).buf h) =
      body (c.buf h) := by
    intro h
    cases front <;> simp
  have eq : putAvail bp c = (if front then linkFront bp c else linkBack bp c).flag bp
      fun f => { f with wanted := false, busy := false, async := false, age := false } := by
    rw [putAvail, age]
  rw [eq]
  have self := body_flag_self _ bp
    (fun f => { f with wanted := false, busy := false, async := false, age := false }) (same bp)
  have out : bp ∉ Hdr.bfreelist :: L.av := by
    rw [mem_cons, not_or]
    refine ⟨fun e => by simp [e, Hdr.isPool] at pool, fun mem => ?_⟩
    have busy : (c.buf bp).flags.busy = true := fit.busy
    simp [((inv.wired.avail bp).mp mem).2] at busy
  have mem : ∀ bq, bq ∈ (if front then bp :: L.av else L.av ++ [bp]) ↔ bq = bp ∨ bq ∈ L.av := by
    intro bq
    cases front <;> simp [or_comm]
  have ring := ring_link front inv.wired.av out
  have only : OnlyHeaders c ((if front then linkFront bp c else linkBack bp c).flag bp
      fun f => { f with wanted := false, busy := false, async := false, age := false }) := by
    cases front <;> exact ⟨rfl, rfl, rfl, rfl, rfl⟩
  refine ⟨_, inv.reavail _ only (by simp [pool]) (fun h => ?_) (fun h => ?_) (fun bq ne => ?_) self
    rfl rfl (by simpa using ring) ?_ (fun bq ne => ?_) ?_⟩
  · cases front <;> simp
  · cases front <;> simp
  · rw [body_flag_of_ne _ _ _ _ ne, same]
  · rw [mem]
    simp [pool]
  · rw [mem]
    simp [ne]
  · exact ⟨rfl, rfl, fit.idle, fun d h => ⟨fit.delwri d h, clean.delwri d h⟩, fit.error, clean.done,
      clean.disk⟩

theorem Inv.drop (inv : Inv c L st) (held : st bp = .held p k w) :
    Inv (dropError bp c) L (update st bp (.held p (look (dropError bp c) bp).snap w)) := by
  obtain ⟨fit, pool⟩ := inv.held held
  unfold dropError
  split
  · rename_i error
    have other : ∀ h, h ≠ bp → (c.set bp fun b => { b with dev := NODEV }).buf h = c.buf h :=
      fun h ne => buf_set_of_ne c bp _ ne
    have field := fun {α : Type} (g : Buf → α) => buf_set_field c bp (fun b => { b with dev := NODEV }) g
    have wired := inv.wired
    refine inv.step ⟨?_, fun h head => ?_, wired.head, wired.mem, fun h => ?_, fun h hp dev => ?_,
      fun h h' hp hp' dev => ?_⟩ (by simp [pool]) ?_ (fun bq ne _ => ?_)
      (fun bq ne => by rw [other bq ne]) (fun _ _ _ mem => mem) inv.nodup ?_
    · exact wired.av.frame (fun y _ => field Buf.avForw (fun _ => rfl) y)
        fun y _ => field Buf.avBack (fun _ => rfl) y
    · exact (wired.chain h head).frame (fun y _ => field Buf.forw (fun _ => rfl) y)
        fun y _ => field Buf.back (fun _ => rfl) y
    · rw [field Buf.flags (fun _ => rfl) h]
      exact wired.avail h
    · have ne : h ≠ bp := fun e => dev (by rw [e, buf_set_self])
      rw [other h ne] at dev ⊢
      exact wired.dev h hp dev
    · have ne : h ≠ bp := fun e => dev (by rw [e, buf_set_self])
      intro eq blk
      have ne' : h' ≠ bp := fun e => dev (by rw [eq, e, buf_set_self])
      rw [other h ne] at dev eq blk
      rw [other h' ne'] at eq blk
      exact wired.unique h h' hp hp' dev eq blk
    · have nodev : ¬ Reliable (c.set bp fun b => { b with dev := NODEV }) NODEV (c.buf bp).blkno :=
        fun r => r.ne_nodev rfl
      unfold look
      rw [buf_set_self]
      exact ⟨fit.busy, fit.idle, rfl, fun d => absurd rfl d, fun r => absurd r nodev,
        fun r => absurd r nodev⟩
    · exact look_congr (.set c bp _) (by rw [other bq ne])
    · intro d b rel absent
      refine inv.away d b rel fun h hp => ?_
      by_cases e : h = bp
      · -- An error means that the block is not reliable.
        subst e
        rintro ⟨rfl, rfl⟩
        have := fit.error rel
        simp [look, lookOf, error] at this
      · have := absent h hp
        rwa [other h e] at this
  · exact inv.relabel bp (x := .held p (look c bp).snap w) (by simp [pool]) { fit with snap := rfl }

/-! ### From one chain to another -/

section Rechain

variable {dp : Hdr}

theorem ring_unchain (wired : Wired c L) (pool : bp.isPool = true) {h : Hdr}
    (head : h.isPool = false) :
    Ring (fun h => ((unchain bp c).buf h).forw) (fun h => ((unchain bp c).buf h).back) h
      ((L.chain h).erase bp) := by
  have home := wired.head bp
  have ring := wired.chain _ home
  have mem := (wired.mem bp _ home).mpr ⟨pool, rfl⟩
  by_cases e : h = L.home bp
  · subst e
    refine ring.erase mem ?_ ?_ ?_ ?_
    · simp
    · simp
    · intro y ne
      simp [ne]
    · intro y ne
      simp [ne]
  · have out : bp ∉ L.chain h := fun mem => e ((wired.mem bp h head).mp mem).2.symm
    have apart := fun y => wired.apart (y := y) head home e
    have inRing : bp ∈ L.home bp :: L.chain (L.home bp) := mem_cons_of_mem _ mem
    rw [erase_of_not_mem out]
    refine (wired.chain h head).frame (fun y mem => ?_) (fun y mem => ?_)
    · have ne : y ≠ (c.buf bp).back := fun e => apart y mem (e ▸ ring.prev_mem inRing)
      simp [ne]
    · have ne : y ≠ (c.buf bp).forw := fun e => apart y mem (e ▸ ring.next_mem inRing)
      simp [ne]

/-- The chains with `bp` in front of that of `dp`. -/
theorem ring_chainFront (chain : Hdr → List Hdr) (head : dp.isPool = false) (pool : bp.isPool = true)
    (rings : ∀ h, h.isPool = false →
      Ring (fun h => (c.buf h).forw) (fun h => (c.buf h).back) h (chain h))
    (out : ∀ h, h.isPool = false → bp ∉ chain h)
    (apart : ∀ h, h.isPool = false → h ≠ dp → ∀ y ∈ h :: chain h, y ∉ dp :: chain dp)
    {h : Hdr} (head' : h.isPool = false) :
    Ring (fun h => ((chainFront bp dp c).buf h).forw) (fun h => ((chainFront bp dp c).buf h).back)
      h (update chain dp (bp :: chain dp) h) := by
  have ne : ∀ h : Hdr, h.isPool = false → bp ≠ h := by
    rintro h head rfl
    simp [pool] at head
  have outDp : bp ∉ dp :: chain dp := by
    rw [mem_cons, not_or]
    exact ⟨ne dp head, out dp head⟩
  have next := (rings dp head).next_mem mem_cons_self
  have nextNe : (c.buf dp).forw ≠ bp := fun e => outDp (e ▸ next)
  have dpNe : dp ≠ bp := (ne dp head).symm
  by_cases e : h = dp
  · subst e
    rw [update_self]
    refine (rings h head).pushFront outDp ?_ ?_ ?_ ?_ ?_ ?_
    · simp
    · simp [ne h head, dpNe]
    · simp [Ne.symm nextNe, dpNe]
    · simp [dpNe]
    · intro y hy hy'
      simp [hy, hy', dpNe]
    · intro y hy hy'
      simp [hy, hy', dpNe]
  · rw [update_of_ne e]
    have away : ∀ y ∈ h :: chain h, y ≠ bp ∧ y ≠ dp ∧ y ≠ (c.buf dp).forw := by
      intro y mem
      refine ⟨fun eq => ?_, fun eq => ?_, fun eq => ?_⟩
      · rcases mem_cons.mp mem with eq' | mem
        · exact ne h head' (eq.symm.trans eq')
        · exact out h head' (eq ▸ mem)
      · exact apart h head' e y mem (by simp [eq])
      · exact apart h head' e y mem (eq ▸ next)
    refine (rings h head').frame (fun y mem => ?_) (fun y mem => ?_)
    · simp [away y mem, dpNe]
    · simp [away y mem, dpNe]

end Rechain

theorem body_assign_of_ne (dp : Hdr) (dev : Dev) (blkno : Int) (c : Cache) (ne : bq ≠ bp) :
    body ((assign bp dp dev blkno c).buf bq) = body (c.buf bq) := by
  rw [assign, buf_set_of_ne _ _ _ ne]
  simp only [chainFront, unchain, setForw_fields, setBack_fields]
  rw [body_flag_of_ne _ _ _ _ ne]

theorem body_assign_self (bp dp : Hdr) (dev : Dev) (blkno : Int) (c : Cache) :
    body ((assign bp dp dev blkno c).buf bp) =
      body { c.buf bp with flags := { busy := true }, dev := dev, blkno := blkno } := by
  have inner : body ((chainFront bp dp (unchain bp (c.flag bp fun _ => { busy := true }))).buf bp) =
      body { c.buf bp with flags := { busy := true } } := by
    simp only [chainFront, unchain, setForw_fields, setBack_fields]
    exact body_flag_self c bp (fun _ => { busy := true }) rfl
  simp only [body, Prod.mk.injEq] at inner
  simp [assign, body, inner, -chainFront, -unchain]

/-- A process gives the header it holds to another block. -/
theorem Inv.reassign (inv : Inv c L st) (held : st bp = .held p k false) {dp : Hdr} {dev : Dev}
    {blkno : Int} (clean : (c.buf bp).flags.delwri = false) (head : dp.isPool = false)
    (row : dev ≠ NODEV → (∃ m, bdevsw dev = some m ∧ dp = .tab m) ∧ Absent c dev blkno) :
    ∃ L', Inv (assign bp dp dev blkno c) L'
      (update st bp (.held p (look (assign bp dp dev blkno c) bp).snap false)) := by
  obtain ⟨fit, pool⟩ := inv.held held
  have wired := inv.wired
  have wired₀ : Wired (c.flag bp fun _ => { busy := true }) L := by
    refine wired.congr fun h => ?_
    by_cases e : h = bp
    · subst e
      have busy : (c.buf h).flags.busy = true := fit.busy
      simp [Alike, links, Cache.flag, busy]
    · rw [Cache.flag, buf_set_of_ne _ _ _ e]
      exact ⟨rfl, rfl, rfl, rfl⟩
  have self := body_assign_self bp dp dev blkno c
  have only : OnlyHeaders c (assign bp dp dev blkno c) := ⟨rfl, rfl, rfl, rfl, rfl⟩
  have other := fun bq (ne : bq ≠ bp) => block_of_body (body_assign_of_ne dp dev blkno c ne)
  have field := fun {α : Type} (g : Buf → α) =>
    buf_set_field (chainFront bp dp (unchain bp (c.flag bp fun _ => { busy := true }))) bp
      (fun b => { b with dev := dev, blkno := blkno }) g
  have own : _ = ({ busy := true } : Flags) ∧ _ = dev ∧ _ = blkno := block_of_body self
  have out : ∀ h, h.isPool = false → bp ∉ (L.chain h).erase bp := fun h hh =>
    (nodup_cons.mp (wired.chain h hh).nodup).2.not_mem_erase
  have rings := fun (h : Hdr) (hh : h.isPool = false) =>
    ring_chainFront (fun h => (L.chain h).erase bp) head pool
      (fun h hh => ring_unchain wired₀ pool hh) out (fun h hh ne y mem mem' =>
        wired.apart hh head ne (cons_subset_cons _ erase_subset mem)
          (cons_subset_cons _ erase_subset mem')) hh
  refine ⟨{ av := L.av
            chain := update (fun h => (L.chain h).erase bp) dp (bp :: (L.chain dp).erase bp)
            home := update L.home bp dp },
    inv.step ⟨?_, fun h hh => ?_, fun bq => ?_, fun bq h hh => ?_, fun bq => ?_, fun bq hp ne => ?_,
      fun bq br hp hp' ne => ?_⟩ (by simp [pool]) ?_
      (fun bq ne _ => look_congr only (body_assign_of_ne _ _ _ _ ne))
      (fun bq ne => (other bq ne).1) (fun _ _ _ mem => mem) inv.nodup ?_⟩
  · exact wired.av.frame (fun y _ => (field Buf.avForw (fun _ => rfl) y).trans (by simp))
      fun y _ => (field Buf.avBack (fun _ => rfl) y).trans (by simp)
  · exact (rings h hh).frame (fun y _ => field Buf.forw (fun _ => rfl) y)
      fun y _ => field Buf.back (fun _ => rfl) y
  · by_cases e : bq = bp
    · simp [e, head]
    · simpa [e] using wired.head bq
  · by_cases e : bq = bp
    · subst e
      by_cases eq : h = dp
      · simp [eq, pool]
      · simp [eq, pool, out h hh, Ne.symm eq]
    · by_cases eq : h = dp
      · simp [eq, e, mem_erase_of_ne e, wired.mem bq dp head]
      · simp [eq, e, mem_erase_of_ne e, wired.mem bq h hh]
  · by_cases e : bq = bp
    · have := wired.avail bq
      have busy : (c.buf bp).flags.busy = true := fit.busy
      rw [e] at this ⊢
      rw [this, own.1, busy]
    · rw [(other bq e).1]
      exact wired.avail bq
  · by_cases e : bq = bp
    · subst e
      rw [own.2.1] at ne ⊢
      obtain ⟨⟨m, found, eq⟩, -⟩ := row ne
      exact ⟨m, found, by simp [eq]⟩
    · rw [(other bq e).2.1] at ne ⊢
      simpa [e] using wired.dev bq hp ne
  · intro eq blk
    by_cases e : bq = bp
    · by_cases e' : br = bp
      · exact e.trans e'.symm
      · subst e
        rw [own.2.1] at eq ne
        rw [own.2.2] at blk
        rw [(other br e').2.1] at eq
        rw [(other br e').2.2] at blk
        exact absurd ⟨eq.symm, blk.symm⟩ ((row ne).2 br hp')
    · rw [(other bq e).2.1] at eq ne
      rw [(other bq e).2.2] at blk
      by_cases e' : br = bp
      · subst e'
        rw [own.2.1] at eq
        rw [own.2.2] at blk
        exact absurd ⟨eq, blk⟩ ((row (eq ▸ ne)).2 bq hp)
      · rw [(other br e').2.1] at eq
        rw [(other br e').2.2] at blk
        exact wired.unique bq br hp hp' ne eq blk
  · rw [look_of_body only self]
    refine ⟨rfl, fit.idle, rfl, fun _ h => by simp [lookOf] at h, fun _ => rfl, fun r _ _ => ?_⟩
    exact inv.away dev blkno r (row r.ne_nodev).2
  · intro d b rel absent
    by_cases mine : (c.buf bp).dev = d ∧ (c.buf bp).blkno = b
    · obtain ⟨rfl, rfl⟩ := mine
      exact fit.disk rel clean rfl
    · refine inv.away d b rel fun h hp => ?_
      by_cases e : h = bp
      · subst e
        exact mine
      · have := absent h hp
        rwa [(other h e).2.1, (other h e).2.2] at this

end V7Besm.Bio

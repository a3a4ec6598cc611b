import V7Besm.Bio.Boot
import V7Besm.Bio.Flush

/-!
The buffer cache keeps its order and loses no write, whatever its users do.

The two lists every header is on stay rings, no block is in two buffers, and no
header has two holders (`traffic_orderly`). What is read is what was last written,
but `bflush` passes over buffers that somebody holds (`traffic_keeps_writes`).
-/

namespace V7Besm.Bio

open Coop Coop.Proto Links List
open Function (update update_self update_idem update_eq_self_iff)

variable {faulty : Dev → Int → Bool} {s : Kernel Desk} {bp : Hdr} {p : Pid} {k : Snap} {h : Hold}
  {e : Int} {v : View Desk} {T : Pid → Own Unit} {x : Pin}

/-- A block of a device of the machine. -/
def onDevice (dev : Dev) (blkno : Int) : Bool :=
  match bdevsw dev with
  | none => false
  | some m => reach m dev blkno

/-- The desk is in order: no header has two holders, what `bread` returned were the
words last written, and `bflush` wrote all but the busy buffers. -/
structure Desk.Ok (faulty : Dev → Int → Bool) (k : Desk) : Prop where
  alone : ∀ bp, (k.mine bp).length ≤ 1
  reads : ∀ r ∈ k.reads, onDevice r.dev r.blkno = true → faulty r.dev r.blkno = false → r.data = r.last
  flushes : ∀ f ∈ k.flushes, f.left = f.busy

/-- The users of the cache, as its client. -/
def users (faulty : Dev → Int → Bool) : Client Desk Unit where
  faulty := faulty
  inv v _ := v.core.Ok faulty
  pin k bp := (k.mine bp).head?.map (·.2)
  rest _ _ := True
  guar _ k k' := k.Ok faulty → k'.Ok faulty
  may _ _ := True
  sleeps _ _ := True
  guar_refl _ _ := id

theorem pin_set (k : Desk) (bp : Hdr) (l : List (Pid × Pin)) :
    (users faulty).pin (k.set bp l) = update ((users faulty).pin k) bp (l.head?.map (·.2)) := by
  funext bq
  by_cases eq : bq = bp
  · subst eq
    simp [users, Desk.set]
  · simp [users, Desk.set, eq]

theorem Desk.Ok.set {k : Desk} (ok : k.Ok faulty) (bp : Hdr) {l : List (Pid × Pin)}
    (one : l.length ≤ 1) : (k.set bp l).Ok faulty := by
  refine ⟨fun bq => ?_, ok.reads, ok.flushes⟩
  by_cases eq : bq = bp
  · subst eq
    simpa [Desk.set] using one
  · simpa [Desk.set, eq] using ok.alone bq

variable {dev : Dev} {blkno : Int}

theorem reliable_users :
    (users faulty).Reliable dev blkno ↔ onDevice dev blkno = true ∧ faulty dev blkno = false := by
  unfold Client.Reliable onDevice
  cases bdevsw dev <;> simp [users]

/-- The users' invariant after a call that may have slept. -/
theorem Back.ok {v' : View Desk} {T' : Pid → Own Unit} (back : Back (users faulty) p () v T v' T')
    (ok : v.core.Ok faulty) : v'.core.Ok faulty := by
  rcases back with ⟨-, rfl⟩ | ⟨-, ok'⟩
  · exact ok
  · exact ok'

/-! ### The desk -/

/-- The code is run to its end, and the process leaves the kernel. -/
abbrev Leaves (faulty : Dev → Int → Bool) (p : Pid) (f : K Desk Unit) (s : Kernel Desk)
    (T : Pid → Own Unit) : Prop := (users faulty).proto.wp p f ((users faulty).proto.back p) s T

/-- A process leaves the kernel with everything on its desk. -/
theorem leave (now : Now (users faulty) p (update (fun _ => none) bp none) e v s T)
    (ok : v.core.Ok faulty) : (users faulty).proto.back p () s T := by
  rw [update_eq_self_iff.mpr rfl] at now
  exact now.back (d := ()) ok trivial

/-- A process puts a header on its desk and leaves. -/
theorem keep_spec
    (now : Now (users faulty) p (update (fun _ => none) bp (some (.held k false))) e v s T)
    (async : k.flags.async = false) (clean : k.flags.error = false → k.Clean (users faulty))
    (ok : v.core.Ok faulty) :
    Leaves faulty p (keep bp) s T := by
  have own := update_self bp (some (Token.held k false)) (fun _ => none)
  have empty : v.core.mine bp = [] := by
    have := (now.alone own).2
    simpa [users] using this
  have core : s.core = v.core := congrArg View.core now.sees
  have delwri := now.delwri own
  have kept : (s.core.keep p bp { delwri := (s.buf bp).flags.delwri }).Ok faulty := by
    rw [core]
    exact ok.set bp (by simp [empty])
  have next := now.park own { delwri := (s.buf bp).flags.delwri }
    (s.core.keep p bp { delwri := (s.buf bp).flags.delwri }) async delwri.symm
    (fun _ error => now.clean own (clean error)) (by
      rw [core, Desk.keep, pin_set]
      rfl)
  rw [update_idem] at next
  exact Now.does fun _ => ⟨next, fun _ => kept, leave next kept⟩

/-- There is no other header of this number on the desk. -/
theorem Desk.Ok.mine_of_any {k : Desk} {q : Pid × Pin → Bool} (ok : k.Ok faulty)
    (holds : (k.mine bp).any q = true) : ∃ y, k.mine bp = [y] ∧ q y = true := by
  obtain ⟨y, mem, eq⟩ := any_eq_true.mp holds
  have one := ok.alone bp
  match list : k.mine bp, one with
  | [], _ => simp [list] at mem
  | [z], _ =>
    obtain rfl : y = z := by simpa [list] using mem
    exact ⟨y, rfl, eq⟩

theorem Desk.Ok.mine_of_holds {k : Desk} (ok : k.Ok faulty) (holds : k.holds p bp = true) :
    ∃ x, k.mine bp = [(p, x)] := by
  obtain ⟨⟨q, x⟩, mine, eq⟩ := ok.mine_of_any holds
  obtain rfl : q = p := by simpa using eq
  exact ⟨x, mine⟩

/-- A process takes a header from its desk and goes on with it. -/
theorem give_spec {f : K Desk Unit} (now : Now (users faulty) p (fun _ => none) e v s T)
    (mine : v.core.mine bp = [(p, x)]) (ok : v.core.Ok faulty)
    (next : ∀ k v s, Now (users faulty) p (update (fun _ => none) bp (some (.held k false))) e v s T →
      v.core.Ok faulty → k.flags.async = false →
      (x.dirty = false → k.flags.error = false → k.Clean (users faulty)) → Leaves faulty p f s T) :
    Leaves faulty p (give bp >>= fun _ => f) s T := by
  have core : s.core = v.core := congrArg View.core now.sees
  have given : (s.core.give p bp).Ok faulty := by
    rw [core]
    exact ok.set bp (by simp [mine])
  have pinned : (users faulty).pin v.core bp = some x := by simp [users, mine]
  obtain ⟨k, taken, -, async, -, clean, snap⟩ := now.unpark pinned (s.core.give p bp) (by
    rw [core, Desk.give, pin_set, mine]
    simp)
  subst snap
  exact wp_bind (Now.does fun _ => ⟨taken, fun _ => given, next _ _ _ taken given async
    fun fresh error => now.clean_snap (clean fresh error)⟩)

/-- The history is no matter of the cache. -/
theorem Now.noted (now : Now (users faulty) p h e v s T) (core' : Desk)
    (same : core'.mine = s.core.mine) :
    Now (users faulty) p h e { v with core := core' } { s with core := core' } T := by
  have pins : (users faulty).pin core' = (users faulty).pin v.core := by
    rw [← congrArg View.core now.sees]
    funext bq
    exact congrArg (fun mine : Hdr → List (Pid × Pin) => (mine bq).head?.map (·.2)) same
  refine ⟨?_, now.error, now.faulty, by rw [← now.sees]; rfl⟩
  have cached := now.cached
  rwa [← pins] at cached

/-! ### The calls -/

section

variable (now : Now (users faulty) p (fun _ => none) e v s T) (ok : v.core.Ok faulty)

include now ok

theorem getblk_call : Leaves faulty p (Call.getblk dev blkno).code s T := by
  refine wp_seq (getblk_spec (d := ()) now fun _ => ok) ?_
  rintro bp s T' ⟨k, v', now, back, -, fresh⟩
  exact keep_spec now fresh.async (fun _ => fresh.clean) (back.ok ok)

theorem geteblk_call : Leaves faulty p Call.geteblk.code s T := by
  refine wp_seq (geteblk_spec (d := ()) now fun _ => ok) ?_
  rintro bp s T' ⟨k, v', now, back, -, flags, dev⟩
  exact keep_spec now (by rw [flags]) (fun _ =>
    ⟨fun _ late => by simp [flags] at late, fun _ done => by simp [flags] at done⟩) (back.ok ok)

end

theorem noteRead_spec (now : Now (users faulty) p h e v s T) (own : h bp = some (.held k false))
    (read : k.Read (users faulty) dev blkno) (ok : v.core.Ok faulty) :
    (users faulty).proto.wp p (noteRead dev blkno bp) (fun _ s' T' => T' = T ∧ ∃ v',
      Now (users faulty) p h e v' s' T ∧ v'.core.Ok faulty) s T := by
  have core : s.core = v.core := congrArg View.core now.sees
  have data : (s.buf bp).data = k.data := congrArg (·.data) (now.held own).1.snap
  have last : s.cache.last = v.last := congrArg View.last now.sees
  have next := now.noted { s.core with
    reads := ⟨dev, blkno, (s.buf bp).data, s.cache.last dev blkno⟩ :: s.core.reads } rfl
  have ok' : Desk.Ok faulty { s.core with
      reads := ⟨dev, blkno, (s.buf bp).data, s.cache.last dev blkno⟩ :: s.core.reads } := by
    rw [core]
    refine ⟨ok.alone, fun r mem on reliable => ?_, ok.flushes⟩
    rcases mem_cons.mp mem with rfl | mem
    · have good := read.good (reliable_users.mpr ⟨on, reliable⟩)
      simp only [data, last, good.2.2.1, (now.last own).1, good.1, read.fresh.blkno]
    · exact ok.reads r mem on reliable
  exact Now.does fun _ => ⟨next, fun _ => ok', rfl, _, next, ok'⟩

theorem bread_keep {T' : Pid → Own Unit} {v' : View Desk}
    (now : Now (users faulty) p (update (fun _ => none) bp (some (.held k false))) e v' s T')
    (read : k.Read (users faulty) dev blkno) (ok : v'.core.Ok faulty) :
    Leaves faulty p (noteRead dev blkno bp >>= fun _ => keep bp) s T' := by
  refine wp_seq (noteRead_spec now (update_self ..) read ok) ?_
  rintro _ s T'' ⟨rfl, v'', now, ok⟩
  exact keep_spec now read.fresh.async (fun _ => read.fresh.clean) ok

section

variable (now : Now (users faulty) p (fun _ => none) e v s T) (ok : v.core.Ok faulty)

include now ok

theorem bread_call : Leaves faulty p (Call.bread dev blkno).code s T := by
  refine wp_seq (bread_spec (d := ()) now fun _ => ok) ?_
  rintro bp s T' ⟨k, e', v', now, back, -, read, -⟩
  exact bread_keep now read (back.ok ok)

theorem breada_call {rablkno : Int} : Leaves faulty p (Call.breada dev blkno rablkno).code s T := by
  refine wp_seq (breada_spec (d := ()) now fun _ => ok) ?_
  rintro bp s T' ⟨k, e', v', now, back, -, read, -⟩
  exact bread_keep now read (back.ok ok)

/-- A process changes the words of a header on its desk: it could take the header,
fill it and put it back. -/
theorem fill_call {words : Words} (holds : v.core.holds p bp = true) :
    Leaves faulty p (Call.fill bp words).code s T := by
  obtain ⟨x, mine⟩ := ok.mine_of_holds holds
  have core : s.core = v.core := congrArg View.core now.sees
  have pinned : (users faulty).pin v.core bp = some x := by simp [users, mine]
  obtain ⟨k, taken, -, async, delwri, -, -⟩ := now.unpark pinned (s.core.give p bp) (by
    rw [core, Desk.give, pin_set, mine]
    simp)
  have filled := taken.touch (update_self ..) (fun b => { b with data := words })
    { k with data := words } false (fun _ => ⟨rfl, rfl, rfl, rfl⟩)
    fun fit => by
      obtain rfl := fit.snap
      exact { fit with snap := rfl }
  have next := filled.park (update_self ..) { x with dirty := true } (s.core.soil p bp) async
    delwri (fun clean => by simp at clean) (by
      rw [core, Desk.soil, Desk.give, pin_set, pin_set, mine, update_idem]
      simp)
  rw [update_idem, update_idem] at next
  have ok' : (s.core.soil p bp).Ok faulty := by
    rw [core]
    exact ok.set bp (by simp [mine])
  exact Now.does fun _ => ⟨next, fun _ => ok', leave next ok'⟩

theorem brelse_call (holds : v.core.holdsClean p bp = true) :
    Leaves faulty p (Call.brelse bp).code s T := by
  obtain ⟨⟨q, x⟩, mine, eq⟩ := ok.mine_of_any holds
  obtain ⟨rfl, clean⟩ : q = p ∧ x.dirty = false := by simpa using eq
  refine give_spec now mine ok fun k v s now ok _ released => ?_
  refine wp_mono ?_ (brelse_spec now (update_self ..) (released clean))
  rintro _ s T' ⟨rfl, now⟩
  rw [update_idem] at now
  exact leave now ok

section

variable (holds : v.core.holds p bp = true)

include holds

theorem bwrite_call : Leaves faulty p (Call.bwrite bp).code s T := by
  obtain ⟨x, mine⟩ := ok.mine_of_holds holds
  refine give_spec now mine ok fun k v s now ok async _ => ?_
  refine wp_mono ?_ (bwrite_sync (d := ()) now (update_self ..) async fun _ => ok)
  rintro _ s T'' ⟨e', v'', now, back, -⟩
  rw [update_idem] at now
  exact leave now (back.ok ok)

theorem bawrite_call : Leaves faulty p (Call.bawrite bp).code s T := by
  obtain ⟨x, mine⟩ := ok.mine_of_holds holds
  refine give_spec now mine ok fun k v s now ok _ _ => ?_
  refine wp_mono ?_ (bawrite_spec now (update_self ..))
  rintro _ s T'' ⟨rfl, e', now, -⟩
  rw [update_idem] at now
  exact leave now ok

theorem bdwrite_call : Leaves faulty p (Call.bdwrite bp).code s T := by
  obtain ⟨x, mine⟩ := ok.mine_of_holds holds
  refine give_spec now mine ok fun k v s now ok _ _ => ?_
  refine wp_mono ?_ (bdwrite_spec now (update_self ..))
  rintro _ s T'' ⟨rfl, now⟩
  rw [update_idem] at now
  exact leave now ok

end

end

/-- After `bflush(NODEV)` the delayed writes left are those of the buffers that were
busy. -/
theorem delayedWrites_eq {s' : Kernel Desk} (now : Now (users faulty) p h e v s T)
    (now' : Now (users faulty) p h e v s' T)
    (free : ∀ bq, bq.isPool = true → (s'.buf bq).flags.busy = false →
      (s'.buf bq).flags.delwri = false) : delayedWrites s' = busyWrites s := by
  refine filter_congr fun bq mem => ?_
  have pool := mem_pool.mp mem
  have same := (now'.late_iff pool).trans (now.late_iff pool).symm
  have late := free bq pool
  cases busy' : (s'.buf bq).flags.busy with
  | true =>
    rw [busy'] at same
    rw [Bool.eq_iff_iff, Bool.and_eq_true, ← same]
    simp
  | false =>
    rw [busy'] at same
    rw [late busy', Bool.eq_iff_iff, Bool.and_eq_true, ← same]
    simp

theorem bflush_call (now : Now (users faulty) p (fun _ => none) e v s T) (ok : v.core.Ok faulty) :
    Leaves faulty p (Call.bflush dev).code s T := by
  refine wp_bind (now.read ?_)
  refine wp_seq (bflush_spec now) ?_
  rintro _ s' T' ⟨rfl, now', flushed⟩
  split
  · rename_i all
    have core : s'.core = v.core := congrArg View.core now'.sees
    have left := delayedWrites_eq now now' (flushed all)
    have next := now'.noted { s'.core with
      flushes := ⟨busyWrites s, delayedWrites s'⟩ :: s'.core.flushes } rfl
    have ok' : Desk.Ok faulty { s'.core with
        flushes := ⟨busyWrites s, delayedWrites s'⟩ :: s'.core.flushes } := by
      rw [core]
      refine ⟨ok.alone, ok.reads, fun f mem => ?_⟩
      rcases mem_cons.mp mem with rfl | mem
      · exact left
      · exact ok.flushes f mem
    exact Now.does fun _ => ⟨next, fun _ => ok', next.back (d := ()) ok' trivial⟩
  · exact now'.back (d := ()) ok trivial

theorem users_sound (faulty : Dev → Int → Bool) : (users faulty).proto.Sound traffic := by
  refine (users faulty).sound rfl fun p call s T inv rest allowed => ?_
  obtain ⟨now, ok, -⟩ := Client.enter inv rest
  cases call with
  | getblk dev blkno => exact getblk_call now ok
  | geteblk => exact geteblk_call now ok
  | bread dev blkno => exact bread_call now ok
  | breada dev blkno rablkno => exact breada_call now ok
  | fill bp words => exact fill_call now ok allowed
  | bwrite bp => exact bwrite_call now ok allowed
  | bdwrite bp => exact bdwrite_call now ok allowed
  | bawrite bp => exact bawrite_call now ok allowed
  | brelse bp => exact brelse_call now ok allowed
  | bflush dev => exact bflush_call now ok

/-! ### Every reachable state -/

/-- What holds of every state of every run. -/
theorem traffic_always {disk : Dev → Int → Words} {y : Config Pid (Kernel Desk)}
    (run : traffic.Reach (fun _ _ => True) (System.quiet (started disk faulty)) y) :
    (∃ G, Cached y.st.cache G ((users faulty).pin y.st.core)) ∧ y.st.core.Ok faulty := by
  have ok : (started disk faulty).core.Ok faulty := ⟨by simp [started], by simp [started], by simp [started]⟩
  have cached : Cached (started disk faulty).cache (fun _ _ => none)
      ((users faulty).pin (started disk faulty).core) := cached_boot disk faulty
  have start : (users faulty).proto.Good (System.quiet (started disk faulty)) :=
    Good.quiet (T := fun _ => ⟨fun _ => none, 0, ()⟩)
      ⟨cached, rfl, (binit_wired fun _ => rfl).2.1.faulty, ok⟩ fun _ => ⟨rfl, trivial⟩
  refine Good.always (users_sound faulty) (fun _ _ c _ _ _ => by cases c.head <;> trivial) start
    (A := fun s => (∃ G, Cached s.cache G ((users faulty).pin s.core)) ∧ s.core.Ok faulty)
    ?_ ?_ ⟨⟨_, cached⟩, ok⟩ run
  · rintro p s s' ⟨-, ok⟩ ⟨cached, guar⟩
    exact ⟨cached, guar ok⟩
  rintro i s s' ⟨⟨G, cached⟩, ok⟩ taken
  have core := (Inside.intr taken).core
  obtain ⟨L, st, inv, tok, pins⟩ := cached
  obtain ⟨L', st', inv', after⟩ := inv.intr taken
  refine ⟨⟨G, L', st', inv', fun q bq => ?_, fun bq => ?_⟩, core ▸ ok⟩
  · rw [after.token]
    exact tok q bq
  · rw [after.pin, core]
    exact pins bq

/-- Platters with nothing on them, and devices that do not fail. -/
def fresh : Config Pid (Kernel Desk) := System.quiet (started (fun _ _ _ => 0) fun _ _ => false)

/-- With devices that do not fail, what `bread` returns are the words last
written, and `bflush(NODEV)` leaves a write put off if and only if a buffer was
busy with one when it was called. -/
theorem traffic_keeps_writes {disk : Dev → Int → Words} {y : Config Pid (Kernel Desk)}
    (run : traffic.Reach (fun _ _ => True) (System.quiet (started disk fun _ _ => false)) y) :
    (∀ r ∈ y.st.core.reads, onDevice r.dev r.blkno = true → r.data = r.last) ∧
      ∀ f ∈ y.st.core.flushes, f.left = [] ↔ f.busy = [] := by
  obtain ⟨-, ok⟩ := traffic_always run
  refine ⟨fun r mem on => ok.reads r mem on rfl, fun f mem => ?_⟩
  rw [ok.flushes f mem]

/-- Process 0 writes a block with `bdwrite`; process 1 reads it and holds it while
process 2 calls `bflush(NODEV)`. -/
def flushAroundReader : List (Event Pid Call Intr) :=
  [.call 0 (.getblk 0 5), .call 0 (.fill (.pool 0) fun _ => 1), .call 0 (.bdwrite (.pool 0)),
    .call 1 (.bread 0 5), .call 2 (.bflush NODEV)]

/-- No writer is left, `bflush` has returned, and the write is neither in the queue of
the driver nor on the platter. -/
theorem bflush_skips_busy : ∃ y, traffic.Reach (fun _ _ => True) fresh y ∧
    y.st.core.flushes.map (·.left) = [[.pool 0]] ∧ y.cpu = none ∧
      y.st.core.mine (.pool 0) = [(1, { delwri := true })] ∧ y.st.cache.queue .md = [] ∧
      y.st.cache.disk 0 5 0 = 0 ∧ y.st.cache.last 0 5 0 = 1 :=
  traffic.exists_of_play 200 fresh flushAroundReader _ (by decide +kernel)

/-- The reader gives the buffer back first, and the same flush leaves nothing. -/
theorem traffic_keeps_writes_flushed : ∃ y, traffic.Reach (fun _ _ => True) fresh y ∧
    y.st.core.flushes.map (·.busy) = [[]] ∧ ∀ f ∈ y.st.core.flushes, f.left = [] := by
  obtain ⟨y, run, busy⟩ := traffic.exists_of_play 200 fresh
    [.call 0 (.getblk 0 5), .call 0 (.fill (.pool 0) fun _ => 1), .call 0 (.bdwrite (.pool 0)),
      .call 1 (.bread 0 5), .call 1 (.brelse (.pool 0)), .call 2 (.bflush NODEV)]
    (fun y => y.st.core.flushes.map (·.busy) = [[]]) (by decide +kernel)
  refine ⟨y, run, busy, fun f mem => ((traffic_keeps_writes run).2 f mem).mpr ?_⟩
  have : f.busy ∈ y.st.core.flushes.map (·.busy) := mem_map_of_mem mem
  simpa [busy] using this

end V7Besm.Bio

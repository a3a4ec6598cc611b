import V7Besm.Slp.Wakeup

/-!
What one round of `wakeup` does to the queues.

`wakeOne` is the effect of waking one process, without the recursive call that
`setrun` may make. It takes the process off its bucket and puts it in front of
the run queue (`Queued.wake`), so a round of the walk is an operation on lists.
-/

namespace V7Besm.Slp

open Links Function List

/-- With enough steps allowed, the routine returns `t`. -/
def Ends (f : Nat → Except Stop Table) (t : Table) : Prop := ∃ N, ∀ n, N ≤ n → f n = .ok t

theorem Ends.unique {f : Nat → Except Stop Table} {t t' : Table} (first : Ends f t)
    (second : Ends f t') : t = t' := by
  obtain ⟨N, h⟩ := first
  obtain ⟨N', h'⟩ := second
  have := (h (max N N') (Nat.le_max_left _ _)).symm.trans (h' (max N N') (Nat.le_max_right _ _))
  exact Except.ok.inj this

/-! ### Links of the tables between two statements -/

attribute [local simp] Table.set Table.setLink

@[simp] theorem link_setLink (t : Table) (p : Slot) (l : Option Slot) :
    (t.setLink p l).link = update t.link p l := by
  funext x
  by_cases e : x = p
  · subst e
    simp [Table.link]
  · simp [Table.link, e]

/-- Changing another field leaves the links alone. -/
theorem link_set (t : Table) (p : Slot) (f : Proc → Proc) (keep : ∀ r, (f r).link = r.link) :
    (t.set p f).link = t.link := by
  funext x
  by_cases e : x = p
  · subst e
    simp [Table.link, keep]
  · simp [Table.link, e]

theorem link_unlink (t : Table) (chan : Nat) (q sp : Option Slot) :
    (unlink t chan q sp).link =
      match q with
      | none => t.link
      | some q => update t.link q sp := by
  cases q with
  | none => rfl
  | some q => exact link_setLink t q sp

@[simp] theorem proc_preempt (p : Slot) (t : Table) : (preempt p t).proc = t.proc := by
  unfold preempt
  split <;> rfl

@[simp] theorem runq_preempt (p : Slot) (t : Table) : (preempt p t).runq = t.runq := by
  unfold preempt
  split <;> rfl

@[simp] theorem runout_preempt (p : Slot) (t : Table) : (preempt p t).runout = t.runout := by
  unfold preempt
  split <;> rfl

/-- What `setrun` does to a process that waits for nothing and is not on the
run queue, up to its last `if`. -/
def enqueue (p : Slot) (t : Table) : Table :=
  { t.set p fun r => { r with stat := .run, link := t.runq } with
    runq := some p
    runrun := if (t.proc p).pri < t.curpri then t.runrun + 1 else t.runrun }

/-- What `wakeup` does to a process before it calls `setrun`. -/
def takeOff (chan : Nat) (q : Option Slot) (p : Slot) (t : Table) : Table :=
  (unlink t chan q (t.link p)).set p fun r => { r with wchan := 0 }

def wakeOne (chan : Nat) (q : Option Slot) (p : Slot) (t : Table) : Table :=
  enqueue p (takeOff chan q p t)

section Enqueue

variable (p x : Slot) (t : Table)

@[simp] theorem link_enqueue : (enqueue p t).link = update t.link p t.runq := by
  funext x
  by_cases e : x = p
  · subst e
    simp [enqueue, Table.link]
  · simp [enqueue, Table.link, e]

theorem proc_enqueue : ((enqueue p t).proc x).stat = (if x = p then .run else (t.proc x).stat) ∧
    ((enqueue p t).proc x).wchan = (t.proc x).wchan ∧
    ((enqueue p t).proc x).load = (t.proc x).load := by
  by_cases e : x = p
  · subst e
    simp [enqueue]
  · simp [enqueue, e]

end Enqueue

theorem proc_unlink (t : Table) (chan : Nat) (q sp : Option Slot) (x : Slot) :
    ((unlink t chan q sp).proc x).stat = (t.proc x).stat ∧
    ((unlink t chan q sp).proc x).wchan = (t.proc x).wchan ∧
    ((unlink t chan q sp).proc x).load = (t.proc x).load := by
  cases q with
  | none => exact ⟨rfl, rfl, rfl⟩
  | some q =>
    by_cases e : x = q
    · subst e
      simp [unlink]
    · simp [unlink, e]

section

variable (chan : Nat)

include chan

section

variable (q : Option Slot)
include q

theorem link_takeOff (p : Slot) (t : Table) :
    (takeOff chan q p t).link =
      match q with
      | none => t.link
      | some q => update t.link q (t.link p) :=
  (link_set _ p (fun r => { r with wchan := 0 }) fun _ => rfl).trans
    (link_unlink t chan q (t.link p))

theorem proc_takeOff (p x : Slot) (t : Table) :
    ((takeOff chan q p t).proc x).stat = (t.proc x).stat ∧
    ((takeOff chan q p t).proc x).wchan = (if x = p then 0 else (t.proc x).wchan) ∧
    ((takeOff chan q p t).proc x).load = (t.proc x).load := by
  obtain ⟨stat, wchan, load⟩ := proc_unlink t chan q (t.link p) x
  by_cases e : x = p
  · subst e
    simp [takeOff, stat, load]
  · simp [takeOff, e, stat, wchan, load]

theorem proc_wakeOne (p x : Slot) (t : Table) :
    ((wakeOne chan q p t).proc x).stat = (if x = p then .run else (t.proc x).stat) ∧
    ((wakeOne chan q p t).proc x).wchan = (if x = p then 0 else (t.proc x).wchan) ∧
    ((wakeOne chan q p t).proc x).load = (t.proc x).load := by
  obtain ⟨stat, wchan, load⟩ := proc_enqueue p x (takeOff chan q p t)
  obtain ⟨stat', wchan', load'⟩ := proc_takeOff chan q p x t
  unfold wakeOne
  rw [stat, wchan, load, stat', wchan', load']
  exact ⟨rfl, rfl, rfl⟩

section

variable (p : Slot) (t : Table)
include p t

@[simp] theorem runq_takeOff : (takeOff chan q p t).runq = t.runq := by
  cases q <;> rfl

@[simp] theorem runout_takeOff : (takeOff chan q p t).runout = t.runout := by
  cases q <;> rfl

theorem link_wakeOne : (wakeOne chan q p t).link = update (takeOff chan q p t).link p t.runq := by
  unfold wakeOne
  rw [link_enqueue, runq_takeOff]

@[simp] theorem runq_wakeOne : (wakeOne chan q p t).runq = some p := rfl

@[simp] theorem runout_wakeOne : (wakeOne chan q p t).runout = t.runout := runout_takeOff chan q p t

theorem slpque_wakeOne :
    (wakeOne chan q p t).slpque = match q with
      | none => update t.slpque (hash chan) (t.link p)
      | some _ => t.slpque := by
  cases q <;> rfl

end

end

end

/-! ### The queues after one round -/

variable {t : Table} {B : Fin SQSIZE → List Slot} {R pre post : List Slot} {chan : Nat} {p : Slot}

/-- Waking `p`, which stands behind `pre` in its bucket, moves it from there
to the front of the run queue. -/
theorem Queued.wake (queued : Queued t B R) (at_ : B (hash chan) = pre ++ p :: post) :
    Queued (wakeOne chan pre.getLast? p t) (update B (hash chan) (pre ++ post))
      (p :: R) := by
  have nodup : (pre ++ p :: post).Nodup := at_ ▸ (queued.bucket (hash chan)).nodup
  have inB : ∀ x ∈ pre ++ p :: post, (t.proc x).wchan ≠ 0 ∧ hash (t.proc x).wchan = hash chan :=
    fun x mem => ⟨(queued.asleep _ x (at_ ▸ mem)).1, (queued.asleep _ x (at_ ▸ mem)).2.1⟩
  have elsewhere : ∀ x ∈ pre ++ p :: post, ∀ i, i ≠ hash chan → x ∉ B i := by
    intro x mem i ne mem'
    exact ne ((queued.asleep i x mem').2.1.symm.trans (inB x mem).2)
  have notR : ∀ x ∈ pre ++ p :: post, x ∉ R := fun x mem mem' => (inB x mem).1 (queued.awake x mem')
  have pmem : p ∈ pre ++ p :: post := by simp
  have pout : p ∉ pre ++ post := by
    intro mem
    rw [nodup_append] at nodup
    rcases mem_append.mp mem with mem | mem
    · exact nodup.2.2 p mem p mem_cons_self rfl
    · exact (nodup_cons.mp nodup.2.1).1 mem
  -- The links once `p` is out of its bucket and before it is on the run queue.
  obtain ⟨mid, hmid, here, there, runq⟩ : ∃ mid : Slot → Option Slot,
      (wakeOne chan pre.getLast? p t).link = update mid p t.runq ∧
      Chain mid ((wakeOne chan pre.getLast? p t).slpque (hash chan)) (pre ++ post) ∧
      (∀ i, i ≠ hash chan → Chain mid ((wakeOne chan pre.getLast? p t).slpque i) (B i)) ∧
      Chain mid t.runq R := by
    refine ⟨_, link_wakeOne chan pre.getLast? p t, ?_⟩
    rw [link_takeOff]
    have whole := queued.bucket (hash chan)
    rw [at_] at whole
    rcases eq_nil_or_concat pre with rfl | ⟨front, q, rfl⟩
    · refine ⟨?_, fun i ne => ?_, queued.runq⟩
      · simpa [slpque_wakeOne] using whole.2
      · simpa [slpque_wakeOne, ne] using queued.bucket i
    · have qmem : q ∈ (front ++ [q]) ++ p :: post := by simp
      simp only [concat_eq_append, append_assoc, singleton_append] at whole qmem ⊢
      refine ⟨?_, fun i ne => ?_, ?_⟩
      · simpa [slpque_wakeOne] using whole.unlink
      · simpa [slpque_wakeOne] using
          (queued.bucket i).update_of_notMem (elsewhere q (by simp) i ne)
      · simpa using queued.runq.update_of_notMem (notR q (by simp))
  refine ⟨fun i => ?_, ?_, ?_, ?_, ?_⟩
  · rw [hmid]
    by_cases e : i = hash chan
    · subst e
      rw [update_self]
      exact here.update_of_notMem pout
    · rw [update_of_ne e]
      exact (there i e).update_of_notMem (elsewhere p pmem i e)
  · rw [hmid, runq_wakeOne]
    exact runq.push (notR p pmem)
  · intro i x mem
    have member : x ∈ B i ∧ x ≠ p := by
      by_cases e : i = hash chan
      · subst e
        rw [update_self] at mem
        refine ⟨at_ ▸ ?_, fun e => pout (e ▸ mem)⟩
        rcases mem_append.mp mem with mem | mem <;> simp [mem]
      · rw [update_of_ne e] at mem
        exact ⟨mem, fun h => elsewhere p pmem i e (h ▸ mem)⟩
    obtain ⟨stat, wchan, -⟩ := proc_wakeOne chan pre.getLast? p x t
    rw [stat, wchan, if_neg member.2, if_neg member.2]
    exact queued.asleep i x member.1
  · intro x mem
    rw [(proc_wakeOne chan pre.getLast? p x t).2.1]
    split
    · rfl
    · rename_i ne
      exact queued.awake x (by simpa [ne] using mem)
  · intro x
    rw [(proc_wakeOne chan pre.getLast? p x t).2.1]
    split
    · simp
    rename_i ne
    intro asleep
    have mem := queued.all x asleep
    by_cases e : hash (t.proc x).wchan = hash chan
    · rw [e, at_] at mem
      rw [e, update_self]
      rcases mem_append.mp mem with mem | mem
      · exact mem_append_left _ mem
      · exact mem_append_right _ (by simpa [ne] using mem)
    · rwa [update_of_ne e]

/-! ### One round of the walk -/

theorem onQueue_of_notMem {R : List Slot} {h : Option Slot} {n : Nat} (c : Chain t.link h R)
    (out : p ∉ R) (long : R.length ≤ n) : t.onQueue p n h = .ok false := by
  induction R generalizing h n with
  | nil =>
    obtain rfl : h = none := c
    cases n <;> rfl
  | cons q R ih =>
    obtain ⟨rfl, c⟩ := c
    obtain ⟨n, rfl⟩ : ∃ m, n = m + 1 := ⟨n - 1, by simp at long; omega⟩
    rw [mem_cons, not_or] at out
    rw [Table.onQueue, if_neg (Ne.symm out.1)]
    exact ih c out.2 (by simp at long; omega)

/-- `setrun` of a process that waits for nothing and is on no queue. -/
theorem setrun_eq (ro : Nat) {n : Nat} (alive : (t.proc p).stat ≠ .free ∧ (t.proc p).stat ≠ .zomb)
    (ready : (t.proc p).wchan = 0) (c : Chain t.link t.runq R) (out : p ∉ R)
    (long : R.length ≤ n) :
    setrun ro (n + 1) p t =
      if t.runout ≠ 0 ∧ (t.proc p).load = false then
        wakeLoop ro n ro none (t.slpque (hash ro)) { enqueue p t with runout := 0 }
      else .ok (enqueue p t) := by
  have keep := link_set t p (fun r => { r with stat := .run }) fun _ => rfl
  have search : (t.set p fun r => { r with stat := .run }).onQueue p n t.runq = .ok false :=
    onQueue_of_notMem (keep ▸ c) out long
  have pushed : (t.set p fun r => { r with stat := .run }).setrq n p =
      .ok { enqueue p t with runrun := t.runrun } := by
    show (Table.onQueue _ p n t.runq).map _ = _
    rw [search]
    simp [Except.map, enqueue]
  rw [setrun, if_neg (by simp [alive]), if_neg (by simp [ready]), pushed]
  simp only [Except.bind]
  by_cases low : (t.proc p).pri < t.curpri
  · simp [preempt, enqueue, low]
  · simp [preempt, enqueue, low]

theorem wakeLoop_hit (ro : Nat) {n : Nat} (queued : Queued t B R) (at_ : B (hash chan) = pre ++ p :: post)
    (hit : (t.proc p).wchan = chan) (long : R.length ≤ n) :
    wakeLoop ro (n + 2) chan pre.getLast? (some p) t =
      (if t.runout ≠ 0 ∧ (t.proc p).load = false then
        wakeLoop ro n ro none ((wakeOne chan pre.getLast? p t).slpque (hash ro))
          { wakeOne chan pre.getLast? p t with runout := 0 }
      else .ok (wakeOne chan pre.getLast? p t)).bind
        (wakeLoop ro (n + 1) chan pre.getLast? post.head?) := by
  have mem : p ∈ B (hash chan) := by simp [at_]
  obtain ⟨asleep, -, alive⟩ := queued.asleep _ p mem
  have next : t.link p = post.head? := (at_ ▸ queued.bucket (hash chan)).split.head
  -- Taking `p` off its bucket leaves the run queue alone.
  have runq : Chain (takeOff chan pre.getLast? p t).link t.runq R := by
    rw [link_takeOff]
    rcases eq_nil_or_concat pre with rfl | ⟨front, q, rfl⟩
    · exact queued.runq
    · have qmem : q ∈ B (hash chan) := by simp [at_]
      have out : q ∉ R := fun mem => (queued.asleep _ q qmem).1 (queued.awake q mem)
      simpa using queued.runq.update_of_notMem out
  have out : p ∉ R := fun mem => asleep (queued.awake p mem)
  obtain ⟨stat, wchan, load⟩ := proc_takeOff chan pre.getLast? p p t
  have run := setrun_eq ro (stat ▸ alive) (by simp [wchan])
    (by rw [runq_takeOff]; exact runq) out long
  rw [runout_takeOff, load] at run
  rw [wakeLoop, if_pos ⟨hit, alive.2⟩, next]
  exact congrArg (Except.bind · _) (next ▸ run)

theorem wakeLoop_miss {ro n : Nat} {q : Option Slot} (miss : (t.proc p).wchan ≠ chan) :
    wakeLoop ro (n + 1) chan q (some p) t = wakeLoop ro n chan (some p) (t.link p) t := by
  rw [wakeLoop, if_neg (fun h => miss h.1)]

end V7Besm.Slp

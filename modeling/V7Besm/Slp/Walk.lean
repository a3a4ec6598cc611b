import V7Besm.Slp.Queues

/-!
Walks of `wakeup` that are not disturbed.

A walk is disturbed when it wakes a process that is not in core while `runout`
is set, because `setrun` then walks a bucket of its own. Until that happens the
walk moves the sleepers it meets to the run queue and keeps the others where
they are (`walk`); a walk that meets no sleeper of its channel changes nothing,
whatever list it follows (`wakeLoop_stray`).
-/

namespace V7Besm.Slp

open Links Function List

variable {t t' t'' : Table} {B : Fin SQSIZE → List Slot} {R R' R'' pre mid post : List Slot}
  {chan ro : Nat} {p : Slot}

/-- Exactly the processes of `W` were set running on the way from `t` to `t'`,
and were put in front of the run queue. -/
structure Moved (W : Slot → Prop) (t : Table) (R : List Slot) (t' : Table) (R' : List Slot) :
    Prop where
  run : ∀ x, W x → (t'.proc x).stat = .run ∧ (t'.proc x).wchan = 0
  same : ∀ x, ¬ W x → (t'.proc x).stat = (t.proc x).stat ∧ (t'.proc x).wchan = (t.proc x).wchan
  load : ∀ x, (t'.proc x).load = (t.proc x).load
  new : ∃ front, R' = front ++ R ∧ ∀ x, x ∈ front ↔ W x

namespace Moved

variable {W W' : Slot → Prop}

theorem none (t : Table) (R : List Slot) (empty : ∀ x, ¬ W x) : Moved W t R t R :=
  ⟨fun x w => absurd w (empty x), fun _ _ => ⟨rfl, rfl⟩, fun _ => rfl, [], rfl,
    fun x => by simp [empty x]⟩

theorem trans (first : Moved W t R t' R') (second : Moved W' t' R' t'' R'') :
    Moved (fun x => W' x ∨ W x) t R t'' R'' where
  run x w := by
    by_cases w' : W' x
    · exact second.run x w'
    · obtain ⟨stat, wchan⟩ := second.same x w'
      rw [stat, wchan]
      exact first.run x (w.resolve_left w')
  same x w := by
    rw [not_or] at w
    obtain ⟨stat, wchan⟩ := second.same x w.1
    rw [stat, wchan]
    exact first.same x w.2
  load x := (second.load x).trans (first.load x)
  new := by
    obtain ⟨front, rfl, mem⟩ := first.new
    obtain ⟨front', rfl, mem'⟩ := second.new
    refine ⟨front' ++ front, by simp, fun x => ?_⟩
    rw [mem_append, mem, mem']

section

variable (moved : Moved W t R t' R')
include moved

theorem congr (iff : ∀ x, W x ↔ W' x) : Moved W' t R t' R' := by
  obtain rfl : W = W' := funext fun x => propext (iff x)
  exact moved

/-- A process that still waits for a channel afterwards was not moved. -/
theorem waits {x : Slot} (asleep : (t'.proc x).wchan ≠ 0) :
    ¬ W x ∧ (t'.proc x).wchan = (t.proc x).wchan := by
  have out : ¬ W x := fun w => asleep (moved.run x w).2
  exact ⟨out, (moved.same x out).2⟩

/-- Who sleeps on a channel or was moved is the same before and after. -/
theorem sleepsOn_or {c : Nat} {x : Slot} : SleepsOn t' c x ∨ W x ↔ SleepsOn t c x ∨ W x := by
  refine ⟨Or.imp_left fun sleeps => ?_, fun w => ?_⟩
  · exact ⟨(moved.waits (sleeps.1 ▸ sleeps.2)).2 ▸ sleeps.1, sleeps.2⟩
  · by_cases woken : W x
    · exact .inr woken
    · exact .inl ((w.resolve_right woken).imp_left (moved.same x woken).2.trans)

theorem mem (x : Slot) : x ∈ R' ↔ W x ∨ x ∈ R := by
  obtain ⟨front, rfl, mem⟩ := moved.new
  rw [mem_append, mem]

end

end Moved

theorem moved_wakeOne (chan : Nat) (q : Option Slot) (p : Slot) (t : Table) (R : List Slot) :
    Moved (· = p) t R (wakeOne chan q p t) (p :: R) where
  run x e := by
    obtain ⟨stat, wchan, -⟩ := proc_wakeOne chan q p x t
    rw [stat, wchan, if_pos e, if_pos e]
    exact ⟨rfl, rfl⟩
  same x ne := by
    obtain ⟨stat, wchan, -⟩ := proc_wakeOne chan q p x t
    rw [stat, wchan, if_neg ne, if_neg ne]
    exact ⟨rfl, rfl⟩
  load x := (proc_wakeOne chan q p x t).2.2
  new := ⟨[p], rfl, fun x => mem_singleton⟩

/-- Those of the list that do not wait for `chan`. -/
def others (t : Table) (chan : Nat) (l : List Slot) : List Slot :=
  l.filter fun x => (t.proc x).wchan ≠ chan

variable {l : List Slot}

theorem mem_others {x : Slot} : x ∈ others t chan l ↔ x ∈ l ∧ (t.proc x).wchan ≠ chan := by
  simp [others]

theorem others_append (l l' : List Slot) :
    others t chan (l ++ l') = others t chan l ++ others t chan l' := filter_append ..

theorem others_cons_of_eq (hit : (t.proc p).wchan = chan) :
    others t chan (p :: l) = others t chan l := by simp [others, hit]

theorem others_cons_of_ne (miss : (t.proc p).wchan ≠ chan) :
    others t chan (p :: l) = p :: others t chan l := by simp [others, miss]

theorem others_congr (same : ∀ x ∈ l, (t'.proc x).wchan = (t.proc x).wchan) :
    others t' chan l = others t chan l := filter_congr fun x mem => by rw [same x mem]

/-- From `pre`, the walk wakes the sleepers among `mid` and arrives at `post`
with the others behind it. -/
theorem walk (ro : Nat) (pre post : List Slot) (queued : Queued t B R)
    (at_ : B (hash chan) = pre ++ (mid ++ post))
    (calm : t.runout = 0 ∨ ∀ x ∈ mid, (t.proc x).wchan = chan → (t.proc x).load = true) :
    ∃ t' R', Queued t' (update B (hash chan) (pre ++ others t chan mid ++ post)) R' ∧
      Moved (fun x => x ∈ mid ∧ (t.proc x).wchan = chan) t R t' R' ∧ t'.runout = t.runout ∧
      ∃ N, ∀ n, N ≤ n →
        wakeLoop ro (n + mid.length) chan pre.getLast? (mid ++ post).head? t =
          wakeLoop ro n chan (pre ++ others t chan mid).getLast? post.head? t' := by
  induction mid generalizing t B R pre with
  | nil =>
    have same : update B (hash chan) (pre ++ post) = B := by
      rw [update_eq_self_iff, at_]
      rfl
    refine ⟨t, R, ?_, .none t R (by simp), rfl, 0, fun n _ => ?_⟩
    · simpa [others, same] using queued
    · simp [others]
  | cons p mid ih =>
    by_cases hit : (t.proc p).wchan = chan
    · -- `p` leaves; the rest of the walk starts from the same predecessor.
      have at' : B (hash chan) = pre ++ p :: (mid ++ post) := at_
      have queued' := queued.wake at'
      have nodup : (p :: (mid ++ post)).Nodup :=
        ((at_ ▸ (queued.bucket (hash chan)).nodup).sublist (sublist_append_right _ _))
      have ne : ∀ x ∈ mid, x ≠ p := by
        rintro x mem rfl
        exact (nodup_cons.mp nodup).1 (mem_append_left _ mem)
      have one := moved_wakeOne chan pre.getLast? p t R
      have same : ∀ x ∈ mid, ((wakeOne chan pre.getLast? p t).proc x).wchan = (t.proc x).wchan :=
        fun x mem => (one.same x (ne x mem)).2
      have calm' : (wakeOne chan pre.getLast? p t).runout = 0 ∨
          ∀ x ∈ mid, ((wakeOne chan pre.getLast? p t).proc x).wchan = chan →
            ((wakeOne chan pre.getLast? p t).proc x).load = true := by
        rw [runout_wakeOne]
        refine calm.imp_right fun loaded x mem wchan => ?_
        rw [one.load]
        exact loaded x (mem_cons_of_mem _ mem) (same x mem ▸ wchan)
      obtain ⟨t', R', after, moved, runout, N, steps⟩ := ih pre queued' (update_self ..) calm'
      rw [update_idem, others_congr same] at after
      rw [others_congr same] at steps
      refine ⟨t', R', ?_, ?_, runout.trans (runout_wakeOne ..), max N (R.length + 1),
        fun n le => ?_⟩
      · rwa [others_cons_of_eq hit]
      · refine (one.trans moved).congr fun x => ?_
        constructor
        · rintro (⟨mem, wchan⟩ | rfl)
          · exact ⟨mem_cons_of_mem _ mem, same x mem ▸ wchan⟩
          · exact ⟨mem_cons_self, hit⟩
        · rintro ⟨mem, wchan⟩
          rcases mem_cons.mp mem with rfl | mem
          · exact .inr rfl
          · exact .inl ⟨mem, (same x mem).trans wchan⟩
      · have loaded : ¬ (t.runout ≠ 0 ∧ (t.proc p).load = false) := by
          rintro ⟨set, out⟩
          have := (calm.resolve_left set) p mem_cons_self hit
          simp [this] at out
        obtain ⟨k, fuel⟩ : ∃ k, n + mid.length = k + 1 := ⟨n + mid.length - 1, by omega⟩
        have round := wakeLoop_hit ro (n := k) queued at' hit (by omega)
        rw [if_neg loaded] at round
        rwa [others_cons_of_eq hit, ← steps n (by omega), length_cons, ← Nat.add_assoc, fuel]
    · have at' : B (hash chan) = (pre ++ [p]) ++ (mid ++ post) := by simp [at_]
      have calm' := calm.imp_right fun loaded x mem => loaded x (mem_cons_of_mem p mem)
      obtain ⟨t', R', after, moved, runout, N, steps⟩ := ih (pre ++ [p]) queued at' calm'
      refine ⟨t', R', ?_, ?_, runout, N, fun n le => ?_⟩
      · simpa [others_cons_of_ne hit] using after
      · refine moved.congr fun x => ?_
        constructor
        · exact fun ⟨mem, wchan⟩ => ⟨mem_cons_of_mem _ mem, wchan⟩
        · rintro ⟨mem, wchan⟩
          rcases mem_cons.mp mem with rfl | mem
          · exact absurd wchan hit
          · exact ⟨mem, wchan⟩
      · have next : t.link p = (mid ++ post).head? := (at_ ▸ queued.bucket (hash chan)).split.head
        have := steps n le
        rw [length_cons, ← Nat.add_assoc, cons_append, List.head?_cons, wakeLoop_miss hit, next]
        simpa [others_cons_of_ne hit] using this

/-- A walk that meets no sleeper of its channel changes nothing. -/
theorem wakeLoop_stray {q h : Option Slot} {n : Nat} (c : Chain t.link h l)
    (miss : ∀ x ∈ l, (t.proc x).wchan ≠ chan) (long : l.length < n) :
    wakeLoop ro n chan q h t = .ok t := by
  induction l generalizing h q n with
  | nil =>
    obtain rfl : h = none := c
    obtain ⟨n, rfl⟩ : ∃ m, n = m + 1 := ⟨n - 1, by simp at long; omega⟩
    rw [wakeLoop]
  | cons x l ih =>
    obtain ⟨rfl, c⟩ := c
    obtain ⟨n, rfl⟩ : ∃ m, n = m + 1 := ⟨n - 1, by simp at long; omega⟩
    rw [wakeLoop_miss (miss x mem_cons_self)]
    exact ih c (fun y mem => miss y (mem_cons_of_mem _ mem)) (by simp at long; omega)

/-- The rest of a walk of the bucket itself, when it cannot be disturbed: `pre`
is behind it, `mid` is ahead. -/
theorem walk_to_end (ro : Nat) (queued : Queued t B R) (at_ : B (hash chan) = pre ++ mid)
    (calm : t.runout = 0 ∨ ∀ x ∈ mid, (t.proc x).wchan = chan → (t.proc x).load = true)
    (behind : ∀ x ∈ pre, (t.proc x).wchan ≠ chan) :
    ∃ t' R', Queued t' (update B (hash chan) (others t chan (pre ++ mid))) R' ∧
      Moved (SleepsOn t chan) t R t' R' ∧ t'.runout = t.runout ∧
      Ends (fun n => wakeLoop ro n chan pre.getLast? mid.head? t) t' := by
  obtain ⟨t', R', after, moved, runout, N, steps⟩ := walk ro pre [] queued (by simpa using at_) calm
  refine ⟨t', R', ?_, moved.congr fun x => ?_, runout, N + mid.length + 1, fun n le => ?_⟩
  · have stay : others t chan pre = pre := filter_eq_self.mpr (by simpa using behind)
    rwa [others_append, stay, ← append_nil (pre ++ others t chan mid)]
  · constructor
    · rintro ⟨mem, wchan⟩
      have asleep := (queued.asleep (hash chan) x (by simp [at_, mem])).1
      exact ⟨wchan, wchan ▸ asleep⟩
    · rintro ⟨wchan, ne⟩
      have mem := queued.all x (wchan ▸ ne)
      rw [wchan, at_] at mem
      exact ⟨(mem_append.mp mem).resolve_left fun mem => behind x mem wchan, wchan⟩
  · obtain ⟨m, rfl⟩ : ∃ m, n = (m + 1) + mid.length := ⟨n - mid.length - 1, by omega⟩
    have := steps (m + 1) (by omega)
    rwa [append_nil, List.head?_nil, wakeLoop] at this

theorem wakeup_of_calm (ro chan : Nat) (queued : Queued t B R)
    (calm : t.runout = 0 ∨ ∀ x ∈ B (hash chan), (t.proc x).wchan = chan → (t.proc x).load = true) :
    ∃ t' R', Queued t' (update B (hash chan) (others t chan (B (hash chan)))) R' ∧
      Moved (SleepsOn t chan) t R t' R' ∧ t'.runout = t.runout ∧
      Ends (fun n => wakeup ro n chan t) t' := by
  unfold wakeup
  rw [(queued.bucket (hash chan)).head]
  exact walk_to_end ro queued (nil_append _).symm calm (by simp)

/-- The rest of a walk returns with every sleeper of the channel moved. -/
def Finishes (ro chan : Nat) (q h : Option Slot) (t : Table) (R : List Slot) : Prop :=
  ∃ t' B' R', Ends (fun n => wakeLoop ro n chan q h t) t' ∧ Queued t' B' R' ∧
    Moved (SleepsOn t chan) t R t' R'

theorem finishes_of_calm (ro : Nat) (queued : Queued t B R) (at_ : B (hash chan) = pre ++ mid)
    (calm : t.runout = 0 ∨ ∀ x ∈ mid, (t.proc x).wchan = chan → (t.proc x).load = true)
    (behind : ∀ x ∈ pre, (t.proc x).wchan ≠ chan) :
    Finishes ro chan pre.getLast? mid.head? t R := by
  obtain ⟨t', R', after, moved, -, ends⟩ := walk_to_end ro queued at_ calm behind
  exact ⟨t', _, R', ends, after, moved⟩

/-- The rest of a walk, wherever it has got to, when nobody is left to wake. -/
theorem finishes_of_quiet {q h : Option Slot} (queued : Queued t B R) (c : Chain t.link h l)
    (miss : ∀ x ∈ l, (t.proc x).wchan ≠ chan)
    (quiet : ∀ x, ¬ SleepsOn t chan x) : Finishes ro chan q h t R :=
  ⟨t, B, R, ⟨l.length + 1, fun _ le => wakeLoop_stray c miss le⟩, queued, .none t R quiet⟩

end V7Besm.Slp

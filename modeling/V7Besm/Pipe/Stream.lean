import V7Besm.Coop.Logic
import V7Besm.Pipe.Flow

/-!
What holds of a pipe whenever nobody has the processor.

At most one process holds the lock, and it sleeps only for the disk; it knows the
file, which nobody else changes. A process that sleeps for bytes or for room
has left its mark in `i_mode`: `IWRITE` is set only while the pipe is full, and
`IREAD` only while it is empty or a writer is about to look at it.
-/

namespace V7Besm.Pipe

open Coop Coop.Proto Function

/-- What a process is doing with the pipe: nothing, it holds the lock of a pipe with file
`k`, or it holds the lock and `rest` is still to be stored of its chunk. -/
inductive Role where
  | out
  | locked (k : Store)
  | storing (k : Store) (rest : List Byte)

/-- The sleepers and the flags. -/
structure Calm (s : World) : Prop where
  want : s.want = true → s.lock = true
  inode : ∀ p, s.wchan p = some .inode → s.want = true
  full : ∀ p, s.wchan p = some .full → s.iwrite = true
  empty : ∀ p, s.wchan p = some .empty → s.iread = true
  size : s.iwrite = true → PIPSIZ ≤ s.store.size
  resid : 0 ≤ s.resid ∧ s.resid ≤ BSIZEW

/-- What the holder of the lock knows. -/
def Part (s : World) : Role → Prop
  | .out => False
  | .locked k => s.store = k ∧ Flow k [] ∧ (s.iread = true → k.size = 0)
  | .storing k rest => s.store = k ∧ Flow k rest

/-- Process `p` holds the lock. -/
structure Held (p : Pid) (g : Role) (s : World) (T : Pid → Role) : Prop where
  calm : Calm s
  alone : ∀ q, q ≠ p → T q = .out
  lock : s.lock = true
  part : Part s g

/-- Nobody holds the lock. -/
structure Free (s : World) : Prop where
  calm : Calm s
  lock : s.lock = false
  flow : Flow s.store []
  empty : s.iread = true → s.store.size = 0

inductive Inv (s : World) (T : Pid → Role) : Prop where
  | free (free : Free s) (out : ∀ p, T p = .out)
  | held (p : Pid) (held : Held p (T p) s T) (up : s.wchan p = none ∨ s.wchan p = some .io)

/-- What interrupts may change. -/
structure Drift (s s' : World) : Prop where
  lock : s'.lock = s.lock
  want : s'.want = s.want
  iread : s'.iread = s.iread
  iwrite : s'.iwrite = s.iwrite
  store : s'.store = s.store
  wchan : ∀ q c, s'.wchan q = some c → s.wchan q = some c
  resid : s'.resid = s.resid ∨ 0 ≤ s'.resid ∧ s'.resid ≤ BSIZEW

def proto : Proto Pid World Role where
  inv := Inv
  rest _ g := g = .out
  env := Drift
  guar _ _ s' := ∃ rest, Flow s'.store rest

/-- Process `p` runs, without the lock. -/
structure Out (p : Pid) (s : World) (T : Pid → Role) : Prop where
  holds : proto.Holds p .out s T
  awake : s.wchan p = none

/-- Process `p` runs, with the lock. -/
structure Has (p : Pid) (g : Role) (s : World) (T : Pid → Role) : Prop where
  held : Held p g s T
  awake : s.wchan p = none

variable {p q : Pid} {g : Role} {s s' : World} {T : Pid → Role} {k : Store} {rest : List Byte}
  {c : Chan} {α : Type} {Q : α → World → (Pid → Role) → Prop}

/-! ### Changes that do not matter -/

namespace Drift

theorem refl : Drift s s := ⟨rfl, rfl, rfl, rfl, rfl, fun _ _ h => h, .inl rfl⟩

theorem trans {s'' : World} (a : Drift s s') (b : Drift s' s'') : Drift s s'' where
  lock := b.lock.trans a.lock
  want := b.want.trans a.want
  iread := b.iread.trans a.iread
  iwrite := b.iwrite.trans a.iwrite
  store := b.store.trans a.store
  wchan q c h := a.wchan q c (b.wchan q c h)
  resid := b.resid.elim (fun same => a.resid.imp same.trans fun r => same ▸ r) .inr

theorem awake (d : Drift s s') (up : s.wchan p = none) : s'.wchan p = none := by
  cases h : s'.wchan p with
  | none => rfl
  | some c => simp [d.wchan p c h] at up

theorem wakeup : Drift s (s.wakeup c) := by
  refine ⟨rfl, rfl, rfl, rfl, rfl, fun q c' h => ?_, .inl rfl⟩
  simp only [World.wakeup] at h
  split at h
  · cases h
  · exact h

theorem psignal : Drift s (s.psignal p) := by
  have posted : Drift s { s with sig := update s.sig p true } :=
    ⟨rfl, rfl, rfl, rfl, rfl, fun _ _ h => h, .inl rfl⟩
  simp only [World.psignal]
  split
  · exact posted.trans wakeup
  · exact posted.trans wakeup
  · exact posted

theorem intr {i : Intr} (taken : intr i s = some s') : Drift s s' := by
  cases i with
  | disk ready resid =>
    simp only [Pipe.intr] at taken
    split at taken
    · rename_i bounds
      cases taken
      have turned : Drift s { s with ready, resid } :=
        ⟨rfl, rfl, rfl, rfl, rfl, fun _ _ h => h, .inr bounds⟩
      exact turned.trans wakeup
    · cases taken
  | signal p =>
    cases taken
    exact psignal
  | taken p =>
    cases taken
    exact ⟨rfl, rfl, rfl, rfl, rfl, fun _ _ h => h, .inl rfl⟩

theorem env (run : sharing.Env s s') : Drift s s' := by
  induction run with
  | refl => exact refl
  | tail _ step ih =>
    obtain ⟨i, taken⟩ := step
    exact ih.trans (intr taken)

end Drift

theorem Calm.drift (calm : Calm s) (d : Drift s s') : Calm s' where
  want h := d.lock.trans (calm.want (d.want ▸ h))
  inode p h := d.want.trans (calm.inode p (d.wchan _ _ h))
  full p h := d.iwrite.trans (calm.full p (d.wchan _ _ h))
  empty p h := d.iread.trans (calm.empty p (d.wchan _ _ h))
  size h := by
    rw [d.store]
    exact calm.size (d.iwrite ▸ h)
  resid := d.resid.elim (fun same => same ▸ calm.resid) id

theorem Part.drift (part : Part s g) (d : Drift s s') : Part s' g := by
  cases g with
  | out => exact part
  | locked k => exact ⟨d.store.trans part.1, part.2.1, d.iread ▸ part.2.2⟩
  | storing k rest => exact ⟨d.store.trans part.1, part.2⟩

theorem Held.drift (held : Held p g s T) (d : Drift s s') : Held p g s' T :=
  ⟨held.calm.drift d, held.alone, d.lock.trans held.lock, held.part.drift d⟩

theorem Inv.drift (inv : Inv s T) (d : Drift s s') : Inv s' T := by
  cases inv with
  | free free out =>
    exact .free ⟨free.calm.drift d, d.lock.trans free.lock, d.store ▸ free.flow,
      d.store ▸ d.iread ▸ free.empty⟩ out
  | held p held up =>
    refine .held p (held.drift d) ?_
    cases h : s'.wchan p with
    | none => exact .inl rfl
    | some c => simpa [d.wchan p c h] using up

theorem Out.drift (out : Out p s T) (d : Drift s s') : Out p s' T :=
  ⟨Inv.drift out.holds d, d.awake out.awake⟩

theorem Has.drift (has : Has p g s T) (d : Drift s s') : Has p g s' T :=
  ⟨has.held.drift d, d.awake has.awake⟩

/-! ### The bytes are safe -/

theorem Held.flow (held : Held p g s T) : ∃ rest, Flow s.store rest := by
  have part := held.part
  cases g with
  | out => exact part.elim
  | locked k => exact ⟨[], part.1 ▸ part.2.1⟩
  | storing k rest => exact ⟨rest, part.1 ▸ part.2⟩

theorem Inv.flow (inv : Inv s T) : ∃ rest, Flow s.store rest := by
  cases inv with
  | free free _ => exact ⟨[], free.flow⟩
  | held p held _ => exact held.flow

theorem Out.flow (out : Out p s T) : ∃ rest, Flow s.store rest := Inv.flow out.holds

theorem Has.flow (has : Has p g s T) : ∃ rest, Flow s.store rest := has.held.flow

theorem wp_act {f : Pid → World → α × World} (safe : ∃ rest, Flow (f p s).2.store rest)
    (next : Q (f p s).1 (f p s).2 T) : proto.wp p (.act f) Q s T := fun _ => ⟨safe, next⟩

theorem wp_modify {f : World → World} {Q : Unit → World → (Pid → Role) → Prop}
    (safe : ∃ rest, Flow (f s).store rest) (next : Q () (f s) T) :
    proto.wp p (.modify f) Q s T := fun _ => ⟨safe, next⟩

theorem Out.read {f : World → α} (out : Out p s T) (next : Q (f s) s T) :
    proto.wp p (.read f) Q s T := fun _ => ⟨out.flow, next⟩

theorem Has.read {f : World → α} (has : Has p g s T) (next : Q (f s) s T) :
    proto.wp p (.read f) Q s T := fun _ => ⟨has.flow, next⟩

theorem Out.error {e : Int} {Q : Unit → World → (Pid → Role) → Prop} (out : Out p s T)
    (next : ∀ s', Out p s' T → Q () s' T) : proto.wp p (setError e) Q s T :=
  fun _ => ⟨out.flow, next _ (out.drift ⟨rfl, rfl, rfl, rfl, rfl, fun _ _ h => h, .inl rfl⟩)⟩

theorem Out.leave (out : Out p s T) : proto.back p () s T := ⟨.out, out.holds, rfl⟩

/-! ### Who holds the lock -/

theorem Held.holds (held : Held p g s T) (up : s.wchan p = none ∨ s.wchan p = some .io) :
    proto.Holds p g s T := by
  refine .held p ⟨held.calm, fun q ne => ?_, held.lock, ?_⟩ up
  · rw [update_of_ne ne]
    exact held.alone q ne
  · rw [update_self]
    exact held.part

theorem held_of_holds (holds : proto.Holds p g s T) (ne : g ≠ .out) : Held p g s T := by
  cases holds with
  | free _ out => exact absurd (by simpa using out p) ne
  | held q held up =>
    by_cases e : q = p
    · subst e
      rw [update_self] at held
      refine { held with alone := fun r other => ?_ }
      simpa [update_of_ne other] using held.alone r other
    · exact absurd (by simpa using held.alone p (Ne.symm e)) ne

theorem Inv.unlocked (inv : Inv s T) (lock : s.lock = false) : Free s ∧ ∀ q, T q = .out := by
  cases inv with
  | free free out => exact ⟨free, out⟩
  | held p held _ => simp [held.lock] at lock

/-- A process that goes to sleep on `c` leaves its mark first. -/
def Marked (s : World) : Chan → Prop
  | .inode => s.want = true
  | .full => s.iwrite = true
  | .empty => s.iread = true
  | .io => True

theorem Calm.setChan (calm : Calm s) (marked : Marked s c) : Calm (s.setChan p (some c)) := by
  have at_or : ∀ q d, (s.setChan p (some c)).wchan q = some d → d = c ∨ s.wchan q = some d := by
    intro q d h
    by_cases e : q = p
    · subst e
      simp only [World.setChan, update_self, Option.some.injEq] at h
      exact .inl h.symm
    · simp only [World.setChan, update_of_ne e] at h
      exact .inr h
  refine { calm with inode := fun q h => ?_, full := fun q h => ?_, empty := fun q h => ?_ }
  · rcases at_or q _ h with rfl | h
    · exact marked
    · exact calm.inode q h
  · rcases at_or q _ h with rfl | h
    · exact marked
    · exact calm.full q h
  · rcases at_or q _ h with rfl | h
    · exact marked
    · exact calm.empty q h

theorem Inv.setChan (inv : Inv s T) (out : T p = .out) (marked : Marked s c) :
    Inv (s.setChan p (some c)) T := by
  cases inv with
  | free free all => exact .free { free with calm := free.calm.setChan marked } all
  | held q held up =>
    have ne : q ≠ p := by
      rintro rfl
      have part := held.part
      rwa [out] at part
    refine .held q { held with calm := held.calm.setChan marked, part := ?_ } ?_
    · exact held.part
    · simpa [World.setChan, update_of_ne ne] using up

/-! ### Sleeping -/

theorem sleep_spec (holds : proto.Holds p g (s.setChan p (some c)) T) :
    proto.wp p (sleep c) (fun _ s' T' => proto.Holds p g s' T' ∧ s'.wchan p = none) s T := by
  refine wp_bind (wp_act (Inv.flow holds) ?_)
  refine wp_loop (fun _ s T => proto.Holds p g s T) holds ?_
  intro _ s T holds
  refine wp_bind fun _ => ⟨g, holds, fun s' T' inv own => ?_⟩
  have holds' := holds_of_inv inv own
  refine wp_bind (wp_act (Inv.flow holds') ?_)
  by_cases up : s'.wchan p = none
  · rw [if_pos (by simpa using up)]
    exact ⟨holds', up⟩
  · rwa [if_neg (by simpa using up)]

theorem Out.sleep (out : Out p s T) (marked : Marked s c) :
    proto.wp p (sleep c) (fun _ s' T' => Out p s' T') s T := by
  refine wp_mono ?_ (sleep_spec (Inv.setChan out.holds (by simp) marked))
  rintro _ s T ⟨holds, up⟩
  exact ⟨holds, up⟩

theorem Has.sleep_io (has : Has p g s T) (ne : g ≠ .out) :
    proto.wp p (Pipe.sleep .io) (fun _ s' T' => Has p g s' T') s T := by
  have held : Held p g (s.setChan p (some .io)) T :=
    { has.held with calm := has.held.calm.setChan trivial, part := has.held.part }
  refine wp_mono ?_ (sleep_spec (held.holds (.inr (by simp [World.setChan]))))
  rintro _ s T ⟨holds, up⟩
  exact ⟨held_of_holds holds ne, up⟩

theorem Out.sleepSig (out : Out p s T) (marked : Marked s c) :
    proto.wp p (sleepSig c) (fun _ s' T' => Out p s' T') s T := by
  refine wp_bind (wp_act out.flow ?_)
  split
  · exact wp_bind (out.error fun s' out => out)
  · refine wp_seq (out.sleep marked) ?_
    intro _ s T out
    refine wp_bind (wp_act out.flow ?_)
    split
    · exact wp_bind (out.error fun s' out => out)
    · exact out

/-! ### The lock -/

theorem Calm.setWant (calm : Calm s) (lock : s.lock = true) : Calm { s with want := true } :=
  { calm with want := fun _ => lock, inode := fun _ _ => rfl }

theorem Inv.setWant (inv : Inv s T) (lock : s.lock = true) : Inv { s with want := true } T := by
  cases inv with
  | free free out => simp [free.lock] at lock
  | held q held up =>
    exact .held q { held with calm := held.calm.setWant lock, part := held.part } up

theorem plock_spec (out : Out p s T) :
    proto.wp p plock (fun _ s' T' => Has p (.locked s'.store) s' T') s T := by
  refine wp_loop (fun _ s T => Out p s T) out ?_
  intro _ s T out
  refine wp_bind (out.read ?_)
  split
  · rename_i lock
    have wanted : Out p { s with want := true } T := ⟨Inv.setWant out.holds lock, out.awake⟩
    refine wp_bind (wp_modify wanted.flow ?_)
    refine wp_seq (wanted.sleep rfl) ?_
    exact fun _ s T out => out
  · rename_i unlocked
    obtain ⟨free, alone⟩ := Inv.unlocked out.holds (by simpa using unlocked)
    refine wp_bind (wp_modify out.flow ?_)
    refine ⟨⟨{ free.calm with want := fun _ => rfl }, fun q ne => ?_, rfl, rfl, free.flow, ?_⟩, out.awake⟩
    · simpa [update_of_ne ne] using alone q
    · exact free.empty

theorem wchan_wakeup {d : Chan} (h : (s.wakeup c).wchan q = some d) : d ≠ c ∧ s.wchan q = some d := by
  simp only [World.wakeup] at h
  split at h
  · cases h
  · rename_i ne
    exact ⟨fun e => ne (e ▸ h), h⟩

theorem wakeup_of_nobody (nobody : ∀ q, s.wchan q ≠ some c) : s.wakeup c = s := by
  simp [World.wakeup, nobody]

/-- Without `IWANT` nobody waits for the lock. -/
theorem Calm.prele_eq (calm : Calm s) :
    s.prele = ({ s with lock := false, want := false } : World).wakeup .inode := by
  by_cases want : s.want = true
  · simp [World.prele, want]
  · have nobody : ∀ q, s.wchan q ≠ some .inode := fun q h => want (calm.inode q h)
    rw [wakeup_of_nobody (by simpa using nobody)]
    simp [World.prele, want]

theorem Calm.prele (calm : Calm s) : Calm s.prele := by
  rw [calm.prele_eq]
  exact {
    want := nofun
    inode := fun q h => absurd rfl (wchan_wakeup h).1
    full := fun q h => calm.full q (wchan_wakeup h).2
    empty := fun q h => calm.empty q (wchan_wakeup h).2
    size := calm.size
    resid := calm.resid }

theorem Has.prele (has : Has p (.locked k) s T) : Out p s.prele T ∧ s.prele.store = k := by
  obtain ⟨calm, alone, -, store, flow, empty⟩ := has.held
  have calm' := calm.prele
  have up := has.awake
  rw [calm.prele_eq] at calm' ⊢
  refine ⟨⟨.free ⟨calm', rfl, store ▸ flow, store ▸ empty⟩ fun q => ?_, Drift.wakeup.awake up⟩, store⟩
  by_cases e : q = p
  · simp [e]
  · simpa [update_of_ne e] using alone q e

end V7Besm.Pipe

import V7Besm.Coop.Code

/-!
A program logic for cooperative processes.

A protocol (`Proto`) gives every process a ghost value and states an invariant
over the shared state and all ghost values. The invariant is owed only where a
process gives the processor up: there the process publishes a ghost value, and
gets back any state that satisfies the invariant with that value unchanged.
Between two such points a process reasons about the state as if it were alone.

`wp` computes, for a piece of code, what has to hold before it. It unfolds by
computation; loops carry an invariant. `Proto.Sound.good` is the soundness of the
logic: if every call of a system is proved against the protocol, the invariant
holds in every configuration of every run in which nobody has the processor.
-/

namespace V7Besm.Coop

open Function

/-- A protocol. `rest` is what a process owns outside the kernel, `guar` what
each of its actions promises, `may` and `sleeps` what is assumed of the state
in which it acts, or gives the processor up. -/
structure Proto (π σ γ : Type) where
  inv : σ → (π → γ) → Prop
  rest : π → γ → Prop
  env : σ → σ → Prop
  guar : π → σ → σ → Prop := fun _ _ _ => True
  may : π → σ → Prop := fun _ _ => True
  sleeps : π → σ → Prop := fun _ _ => True

namespace Proto

variable {π σ γ : Type} [DecidableEq π] (P : Proto π σ γ)

/-- Process `p` owns `g`: with `g` for its ghost value the invariant holds. -/
def Holds (p : π) (g : γ) (s : σ) (T : π → γ) : Prop := P.inv s (update T p g)

/-- What has to hold before process `p` runs `c`, for `Q` to hold after it. -/
def wp (p : π) : {α : Type} → Code π σ α → (α → σ → (π → γ) → Prop) → σ → (π → γ) → Prop
  | _, .ret a, Q, s, T => Q a s T
  | _, .act f, Q, s, T => P.may p s → P.guar p s (f p s).2 ∧ Q (f p s).1 (f p s).2 T
  | _, .yield, Q, s, T => P.sleeps p s →
      ∃ g, P.Holds p g s T ∧ ∀ s' T', P.inv s' T' → T' p = g → Q () s' T'
  | _, .window, Q, s, T => ∀ s', P.env s s' → Q () s' T
  | _, .halt, _, _, _ => True
  | _, .bind c k, Q, s, T => wp p c (fun a => wp p (k a) Q) s T
  | _, .loop (β := β) body b, Q, s, T => ∃ I : β → σ → (π → γ) → Prop, I b s T ∧
      ∀ b s T, I b s T → wp p (body b) (fun r s T =>
        match r with
        | .inl b' => I b' s T
        | .inr a => Q a s T) s T

variable {P} {p : π} {α β : Type} {s : σ} {T : π → γ} {c : Code π σ α}
  {Q : α → σ → (π → γ) → Prop}

theorem wp_mono {Q' : α → σ → (π → γ) → Prop}
    (weaker : ∀ a s T, Q a s T → Q' a s T) (h : P.wp p c Q s T) : P.wp p c Q' s T := by
  induction c generalizing s T with
  | ret a => exact weaker _ _ _ h
  | act f => exact fun allowed => ⟨(h allowed).1, weaker _ _ _ (h allowed).2⟩
  | yield =>
    intro allowed
    obtain ⟨g, holds, back⟩ := h allowed
    exact ⟨g, holds, fun s' T' i e => weaker _ _ _ (back s' T' i e)⟩
  | window => exact fun s' step => weaker _ _ _ (h s' step)
  | halt => trivial
  | bind c k ihc ihk => exact ihc (fun a s T => ihk a weaker) h
  | loop body b ih =>
    obtain ⟨I, start, keep⟩ := h
    refine ⟨I, start, fun b s T hI => ih b ?_ (keep b s T hI)⟩
    rintro (b' | a) s T hr
    · exact hr
    · exact weaker _ _ _ hr

theorem wp_bind {k : α → Code π σ β} {Q : β → σ → (π → γ) → Prop}
    (h : P.wp p c (fun a => P.wp p (k a) Q) s T) : P.wp p (c >>= k) Q s T := h

/-- Sequencing with a postcondition in the middle: the callee's
specification is used without looking into it. -/
theorem wp_seq {k : α → Code π σ β} {R : α → σ → (π → γ) → Prop}
    {Q : β → σ → (π → γ) → Prop} (first : P.wp p c R s T)
    (second : ∀ a s T, R a s T → P.wp p (k a) Q s T) : P.wp p (c >>= k) Q s T :=
  wp_bind (wp_mono second first)

theorem wp_loop {body : β → Code π σ (β ⊕ α)} {b : β} (I : β → σ → (π → γ) → Prop) (start : I b s T)
    (keep : ∀ b s T, I b s T → P.wp p (body b) (fun r s T =>
      match r with
      | .inl b' => I b' s T
      | .inr a => Q a s T) s T) : P.wp p (.loop body b) Q s T :=
  ⟨I, start, keep⟩

/-- `wp` read off the head of the code. -/
def wpHead (P : Proto π σ γ) (p : π) (Q : α → σ → (π → γ) → Prop) (s : σ) (T : π → γ) :
    Head π σ α → Prop
  | .ret a => Q a s T
  | .act f k => P.may p s → P.guar p s (f p s).2 ∧ P.wp p (k (f p s).1) Q (f p s).2 T
  | .yield k => P.sleeps p s →
      ∃ g, P.Holds p g s T ∧ ∀ s' T', P.inv s' T' → T' p = g → P.wp p k Q s' T'
  | .window k => ∀ s', P.env s s' → P.wp p k Q s' T
  | .tau c => P.wp p c Q s T
  | .halt => True

theorem wp_head (h : P.wp p c Q s T) : P.wpHead p Q s T c.head:= by
  induction c generalizing s T with
  | bind c k ihc _ =>
    have now := ihc h
    unfold Code.head
    revert now
    cases c.head <;> exact id
  | loop body b _ =>
    obtain ⟨I, start, keep⟩ := h
    show P.wp p (body b) (fun r => P.wp p (Code.again body r) _) s T
    refine wp_mono ?_ (keep b s T start)
    rintro (b' | a) s T hr
    · exact ⟨I, hr, keep⟩
    · exact hr
  | _ => exact h

/-- A process that owns `g` gets the state of another moment, and still owns it. -/
theorem holds_of_inv {g : γ} (h : P.inv s T) (own : T p = g) : P.Holds p g s T := by
  subst own
  simpa [Holds] using h

/-! ### Soundness -/

variable {κ ι : Type}

/-- A call returns: the process owns again what it owns outside the kernel. -/
def back (P : Proto π σ γ) (p : π) (_ : Unit) (s : σ) (T : π → γ) : Prop :=
  ∃ g, P.Holds p g s T ∧ P.rest p g

/-- The proof obligations of a protocol for a system: interrupts keep the
invariant, and every call is proved. -/
structure Sound (P : Proto π σ γ) (S : System π σ κ ι) : Prop where
  env : ∀ s s', S.Env s s' → P.env s s'
  trans : ∀ s₁ s₂ s₃, S.Env s₁ s₂ → P.env s₂ s₃ → P.env s₁ s₃
  intr : ∀ i s s' T, P.inv s T → S.intr i s = some s' → P.inv s' T
  call : ∀ p k s T, P.inv s T → P.rest p (T p) → S.entry p s k = true →
    P.wp p (S.code k) (P.back p) s T

/-- The runs a protocol speaks about: its assumptions hold at every step. -/
def Meets (P : Proto π σ γ) (C : Config π σ → Event π κ ι → Prop) : Prop :=
  ∀ x p c, C x .tick → x.cpu = some p → x.thr p = some c →
    match c.head with
    | .act _ _ => P.may p x.st
    | .yield _ => P.sleeps p x.st
    | _ => True

/-- What holds of every configuration of a run: each process waiting for the
processor can go on from any state that satisfies the invariant and leaves its
ghost value alone, and the running process can go on from this one. -/
def Good (P : Proto π σ γ) (x : Config π σ) : Prop :=
  ∃ T : π → γ,
    (∀ p c, x.cpu ≠ some p → x.thr p = some c →
      ∀ s T', P.inv s T' → T' p = T p → P.wp p c (P.back p) s T') ∧
    (∀ p, x.thr p = none → P.rest p (T p)) ∧
    (x.cpu = none → P.inv x.st T) ∧
    ∀ p, x.cpu = some p → ∃ c, x.thr p = some c ∧ P.wp p c (P.back p) x.st T

variable {S : System π σ κ ι} {C : Config π σ → Event π κ ι → Prop} {x y : Config π σ}

section

variable {c : Code π σ Unit} {thr : π → Option (Code π σ Unit)}
  (others : ∀ q c, some p ≠ some q → thr q = some c →
    ∀ s T', P.inv s T' → T' q = T q → P.wp q c (P.back q) s T')
  (idle : ∀ q, thr q = none → P.rest q (T q))
include others idle

/-- The running process moved to `c` without giving the processor up. -/
private theorem good_run (now : P.wp p c (P.back p) s T) :
    P.Good ⟨s, update thr p (some c), some p⟩ := by
  refine ⟨T, ?_, ?_, fun h => by simp at h, ?_⟩
  · intro q d other hd
    have ne : q ≠ p := fun e => other (e ▸ rfl)
    simp only [update_of_ne ne] at hd
    exact others q d other hd
  · intro q hq
    by_cases e : q = p
    · subst e
      simp at hq
    · simp only [update_of_ne e] at hq
      exact idle q hq
  · rintro q ⟨⟩
    exact ⟨c, by simp, now⟩

/-- The running process gave the processor up, owning `g`. -/
private theorem good_stop {o : Option (Code π σ Unit)} {g : γ} (holds : P.Holds p g s T)
    (mine : ∀ c, o = some c → ∀ s' T', P.inv s' T' → T' p = g → P.wp p c (P.back p) s' T')
    (out : o = none → P.rest p g) :
    P.Good ⟨s, update thr p o, none⟩ := by
  refine ⟨update T p g, ?_, ?_, fun _ => holds, fun q h => by simp at h⟩
  · intro q d _ hd s' T' hinv hg
    by_cases e : q = p
    · subst e
      simp only [update_self] at hd hg
      exact mine d hd s' T' hinv hg
    · simp only [update_of_ne e] at hd hg
      exact others q d (fun h => e (Option.some.inj h).symm) hd s' T' hinv hg
  · intro q hq
    by_cases e : q = p
    · subst e
      simp only [update_self] at hq ⊢
      exact out hq
    · simp only [update_of_ne e] at hq ⊢
      exact idle q hq

end

private theorem good_tick (sound : P.Sound S) (meets : P.Meets C) (good : P.Good x) {p : π}
    {c : Code π σ Unit} (allowed : C x .tick) (cpu : x.cpu = some p) (thr : x.thr p = some c)
    (taken : System.tick p c x = some y) : P.Good y := by
  obtain ⟨T, others, idle, -, running⟩ := good
  obtain ⟨c', hc', now⟩ := running p cpu
  obtain rfl : c = c' := Option.some.inj (thr.symm.trans hc')
  have others' : ∀ q c, some p ≠ some q → x.thr q = some c →
      ∀ s T', P.inv s T' → T' q = T q → P.wp q c (P.back q) s T' :=
    fun q c ne => others q c (by rw [cpu]; exact ne)
  have hyp := meets x p c allowed cpu thr
  have head := wp_head now
  unfold System.tick at taken
  generalize c.head = h at hyp head taken
  cases h with
  | ret a =>
    cases taken
    obtain ⟨g, holds, out⟩ := head
    exact good_stop others' idle holds nofun (fun _ => out)
  | act f k =>
    cases taken
    rw [cpu]
    exact good_run others' idle (head hyp).2
  | yield k =>
    cases taken
    obtain ⟨g, holds, go⟩ := head hyp
    refine good_stop others' idle holds ?_ nofun
    rintro _ ⟨⟩
    exact go
  | window k =>
    cases taken
    rw [cpu]
    exact good_run others' idle (head _ (sound.env _ _ .refl))
  | tau k =>
    cases taken
    rw [cpu]
    exact good_run others' idle head
  | halt => cases taken

/-- An interrupt, taken at a window of the running process. -/
private theorem wp_intr (sound : P.Sound S) {k : Code π σ α} {i : ι} {s s' : σ}
    (window : c.head = .window k) (taken : S.intr i s = some s') (now : P.wp p c Q s T) :
    P.wp p c Q s' T := by
  induction c with
  | window => exact fun s'' step => now s'' (sound.trans _ _ _ (.single ⟨i, taken⟩) step)
  | bind c k ihc _ =>
    cases h : c.head with
    | window k' => exact ihc h now
    | _ => simp [Code.head, h, Head.andThen] at window
  | _ => cases window

private theorem good_intr (sound : P.Sound S) (good : P.Good x) {i : ι}
    (isOpen : System.open? x = true) (taken : S.intr i x.st = some s) :
    P.Good ⟨s, x.thr, x.cpu⟩ := by
  obtain ⟨T, others, idle, free, running⟩ := good
  refine ⟨T, others, idle, fun cpu => sound.intr i _ _ T (free cpu) taken, fun p cpu => ?_⟩
  obtain ⟨c, thr, now⟩ := running p cpu
  simp only at cpu
  simp only [System.open?, cpu, thr] at isOpen
  cases h : c.head with
  | window k => exact ⟨c, thr, wp_intr sound h taken now⟩
  | _ => simp [h] at isOpen

/-- One step of a run keeps what the logic proves. -/
theorem Good.exec (sound : P.Sound S) (meets : P.Meets C) (good : P.Good x) {e : Event π κ ι}
    (allowed : C x e) (taken : S.exec x e = some y) : P.Good y := by
  cases e with
  | call p k =>
    obtain ⟨T, others, idle, free, -⟩ := good
    simp only [System.exec] at taken
    split at taken
    · rename_i cpu thr
      split at taken
      · rename_i entry
        cases taken
        refine good_run (fun q c _ => others q c (by simp [cpu])) idle ?_
        exact sound.call p k x.st T (free cpu) (idle p thr) entry
      · cases taken
    · cases taken
  | dispatch p =>
    obtain ⟨T, others, idle, free, -⟩ := good
    simp only [System.exec] at taken
    split at taken
    · rename_i c cpu thr
      split at taken
      · cases taken
        refine ⟨T, fun q c _ => others q c (by simp [cpu]), idle, fun h => by simp at h, ?_⟩
        rintro q ⟨⟩
        exact ⟨c, thr, others p c (by simp [cpu]) thr x.st T (free cpu) rfl⟩
      · cases taken
    · cases taken
  | tick =>
    simp only [System.exec] at taken
    split at taken
    · cases taken
    · rename_i p cpu
      split at taken
      · cases taken
      · rename_i c thr
        exact good_tick sound meets good allowed cpu thr taken
  | intr i =>
    simp only [System.exec] at taken
    split at taken
    · rename_i isOpen
      obtain ⟨s, step, rfl⟩ := Option.map_eq_some_iff.mp taken
      exact good_intr sound good isOpen step
    · cases taken

/-- Nobody is in the kernel and the invariant holds: the start of a run. -/
theorem Good.quiet (holds : P.inv s T) (idle : ∀ p, P.rest p (T p)) : P.Good (System.quiet s) := by
  refine ⟨T, ?_, fun p _ => idle p, fun _ => holds, ?_⟩
  · nofun
  · nofun

/-- Soundness: every configuration of every run is good. -/
theorem Good.reach (sound : P.Sound S) (meets : P.Meets C) (start : P.Good x)
    (run : S.Reach C x y) : P.Good y := by
  induction run with
  | refl => exact start
  | step _ allowed taken ih => exact ih.exec sound meets allowed taken

/-- Whenever nobody has the processor the invariant holds. -/
theorem Good.inv (good : P.Good x) (free : x.cpu = none) :
    ∃ T, P.inv x.st T ∧ ∀ p, x.thr p = none → P.rest p (T p) := by
  obtain ⟨T, -, idle, holds, -⟩ := good
  exact ⟨T, holds free, idle⟩

/-- Each step of the running process is what it promised, or changes nothing. -/
theorem Good.guar (meets : P.Meets C) (good : P.Good x) (allowed : C x (.tick : Event π κ ι))
    (taken : S.exec x .tick = some y) :
    ∃ p, x.cpu = some p ∧ (y.st = x.st ∨ P.guar p x.st y.st) := by
  obtain ⟨T, -, -, -, running⟩ := good
  simp only [System.exec] at taken
  split at taken
  · cases taken
  rename_i p cpu
  obtain ⟨c, thr, now⟩ := running p cpu
  refine ⟨p, cpu, ?_⟩
  have hyp := meets x p c allowed cpu thr
  have head := wp_head now
  simp only [thr, System.tick] at taken
  generalize c.head = h at hyp head taken
  cases h with
  | act f k =>
    cases taken
    exact .inr (head hyp).1
  | halt => cases taken
  | _ =>
    cases taken
    exact .inl rfl

/-- A property of states that the actions of the processes and the interrupts
keep holds throughout every run. -/
theorem Good.always (sound : P.Sound S) (meets : P.Meets C) (start : P.Good x) {A : σ → Prop}
    (acts : ∀ p s s', A s → P.guar p s s' → A s')
    (intr : ∀ i s s', A s → S.intr i s = some s' → A s') (init : A x.st)
    (run : S.Reach C x y) : A y.st := by
  induction run with
  | refl => exact init
  | @step y z e run allowed taken ih =>
    have good := start.reach sound meets run
    cases e with
    | tick =>
      obtain ⟨p, -, same | step⟩ := good.guar meets allowed taken
      · exact same ▸ ih
      · exact acts p _ _ ih step
    | intr i =>
      simp only [System.exec] at taken
      split at taken
      · obtain ⟨s, step, rfl⟩ := Option.map_eq_some_iff.mp taken
        exact intr i _ _ ih step
      · cases taken
    | call p k | dispatch p =>
      simp only [System.exec] at taken
      split at taken
      · split at taken <;> cases taken
        exact ih
      · cases taken

end Proto

end V7Besm.Coop

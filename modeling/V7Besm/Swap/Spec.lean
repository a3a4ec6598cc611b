import V7Besm.Swap.Attach

/-!
What the routines do, as their callers see it.

A routine is proved for the running process `p`, which owns `g`, and for the entry `me` under
which it sleeps. Whatever sleeps gives the processor up with `Calm g`, and goes on with its
entry in core.
-/

namespace V7Besm.Swap

open Coop Coop.Proto Map V7Besm.Count
open Function (update update_self update_of_ne update_eq_self)

variable {p q t c me : Pid} {x y : Xid} {d d' : Option Xid} {g g' : Hold} {s s' : World}
  {T : Pid → Hold} {k : Proc} {l : Text} {a n os : Nat} {ip : Ino} {ff : Bool} {α : Type}
  {Q : α → World → (Pid → Hold) → Prop}

/-! ### Rules -/

theorem wp_step {f : Pid → World → α × World} (next : Now p d g (f p s).2 T)
    (post : Q (f p s).1 (f p s).2 T) : proto.wp p (.act f) Q s T := fun _ => ⟨next.base.fair, post⟩

theorem wp_modify {f : World → World} {Q : Unit → World → (Pid → Hold) → Prop}
    (next : Now p d g (f s) T) (post : Q () (f s) T) : proto.wp p (.modify f) Q s T :=
  fun _ => ⟨next.base.fair, post⟩

theorem wp_read {f : World → α} (now : Now p d g s T) (post : Q (f s) s T) :
    proto.wp p (.read f) Q s T := fun _ => ⟨now.fair, post⟩

/-- Code that goes on with an action does so only in a run without a slip. -/
theorem wp_ok {β : Type} {f : Pid → World → β × World} {rest : β → C α}
    (go : s.slipped = false → proto.wp p (.bind (.act f) rest) Q s T) :
    proto.wp p (.bind (.act f) rest) Q s T := fun ok => go ok ok

/-! ### Sleeping -/

/-- The entry under which a process runs is in core. -/
def On (me : Pid) (s : World) : Prop := (s.proc me).load = true

theorem holds_of_now (now : Now p none g s T) (calm : Calm g) : proto.Holds p g s T := by
  intro _
  refine ⟨now.base, fun t => ?_⟩
  by_cases e : t = p
  · subst e
    rwa [update_self]
  · rw [update_of_ne e]
    exact now.calm t e

theorem now_of_inv (inv : proto.inv s T) (own : T p = g) (ok : s.slipped = false) :
    Now p none g s T := by
  obtain ⟨base, calm⟩ := inv ok
  subst own
  refine ⟨?_, fun t _ => calm t⟩
  rwa [update_eq_self]

theorem pause_spec (now : Now p none g s T) (calm : Calm g) :
    proto.wp p (pause me) (fun _ s' T' => Now p none g s' T' ∧ On me s') s T := by
  apply wp_loop (fun _ s T => Now p none g s T) now
  intro _ s T now
  apply wp_bind
  intro _
  refine ⟨g, holds_of_now now calm, ?_⟩
  intro s' T' inv own ok
  have now' := now_of_inv inv own ok
  refine ⟨now'.fair, ?_⟩
  dsimp only [Code.pure_eq]
  split
  · rename_i awake
    exact ⟨now', (Bool.and_eq_true_iff.mp awake).2⟩
  · exact now'

theorem sleep_spec {chan : Chan} (now : Now p none g s T) (calm : Calm g) :
    proto.wp p (sleep me chan) (fun _ s' T' => Now p none g s' T' ∧ On me s') s T := by
  have asleep : Now p none g (s.setChan me (some chan)) T := now.of_eq rfl rfl rfl rfl rfl rfl
  exact wp_bind (wp_modify asleep (pause_spec asleep calm))

/-! ### Locking -/

theorem xlock_now {Q : Unit → World → (Pid → Hold) → Prop} (now : Now p d g s T)
    (unlocked : (s.text x).lock = false) (next : Q () (s.takeLock p x) T) :
    proto.wp p (xlock me x) Q s T := by
  apply wp_seq (R := fun _ s' T' => s' = s ∧ T' = T)
  · apply wp_loop (fun _ s' T' => s' = s ∧ T' = T) ⟨rfl, rfl⟩
    rintro _ s' T' ⟨rfl, rfl⟩
    apply wp_bind
    apply wp_read now
    rw [unlocked]
    exact ⟨rfl, rfl⟩
  · rintro _ s' T' ⟨rfl, rfl⟩
    exact fun _ => ⟨now.fair, next⟩

/-- Whoever waits for a text gets it unlocked, but perhaps no longer in use. -/
theorem xlock_spec (now : Now p none g s T) (calm : Calm g) (on : On me s) :
    proto.wp p (xlock me x) (fun _ s' T' => ∃ s₀, Now p none g s₀ T' ∧ On me s₀ ∧
      (s₀.text x).lock = false ∧ s' = s₀.takeLock p x) s T := by
  apply wp_seq (R := fun _ s' T' => Now p none g s' T' ∧ On me s' ∧ (s'.text x).lock = false)
  · apply wp_loop (fun _ s T => Now p none g s T ∧ On me s) ⟨now, on⟩
    rintro _ s T ⟨now, on⟩
    apply wp_bind
    apply wp_read now
    split
    · have wanted : Now p none g { s with want := update s.want x true } T :=
        now.of_eq rfl rfl rfl rfl rfl rfl
      apply wp_bind
      apply wp_modify wanted
      exact wp_seq (sleep_spec wanted calm) fun _ s T post => post
    · rename_i unlocked
      exact ⟨now, on, Bool.eq_false_iff.mpr unlocked⟩
  · rintro _ s T ⟨now, on, unlocked⟩
    exact fun _ => ⟨now.fair, s, now, on, unlocked, rfl⟩

/-! ### The core of a text -/

theorem Calm.with_text (calm : Calm g) (zero : l.ccount = 0) : Calm { g with text := some (x, l) } := by
  refine ⟨?_, calm.move⟩
  rintro x l ⟨⟩
  exact zero

theorem xflush_spec (now : Now p none g s T) (mine : g.text = some (x, l)) (calm : Calm g)
    (held : l.held = true) (on : On me s) :
    proto.wp p (xflush me x) (fun _ s' T' => On me s' ∧ ∃ l', l'.ccount = 0 ∧ l'.held = false ∧
      Now p none { g with text := some (x, l') } s' T') s T := by
  have zero := calm.text x l mine
  have free : ∀ {s T l}, Now p none { g with text := some (x, l) } s T → On me s → l.held = true →
      l.ccount = 0 → proto.wp p (.modify (World.freeText x)) (fun _ s' T' => On me s' ∧
        ∃ l', l'.ccount = 0 ∧ l'.held = false ∧ Now p none { g with text := some (x, l') } s' T')
        s T := by
    intro s T l now on held zero
    have freed := now.freeText rfl held
    exact wp_modify freed ⟨on, { l with held := false }, zero, rfl, freed⟩
  have eq := now.text_eq mine
  apply wp_bind
  apply wp_read now
  split
  · have clean : Now p none { g with text := some (x, { l with writ := false }) }
        (s.onText x fun k => { k with writ := false }) T := by
      have := now.flag { l with writ := false } mine rfl rfl rfl rfl rfl rfl rfl rfl
      rwa [World.onText, eq]
    apply wp_bind
    apply wp_modify clean
    apply wp_seq (sleep_spec clean (calm.with_text zero))
    rintro _ s T ⟨now, on⟩
    exact free now on held zero
  · refine free ?_ on held zero
    rwa [← mine]

theorem Hold.without_text (free : g.text = none) : { g with text := none } = g := by
  cases g
  cases free
  rfl

theorem Hold.without_move (still : g.move = none) : { g with move := none } = g := by
  cases g
  cases still
  rfl

theorem on_xunlock (on : On me s) : On me (s.xunlock p x) := by
  unfold On
  rwa [xunlock_fields.1]

theorem onText_eq {f : Text → Text} (eq : s.text x = l) : s.onText x f = s.setText x (f l) := by
  rw [World.onText, eq]

/-- What is owed to a text is paid. Either the process finds its own entry in order after
any sleep, or there is no sleep. -/
theorem xccdec_spec (now : Now p (some x) g s T) (there : (s.text x).iptr ≠ none)
    (free : g.text = none) (calm : Calm g) (on : On me s)
    (linked : (∀ s T l, Now p none { g with text := some (x, l) } s T →
        (s.proc p).counted = (s.proc p).expects) ∨ ∃ q, (s.proc q).counted = some x) :
    proto.wp p (xccdec me (some x)) (fun _ s' T' => Now p none g s' T' ∧ On me s') s T := by
  have numbers := now.refs.cores.numbers x there
  rw [hit_self] at numbers
  have pos : 0 < (s.text x).ccount := by
    have := numbers.nonneg
    omega
  have unlocked := now.unlocked_of_ccount free pos
  have held := ((now.texts x).held there unlocked).mpr pos
  have mine := now.linked free
  have locked := now.takeLock free unlocked there
  have paid := locked.pay rfl
  rw [← onText_eq (f := fun k => { k with ccount := k.ccount - 1 }) (locked.text_eq rfl)] at paid
  apply wp_bind
  apply wp_read now
  rw [if_neg (by omega)]
  apply wp_bind
  apply xlock_now now unlocked
  apply wp_bind
  apply wp_modify paid
  apply wp_bind
  apply wp_read paid
  rw [paid.text_eq rfl]
  dsimp only
  split
  · rename_i last
    have last' : ∀ s T l, Now p none { g with text := some (x, l) } s T →
        (s.proc p).counted = (s.proc p).expects := by
      refine linked.resolve_right ?_
      rintro ⟨q, counts⟩
      have := numbers.pos counts
      omega
    apply wp_seq (xflush_spec paid rfl (calm.with_text last) held on)
    rintro _ s T ⟨on, l, zero, empty, now⟩
    have opened := now.xunlock rfl (by simp [zero, empty]) (last' s T l now)
    refine wp_step opened ⟨?_, ?_⟩
    · rwa [← Hold.without_text free]
    · exact on_xunlock on
  · rename_i more
    have opened := paid.xunlock rfl (by
      simp only [held, true_iff]
      omega) mine
    refine wp_step opened ⟨?_, ?_⟩
    · rwa [← Hold.without_text free]
    · exact on_xunlock on

/-! ### Swapping out -/

/-- The text of an image that leaves: it counts the image, or the process that has locked it
is about to join it, or there is none. -/
inductive Parting (g : Hold) (k : Proc) : Prop where
  | bare (textp : k.textp = none) (counted : k.counted = none)
  | counted (x : Xid) (textp : k.textp = some x) (counted : k.counted = some x)
      (free : g.text = none)
  | joining (x : Xid) (l : Text) (textp : k.textp = some x) (counted : k.counted = none)
      (mine : g.text = some (x, l)) (zero : l.ccount = 0)

/-- Process 0 has no text. -/
theorem Now.system_linked (now : Now 0 d g s T) : (s.proc 0).counted = (s.proc 0).expects := by
  have ok := now.procs 0
  have nowhere : (s.proc 0).place = .nowhere := by
    by_contra some
    exact (ok.big some).1 rfl
  have placed := ok.placed
  unfold Placed at placed
  rw [nowhere] at placed
  rcases now.refs.linked 0 with same | ⟨-, x, names, -⟩
  · exact same
  · rw [placed.2.1] at names
    cases names

theorem parting_spec (parting : Parting g k)
    (now : Now p k.counted { g with move := some (q, k.outgoing p ff os a) } s T)
    (calm : Calm { g with move := some (q, k.outgoing p ff os a) }) (on : On me s)
    (linked : p = q ∨ p = 0 ∨ ∃ i, (s.proc i).counted = k.counted) :
    proto.wp p (xccdec me k.textp) (fun _ s' T' =>
      Now p none { g with move := some (q, k.outgoing p ff os a) } s' T' ∧ On me s') s T := by
  have entry := now.move_eq rfl
  cases parting with
  | bare textp counted =>
    rw [counted] at now
    rw [textp]
    exact ⟨now, on⟩
  | joining x l textp counted mine zero =>
    rw [counted] at now
    rw [textp]
    have eq : s.text x = l := now.text_eq mine
    -- a text that counts nobody needs no telling
    apply wp_bind
    apply wp_read now
    rw [eq, if_pos zero]
    exact ⟨now, on⟩
  | counted x textp counted free =>
    rw [counted] at now linked
    rw [textp]
    refine xccdec_spec now ?_ free calm on ?_
    · refine now.refs.names.target q x ?_
      rwa [entry]
    rcases linked with rfl | rfl | told
    · left
      intro s T l now
      rw [now.move_eq rfl, Proc.expects_outgoing]
      rfl
    · exact .inl fun s T l now => now.system_linked
    · exact .inr told

/-- Swap out an image that is in core, or that of the parent of a child. -/
theorem xswap_spec (ff : Bool) (os : Nat) (now : Now p none g s T) (big : q ≠ 0 ∧ 512 ≤ (s.proc q).size)
    (at_q : g.move = none ∧ (s.proc q).mover = none ∨ g.move = some (q, s.proc q))
    (swap : (s.proc q).swapRun = none)
    (ready : if ff then
        (s.proc q).coreRun = some ⟨if os = 0 then (s.proc q).size else os, (s.proc q).addr⟩ ∧
        (s.proc q).stat = .live ∧ p = (if (s.proc q).load then q else 0)
      else (s.proc q).coreRun = none ∧ (s.proc q).stat = .born ∧ (s.proc q).load = true)
    (quiet : ∀ x l, g.text = some (x, l) → l.ccount = 0) (parting : Parting g (s.proc q))
    (on : On me s)
    (linked : p = q ∨ p = 0 ∨ ∃ i, i ≠ q ∧ (s.proc i).counted = (s.proc q).counted) :
    proto.wp p (xswap me q ff os) (fun _ s' T' => Now p none { g with move := none } s' T' ∧
      (s'.proc q).place = .disk ∧ (s'.proc q).stat = (s.proc q).stat) s T := by
  apply wp_bind
  apply wp_read now
  generalize (if os = 0 then (s.proc q).size else os) = os' at ready ⊢
  apply wp_bind
  by_cases room : (malloc s.swapmap (wtodb (s.proc q).size)).1 = 0
  · intro _
    simp only [World.startOut, if_pos room]
    exact ⟨now.fair, trivial⟩
  obtain ⟨eq, out⟩ := now.startOut big at_q swap ready rfl room
  have others : ∀ i, i ≠ q → ((s.startOut p q ff os').2.proc i) = s.proc i := by
    intro i ne
    simp [World.startOut, room, ne, World.setSwap]
  generalize (malloc s.swapmap (wtodb (s.proc q).size)).1 = a at room eq out
  apply wp_step out
  rw [congrArg Prod.fst eq]
  rw [if_neg room]
  generalize (s.startOut p q ff os').2 = s₁ at out others
  have entry := out.move_eq rfl
  have calm : Calm { g with move := some (q, (s.proc q).outgoing p ff os' a) } := by
    refine ⟨quiet, ?_⟩
    rintro q k ⟨⟩
    cases ff <;> simp [Proc.outgoing]
  have on₁ : On me s₁ := by
    by_cases e : me = q
    · subst e
      rwa [On, entry]
    · rwa [On, others me e]
  apply wp_bind
  apply wp_read out
  rw [entry]
  apply wp_seq (parting_spec parting out calm on₁ ?_)
  · rintro _ s T ⟨now, on⟩
    apply wp_seq (sleep_spec now calm)
    rintro _ s T ⟨now, on⟩
    have done := now.finishOut ff os' a rfl rfl rfl
    refine wp_modify done ⟨done, ?_, ?_⟩
    · cases ff <;> simp [World.finishOut]
    · have eq := now.move_eq rfl
      cases ff <;> simp [World.finishOut, eq, Proc.outgoing]
  · refine linked.imp_right (Or.imp_right ?_)
    rintro ⟨i, ne, same⟩
    exact ⟨i, by rw [others i ne, same]⟩

end V7Besm.Swap

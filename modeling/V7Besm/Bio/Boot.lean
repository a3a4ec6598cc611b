import V7Besm.Bio.Traffic
import V7Besm.Bio.Steps

/-!
After `binit` the buffers are in order: all of them are free, on the chain of
`bfreelist` and without a block.
-/

namespace V7Besm.Bio

open Links List

variable {c : Cache} {bp bq : Hdr} {l : List Hdr}

/-- The headers of `l` have been freed. -/
structure Booting (c : Cache) (l : List Hdr) : Prop where
  av : Ring (fun h => (c.buf h).avForw) (fun h => (c.buf h).avBack) .bfreelist l
  chain : Ring (fun h => (c.buf h).forw) (fun h => (c.buf h).back) .bfreelist l.reverse
  free : ∀ bp ∈ l, (c.buf bp).flags = {} ∧ (c.buf bp).dev = NODEV

section One

variable (bp : Hdr) (c : Cache) (h : Hdr)

/-- The header, chained and marked busy, before it is released. -/
def chainedBusy : Cache :=
  (chainFront bp .bfreelist (c.set bp fun b => { b with dev := NODEV })).flag bp fun _ => { busy := true }

theorem binitOne_eq : binitOne bp c = (linkBack bp (chainedBusy bp c)).flag bp fun f =>
    { f with wanted := false, busy := false, async := false, age := false } := by
  have young : ((chainedBusy bp c).buf bp).flags.age = false := by
    simp [chainedBusy, Cache.flag]
  unfold binitOne putAvail
  change (if ((chainedBusy bp c).buf bp).flags.age = true then _ else _ : Cache).flag _ _ = _
  rw [if_neg (by simp [young])]
  rfl

theorem dev_field {α : Type} (g : Buf → α) (keep : ∀ b, g { b with dev := NODEV } = g b) :
    g ((c.set bp fun b => { b with dev := NODEV }).buf h) = g (c.buf h) :=
  buf_set_field c bp (fun b => { b with dev := NODEV }) g keep h

theorem chainedBusy_links : ((chainedBusy bp c).buf h).avForw = (c.buf h).avForw ∧
    ((chainedBusy bp c).buf h).avBack = (c.buf h).avBack := by
  simp only [chainedBusy, chainFront, flag_fields, setForw_fields, setBack_fields]
  exact ⟨dev_field bp c h Buf.avForw fun _ => rfl, dev_field bp c h Buf.avBack fun _ => rfl⟩

theorem forw_binitOne : ((binitOne bp c).buf h).forw = if h = .bfreelist then bp
    else if h = bp then (c.buf .bfreelist).forw else (c.buf h).forw := by
  have dev := fun x => dev_field bp c x Buf.forw fun _ => rfl
  simp only [binitOne_eq, linkBack, chainedBusy, chainFront, flag_fields, setAvForw_fields,
    setAvBack_fields, setForw_fields, setBack_fields, dev]

theorem back_binitOne (ne : bp ≠ .bfreelist) :
    ((binitOne bp c).buf h).back = if h = (c.buf .bfreelist).forw then bp
      else if h = bp then .bfreelist else (c.buf h).back := by
  have dev := fun x => dev_field bp c x Buf.back fun _ => rfl
  have dev' := fun x => dev_field bp c x Buf.forw fun _ => rfl
  simp only [binitOne_eq, linkBack, chainedBusy, chainFront, flag_fields, setAvForw_fields,
    setAvBack_fields, setForw_fields, setBack_fields, dev, dev', if_neg ne.symm]

theorem body_binitOne_of_ne (ne : h ≠ bp) : body ((binitOne bp c).buf h) = body (c.buf h) := by
  rw [binitOne_eq, body_flag_of_ne _ _ _ _ ne]
  simp only [linkBack, setAvForw_fields, setAvBack_fields, chainedBusy]
  rw [body_flag_of_ne _ _ _ _ ne]
  simp only [chainFront, setForw_fields, setBack_fields]
  rw [buf_set_of_ne _ _ _ ne]

theorem body_binitOne_self :
    body ((binitOne bp c).buf bp) = body { c.buf bp with dev := NODEV, flags := {} } := by
  have inner : body ((chainedBusy bp c).buf bp) =
      body { c.buf bp with dev := NODEV, flags := { busy := true } } :=
    body_flag_self _ bp (fun _ => { busy := true }) (b := { c.buf bp with dev := NODEV }) (by
      simp only [chainFront, setForw_fields, setBack_fields, buf_set_self])
  rw [binitOne_eq]
  refine body_flag_self _ bp _ (b := { c.buf bp with dev := NODEV, flags := { busy := true } }) ?_
  simpa only [linkBack, setAvForw_fields, setAvBack_fields] using inner

theorem only_binitOne : OnlyHeaders c (binitOne bp c) := by
  rw [binitOne_eq]
  exact ⟨rfl, rfl, rfl, rfl, rfl⟩

end One

theorem Booting.one (boot : Booting c l) (pool : bp.isPool = true) (new : bp ∉ l) :
    Booting (binitOne bp c) (l ++ [bp]) := by
  have ne : bp ≠ .bfreelist := by rintro rfl; simp [Hdr.isPool] at pool
  have out : bp ∉ Hdr.bfreelist :: l := by simp [ne, new]
  have out' : bp ∉ Hdr.bfreelist :: l.reverse := by simp [ne, new]
  have next : (c.buf .bfreelist).forw ≠ bp := fun e =>
    out' (e ▸ boot.chain.next_mem mem_cons_self)
  refine ⟨?_, ?_, fun h mem => ?_⟩
  · have ring := ring_link false
      (boot.av.frame (fun y _ => (chainedBusy_links bp c y).1)
        fun y _ => (chainedBusy_links bp c y).2) out
    simpa [binitOne_eq] using ring
  · rw [reverse_append]
    refine boot.chain.pushFront out' ?_ ?_ ?_ ?_ (fun y hy hy' => ?_) fun y hy hy' => ?_
    · simp [forw_binitOne]
    · simp [forw_binitOne, ne]
    · simp [back_binitOne bp c _ ne, next.symm]
    · simp [back_binitOne bp c _ ne]
    · simp [forw_binitOne, hy, hy']
    · simp [back_binitOne bp c _ ne, hy, hy']
  · by_cases e : h = bp
    · subst e
      obtain ⟨flags, dev, -⟩ := block_of_body (body_binitOne_self h c)
      exact ⟨flags, dev⟩
    · obtain ⟨flags, dev, -⟩ := block_of_body (body_binitOne_of_ne bp c h e)
      rw [flags, dev]
      exact boot.free h (by simpa [e] using mem)

theorem Booting.all {rest : List Hdr} (boot : Booting c l) (pool : ∀ bp ∈ rest, bp.isPool = true)
    (nodup : (l ++ rest).Nodup) : Booting (rest.foldl (fun c bp => binitOne bp c) c) (l ++ rest) := by
  induction rest generalizing c l with
  | nil => simpa using boot
  | cons bp rest ih =>
    have new : bp ∉ l := fun mem =>
      (nodup_append.mp nodup).2.2 bp mem bp mem_cons_self rfl
    have next := boot.one (pool bp mem_cons_self) new
    have := ih next (fun x mem => pool x (mem_cons_of_mem _ mem)) (by simpa using nodup)
    simpa using this

/-- A property of headers that one step keeps for all headers but its own. -/
theorem foldl_binitOne (P : Cache → Prop) (step : ∀ c bp, bp.isPool = true → P c → P (binitOne bp c))
    (rest : List Hdr) (pool : ∀ bp ∈ rest, bp.isPool = true) (start : P c) :
    P (rest.foldl (fun c bp => binitOne bp c) c) := by
  induction rest generalizing c with
  | nil => exact start
  | cons bp rest ih =>
    exact ih (fun x mem => pool x (mem_cons_of_mem _ mem))
      (step c bp (pool bp mem_cons_self) start)

theorem mem_pool : bp ∈ pool ↔ bp.isPool = true := by
  cases bp with
  | pool i => simp [pool, Hdr.isPool]
  | _ => simp [pool, Hdr.isPool]

theorem nodup_pool : pool.Nodup := (nodup_finRange NBUF).map fun _ _ e => Hdr.pool.inj e

section SelfChain

variable (h : Hdr) (c : Cache) (x : Hdr)

@[simp] theorem selfChain_fields :
    ((selfChain h c).buf x).forw = (if x = h then h else (c.buf x).forw) ∧
    ((selfChain h c).buf x).back = (if x = h then h else (c.buf x).back) ∧
    ((selfChain h c).buf x).avForw = (c.buf x).avForw ∧
    ((selfChain h c).buf x).avBack = (c.buf x).avBack ∧
    body ((selfChain h c).buf x) = body (c.buf x) := by
  simp [selfChain]

end SelfChain

theorem binit_wired (blanks : ∀ h, (c.buf h).flags = {}) :
    (∃ L, Wired (binit c) L) ∧ OnlyHeaders c (binit c) ∧ (∀ h, ((binit c).buf h).flags = {}) ∧
      ∀ h, h.isPool = true → ((binit c).buf h).dev = NODEV := by
  have start : Booting (((selfChain .bfreelist c).setAvForw .bfreelist .bfreelist).setAvBack
      .bfreelist .bfreelist) [] :=
    ⟨⟨⟨by simp, by simp⟩, by simp⟩, ⟨⟨by simp, by simp⟩, by simp⟩, by simp⟩
  have booted := start.all (fun bp mem => mem_pool.mp mem) (by simpa using nodup_pool)
  have kept := foldl_binitOne (fun c' => OnlyHeaders c c' ∧ ∀ h, (c'.buf h).flags = {})
    (fun c' bp _ ⟨only, flags⟩ => ⟨only.trans (only_binitOne bp c'), fun h => ?_⟩) pool
    (fun bp mem => mem_pool.mp mem)
    (c := ((selfChain .bfreelist c).setAvForw .bfreelist .bfreelist).setAvBack .bfreelist .bfreelist)
    ⟨⟨rfl, rfl, rfl, rfl, rfl⟩, fun h => ?_⟩
  · rw [nil_append] at booted
    unfold binit
    dsimp only
    generalize pool.foldl (fun c bp => binitOne bp c) _ = c₁ at booted kept
    obtain ⟨only, flags⟩ := kept
    have ne : ∀ y ∈ Hdr.bfreelist :: pool.reverse, ∀ m, y ≠ .tab m := by
      rintro y mem m rfl
      simp [mem_pool, Hdr.isPool] at mem
    have same : ∀ h, ((selfChain (.tab .mb) (selfChain (.tab .md) c₁)).buf h).flags = {} ∧
        ((selfChain (.tab .mb) (selfChain (.tab .md) c₁)).buf h).dev = (c₁.buf h).dev := by
      intro h
      obtain ⟨same, dev, -⟩ := block_of_body (show
        body ((selfChain (.tab .mb) (selfChain (.tab .md) c₁)).buf h) = body (c₁.buf h) by simp)
      exact ⟨same.trans (flags h), dev⟩
    have nodev : ∀ h, h.isPool = true →
        ((selfChain (.tab .mb) (selfChain (.tab .md) c₁)).buf h).dev = NODEV := fun h isPool =>
      (same h).2.trans (booted.free h (mem_pool.mpr isPool)).2
    refine ⟨⟨⟨pool, fun h => if h = .bfreelist then pool.reverse else [], fun _ => .bfreelist⟩,
      ?_, ?_, fun _ => rfl, ?_, ?_, ?_, ?_⟩, only.trans ⟨rfl, rfl, rfl, rfl, rfl⟩, ?_, ?_⟩
    · exact booted.av.frame (fun y _ => by simp) fun y _ => by simp
    · intro h head
      cases h with
      | pool i => simp [Hdr.isPool] at head
      | bfreelist =>
        refine booted.chain.frame (fun y mem => ?_) fun y mem => ?_
        · simp [ne y mem]
        · simp [ne y mem]
      | tab m => cases m <;> exact ⟨⟨by simp, by simp⟩, by simp⟩
    · intro bp h head
      by_cases e : h = .bfreelist
      · simp [e, mem_pool]
      · simp [e, Ne.symm e]
    · intro bp
      simp [(same bp).1, mem_pool]
    · exact fun bp isPool real => absurd (nodev bp isPool) real
    · exact fun bp bq isPool _ real => absurd (nodev bp isPool) real
    · exact fun h => (same h).1
    · exact nodev
  · by_cases e : h = bp
    · subst e
      have := body_binitOne_self h c'
      simp only [body, Prod.mk.injEq] at this
      exact this.1
    · have := body_binitOne_of_ne bp c' h e
      simp only [body, Prod.mk.injEq] at this
      rw [this.1, flags h]
  · have : body ((((selfChain .bfreelist c).setAvForw .bfreelist .bfreelist).setAvBack
      .bfreelist .bfreelist).buf h) = body (c.buf h) := by simp
    simp only [body, Prod.mk.injEq] at this
    rw [this.1, blanks h]

/-- The system starts with the buffers in order. -/
theorem cached_boot (disk : Dev → Int → Words) (faulty : Dev → Int → Bool) :
    Cached (boot disk faulty) (fun _ _ => none) fun _ => none := by
  obtain ⟨⟨L, wired⟩, only, flags, nodev⟩ := binit_wired (c :=
    { buf := fun _ => blank, disk, queue := fun _ => [], faulty, down := false, last := disk
      lastResid := fun _ _ => 0 }) fun _ => rfl
  change OnlyHeaders _ (boot disk faulty) at only
  change ∀ h, ((boot disk faulty).buf h).flags = {} at flags
  have idle : ∀ h m, h ∉ (boot disk faulty).queue m := fun h m => by simp [only.queue]
  refine ⟨L, fun h => if h.isPool then .free else .head, ⟨wired, fun h => ?_, fun h => ?_, fun m => ?_,
    fun dev blkno _ _ => ?_⟩, fun p h => ?_, fun h => ?_⟩
  · cases h <;> simp [Hdr.isPool]
  · cases isPool : h.isPool with
    | true =>
      have unreliable : ¬ (look (boot disk faulty) h).reliable := fun r => by
        have : ((boot disk faulty).buf h).dev = NODEV := nodev h isPool
        exact r.ne_nodev this
      have flags : (look (boot disk faulty) h).flags = {} := flags h
      exact ⟨by rw [flags], by rw [flags], idle h, fun _ late => by simp [flags] at late,
        fun r => absurd r unreliable, fun r => absurd r unreliable, fun r => absurd r unreliable⟩
    | false =>
      refine ⟨idle h, ?_⟩
      change ((boot disk faulty).buf h).flags.tape = false
      rw [flags]
  · simp [only.queue]
  · rw [only.disk, only.last]
  · cases h <;> rfl
  · cases h <;> rfl

end V7Besm.Bio

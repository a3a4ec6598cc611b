import Mathlib.Tactic.IntervalCases

/-!
Dates (`ctime.c`, `mktime.c`).

`gmtime` peels the years off one at a time, forward or back from 1970, then the months.
`localtime` is `gmtime` of a shifted clock, `mktime` counts the days back up. An `int` has 41
bits. What `gmtime` forms on the way always fits, but a clock can be shifted out of the range,
and so can each of the sums of `mktime`, even if the last one is back in it.
-/

namespace V7Besm.Time

open List

/-- The members of `struct tm`. -/
structure Tm where
  (sec min hour mday mon year wday yday isdst : Int)

/-- Days in the year `y`, counted from 1900. -/
def dysize (y : Int) : Int :=
  let y := y + 1900
  if y.tmod 4 ≠ 0 then 365
  else if y.tmod 100 ≠ 0 then 366
  else if y.tmod 400 ≠ 0 then 365
  else 366

def dmsize : List Int := [31, 28, 31, 30, 31, 30, 31, 31, 30, 31, 30, 31]

theorem dysize_le (y : Int) : 365 ≤ dysize y := by
  grind [dysize]

/-- The first loop for the year: from the epoch on. -/
def yearsOn (d1 day : Int) : Int × Int :=
  if dysize d1 ≤ day then yearsOn (d1 + 1) (day - dysize d1) else (d1, day)
termination_by day.toNat
decreasing_by have := dysize_le d1; omega

/-- The second: before the epoch. -/
def yearsBack (d1 day : Int) : Int × Int :=
  if day < 0 then yearsBack (d1 - 1) (day + dysize (d1 - 1)) else (d1, day)
termination_by (-day).toNat
decreasing_by have := dysize_le (d1 - 1); omega

/-- The length of month `d1` in the loop for the month. -/
def len (year : Int) (d1 : Nat) : Int :=
  if d1 = 1 ∧ dysize year = 366 then 29 else dmsize.getD d1 0

/-- The loop for the month, as far as the table goes. -/
def months (year : Int) : Nat → Nat → Int → Nat × Int
  | 0, d1, d0 => (d1, d0)
  | n + 1, d1, d0 => if d0 < len year d1 then (d1, d0) else months year n (d1 + 1) (d0 - len year d1)

def gmtime (clk : Int) : Tm :=
  let hms := clk.tmod 86400
  let day := clk.tdiv 86400
  let (hms, day) := if hms < 0 then (hms + 86400, day - 1) else (hms, day)
  let (year, yday) := if 0 ≤ day then yearsOn 70 day else yearsBack 70 day
  let (mon, d0) := months year 12 0 yday
  { sec := hms.tmod 60, min := (hms.tdiv 60).tmod 60, hour := hms.tdiv 3600
    mday := d0 + 1, mon := mon, year := year
    wday := (day + 7340036).tmod 7, yday := yday, isdst := 0 }

/-- What `ftime` reports: minutes west of Greenwich, and whether daylight time is kept. -/
structure Timeb where
  timezone : Int
  dstflag : Bool

/-- The day number of the Sunday that the day `d` of the year is counted from. -/
def sunday (t : Tm) (d : Int) : Int :=
  let d := if 58 ≤ d then d + (dysize t.year - 365) else d
  d - (d - t.yday + t.wday + 700).tmod 7

/-- Where daylight time begins and ends; `daytab` for 1974 and 1975. -/
def daylight (year : Int) : Int × Int :=
  if year = 74 then (5, 333) else if year = 75 then (58, 303) else (119, 303)

/-- Is daylight time kept when the clocks of standard time show `copyt`? -/
def inDaylight (systime : Timeb) (copyt : Int) : Bool :=
  let ct := gmtime copyt
  let daylbegin := sunday ct (daylight ct.year).1
  let daylend := sunday ct (daylight ct.year).2
  systime.dstflag ∧ (ct.yday > daylbegin ∨ ct.yday = daylbegin ∧ ct.hour ≥ 2) ∧
    (ct.yday < daylend ∨ ct.yday = daylend ∧ ct.hour < 1)

/-- An `int` holds this. -/
abbrev Fits (x : Int) : Prop := -2 ^ 40 ≤ x ∧ x < 2 ^ 40

/-- The value of an expression of type `int`; one that does not fit is undefined. -/
def fit (x : Int) : Option Int := if Fits x then some x else none

def localtime (systime : Timeb) (clk : Int) : Option Tm := do
  let zone ← fit (systime.timezone * 60)
  let copyt ← fit (clk - zone)
  if inDaylight systime copyt then do
    let copyt ← fit (copyt + 1 * 60 * 60)
    some { gmtime copyt with isdst := 1 }
  else some (gmtime copyt)

/-- The loops over the years in `daysto`. -/
def yearsto (year : Int) : Option Int :=
  if 70 ≤ year then
    (List.range (year - 70).toNat).foldlM (fun d (i : Nat) => fit (d + dysize (70 + i))) 0
  else (List.range (70 - year).toNat).foldlM (fun d (i : Nat) => fit (d - dysize (year + i))) 0

/-- Days from 1 January 1970 to the first of `mon` in `year`. -/
def daysto (year : Int) (mon : Nat) : Option Int := do
  let d ← yearsto year
  (List.range mon).foldlM
    (fun d i => do
      let d ← fit (d + dmsize.getD i 0)
      if i = 1 ∧ dysize year = 366 then fit (d + 1) else some d) d

/-- The month, in its range, and the year. -/
def monthYear (tp : Tm) : Option (Int × Int) := do
  let mon := tp.mon.tmod 12
  let year ← fit (tp.year + tp.mon.tdiv 12)
  if mon < 0 then do
    let year ← fit (year - 1)
    some (mon + 12, year)
  else some (mon, year)

/-- The members added up. -/
def addUp (tp : Tm) : Option Int := do
  let (mon, year) ← monthYear tp
  let days ← daysto year mon.toNat
  let mday ← fit (tp.mday - 1)
  let t ← fit (days + mday)
  let t ← fit (t * 86400)
  let hour ← fit (tp.hour * 3600)
  let t ← fit (t + hour)
  let min ← fit (tp.min * 60)
  let t ← fit (t + min)
  fit (t + tp.sec)

/-- An hour back, if daylight time is in effect. -/
def takeHour (systime : Timeb) (isdst t : Int) : Option Int :=
  if isdst < 0 then do
    let ct ← localtime systime t
    if ct.isdst > 0 then fit (t - 3600) else some t
  else if isdst > 0 then fit (t - 3600)
  else some t

/-- The time, and the structure that is left. -/
def mktime (systime : Timeb) (tp : Tm) : Option (Int × Tm) := do
  let t ← addUp tp
  let zone ← fit (systime.timezone * 60)
  let t ← fit (t + zone)
  let t ← takeHour systime tp.isdst t
  let ct ← localtime systime t
  some (t, ct)

/-! ### The calendar -/

/-- The leap years of the Gregorian calendar, extended to all years. -/
def Leap (y : Int) : Prop := 4 ∣ y ∧ (100 ∣ y → 400 ∣ y)

instance (y : Int) : Decidable (Leap y) := inferInstanceAs (Decidable (_ ∧ _))

/-- Days in month `m`, counted from 0, of the year `y`. -/
def daysIn (y : Int) (m : Nat) : Int :=
  if m = 1 then if Leap y then 29 else 28 else if m = 3 ∨ m = 5 ∨ m = 8 ∨ m = 10 then 30 else 31

/-- Days from the epoch to 1 January of the year `y`: 477 leap days lie before 1970. -/
def yearStart (y : Int) : Int :=
  365 * (y - 1970) + (y - 1) / 4 - (y - 1) / 100 + (y - 1) / 400 - 477

/-- Days from 1 January to the first of month `m`. -/
def monthStart (y : Int) : Nat → Int
  | 0 => 0
  | m + 1 => monthStart y m + daysIn y m

/-- The first of month `mon`, carried into the years before or behind if it is out of range. -/
def firstOf (year mon : Int) : Int :=
  yearStart (1900 + (year + mon / 12)) + monthStart (1900 + (year + mon / 12)) (mon % 12).toNat

/-- The day number, from the epoch, that the structure denotes. -/
def Tm.day (tm : Tm) : Int := firstOf tm.year tm.mon + (tm.mday - 1)

/-- The seconds from the epoch that the structure denotes. -/
def Tm.seconds (tm : Tm) : Int := tm.day * 86400 + tm.hour * 3600 + tm.min * 60 + tm.sec

/-- The members are in their ranges, and those for the day agree. -/
structure Tm.Valid (tm : Tm) : Prop where
  sec : 0 ≤ tm.sec ∧ tm.sec < 60
  min : 0 ≤ tm.min ∧ tm.min < 60
  hour : 0 ≤ tm.hour ∧ tm.hour < 24
  mon : 0 ≤ tm.mon ∧ tm.mon < 12
  mday : 1 ≤ tm.mday ∧ tm.mday ≤ daysIn (1900 + tm.year) tm.mon.toNat
  yday : 0 ≤ tm.yday ∧ tm.yday < 366 ∧ tm.yday = tm.day - yearStart (1900 + tm.year)

/-- The weekday of a day: the epoch was a Thursday. -/
def weekday (day : Int) : Int := (day + 4) % 7

theorem dysize_eq (y : Int) : dysize y = if Leap (1900 + y) then 366 else 365 := by
  simp only [dysize, Leap, ne_eq, ← Int.dvd_iff_tmod_eq_zero]
  grind

theorem yearStart_succ (y : Int) :
    yearStart (1900 + (y + 1)) = yearStart (1900 + y) + dysize y := by
  rw [dysize_eq, yearStart, yearStart]
  split
  all_goals
    rename_i leap
    unfold Leap at leap
    omega

theorem monthStart_year (y : Int) : monthStart (1900 + y) 12 = dysize y := by
  rw [dysize_eq]
  simp [monthStart, daysIn]
  split <;> rfl

theorem len_eq (y : Int) {m : Nat} (month : m < 12) : len y m = daysIn (1900 + y) m := by
  have leap : dysize y = 366 ↔ Leap (1900 + y) := by grind [dysize_eq]
  simp only [len, daysIn, leap, dmsize]
  interval_cases m <;> simp

/-! ### From seconds to a date -/

/-- A year and a day of it that make up a day number. -/
structure Peeled (day : Int) (r : Int × Int) : Prop where
  low : 0 ≤ r.2
  high : r.2 < dysize r.1
  same : yearStart (1900 + r.1) + r.2 = day

theorem yearsOn_spec {day : Int} (d1 : Int) (after : 0 ≤ day) :
    Peeled (yearStart (1900 + d1) + day) (yearsOn d1 day) := by
  fun_induction yearsOn d1 day with
  | case1 d1 day whole ih =>
    have rest := ih (by omega)
    rwa [yearStart_succ, Int.add_assoc, add_sub_cancel] at rest
  | case2 d1 day part => exact ⟨after, Int.not_le.mp part, rfl⟩

theorem yearsBack_spec {day : Int} (d1 : Int) (before : day < dysize d1) :
    Peeled (yearStart (1900 + d1) + day) (yearsBack d1 day) := by
  fun_induction yearsBack d1 day with
  | case1 d1 day below ih =>
    have step := yearStart_succ (d1 - 1)
    rw [Int.sub_add_cancel] at step
    rw [step, Int.add_right_comm, Int.add_assoc]
    exact ih (by omega)
  | case2 d1 day part => exact ⟨Int.not_lt.mp part, before, rfl⟩

theorem years_spec (day : Int) :
    Peeled day (if 0 ≤ day then yearsOn 70 day else yearsBack 70 day) := by
  have epoch : yearStart (1900 + 70) + day = day := Int.zero_add day
  have room := dysize_le 70
  split
  next on => simpa only [epoch] using yearsOn_spec 70 on
  next before => simpa only [epoch] using yearsBack_spec 70 (show day < dysize 70 by omega)

theorem months_spec {year d0 : Int} {n m : Nat} (turns : n + m = 12) (low : 0 ≤ d0)
    (high : monthStart (1900 + year) m + d0 < dysize year) :
    (months year n m d0).1 < 12 ∧ 0 ≤ (months year n m d0).2 ∧
      (months year n m d0).2 < daysIn (1900 + year) (months year n m d0).1 ∧
      monthStart (1900 + year) (months year n m d0).1 + (months year n m d0).2 =
        monthStart (1900 + year) m + d0 := by
  induction n generalizing m d0 with
  | zero =>
    obtain rfl : m = 12 := by omega
    rw [monthStart_year] at high
    omega
  | succ n ih =>
    have month : m < 12 := by omega
    rw [months, len_eq year month]
    split
    next inside => exact ⟨month, low, inside, rfl⟩
    next past =>
      have carried : monthStart (1900 + year) (m + 1) + (d0 - daysIn (1900 + year) m) =
          monthStart (1900 + year) m + d0 := by
        rw [monthStart]
        omega
      rw [← carried] at high ⊢
      exact ih (by omega) (by omega) high

/-- The day and the seconds within it, both rounded down. -/
theorem split_clock (clk : Int) :
    (if clk.tmod 86400 < 0 then (clk.tmod 86400 + 86400, clk.tdiv 86400 - 1)
      else (clk.tmod 86400, clk.tdiv 86400)) = (clk % 86400, clk / 86400) := by
  simp only [Int.tmod_eq_emod, Int.tdiv_eq_ediv]
  grind

theorem gmtime_spec (clk : Int) : (gmtime clk).Valid ∧ (gmtime clk).day = clk / 86400 ∧
    (gmtime clk).seconds = clk ∧ (gmtime clk).isdst = 0 ∧
    (gmtime clk).wday = (clk / 86400 + 7340036).tmod 7 := by
  have year := years_spec (clk / 86400)
  simp only [gmtime, split_clock]
  generalize (if 0 ≤ clk / 86400 then yearsOn 70 (clk / 86400)
    else yearsBack 70 (clk / 86400)) = y at year
  obtain ⟨low, high, same⟩ := year
  have start : monthStart (1900 + y.1) 0 + y.2 = y.2 := Int.zero_add _
  obtain ⟨month, first, last, day⟩ := months_spec (Nat.add_zero 12) low (start ▸ high)
  rw [start] at day
  generalize months y.1 12 0 y.2 = r at month first last day
  have year : dysize y.1 ≤ 366 := by grind [dysize_eq]
  have carry : firstOf y.1 r.1 = yearStart (1900 + y.1) + monthStart (1900 + y.1) r.1 := by
    rw [firstOf, show (r.1 : Int) / 12 = 0 by omega, show ((r.1 : Int) % 12).toNat = r.1 by omega,
      Int.add_zero]
  have hms : 0 ≤ clk % 86400 := Int.emod_nonneg _ (by decide)
  have minutes : 0 ≤ clk % 86400 / 60 := Int.ediv_nonneg hms (by decide)
  simp only [Int.tmod_eq_emod_of_nonneg hms, Int.tdiv_eq_ediv_of_nonneg hms,
    Int.tmod_eq_emod_of_nonneg minutes]
  refine ⟨⟨?_, ?_, ?_, ?_, ?_, ?_⟩, ?_, ?_, trivial, trivial⟩
  all_goals
    simp only [Tm.seconds, Tm.day, carry, Int.toNat_natCast]
    omega

/-- What `gmtime` returns is the date and the time, and the weekday is right unless the bias
has been used up: 7340036 days before the epoch only the Sundays are. -/
theorem gmtime_calendar (t : Int) :
    ((gmtime t).Valid ∧ (gmtime t).seconds = t ∧ (gmtime t).wday = weekday (gmtime t).day) ↔
      -7340036 ≤ t / 86400 ∨ weekday (t / 86400) = 0 := by
  obtain ⟨valid, day, seconds, _, wday⟩ := gmtime_spec t
  rw [and_iff_right valid, and_iff_right seconds, day, wday, weekday, Int.tmod_eq_emod]
  grind

theorem gmtime_negative_weekday :
    -2 ^ 40 ≤ (-634179196800 : Int) ∧ (gmtime (-634179196800)).wday = -1 :=
  ⟨by decide, (gmtime_spec _).2.2.2.2.trans (by decide)⟩

/-! ### And back -/

@[simp]
theorem fit_eq_some {x y : Int} : fit x = some y ↔ Fits x ∧ x = y := by
  unfold fit
  split
  next fits => exact ⟨fun same => ⟨fits, Option.some.inj same⟩, fun both => congrArg some both.2⟩
  next out => exact ⟨nofun, fun both => absurd both.1 out⟩

theorem fit_of {x : Int} (fits : Fits x) : fit x = some x := fit_eq_some.mpr ⟨fits, rfl⟩

/-- Sums that do not come back once they are out of range. -/
theorem foldlM_fit {f : Int → Nat → Option Int} {S : Nat → Int} {n : Nat} (start : Fits (S 0))
    (each : ∀ i < n, Fits (S i) → f (S i) i = fit (S (i + 1)))
    (back : ∀ i < n, Fits (S (i + 1)) → Fits (S i)) :
    (List.range n).foldlM f (S 0) = fit (S n) := by
  induction n with
  | zero => exact (fit_of start).symm
  | succ n ih =>
    rw [range_succ, foldlM_append, ih (fun i low => each i (by omega)) fun i low => back i (by omega)]
    by_cases fits : Fits (S n)
    · rw [fit_of fits, ← each n (Nat.lt_succ_self n) fits]
      exact bind_pure (f (S n) n)
    · have later : ¬ Fits (S (n + 1)) := fun yes => fits (back n (Nat.lt_succ_self n) yes)
      rw [fit, fit, if_neg fits, if_neg later]
      rfl

theorem yearStart_add_succ (y : Int) (i : Nat) :
    yearStart (1900 + (y + (i + 1 : Nat))) = yearStart (1900 + (y + i)) + dysize (y + i) := by
  rw [← yearStart_succ, Int.add_assoc y]
  rfl

theorem yearStart_le (y : Int) (n : Nat) :
    yearStart (1900 + y) ≤ yearStart (1900 + (y + n)) := by
  induction n with
  | zero => simp
  | succ n ih =>
    have days := dysize_le (y + n)
    rw [yearStart_add_succ]
    omega

/-- The years are added up, or taken off, as long as the sums fit. -/
theorem yearsto_eq (year : Int) : yearsto year = fit (yearStart (1900 + year)) := by
  have epoch : yearStart (1900 + 70) = 0 := rfl
  unfold yearsto
  split
  next on =>
    have sums := foldlM_fit (S := fun i => yearStart (1900 + (70 + i))) (n := (year - 70).toNat)
      (f := fun d (i : Nat) => fit (d + dysize (70 + i))) (by decide)
      (fun i _ _ => by rw [yearStart_add_succ])
      (fun i _ fits => by
        have low := yearStart_le 70 i
        have days := dysize_le (70 + i)
        rw [yearStart_add_succ] at fits
        omega)
    rwa [Int.toNat_of_nonneg (by omega), add_sub_cancel] at sums
  next before =>
    have sums := foldlM_fit (S := fun i => yearStart (1900 + year) - yearStart (1900 + (year + i)))
      (n := (70 - year).toNat) (f := fun d (i : Nat) => fit (d - dysize (year + i)))
      (by simp [Fits])
      (fun i _ _ => by rw [yearStart_add_succ, Int.sub_sub])
      (fun i _ fits => by
        have low := yearStart_le year i
        have days := dysize_le (year + i)
        rw [yearStart_add_succ] at fits
        omega)
    rw [Int.toNat_of_nonneg (by omega), add_sub_cancel, epoch, Int.sub_zero] at sums
    simpa using sums

theorem monthStart_succ (year : Int) {i : Nat} (month : i < 12) :
    monthStart (1900 + year) (i + 1) = monthStart (1900 + year) i + len year i := by
  rw [monthStart, len_eq year month]

theorem len_ge (year : Int) {i : Nat} (month : i < 12) : 28 ≤ len year i := by
  rw [len_eq year month, daysIn]
  grind

theorem monthStart_nonneg (year : Int) {i : Nat} (month : i ≤ 12) :
    0 ≤ monthStart (1900 + year) i := by
  induction i with
  | zero => exact le_rfl
  | succ i ih =>
    have before := ih (by omega)
    have more := len_ge year month
    rw [monthStart_succ year month]
    omega

/-- A month is added, with the leap day in a sum of its own. -/
theorem addMonth_eq {year d : Int} {i : Nat} (fits : Fits d) :
    (do
      let d ← fit (d + dmsize.getD i 0)
      if i = 1 ∧ dysize year = 366 then fit (d + 1) else some d) = fit (d + len year i) := by
  rw [len]
  split
  next feb =>
    rw [show dmsize.getD i 0 = 28 by rw [feb.1]; rfl]
    by_cases more : Fits (d + 28)
    · rw [fit_of more]
      change fit _ = fit _
      congr 1
      omega
    · rw [fit, fit, if_neg more, if_neg (by omega)]
      rfl
  next => exact Option.bind_fun_some _

theorem daysto_eq (year : Int) {mon : Nat} (month : mon ≤ 12) :
    daysto year mon = (fit (yearStart (1900 + year))).bind fun d =>
      fit (d + monthStart (1900 + year) mon) := by
  unfold daysto
  rw [yearsto_eq]
  by_cases fits : Fits (yearStart (1900 + year))
  · rw [fit_of fits]
    have sums := foldlM_fit (S := fun i => yearStart (1900 + year) + monthStart (1900 + year) i)
      (n := mon) (f := fun d i => do
        let d ← fit (d + dmsize.getD i 0)
        if i = 1 ∧ dysize year = 366 then fit (d + 1) else some d)
      (by simpa [monthStart] using fits)
      (fun i low fits => by
        rw [monthStart_succ year (by omega), ← Int.add_assoc]
        exact addMonth_eq fits)
      (fun i low fits => by
        have more := len_ge year (show i < 12 by omega)
        have below := monthStart_nonneg year (show i ≤ 12 by omega)
        rw [monthStart_succ year (by omega)] at fits
        omega)
    rw [monthStart, Int.add_zero] at sums
    exact sums
  · rw [fit, if_neg fits]
    rfl

variable {systime : Timeb}

/-- What `localtime` returns if it can. -/
def shown (systime : Timeb) (t : Int) : Tm :=
  let copyt := t - systime.timezone * 60
  if inDaylight systime copyt then { gmtime (copyt + 3600) with isdst := 1 } else gmtime copyt

/-- All that `localtime` forms for the time `t` fits. -/
structure Shows (systime : Timeb) (t : Int) : Prop where
  zone : Fits (systime.timezone * 60)
  standard : Fits (t - systime.timezone * 60)
  summer : inDaylight systime (t - systime.timezone * 60) = true →
    Fits (t - systime.timezone * 60 + 3600)

theorem localtime_eq_some {t : Int} {tm : Tm} :
    localtime systime t = some tm ↔ Shows systime t ∧ tm = shown systime t := by
  simp only [localtime, Option.bind_eq_bind, Option.bind_eq_some_iff, fit_eq_some, shown]
  constructor
  · rintro ⟨_, ⟨zone, rfl⟩, _, ⟨standard, rfl⟩, rest⟩
    split at rest
    next summer =>
      obtain ⟨_, fits, same⟩ := Option.bind_eq_some_iff.mp rest
      obtain ⟨hour, rfl⟩ := fit_eq_some.mp fits
      rw [if_pos summer]
      exact ⟨⟨zone, standard, fun _ => hour⟩, (Option.some.inj same).symm⟩
    next winter =>
      rw [if_neg winter]
      exact ⟨⟨zone, standard, fun yes => absurd yes winter⟩, (Option.some.inj rest).symm⟩
  · rintro ⟨⟨zone, standard, summer⟩, rfl⟩
    refine ⟨_, ⟨zone, rfl⟩, _, ⟨standard, rfl⟩, ?_⟩
    split
    next yes =>
      change (fit (t - systime.timezone * 60 + 3600)).bind _ = _
      rw [fit_of (summer yes)]
      rfl
    next => rfl

theorem shown_spec (systime : Timeb) (t : Int) : (shown systime t).Valid ∧
    if inDaylight systime (t - systime.timezone * 60) then (shown systime t).isdst = 1 ∧
      (shown systime t).seconds = t - systime.timezone * 60 + 3600
    else (shown systime t).isdst = 0 ∧
      (shown systime t).seconds = t - systime.timezone * 60 := by
  unfold shown
  dsimp only
  split
  next =>
    obtain ⟨valid, _, seconds, _⟩ := gmtime_spec (t - systime.timezone * 60 + 3600)
    exact ⟨{ valid with }, rfl, seconds⟩
  next =>
    obtain ⟨valid, _, seconds, none, _⟩ := gmtime_spec (t - systime.timezone * 60)
    exact ⟨valid, none, seconds⟩

/-- The sums that `mktime` forms of the members fit. -/
structure Tm.Sums (tp : Tm) : Prop where
  month : Fits (tp.year + tp.mon.tdiv 12) ∧ Fits (tp.year + tp.mon / 12)
  years : Fits (yearStart (1900 + (tp.year + tp.mon / 12)))
  first : Fits (firstOf tp.year tp.mon)
  mday : Fits (tp.mday - 1) ∧ Fits tp.day
  days : Fits (tp.day * 86400)
  hour : Fits (tp.hour * 3600) ∧ Fits (tp.day * 86400 + tp.hour * 3600)
  min : Fits (tp.min * 60) ∧ Fits (tp.day * 86400 + tp.hour * 3600 + tp.min * 60)
  sec : Fits tp.seconds

theorem monthYear_eq_some {tp : Tm} {r : Int × Int} :
    monthYear tp = some r ↔ (Fits (tp.year + tp.mon.tdiv 12) ∧ Fits (tp.year + tp.mon / 12)) ∧
      r = (tp.mon % 12, tp.year + tp.mon / 12) := by
  have floor : tp.mon.tmod 12 < 0 ∧ tp.mon % 12 = tp.mon.tmod 12 + 12 ∧
      tp.mon / 12 = tp.mon.tdiv 12 - 1 ∨
      ¬ tp.mon.tmod 12 < 0 ∧ tp.mon % 12 = tp.mon.tmod 12 ∧ tp.mon / 12 = tp.mon.tdiv 12 := by
    simp only [Int.tmod_eq_emod, Int.tdiv_eq_ediv]
    grind
  unfold monthYear
  simp only [Option.bind_eq_bind, Option.bind_eq_some_iff, fit_eq_some]
  obtain ⟨below, mon, year⟩ | ⟨within, mon, year⟩ := floor
  · simp only [if_pos below, Option.bind_eq_some_iff, fit_eq_some, mon, year, ← Int.add_sub_assoc]
    constructor
    · rintro ⟨_, ⟨fits, rfl⟩, _, ⟨less, rfl⟩, same⟩
      exact ⟨⟨fits, less⟩, (Option.some.inj same).symm⟩
    · rintro ⟨⟨fits, less⟩, rfl⟩
      exact ⟨_, ⟨fits, rfl⟩, _, ⟨less, rfl⟩, rfl⟩
  · simp only [if_neg within, mon, year, and_self]
    constructor
    · rintro ⟨_, ⟨fits, rfl⟩, same⟩
      exact ⟨fits, (Option.some.inj same).symm⟩
    · rintro ⟨fits, rfl⟩
      exact ⟨_, ⟨fits, rfl⟩, rfl⟩

theorem addUp_eq_some {tp : Tm} {t : Int} : addUp tp = some t ↔ tp.Sums ∧ t = tp.seconds := by
  have days := daysto_eq (tp.year + tp.mon / 12) (show (tp.mon % 12).toNat ≤ 12 by omega)
  unfold addUp
  simp only [Option.bind_eq_bind, Option.bind_eq_some_iff, monthYear_eq_some]
  constructor
  · rintro ⟨_, ⟨month, rfl⟩, rest⟩
    dsimp only at rest
    simp only [days, Option.bind_eq_some_iff, fit_eq_some] at rest
    obtain ⟨_, ⟨_, ⟨years, rfl⟩, first, rfl⟩, _, ⟨mday, rfl⟩, _, ⟨day, rfl⟩, _, ⟨days, rfl⟩,
      _, ⟨hour, rfl⟩, _, ⟨hours, rfl⟩, _, ⟨min, rfl⟩, _, ⟨mins, rfl⟩, sec, rfl⟩ := rest
    exact ⟨⟨month, years, first, ⟨mday, day⟩, days, ⟨hour, hours⟩, ⟨min, mins⟩, sec⟩, rfl⟩
  · rintro ⟨sums, rfl⟩
    refine ⟨_, ⟨sums.month, rfl⟩, ?_⟩
    dsimp only
    simp only [days, Option.bind_eq_some_iff, fit_eq_some]
    exact ⟨_, ⟨_, ⟨sums.years, rfl⟩, sums.first, rfl⟩, _, ⟨sums.mday.1, rfl⟩, _, ⟨sums.mday.2, rfl⟩,
      _, ⟨sums.days, rfl⟩, _, ⟨sums.hour.1, rfl⟩, _, ⟨sums.hour.2, rfl⟩, _, ⟨sums.min.1, rfl⟩, _,
      ⟨sums.min.2, rfl⟩, sums.sec, rfl⟩

/-- The time that the structure stands for: the caller says whether daylight time is in
effect, or with a negative `tm_isdst` leaves it to `localtime`. -/
def Tm.time (systime : Timeb) (tp : Tm) : Int :=
  let t := tp.seconds + systime.timezone * 60
  if tp.isdst > 0 ∨ tp.isdst < 0 ∧ inDaylight systime tp.seconds = true then t - 3600 else t

/-- All that `mktime` forms fits. -/
structure Tm.Fit (systime : Timeb) (tp : Tm) : Prop extends tp.Sums where
  zone : Fits (tp.seconds + systime.timezone * 60)
  asked : tp.isdst < 0 → Shows systime (tp.seconds + systime.timezone * 60)
  time : Fits (tp.time systime)
  shows : Shows systime (tp.time systime)

theorem isdst_shown (systime : Timeb) (t : Int) :
    (shown systime t).isdst > 0 ↔ inDaylight systime (t - systime.timezone * 60) = true := by
  obtain ⟨-, spec⟩ := shown_spec systime t
  split at spec
  next summer => simp [spec.1, summer]
  next winter => simp [spec.1, winter]

theorem fit_ite {P : Prop} [Decidable P] {t t' : Int} (fits : Fits t) :
    (if P then fit (t - 3600) else some t) = some t' ↔
      Fits (if P then t - 3600 else t) ∧ t' = if P then t - 3600 else t := by
  split
  next => rw [fit_eq_some, eq_comm (a := t')]
  next => rw [Option.some.injEq, and_iff_right fits, eq_comm]

theorem takeHour_eq_some {tp : Tm} {t : Int} (zone : Fits (tp.seconds + systime.timezone * 60)) :
    takeHour systime tp.isdst (tp.seconds + systime.timezone * 60) = some t ↔
      (tp.isdst < 0 → Shows systime (tp.seconds + systime.timezone * 60)) ∧
        Fits (tp.time systime) ∧ t = tp.time systime := by
  by_cases asked : tp.isdst < 0
  · have summer : (tp.isdst > 0 ∨ tp.isdst < 0 ∧ inDaylight systime tp.seconds = true) ↔
        (shown systime (tp.seconds + systime.timezone * 60)).isdst > 0 := by
      have other : ¬ tp.isdst > 0 := by omega
      rw [isdst_shown, Int.add_sub_cancel, or_iff_right other, and_iff_right asked]
    simp only [takeHour, Tm.time, summer, if_pos asked, Option.bind_eq_bind,
      Option.bind_eq_some_iff, localtime_eq_some]
    constructor
    · rintro ⟨_, ⟨shows, rfl⟩, rest⟩
      exact ⟨fun _ => shows, (fit_ite zone).mp rest⟩
    · rintro ⟨shows, rest⟩
      exact ⟨_, ⟨shows asked, rfl⟩, (fit_ite zone).mpr rest⟩
  · simp only [takeHour, Tm.time, asked, if_false, false_and, or_false, false_imp_iff, true_and]
    exact fit_ite zone

theorem mktime_eq_some {tp : Tm} {r : Int × Tm} : mktime systime tp = some r ↔
    tp.Fit systime ∧ r = (tp.time systime, shown systime (tp.time systime)) := by
  unfold mktime
  simp only [Option.bind_eq_bind, Option.bind_eq_some_iff, addUp_eq_some, fit_eq_some,
    localtime_eq_some]
  constructor
  · rintro ⟨_, ⟨sums, rfl⟩, _, ⟨-, rfl⟩, _, ⟨zone, rfl⟩, t, hour, _, ⟨shows, rfl⟩, same⟩
    obtain ⟨asked, time, rfl⟩ := (takeHour_eq_some zone).mp hour
    exact ⟨⟨sums, zone, asked, time, shows⟩, (Option.some.inj same).symm⟩
  · rintro ⟨fit, rfl⟩
    exact ⟨_, ⟨fit.toSums, rfl⟩, _, ⟨fit.shows.zone, rfl⟩, _, ⟨fit.zone, rfl⟩, _,
      (takeHour_eq_some fit.zone).mpr ⟨fit.asked, fit.time, rfl⟩, _, ⟨fit.shows, rfl⟩, rfl⟩

theorem time_shown (systime : Timeb) (t : Int) : (shown systime t).time systime = t := by
  obtain ⟨-, spec⟩ := shown_spec systime t
  unfold Tm.time
  split at spec
  all_goals
    simp [spec.1, spec.2]
  omega

/-- The first day of which an `int` holds the midnight. -/
abbrev FIRSTDAY : Int := -12725829

theorem sums_of_valid {tm : Tm} (valid : tm.Valid) (low : FIRSTDAY * 86400 ≤ tm.seconds)
    (high : tm.seconds < 2 ^ 40) : tm.Sums := by
  obtain ⟨sec, min, hour, mon, mday, yday⟩ := valid
  have carry : tm.mon / 12 = 0 ∧ tm.mon.tdiv 12 = 0 := by
    rw [Int.tdiv_eq_ediv_of_nonneg mon.1]
    omega
  have month : daysIn (1900 + tm.year) tm.mon.toNat ≤ 31 := by grind [daysIn]
  have seconds : tm.seconds = tm.day * 86400 + tm.hour * 3600 + tm.min * 60 + tm.sec := rfl
  have first : tm.day = firstOf tm.year tm.mon + (tm.mday - 1) := rfl
  have days : FIRSTDAY ≤ tm.day ∧ tm.day < 12725831 := by
    simp only [FIRSTDAY] at low ⊢
    omega
  have year : yearStart (1900 + tm.year) = 365 * (1900 + tm.year - 1970) +
    (1900 + tm.year - 1) / 4 - (1900 + tm.year - 1) / 100 + (1900 + tm.year - 1) / 400 - 477 := rfl
  simp only [FIRSTDAY] at low days
  constructor
  case month => omega
  case years =>
    rw [carry.1, Int.add_zero]
    omega
  all_goals omega

/-- `mktime` undoes `localtime`, if it is not for the first and the last hours of the range; and
whatever it is given, if what it forms on the way fits it returns the time that the members add up
to and leaves the structure that `localtime` gives for it, with all members in their ranges. -/
theorem mktime_localtime (systime : Timeb) :
    (∀ t tm, Fits t → localtime systime t = some tm → FIRSTDAY * 86400 ≤ tm.seconds →
      (tm.isdst > 0 → t + 3600 < 2 ^ 40) → mktime systime tm = some (t, tm)) ∧
    ∀ tp : Tm, (tp.Fit systime ↔ ∃ r, mktime systime tp = some r) ∧ (tp.Fit systime →
      ∃ tm, mktime systime tp = some (tp.time systime, tm) ∧
        localtime systime (tp.time systime) = some tm ∧ tm.Valid) := by
  refine ⟨?_, fun tp => ⟨⟨?_, ?_⟩, ?_⟩⟩
  · intro t tm fits told low late
    obtain ⟨shows, rfl⟩ := localtime_eq_some.mp told
    have back := time_shown systime t
    obtain ⟨valid, spec⟩ := shown_spec systime t
    have sums : (shown systime t).Sums ∧ Fits ((shown systime t).seconds + systime.timezone * 60) ∧
        ¬ (shown systime t).isdst < 0 := by
      obtain ⟨zone, standard, summer⟩ := shows
      split at spec
      next yes =>
        have hour := summer yes
        refine ⟨sums_of_valid valid low (by omega), ?_, by omega⟩
        have after := late (by omega)
        omega
      next => exact ⟨sums_of_valid valid low (by omega), by omega, by omega⟩
    refine mktime_eq_some.mpr ⟨⟨sums.1, sums.2.1, fun asked => absurd asked sums.2.2, ?_, ?_⟩, ?_⟩
    · rwa [back]
    · rwa [back]
    · rw [back]
  · intro fit
    exact ⟨_, mktime_eq_some.mpr ⟨fit, rfl⟩⟩
  · rintro ⟨r, ends⟩
    exact (mktime_eq_some.mp ends).1
  · intro fit
    exact ⟨_, mktime_eq_some.mpr ⟨fit, rfl⟩, localtime_eq_some.mpr ⟨fit.shows, rfl⟩,
      (shown_spec systime _).1⟩

/-- Where daylight time is not kept, only the shift by the zone has to fit. -/
theorem shows_of_not_kept (zone t : Int) (west : Fits (zone * 60)) (fits : Fits (t - zone * 60)) :
    Shows ⟨zone, false⟩ t ∧ shown ⟨zone, false⟩ t = gmtime (t - zone * 60) := by
  have never : ¬ inDaylight ⟨zone, false⟩ (t - zone * 60) = true := by simp [inDaylight]
  refine ⟨⟨west, fits, fun yes => absurd yes never⟩, ?_⟩
  simp only [shown, if_neg never]

/-- In Moscow: the 0th of the 13th month of 1969 at 25:00:-1, and the epoch there and back. -/
theorem mktime_localtime_moscow :
    (∃ tm, mktime ⟨-180, false⟩ ⟨-1, 0, 25, 0, 12, 69, 0, 0, 0⟩ = some (-7201, tm) ∧ tm.Valid) ∧
      ∃ tm, localtime ⟨-180, false⟩ 0 = some tm ∧ mktime ⟨-180, false⟩ tm = some (0, tm) := by
  obtain ⟨inverts, normalizes⟩ := mktime_localtime ⟨-180, false⟩
  constructor
  · have time : Tm.time ⟨-180, false⟩ ⟨-1, 0, 25, 0, 12, 69, 0, 0, 0⟩ = -7201 := by decide
    have shows := (shows_of_not_kept (-180) (-7201) (by decide) (by decide)).1
    obtain ⟨tm, made, -, valid⟩ := (normalizes ⟨-1, 0, 25, 0, 12, 69, 0, 0, 0⟩).2
      ⟨⟨by decide, by decide, by decide, by decide, by decide, by decide, by decide, by decide⟩,
        by decide, fun asked => absurd asked (by decide), by decide, by rwa [time]⟩
    rw [time] at made
    exact ⟨tm, made, valid⟩
  · obtain ⟨shows, same⟩ := shows_of_not_kept (-180) 0 (by decide) (by decide)
    have told : localtime ⟨-180, false⟩ 0 = some (gmtime (0 - -180 * 60)) :=
      localtime_eq_some.mpr ⟨shows, same.symm⟩
    obtain ⟨-, -, seconds, standard, -⟩ := gmtime_spec (0 - -180 * 60)
    refine ⟨_, told, inverts 0 _ (by decide) told ?_ ?_⟩
    · rw [seconds]
      decide
    · rw [standard]
      decide

/-- A time in range whose sum is out of it on the way (12000000 days and 100000000 hours, and then
1000000000000 seconds back); and the first second of the range, whose midnight is out of it. -/
theorem mktime_overflows :
    (Tm.seconds ⟨-1000000000000, 0, 100000000, 12000001, 0, 70, 0, 0, 0⟩ = 396800000000 ∧
      mktime ⟨0, false⟩ ⟨-1000000000000, 0, 100000000, 12000001, 0, 70, 0, 0, 0⟩ = none) ∧
    ∃ tm, localtime ⟨0, false⟩ (-2 ^ 40) = some tm ∧ mktime ⟨0, false⟩ tm = none := by
  obtain ⟨shows, same⟩ := shows_of_not_kept 0 (-2 ^ 40) (by decide) (by decide)
  refine ⟨⟨by decide, rfl⟩, _, localtime_eq_some.mpr ⟨shows, same.symm⟩, ?_⟩
  rw [Option.eq_none_iff_forall_ne_some]
  intro r made
  have days := (mktime_eq_some.mp made).1.days
  rw [(gmtime_spec _).2.1] at days
  exact absurd days (by decide)

end V7Besm.Time

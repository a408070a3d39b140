/-
The proleptic Gregorian calendar from 1970 on. A date and time is reached from the epoch second by second; how many it
takes is `seconds` (`tick_iterate_seconds`), and that number grows with the date (`seconds_lt`).
-/

import Mathlib.Algebra.Ring.Nat
import Mathlib.Data.Nat.Init
import Mathlib.Logic.Function.Iterate
import Mathlib.Order.Basic
import Mathlib.Tactic.SplitIfs

namespace NullG.Lib.Calendar

/-- The day that a leap year has more: every fourth year, but of the hundreds only every fourth. -/
def leapDay (y : ℕ) : ℕ := if 4 ∣ y ∧ (100 ∣ y → 400 ∣ y) then 1 else 0

/-- The length of a month. -/
def daysIn (y m : ℕ) : ℕ :=
  if m = 2 then 28 + leapDay y else if m = 4 ∨ m = 6 ∨ m = 9 ∨ m = 11 then 30 else 31

/-- A civil date and time. -/
structure Civil where
  year : ℕ
  month : ℕ
  day : ℕ
  hour : ℕ
  minute : ℕ
  second : ℕ
  deriving DecidableEq, Repr

/-- The date is one of the calendar, and not before the epoch. -/
structure Civil.Valid (t : Civil) : Prop where
  year : 1970 ≤ t.year
  month : 1 ≤ t.month ∧ t.month ≤ 12
  day : 1 ≤ t.day ∧ t.day ≤ daysIn t.year t.month
  hour : t.hour < 24
  minute : t.minute < 60
  second : t.second < 60

/-- One date is earlier than another. -/
def Civil.Before (s t : Civil) : Prop :=
  s.year < t.year ∨ s.year = t.year ∧
    (s.month < t.month ∨ s.month = t.month ∧
      (s.day < t.day ∨ s.day = t.day ∧
        (s.hour < t.hour ∨ s.hour = t.hour ∧
          (s.minute < t.minute ∨ s.minute = t.minute ∧ s.second < t.second))))

/-- The start of the count. -/
def epoch : Civil := ⟨1970, 1, 1, 0, 0, 0⟩

/-- The next second. -/
def Civil.tick (t : Civil) : Civil :=
  if t.second < 59 then { t with second := t.second + 1 }
  else if t.minute < 59 then { t with minute := t.minute + 1, second := 0 }
  else if t.hour < 23 then { t with hour := t.hour + 1, minute := 0, second := 0 }
  else if t.day < daysIn t.year t.month then { t with day := t.day + 1, hour := 0, minute := 0, second := 0 }
  else if t.month < 12 then { t with month := t.month + 1, day := 1, hour := 0, minute := 0, second := 0 }
  else ⟨t.year + 1, 1, 1, 0, 0, 0⟩

/-! ### The days before a date -/

/-- The days of the first years after the epoch. -/
def yearDays : ℕ → ℕ
  | 0 => 0
  | n + 1 => yearDays n + (365 + leapDay (1970 + n))

/-- The days of the first months of a year. -/
def monthDays (y : ℕ) : ℕ → ℕ
  | 0 => 0
  | m + 1 => monthDays y m + daysIn y (m + 1)

/-- The days from the epoch to a date. -/
def Civil.days (t : Civil) : ℕ := yearDays (t.year - 1970) + monthDays t.year (t.month - 1) + (t.day - 1)

/-- The seconds from the epoch to a date and time. -/
def Civil.seconds (t : Civil) : ℕ := ((t.days * 24 + t.hour) * 60 + t.minute) * 60 + t.second

theorem leapDay_le (y : ℕ) : leapDay y ≤ 1 := by
  unfold leapDay
  split <;> omega

theorem yearDays_le (n : ℕ) : yearDays n ≤ 366 * n := by
  induction n with
  | zero => exact Nat.le_refl 0
  | succ n ih =>
      have hleap := leapDay_le (1970 + n)
      rw [yearDays]
      omega

theorem yearDays_lt {a b : ℕ} (h : a < b) : yearDays a + (365 + leapDay (1970 + a)) ≤ yearDays b := by
  induction b, h using Nat.le_induction with
  | base => exact Nat.le_refl _
  | succ b _ ih =>
      rw [yearDays]
      omega

theorem monthDays_lt {y a b : ℕ} (h : a < b) : monthDays y a + daysIn y (a + 1) ≤ monthDays y b := by
  induction b, h using Nat.le_induction with
  | base => exact Nat.le_refl _
  | succ b _ ih =>
      rw [monthDays]
      omega

/-- The months of a year are as long as the year. -/
theorem monthDays_year (y : ℕ) : monthDays y 12 = 365 + leapDay y := by
  simp only [monthDays, daysIn]
  simp
  omega

theorem monthDays_le {y m : ℕ} (h : m ≤ 12) : monthDays y m ≤ 365 + leapDay y := by
  rcases Nat.lt_or_eq_of_le h with hlt | rfl
  · have hyear := monthDays_year y
    have hmono := monthDays_lt (y := y) hlt
    omega
  · exact (monthDays_year y).le

namespace Civil

variable {s t : Civil}

theorem Valid.month_le (h : t.Valid) : monthDays t.year (t.month - 1) + t.day ≤ monthDays t.year t.month := by
  obtain ⟨m, hm⟩ := Nat.exists_eq_add_of_le' h.month.1
  have hday := h.day.2
  rw [hm] at hday ⊢
  rw [Nat.add_sub_cancel, monthDays]
  omega

theorem Valid.year_le (h : t.Valid) :
    monthDays t.year (t.month - 1) + t.day ≤ 365 + leapDay (1970 + (t.year - 1970)) := by
  have hyear := h.year
  rw [Nat.add_sub_cancel' hyear]
  exact h.month_le.trans (monthDays_le h.month.2)

/-- The next second is a valid one, and is counted as one more. -/
theorem Valid.tick (h : t.Valid) : t.tick.Valid ∧ t.tick.seconds = t.seconds + 1 := by
  obtain ⟨year, month, day, hour, minute, second⟩ := t
  obtain ⟨hyear, ⟨hmonth, hlast⟩, ⟨hday, hlen⟩, hhour, hminute, hsecond⟩ := h
  dsimp only at hyear hmonth hlast hday hlen hhour hminute hsecond
  have h24 : 0 < 24 := by decide
  have h60 : 0 < 60 := by decide
  unfold Civil.tick
  dsimp only
  split_ifs with hs hm hh hd hmo
  · exact ⟨⟨hyear, ⟨hmonth, hlast⟩, ⟨hday, hlen⟩, hhour, hminute, Nat.succ_lt_succ hs⟩, rfl⟩
  · refine ⟨⟨hyear, ⟨hmonth, hlast⟩, ⟨hday, hlen⟩, hhour, Nat.succ_lt_succ hm, h60⟩, ?_⟩
    simp only [seconds, days]
    omega
  · refine ⟨⟨hyear, ⟨hmonth, hlast⟩, ⟨hday, hlen⟩, Nat.succ_lt_succ hh, h60, h60⟩, ?_⟩
    simp only [seconds, days]
    omega
  · refine ⟨⟨hyear, ⟨hmonth, hlast⟩, ⟨Nat.le_add_left 1 day, hd⟩, h24, h60, h60⟩, ?_⟩
    simp only [seconds, days]
    omega
  · have hnext : 1 ≤ daysIn year (month + 1) := by
      unfold daysIn
      split_ifs <;> omega
    refine ⟨⟨hyear, ⟨Nat.le_add_left 1 month, hmo⟩, ⟨Nat.le_refl 1, hnext⟩, h24, h60, h60⟩, ?_⟩
    obtain ⟨m, rfl⟩ := Nat.exists_eq_add_of_le' hmonth
    have hmonths : monthDays year (m + 1) = monthDays year m + daysIn year (m + 1) := rfl
    simp only [seconds, days, Nat.add_sub_cancel]
    omega
  · have hnext : 1 ≤ daysIn (year + 1) 1 := by simp [daysIn]
    refine ⟨⟨Nat.le_succ_of_le hyear, ⟨Nat.le_refl 1, Nat.le_add_left 1 11⟩, ⟨Nat.le_refl 1, hnext⟩, h24, h60, h60⟩, ?_⟩
    -- After the last second of December the days of the months are those of the year.
    have hdec : month = 11 + 1 := by omega
    subst hdec
    obtain ⟨n, rfl⟩ := Nat.exists_eq_add_of_le hyear
    have hyears : yearDays (n + 1) = yearDays n + (365 + leapDay (1970 + n)) := rfl
    have hmonths : monthDays (1970 + n) 11 + daysIn (1970 + n) (11 + 1) = 365 + leapDay (1970 + n) :=
      monthDays_year (1970 + n)
    have hnew : 1970 + n + 1 - 1970 = n + 1 := by omega
    have hjanuary : monthDays (1970 + n + 1) 0 = 0 := rfl
    simp only [seconds, days, hnew, Nat.add_sub_cancel_left, Nat.add_sub_cancel, Nat.sub_self, hjanuary]
    omega

/-- A date with an earlier day has an earlier number of the day. -/
theorem days_lt (hs : s.Valid)
    (h : s.year < t.year ∨ s.year = t.year ∧ (s.month < t.month ∨ s.month = t.month ∧ s.day < t.day)) :
    s.days < t.days := by
  have hday := hs.day.1
  have hmonth := hs.month.1
  have hyear := hs.year
  unfold days
  rcases h with hlt | ⟨heq, hlt | ⟨hsame, hlt⟩⟩
  · have hmono := yearDays_lt (show s.year - 1970 < t.year - 1970 by omega)
    have hle := hs.year_le
    omega
  · have hmono := monthDays_lt (y := s.year) (show s.month - 1 < t.month - 1 by omega)
    have hle := hs.day.2
    rw [Nat.sub_add_cancel hmonth] at hmono
    rw [← heq]
    omega
  · rw [← heq, ← hsame]
    omega

/-- An earlier date has fewer seconds. -/
theorem seconds_lt (hs : s.Valid) (h : s.Before t) : s.seconds < t.seconds := by
  have hhour := hs.hour
  have hminute := hs.minute
  have hsecond := hs.second
  unfold seconds
  rcases h with hlt | ⟨hy, hlt | ⟨hm, hlt | ⟨hd, hlt⟩⟩⟩
  · have hdays := days_lt hs (.inl hlt)
    omega
  · have hdays := days_lt hs (.inr ⟨hy, .inl hlt⟩)
    omega
  · have hdays := days_lt hs (.inr ⟨hy, .inr ⟨hm, hlt⟩⟩)
    omega
  · have hdays : s.days = t.days := by
      unfold days
      rw [hy, hm, hd]
    omega

theorem before_or (s t : Civil) : s.Before t ∨ s = t ∨ t.Before s := by
  have heq : s = t ↔ s.year = t.year ∧ s.month = t.month ∧ s.day = t.day ∧ s.hour = t.hour ∧ s.minute = t.minute ∧
      s.second = t.second := by
    cases s
    cases t
    simp
  unfold Before
  rw [heq]
  omega

/-- A date is earlier exactly where it has fewer seconds. -/
theorem seconds_lt_iff (hs : s.Valid) (ht : t.Valid) : s.seconds < t.seconds ↔ s.Before t := by
  refine ⟨fun h => ?_, seconds_lt hs⟩
  rcases before_or s t with hlt | rfl | hgt
  · exact hlt
  · exact absurd h (Nat.lt_irrefl _)
  · exact absurd (seconds_lt ht hgt) (Nat.lt_asymm h)

theorem seconds_inj (hs : s.Valid) (ht : t.Valid) (h : s.seconds = t.seconds) : s = t := by
  rcases before_or s t with hlt | heq | hgt
  · exact absurd (seconds_lt hs hlt) (by omega)
  · exact heq
  · exact absurd (seconds_lt ht hgt) (by omega)

end Civil

theorem epoch_valid : epoch.Valid :=
  ⟨by decide, by decide, by decide, by decide, by decide, by decide⟩

/-- The date after so many seconds. -/
theorem tick_iterate (n : ℕ) : (Civil.tick^[n] epoch).Valid ∧ (Civil.tick^[n] epoch).seconds = n := by
  induction n with
  | zero => exact ⟨epoch_valid, rfl⟩
  | succ n ih =>
      obtain ⟨hvalid, hcount⟩ := ih
      rw [Function.iterate_succ_apply']
      obtain ⟨hnext, hmore⟩ := hvalid.tick
      exact ⟨hnext, by rw [hmore, hcount]⟩

/-- A valid date is reached from the epoch in as many seconds as are counted for it. -/
theorem tick_iterate_seconds {t : Civil} (h : t.Valid) : Civil.tick^[t.seconds] epoch = t := by
  obtain ⟨hvalid, hcount⟩ := tick_iterate t.seconds
  exact Civil.seconds_inj hvalid h hcount

end NullG.Lib.Calendar

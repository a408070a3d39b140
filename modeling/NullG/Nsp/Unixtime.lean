/-
`getunixtime` and `getunixfromstring`: a civil date as a number of seconds.

The leap years are found by comparing quotients of `float`s with those of `int`s, the sum is kept in an `int`, and a day
number that overflows is set to 0. A date is `Counted` where the number is that of the seconds from the epoch, is above
those of all earlier dates, and is read back from the printed date. This is so up to the last second that an `int` can
count (`counted_iff`).
-/

import NullG.Lib.Calendar
import NullG.Lib.Rounding
import NullG.Mail.Numbers

namespace NullG.Nsp

open NullG.Lib NullG.Lib.Calendar NullG.Mail

/-! ### The source -/

/-- What an `int` keeps of a number. -/
def int32 (n : Int) : Int := n.bmod (2 ^ 32)

/-- A `float`, of 24 significant bits. -/
def float32 (q : Rat) : Rat := Rounding.round 24 q

/-- `(i / b.0f) == (int)(i / b)`. -/
def floatDivides (b : Nat) (i : Int) : Bool := float32 (float32 i / b) == float32 (i.tdiv b)

/-- The day that is added where a year passes for a leap year. -/
def addLeap (i unixdate : Int) : Int :=
  if floatDivides 4 i then
    if floatDivides 400 i then int32 (unixdate + 1)
    else if !floatDivides 100 i then int32 (unixdate + 1)
    else unixdate
  else unixdate

/-- The lengths of the months. -/
def dim : List Int := [31, 28, 31, 30, 31, 30, 31, 31, 30, 31, 30, 31]

/-- A year of the first loop. -/
def addYear (unixdate : Int) (i : Int) : Int := addLeap i (int32 (unixdate + 365))

/-- A month of the second loop; behind the last one the array is left. -/
def addMonth (y unixdate : Int) (i : Nat) : Option Int := do
  let unixdate := int32 (unixdate + (← dim[i]?))
  if i ≠ 1 then some unixdate else some (addLeap y unixdate)

/-- `getunixtime`, or `none` where it reads behind `dim`. -/
def getunixtime (y m d hh mm ss : Int) : Option Int := do
  let m := int32 (m - 1)
  let d := int32 (d - 1)
  let unixdate := (List.range (y - 1970).toNat).foldl (fun unixdate (k : Nat) => addYear unixdate (1970 + (k : Int))) 0
  let unixdate ← (List.range m.toNat).foldlM (addMonth y) unixdate
  let unixdate := int32 (unixdate + d)
  let unixdate := int32 (unixdate * 86400)
  let unixdate := if unixdate < 0 then 0 else unixdate
  let unixdate := int32 (unixdate + int32 (hh * 3600))
  let unixdate := int32 (unixdate + int32 (mm * 60))
  some (int32 (unixdate + ss))

/-- `while ((*pdate) && (*pdate != c)) pdate++`, and then on to a digit. -/
def nextNumber (c : Byte) (pdate : List Byte) : List Byte :=
  (pdate.dropWhile (· != c)).dropWhile fun d => !ncIsdigit d

/-- `getunixfromstring`. -/
def getunixfromstring (datestr : List Byte) : Option Int :=
  let date := if 1970 ≤ atoi datestr then
      let month := nextNumber (ch '-') datestr
      let day := nextNumber (ch '-') month
      (atoi datestr, atoi month, atoi day, day.dropWhile (· != ch ' '))
    else (0, 0, 0, datestr)
  let pdate := date.2.2.2.dropWhile fun d => !ncIsdigit d
  let hour := if pdate.head? = some (ch '0') then pdate.drop 1 else pdate
  let minute := nextNumber (ch ':') hour
  let second := nextNumber (ch ':') minute
  getunixtime date.1 date.2.1 date.2.2.1 (atoi hour) (atoi minute) (atoi second)

/-! ### Dates that are counted -/

/-- `getunixtime` of a date. -/
def unixtime (t : Civil) : Option Int := getunixtime t.year t.month t.day t.hour t.minute t.second

/-- A date as `YYYY-MM-DD HH:MM:SS`. -/
def printed (t : Civil) : List Byte :=
  padded 4 t.year ++ ch '-' :: (padded 2 t.month ++ ch '-' :: (padded 2 t.day ++ ch ' ' ::
    (padded 2 t.hour ++ ch ':' :: (padded 2 t.minute ++ ch ':' :: padded 2 t.second))))

/-- The number of a date is that of the seconds from the epoch, is above those of the earlier dates, and is read back
from the printed date. -/
structure Counted (t : Civil) : Prop where
  exact : ∃ n : Nat, Civil.tick^[n] epoch = t ∧ unixtime t = some (n : Int)
  increasing : ∀ s : Civil, s.Valid → s.Before t → ∃ a b, unixtime s = some a ∧ unixtime t = some b ∧ a < b
  readBack : getunixfromstring (printed t) = unixtime t

/-- The first date that an `int` cannot count to. -/
def wrapDate : Civil := ⟨2038, 1, 19, 3, 14, 8⟩

/-! ### Leap years -/

theorem int32_eq {n : Int} (hlo : 0 ≤ n) (hhi : n < 2 ^ 31) : int32 n = n :=
  Int.bmod_eq_of_le (by omega) (by omega)

theorem int32_lt (n : Int) : int32 n < 2 ^ 31 := by
  have h := Int.bmod_lt (x := n) (m := 2 ^ 32) (by decide)
  exact h.trans_eq (by decide)

/-- A `float` finds the multiples among the years of 24 bits. -/
theorem floatDivides_iff {b n : Nat} (hb : 0 < b) (hn : n < 2 ^ 24) : floatDivides b n = true ↔ b ∣ n := by
  have hquot : float32 ((n : Int).tdiv b : Int) = (n / b : Nat) :=
    Rounding.round_natCast ((Nat.div_le_self n b).trans_lt hn)
  have hyear : float32 ((n : Int) : Rat) = (n : Rat) := Rounding.round_natCast hn
  rw [floatDivides, beq_iff_eq, hquot, hyear, float32, Rounding.round_div_eq_iff hn hb, Nat.dvd_iff_div_mul_eq, eq_comm]

/-- The day of a leap year is added. -/
theorem addLeap_eq {n u : Nat} (hn : n < 2 ^ 24) (hu : u + 1 < 2 ^ 31) : addLeap n u = (u + leapDay n : Nat) := by
  have hfour := floatDivides_iff (b := 4) (by decide) hn
  have hhundred := floatDivides_iff (b := 100) (by decide) hn
  have hcentury := floatDivides_iff (b := 400) (by decide) hn
  have hint : int32 (u + 1) = (u + 1 : Nat) := int32_eq (by omega) (by omega)
  have hdvd : 400 ∣ n → 100 ∣ n := fun h => (by decide : 100 ∣ 400).trans h
  unfold addLeap leapDay
  simp only [hfour, hcentury, Bool.not_eq_true', ← Bool.not_eq_true, hhundred, hint]
  split_ifs <;> first | rfl | omega

/-! ### The loops -/

/-- The loop over the years. -/
theorem addYear_run {n : Nat} (h : n < 2 ^ 20) :
    (List.range n).foldl (fun unixdate (k : Nat) => addYear unixdate (1970 + (k : Int))) 0 = (yearDays n : Int) := by
  induction n with
  | zero => rfl
  | succ n ih =>
      have hdays := yearDays_le n
      have hyear : int32 ((yearDays n : Int) + 365) = (yearDays n + 365 : Nat) := int32_eq (by omega) (by omega)
      have hcast : (1970 + (n : Int)) = (1970 + n : Nat) := by omega
      rw [List.range_succ, List.foldl_append, ih (by omega), List.foldl_cons, List.foldl_nil, addYear, hyear, hcast,
        addLeap_eq (by omega) (by omega), yearDays, Nat.add_assoc]

/-- The month after `i` months, in a common year. -/
theorem dim_get {i : Nat} (hi : i < 12) (y : Nat) :
    dim[i]? = some ((daysIn y (i + 1) - if i = 1 then leapDay y else 0 : Nat) : Int) := by
  have hall : ∀ i < 12, ∀ leap < 2, dim[i]? = some (((if i + 1 = 2 then 28 + leap else
      if i + 1 = 4 ∨ i + 1 = 6 ∨ i + 1 = 9 ∨ i + 1 = 11 then 30 else 31) - if i = 1 then leap else 0 : Nat) : Int) := by
    decide
  exact hall i hi (leapDay y) (Nat.lt_succ_of_le (leapDay_le y))

/-- A month of the loop. -/
theorem addMonth_eq {y m u : Nat} (hm : m < 12) (hy : y < 2 ^ 24) (hu : u + 31 < 2 ^ 31) :
    addMonth y u m = some ((u + daysIn y (m + 1) : Nat) : Int) := by
  rw [addMonth, dim_get hm y, Option.bind_eq_bind, Option.bind_some]
  by_cases hfeb : m = 1
  · subst hfeb
    have hlen : daysIn y (1 + 1) = 28 + leapDay y := rfl
    have hleap := leapDay_le y
    have hint : int32 ((u : Int) + ((daysIn y (1 + 1) - if 1 = 1 then leapDay y else 0 : Nat) : Int)) =
        (u + 28 : Nat) := by
      rw [if_pos rfl, hlen, Nat.add_sub_cancel]
      exact int32_eq (by omega) (by omega)
    rw [hint, if_neg (by decide), addLeap_eq hy (by omega), hlen, Nat.add_assoc]
  · have hlen : daysIn y (m + 1) ≤ 31 := by
      have hleap := leapDay_le y
      unfold daysIn
      split_ifs <;> omega
    rw [if_neg hfeb, if_pos hfeb, Nat.sub_zero]
    exact congrArg some (int32_eq (by omega) (by omega))

/-- The loop over the months. -/
theorem addMonth_run {y m u : Nat} (hm : m ≤ 12) (hy : y < 2 ^ 24) (hu : u + 397 < 2 ^ 31) :
    (List.range m).foldlM (addMonth y) (u : Int) = some ((u + monthDays y m : Nat) : Int) := by
  induction m with
  | zero => rfl
  | succ m ih =>
      have hle := monthDays_le (y := y) (Nat.le_of_succ_le hm)
      have hleap := leapDay_le y
      rw [List.range_succ, List.foldlM_append, ih (by omega), Option.bind_eq_bind, Option.bind_some, List.foldlM_cons,
        addMonth_eq hm hy (by omega), monthDays, Nat.add_assoc]
      rfl

/-- The seconds of a day number and a time of the day. -/
theorem seconds_sum {days hh mm ss : Nat} (h : ((days * 24 + hh) * 60 + mm) * 60 + ss < 2 ^ 31) :
    int32 (int32 (int32 ((if int32 ((days : Int) * 86400) < 0 then 0 else int32 ((days : Int) * 86400)) +
      int32 ((hh : Int) * 3600)) + int32 ((mm : Int) * 60)) + ss) = (((days * 24 + hh) * 60 + mm) * 60 + ss : Nat) := by
  have hproduct : int32 ((days : Int) * 86400) = days * 86400 := int32_eq (by omega) (by omega)
  have hhours : int32 ((hh : Int) * 3600) = hh * 3600 := int32_eq (by omega) (by omega)
  have hminutes : int32 ((mm : Int) * 60) = mm * 60 := int32_eq (by omega) (by omega)
  have hmorning : int32 ((days : Int) * 86400 + hh * 3600) = days * 86400 + hh * 3600 := int32_eq (by omega) (by omega)
  have hclock : int32 ((days : Int) * 86400 + hh * 3600 + mm * 60) = days * 86400 + hh * 3600 + mm * 60 :=
    int32_eq (by omega) (by omega)
  rw [hproduct, if_neg (by omega), hhours, hmorning, hminutes, hclock, int32_eq (by omega) (by omega)]
  omega

theorem year_le_yearDays (n : Nat) : n ≤ yearDays n := by
  induction n with
  | zero => exact Nat.le_refl 0
  | succ n ih =>
      rw [yearDays]
      omega

/-- A date that an `int` counts to is counted. -/
theorem unixtime_eq {t : Civil} (h : t.Valid) (hlt : t.seconds < 2 ^ 31) : unixtime t = some (t.seconds : Int) := by
  have hmonth := h.month
  have hyear := h.year
  have hday := h.day.1
  have hdays : t.days < 2 ^ 15 := by
    unfold Civil.seconds at hlt
    omega
  have hyeardays : yearDays (t.year - 1970) < 2 ^ 15 := by
    unfold Civil.days at hdays
    omega
  have hyears := year_le_yearDays (t.year - 1970)
  have hyearloop : ((t.year : Int) - 1970).toNat = t.year - 1970 := by omega
  have hmonthloop : (int32 ((t.month : Int) - 1)).toNat = t.month - 1 := by
    rw [int32_eq (by omega) (by omega)]
    omega
  have hdayint : int32 ((t.day : Int) - 1) = (t.day - 1 : Nat) := by
    have hle : t.day - 1 ≤ t.days := Nat.le_add_left _ _
    rw [int32_eq (by omega) (by omega)]
    omega
  have hdaysum : int32 (((yearDays (t.year - 1970) + monthDays t.year (t.month - 1) : Nat) : Int) + (t.day - 1 : Nat)) =
      (t.days : Int) := by
    rw [← Nat.cast_add]
    exact int32_eq (Int.natCast_nonneg _) (by unfold Civil.days at hdays; omega)
  unfold unixtime getunixtime
  dsimp only
  rw [hyearloop, hmonthloop, hdayint, addYear_run (by omega), addMonth_run (by omega) (by omega) (by omega),
    Option.bind_eq_bind, Option.bind_some, hdaysum]
  exact congrArg some (seconds_sum hlt)

/-- The result is an `int`. -/
theorem getunixtime_lt {y m d hh mm ss n : Int} (h : getunixtime y m d hh mm ss = some n) : n < 2 ^ 31 := by
  obtain ⟨unixdate, -, hsome⟩ := Option.bind_eq_some_iff.mp h
  rw [← Option.some.inj hsome]
  exact int32_lt _

/-! ### The printed date -/

/-- From one number of a printed date to the next. -/
theorem nextNumber_padded {c : Byte} (hc : ncIsdigit c = false) (width n width' n' : Nat) (rest : List Byte) :
    nextNumber c (padded width n ++ c :: (padded width' n' ++ rest)) = padded width' n' ++ rest := by
  obtain ⟨hdigits, -⟩ := padded_digits width n
  obtain ⟨hnext, d, p, hcons⟩ := padded_digits width' n'
  have hd : ncIsdigit d = true := hnext d (hcons ▸ List.mem_cons_self)
  have hskip : ∀ e ∈ padded width n, (e != c) = true := by
    intro e he
    rw [bne_iff_ne]
    rintro rfl
    rw [hdigits e he] at hc
    cases hc
  unfold nextNumber
  rw [List.dropWhile_append_of_pos hskip, List.dropWhile_cons_of_neg (by simp),
    List.dropWhile_cons_of_pos (by simp [hc]), hcons, List.cons_append, List.dropWhile_cons_of_neg (by simp [hd])]

/-- A zero in front of a number is skipped. -/
theorem skip_zero {digits short : List Byte} (hne : digits ≠ [])
    (h : digits.head? = some (ch '0') ∧ digits.drop 1 = short ∨ digits.head? ≠ some (ch '0') ∧ digits = short)
    (rest : List Byte) :
    (if (digits ++ rest).head? = some (ch '0') then (digits ++ rest).drop 1 else digits ++ rest) = short ++ rest := by
  have hdrop : (digits ++ rest).drop 1 = digits.drop 1 ++ rest :=
    List.drop_append_of_le_length (List.length_pos_of_ne_nil hne)
  rw [List.head?_append_of_ne_nil _ hne, hdrop]
  rcases h with ⟨hzero, hshort⟩ | ⟨hnone, hsame⟩
  · rw [if_pos hzero, hshort]
  · rw [if_neg hnone, hsame]

/-- The zero before an hour is skipped. -/
theorem padded_hour : ∀ hh < 24, ((padded 2 hh).head? = some (ch '0') ∧ (padded 2 hh).drop 1 = padded 1 hh) ∨
    ((padded 2 hh).head? ≠ some (ch '0') ∧ padded 2 hh = padded 1 hh) := by
  decide

theorem skip_hour {hh : Nat} (h : hh < 24) (rest : List Byte) :
    (if (padded 2 hh ++ rest).head? = some (ch '0') then (padded 2 hh ++ rest).drop 1 else padded 2 hh ++ rest) =
      padded 1 hh ++ rest := by
  obtain ⟨-, c, p, hcons⟩ := padded_digits 2 hh
  have hne : padded 2 hh ≠ [] := hcons ▸ List.cons_ne_nil c p
  exact skip_zero hne (padded_hour hh h) rest

/-- The numbers of a printed date are those of the date. -/
theorem getunixfromstring_printed {t : Civil} (h : t.Valid) (hlt : t.year < 2 ^ 31) :
    getunixfromstring (printed t) = unixtime t := by
  have hmonth := h.month.2
  have hlen := h.day.2
  have hday : t.day < 32 := by
    have hleap := leapDay_le t.year
    unfold daysIn at hlen
    split_ifs at hlen <;> omega
  have hhour := h.hour
  have hminute := h.minute
  have hsecond := h.second
  have hyear := h.year
  -- What follows a number is none of its digits.
  have hends : ∀ (c : Byte) (rest : List Byte), ncIsdigit c = false → ∀ d ∈ (c :: rest).head?, ncIsdigit d = false := by
    intro c rest hc d hd
    rw [← Option.some.inj hd]
    exact hc
  have hdash : ncIsdigit (ch '-') = false := by decide
  have hblank : ncIsdigit (ch ' ') = false := by decide
  have hcolon : ncIsdigit (ch ':') = false := by decide
  have htoMonth := nextNumber_padded hdash 4 t.year 2 t.month (ch '-' :: (padded 2 t.day ++ ch ' ' ::
    (padded 2 t.hour ++ ch ':' :: (padded 2 t.minute ++ ch ':' :: padded 2 t.second))))
  have htoDay := nextNumber_padded hdash 2 t.month 2 t.day (ch ' ' ::
    (padded 2 t.hour ++ ch ':' :: (padded 2 t.minute ++ ch ':' :: padded 2 t.second)))
  have htoHour := nextNumber_padded hblank 2 t.day 2 t.hour
    (ch ':' :: (padded 2 t.minute ++ ch ':' :: padded 2 t.second))
  have htoMinute := nextNumber_padded hcolon 1 t.hour 2 t.minute (ch ':' :: padded 2 t.second)
  have htoSecond := nextNumber_padded hcolon 2 t.minute 2 t.second []
  have hlast : atoi (padded 2 t.second ++ []) = t.second :=
    atoi_padded (by omega) fun c hc => absurd hc (Option.not_mem_none c)
  rw [List.append_nil] at htoSecond hlast
  unfold getunixfromstring printed
  rw [atoi_padded hlt (hends _ _ hdash), if_pos (by omega)]
  dsimp only
  unfold nextNumber at htoHour
  rw [htoMonth, htoDay, htoHour, skip_hour hhour, htoMinute, htoSecond, hlast, atoi_padded (by omega) (hends _ _ hdash),
    atoi_padded (by omega) (hends _ _ hblank), atoi_padded (by omega) (hends _ _ hcolon),
    atoi_padded (by omega) (hends _ _ hcolon)]
  rfl

/-! ### Counted dates -/

theorem wrapDate_valid : wrapDate.Valid :=
  ⟨by decide, by decide, by decide, by decide, by decide, by decide⟩

theorem wrapDate_seconds : wrapDate.seconds = 2 ^ 31 := by
  decide

/-- The calendar is right up to the last second that an `int` holds, and at no later one. -/
theorem counted_iff (t : Civil) (h : t.Valid) : Counted t ↔ t.Before wrapDate := by
  rw [← Civil.seconds_lt_iff h wrapDate_valid, wrapDate_seconds]
  constructor
  · intro hcounted
    obtain ⟨n, hreached, hvalue⟩ := hcounted.exact
    have hn : t.seconds = n := by
      rw [← hreached]
      exact (tick_iterate n).2
    have hint := getunixtime_lt hvalue
    omega
  · intro hlt
    have hvalue := unixtime_eq h hlt
    refine ⟨⟨t.seconds, tick_iterate_seconds h, hvalue⟩, ?_, ?_⟩
    · intro s hs hbefore
      have hless := Civil.seconds_lt hs hbefore
      exact ⟨s.seconds, t.seconds, unixtime_eq hs (hless.trans hlt), hvalue, Int.ofNat_lt.mpr hless⟩
    · have hyear : t.year < 2 ^ 31 := by
        have hle := year_le_yearDays (t.year - 1970)
        unfold Civil.seconds Civil.days at hlt
        omega
      exact getunixfromstring_printed h hyear

theorem counted_leapDay : Counted ⟨2000, 2, 29, 23, 59, 59⟩ :=
  (counted_iff ⟨2000, 2, 29, 23, 59, 59⟩ ⟨by decide, by decide, by decide, by decide, by decide, by decide⟩).mpr
    (.inl (by decide))

/-- The second after the last one is given a negative number. -/
theorem not_counted_wrapDate : wrapDate.Valid ∧ unixtime wrapDate = some (-(2 ^ 31)) ∧ ¬ Counted wrapDate := by
  have hvalue : unixtime wrapDate = some (-(2 ^ 31)) := by
    have hyears : ((2038 : Int) - 1970).toNat = 68 := by decide
    have hmonths : (int32 ((1 : Int) - 1)).toNat = 0 := by decide
    have hdays : yearDays 68 = 24837 := by decide
    unfold unixtime getunixtime wrapDate
    dsimp only
    rw [Nat.cast_ofNat, hyears, Nat.cast_one, hmonths, addYear_run (by decide), hdays]
    decide
  refine ⟨wrapDate_valid, hvalue, fun hcounted => ?_⟩
  obtain ⟨n, -, hn⟩ := hcounted.exact
  rw [hvalue] at hn
  have hneg := Option.some.inj hn
  omega

end NullG.Nsp

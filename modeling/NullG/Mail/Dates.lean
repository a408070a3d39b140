/-
The dates that are read by `time_sql2unix` (`format.c`) and by `time_wmgetdate` (`httpd_format.c` and `mime.c`).

Both count the days from 1970 on in a loop over the years and one over the months, and as the calendar does
(`countDays_run`). `time_sql2unix` reads what `time_unix2sql` writes, up to the last second that its `int` can count to
(`timeSql2unix_timeUnix2sql`). `time_wmgetdate` leaves out the minutes of a zone, and so it is right where there are
none (`wmgetdate_iff`).
-/

import NullG.Nsp.Unixtime

namespace NullG.Mail

open NullG.Nsp NullG.Lib NullG.Lib.Calendar

/-! ### The count of the days -/

/-- A number in so many bits and a sign; a sum that does not fit in there is not defined. -/
def held (bits : Nat) (n : Int) : Option Int := if -(2 ^ bits) ≤ n ∧ n < 2 ^ bits then some n else none

/-- `int`. -/
def inInt : Int → Option Int := held 31

/-- `time_t`. -/
def inTime : Int → Option Int := held 63

section

variable (bits : Nat)

/-- The day that is added where a year passes for a leap year. -/
def countLeap (i unixdate : Int) : Option Int :=
  if floatDivides 4 i then
    if floatDivides 400 i then held bits (unixdate + 1)
    else if !floatDivides 100 i then held bits (unixdate + 1)
    else some unixdate
  else some unixdate

/-- A year of the first loop. -/
def countYear (unixdate i : Int) : Option Int := do countLeap bits i (← held bits (unixdate + 365))

/-- A month of the second loop; behind the last one the array is left. -/
def countMonth (year unixdate : Int) (i : Nat) : Option Int := do
  let unixdate ← held bits (unixdate + (← dim[i]?))
  if i ≠ 1 then some unixdate else countLeap bits year unixdate

/-- The loop over the years and the one over the months. -/
def countDays (year month unixdate : Int) : Option Int := do
  let years := List.range (year - 1970).toNat
  let unixdate ← years.foldlM (fun unixdate (k : Nat) => countYear bits unixdate (1970 + (k : Int))) unixdate
  (List.range month.toNat).foldlM (countMonth bits year) unixdate

end

section

variable {bits : Nat} {u : Int}

theorem held_eq {n : Int} (hlo : -(2 ^ bits) ≤ n) (hhi : n < 2 ^ bits) : held bits n = some n := if_pos ⟨hlo, hhi⟩

theorem countLeap_eq {n : Nat} (hn : n < 2 ^ 24) (hlo : -(2 ^ bits) ≤ u) (hhi : u + 1 < 2 ^ bits) :
    countLeap bits n u = some (u + leapDay n) := by
  have hfour := floatDivides_iff (b := 4) (by decide) hn
  have hhundred := floatDivides_iff (b := 100) (by decide) hn
  have hcentury := floatDivides_iff (b := 400) (by decide) hn
  have hmore : held bits (u + 1) = some (u + 1) := held_eq (by omega) hhi
  have hdvd : 400 ∣ n → 100 ∣ n := fun h => (by decide : 100 ∣ 400).trans h
  unfold countLeap leapDay
  simp only [hfour, hcentury, Bool.not_eq_true', ← Bool.not_eq_true, hhundred, hmore]
  split_ifs <;> first | rfl | exact congrArg some (Int.add_zero u).symm | omega

/-- The loop over the years. -/
theorem countYear_run {n : Nat} (h : n < 2 ^ 20) (hlo : -(2 ^ bits) ≤ u) (hhi : u + yearDays n + 1 < 2 ^ bits) :
    (List.range n).foldlM (fun unixdate (k : Nat) => countYear bits unixdate (1970 + (k : Int))) u =
      some (u + yearDays n) := by
  induction n with
  | zero => simp [yearDays]
  | succ n ih =>
      rw [yearDays] at hhi ⊢
      have hleap := leapDay_le (1970 + n)
      have hyear : held bits (u + yearDays n + 365) = some (u + yearDays n + 365) := held_eq (by omega) (by omega)
      have hcast : (1970 + (n : Int)) = (1970 + n : Nat) := by omega
      rw [List.range_succ, List.foldlM_append, ih (by omega) (by omega), Option.bind_eq_bind, Option.bind_some,
        List.foldlM_cons, countYear, hyear, hcast, Option.bind_eq_bind, Option.bind_some,
        countLeap_eq (by omega) (by omega) (by omega)]
      exact congrArg some (by omega)

/-- A month of the loop. -/
theorem countMonth_eq {y m : Nat} (hm : m < 12) (hy : y < 2 ^ 24) (hlo : -(2 ^ bits) ≤ u) (hhi : u + 31 < 2 ^ bits) :
    countMonth bits y u m = some (u + daysIn y (m + 1)) := by
  rw [countMonth, dim_get hm y, Option.bind_eq_bind, Option.bind_some]
  by_cases hfeb : m = 1
  · subst hfeb
    have hlen : daysIn y (1 + 1) = 28 + leapDay y := rfl
    have hleap := leapDay_le y
    rw [if_pos rfl, hlen, Nat.add_sub_cancel, held_eq (by omega) (by omega), Option.bind_some,
      if_neg (by decide), countLeap_eq hy (by omega) (by omega)]
    exact congrArg some (by omega)
  · have hlen : daysIn y (m + 1) ≤ 31 := by
      have hleap := leapDay_le y
      unfold daysIn
      split_ifs <;> omega
    rw [if_neg hfeb, Nat.sub_zero, held_eq (by omega) (by omega), Option.bind_some, if_pos hfeb]

/-- The loop over the months. -/
theorem countMonth_run {y m : Nat} (hm : m ≤ 12) (hy : y < 2 ^ 24) (hlo : -(2 ^ bits) ≤ u) (hhi : u + 397 < 2 ^ bits) :
    (List.range m).foldlM (countMonth bits y) u = some (u + monthDays y m) := by
  induction m with
  | zero => simp [monthDays]
  | succ m ih =>
      have hle := monthDays_le (y := y) (Nat.le_of_succ_le hm)
      have hleap := leapDay_le y
      rw [List.range_succ, List.foldlM_append, ih (by omega), Option.bind_eq_bind, Option.bind_some, List.foldlM_cons,
        countMonth_eq hm hy (by omega) (by omega), monthDays, Option.bind_eq_bind, Option.bind_some]
      exact congrArg some (by omega)

/-- The loops count as the calendar does. -/
theorem countDays_run (bits : Nat) {y m : Nat} (hyear : 1970 ≤ y) (hy : y < 2 ^ 20) (hm : m ≤ 12)
    (hlo : -(2 ^ bits) ≤ u)
    (hhi : u + yearDays (y - 1970) + 397 < 2 ^ bits) :
    countDays bits y m u = some (u + yearDays (y - 1970) + monthDays y m) := by
  have hloop : ((y : Int) - 1970).toNat = y - 1970 := by omega
  rw [countDays, hloop, countYear_run (by omega) hlo (by omega), Option.bind_eq_bind, Option.bind_some,
    Int.toNat_natCast, countMonth_run hm (by omega) (by omega) hhi]

end

/-! ### SQL timestamps -/

/-- `time_sql2unix`, or `none` where its `int` overflows. -/
def timeSql2unix (sqldate : List Byte) : Option Int := do
  let date ←
    if 1970 ≤ atoi sqldate then do
      let year := atoi sqldate
      let pdate := nextNumber (ch '-') sqldate
      let month ← inInt (atoi pdate - 1)
      let pdate := nextNumber (ch '-') pdate
      let day ← inInt (atoi pdate - 1)
      let unixdate ← countDays 31 year month 0
      let unixdate ← inInt (unixdate + day)
      let unixdate ← inInt (unixdate * 86400)
      some (unixdate, pdate.dropWhile (· != ch ' '))
    else some (0, sqldate)
  let unixdate := if date.1 < 0 then 0 else date.1
  let pdate := date.2.dropWhile fun d => !ncIsdigit d
  let pdate := if pdate.head? = some (ch '0') then pdate.drop 1 else pdate
  let unixdate ← inInt (unixdate + (← inInt (atoi pdate * 3600)))
  let pdate := nextNumber (ch ':') pdate
  let unixdate ← inInt (unixdate + (← inInt (atoi pdate * 60)))
  let pdate := nextNumber (ch ':') pdate
  inInt (unixdate + atoi pdate)

/-- `gmtime`: the date and time that many seconds after the epoch. -/
def gmtime (unixdate : Nat) : Civil := Civil.tick^[unixdate] epoch

/-- `strftime` of a text into `max` bytes, or `none` where it does not say what they are. -/
def strftime (max : Nat) (text : List Byte) : Option (List Byte) := if text.length < max then some text else none

/-- `time_unix2sql`. -/
def timeUnix2sql (outlen unixdate : Nat) : Option (List Byte) := strftime (outlen - 1) (printed (gmtime unixdate))

section

variable {t : Civil}

/-- A number of so many digits at the most takes up the width that it is padded to. -/
theorem padded_length {width n : Nat} (hpos : 0 < width) (h : n < 10 ^ width) : (padded width n).length = width := by
  have hle : (natDigits n).length ≤ width := by
    unfold natDigits
    rw [List.length_map, Nat.length_toDigits_le_iff (by decide) hpos]
    exact h
  rw [padded, List.length_append, List.length_replicate]
  omega

theorem valid_day_lt (h : t.Valid) : t.day < 32 := by
  have hlen := h.day.2
  have hleap := leapDay_le t.year
  unfold daysIn at hlen
  split_ifs at hlen <;> omega

theorem printed_length (h : t.Valid) (hyear : t.year < 10000) : (printed t).length = 19 := by
  have hmonth := h.month.2
  have hday := valid_day_lt h
  have hhour := h.hour
  have hminute := h.minute
  have hsecond := h.second
  have htwo : ∀ n, n < 100 → (padded 2 n).length = 2 := fun n hn => padded_length (by decide) hn
  have hfour : (padded 4 t.year).length = 4 := padded_length (by decide) hyear
  simp only [printed, List.length_append, List.length_cons, hfour]
  rw [htwo _ (by omega), htwo _ (by omega), htwo _ (by omega), htwo _ (by omega), htwo _ (by omega)]

/-- What follows a number is none of its digits. -/
theorem head_not_digit {c : Byte} (hc : ncIsdigit c = false) (rest : List Byte) :
    ∀ d ∈ (c :: rest).head?, ncIsdigit d = false := by
  intro d hd
  rw [← Option.some.inj hd]
  exact hc

theorem inInt_eq {n : Int} (hlo : -(2 ^ 31) ≤ n) (hhi : n < 2 ^ 31) : inInt n = some n := held_eq hlo hhi

/-- The seconds of a day and a time of the day. -/
theorem clock_sum {days hour minute second : Nat} (h : ((days * 24 + hour) * 60 + minute) * 60 + second < 2 ^ 31) :
    ((inInt ((hour : Int) * 3600)).bind fun n =>
      (inInt ((if (days : Int) * 86400 < 0 then 0 else (days : Int) * 86400) + n)).bind fun unixdate =>
        (inInt ((minute : Int) * 60)).bind fun n => (inInt (unixdate + n)).bind fun unixdate =>
          inInt (unixdate + second)) = some ((((days * 24 + hour) * 60 + minute) * 60 + second : Nat) : Int) := by
  rw [if_neg (by omega), inInt_eq (by omega) (by omega), Option.bind_some, inInt_eq (by omega) (by omega),
    Option.bind_some, inInt_eq (by omega) (by omega), Option.bind_some, inInt_eq (by omega) (by omega),
    Option.bind_some, inInt_eq (by omega) (by omega)]
  exact congrArg some (by omega)

/-- The timestamp of a date that an `int` counts to is read as the number of its seconds. -/
theorem timeSql2unix_printed (h : t.Valid) (hlt : t.seconds < 2 ^ 31) :
    timeSql2unix (printed t) = some (t.seconds : Int) := by
  have hmonth := h.month
  have hyear := h.year
  have hdaypos := h.day.1
  have hday := valid_day_lt h
  have hhour := h.hour
  have hminute := h.minute
  have hsecond := h.second
  have hdays : t.days * 86400 < 2 ^ 31 := by
    unfold Civil.seconds at hlt
    omega
  have hyeardays : yearDays (t.year - 1970) < 2 ^ 15 := by
    unfold Civil.days at hdays
    omega
  have hyears := year_le_yearDays (t.year - 1970)
  have hdash : ncIsdigit (ch '-') = false := by decide
  have hblank : ncIsdigit (ch ' ') = false := by decide
  have hcolon : ncIsdigit (ch ':') = false := by decide
  -- from one number to the next
  have htoMonth := nextNumber_padded hdash 4 t.year 2 t.month (ch '-' :: (padded 2 t.day ++ ch ' ' ::
    (padded 2 t.hour ++ ch ':' :: (padded 2 t.minute ++ ch ':' :: padded 2 t.second))))
  have htoDay := nextNumber_padded hdash 2 t.month 2 t.day (ch ' ' ::
    (padded 2 t.hour ++ ch ':' :: (padded 2 t.minute ++ ch ':' :: padded 2 t.second)))
  have htoHour := nextNumber_padded hblank 2 t.day 2 t.hour
    (ch ':' :: (padded 2 t.minute ++ ch ':' :: padded 2 t.second))
  have htoMinute := nextNumber_padded hcolon 1 t.hour 2 t.minute (ch ':' :: padded 2 t.second)
  have htoSecond := nextNumber_padded hcolon 2 t.minute 2 t.second []
  have hlast : atoi (padded 2 t.second ++ []) = t.second :=
    atoi_padded (by omega) fun c hc => absurd hc (Option.not_mem_none c)
  rw [List.append_nil] at htoSecond hlast
  have hmonthint : inInt ((t.month : Int) - 1) = some ((t.month - 1 : Nat) : Int) := by
    rw [inInt_eq (by omega) (by omega)]
    exact congrArg some (by omega)
  have hdayint : inInt ((t.day : Int) - 1) = some ((t.day - 1 : Nat) : Int) := by
    rw [inInt_eq (by omega) (by omega)]
    exact congrArg some (by omega)
  have hcount := countDays_run 31 (u := 0) hyear (by omega) ((Nat.sub_le _ 1).trans hmonth.2) (by omega)
    (by omega)
  have hsum : 0 + (yearDays (t.year - 1970) : Int) + monthDays t.year (t.month - 1) + (t.day - 1 : Nat) =
      (t.days : Int) := by
    unfold Civil.days
    omega
  unfold nextNumber at htoHour
  unfold timeSql2unix printed
  rw [atoi_padded (by omega) (head_not_digit hdash _), if_pos (by omega)]
  dsimp only
  rw [htoMonth, htoDay, atoi_padded (by omega) (head_not_digit hdash _),
    atoi_padded (by omega) (head_not_digit hblank _), hmonthint, hdayint]
  simp only [Option.bind_eq_bind, Option.bind_some]
  rw [hcount, Option.bind_some, hsum, inInt_eq (by omega) (by omega), Option.bind_some, inInt_eq (by omega) (by omega)]
  simp only [Option.bind_some]
  rw [htoHour, skip_hour hhour, htoMinute, htoSecond, hlast, atoi_padded (by omega) (head_not_digit hcolon _),
    atoi_padded (by omega) (head_not_digit hcolon _)]
  exact clock_sum hlt

theorem yearDays_ge (n : Nat) : 365 * n ≤ yearDays n := by
  induction n with
  | zero => exact Nat.le_refl 0
  | succ n ih =>
      rw [yearDays]
      omega

theorem gmtime_year {n : Nat} (h : n < 2 ^ 31) : (gmtime n).year < 10000 := by
  have hcount := (tick_iterate n).2
  have hyears := yearDays_ge ((gmtime n).year - 1970)
  have hdays : (gmtime n).days * 86400 ≤ n := by
    unfold Civil.seconds at hcount
    unfold gmtime
    omega
  unfold Civil.days at hdays
  omega

/-- What `time_unix2sql` writes is read back, and the `int` does not overflow. -/
theorem timeSql2unix_timeUnix2sql (outlen : Nat) (hlen : 21 ≤ outlen) (t : Nat) (ht : t < 2 ^ 31) :
    ∃ outstring, timeUnix2sql outlen t = some outstring ∧ timeSql2unix outstring = some (t : Int) := by
  obtain ⟨hvalid, hcount⟩ := tick_iterate t
  have hlength := printed_length (t := gmtime t) hvalid (gmtime_year ht)
  refine ⟨printed (gmtime t), if_pos (by omega), ?_⟩
  have hread := timeSql2unix_printed (t := gmtime t) hvalid (by rw [gmtime, hcount]; exact ht)
  rwa [gmtime, hcount] at hread

theorem timeSql2unix_leapDay :
    ∃ outstring, timeUnix2sql 21 951868799 = some outstring ∧ timeSql2unix outstring = some 951868799 :=
  timeSql2unix_timeUnix2sql 21 (by decide) 951868799 (by decide)

end

/-! ### Mail dates -/

/-- The names of the months. -/
def months : List String := ["Jan", "Feb", "Mar", "Apr", "May", "Jun", "Jul", "Aug", "Sep", "Oct", "Nov", "Dec"]

/-- The month that the text starts with, the last of them in the loop, or -1. -/
def monthOf (p : List Byte) : Int :=
  (List.range 12).foldl (fun month i => if startsWith p (months.getD i "") then (i : Int) else month) (-1)

/-- `while (isdigit(*p)) p++`, and then on to a digit. -/
def nextField (p : List Byte) : List Byte := (p.dropWhile ncIsdigit).dropWhile fun c => !ncIsdigit c

/-- `time_wmgetdate`, or `none` where a sum overflows. -/
def timeWmgetdate (src : List Byte) : Option Int := do
  let p := src.dropWhile fun c => !ncIsdigit c
  if p = [] then return 0
  let p := if p.head? = some (ch '0') then p.drop 1 else p
  let day := atoi p
  let p := p.dropWhile fun c => !ncIsalpha c
  let month := monthOf p
  if month = -1 then return 0
  let p := p.dropWhile fun c => !ncIsdigit c
  let year := atoi p
  let unixdate ← countDays 63 year month (-1)
  let unixdate ← inTime (unixdate + day)
  if unixdate < 1 then return 0
  let unixdate ← inTime (unixdate * 86400)
  let p := nextField p
  let hours := atoi p
  let p := nextField p
  let minutes := atoi p
  let p := nextField p
  let seconds := atoi p
  let p := (p.dropWhile ncIsdigit).dropWhile fun c => !ncIsdigit c && c != ch '-'
  let tzoffset := atoi p
  let unixdate ← inTime (unixdate + (← inInt (hours * 3600)))
  let unixdate ← inTime (unixdate + (← inInt (minutes * 60)))
  let unixdate ← inTime (unixdate + seconds)
  inTime (unixdate - (← inInt (tzoffset.tdiv 100 * 3600)))

/-- The names of the days of the week. -/
def weekdays : List String := ["Sun", "Mon", "Tue", "Wed", "Thu", "Fri", "Sat"]

/-- A date as it stands in a mail: the day of the week may be left out and the zero before the day, and the zone is east
or west of Greenwich. -/
structure MailDate where
  weekday : Option (Fin 7)
  zero : Bool
  date : Civil
  west : Bool
  zoneHour : Nat
  zoneMinute : Nat

/-- The date is a civil one from 1970-01-02 on with a year of four digits, and the zone is one of `hhmm`. -/
structure MailDate.Valid (d : MailDate) : Prop where
  date : d.date.Valid
  second : 1 ≤ d.date.days
  year : d.date.year < 10000
  zoneHour : d.zoneHour < 100
  zoneMinute : d.zoneMinute < 60

/-- `Mon, ` or nothing. -/
def MailDate.weekdayText (d : MailDate) : List Byte :=
  match d.weekday with
  | some w => bytes (weekdays.getD w "") ++ bytes ", "
  | none => []

/-- The sign of a zone. -/
def MailDate.sign (d : MailDate) : Byte := if d.west then ch '-' else ch '+'

/-- The text of a date: `Mon, 02 Jan 2006 15:04:05 -0700`. -/
def MailDate.text (d : MailDate) : List Byte :=
  d.weekdayText ++ (padded (if d.zero then 2 else 1) d.date.day ++ ch ' ' ::
    (bytes (months.getD (d.date.month - 1) "") ++ ch ' ' :: (padded 4 d.date.year ++ ch ' ' ::
      (padded 2 d.date.hour ++ ch ':' :: (padded 2 d.date.minute ++ ch ':' :: (padded 2 d.date.second ++ ch ' ' ::
        (d.sign :: padded 4 (d.zoneHour * 100 + d.zoneMinute))))))))

/-- How far a zone is before Greenwich, in seconds. -/
def MailDate.offset (d : MailDate) : Int :=
  let n := d.zoneHour * 3600 + d.zoneMinute * 60
  if d.west then -n else n

/-- The second of the epoch that a date denotes. -/
def MailDate.utc (d : MailDate) : Int := d.date.seconds - d.offset

section

variable {d : MailDate}

/-- The number of hours of a zone, which is what is taken of it. -/
def MailDate.hours (d : MailDate) : Int := if d.west then -d.zoneHour else d.zoneHour

theorem nextField_padded {c : Byte} (hc : ncIsdigit c = false) (width n width' n' : Nat) (rest : List Byte) :
    nextField (padded width n ++ c :: (padded width' n' ++ rest)) = padded width' n' ++ rest := by
  obtain ⟨hdigits, -⟩ := padded_digits width n
  obtain ⟨hnext, e, p, hcons⟩ := padded_digits width' n'
  have he : ncIsdigit e = true := hnext e (hcons ▸ List.mem_cons_self)
  unfold nextField
  rw [List.dropWhile_append_of_pos hdigits, List.dropWhile_cons_of_neg (by simp [hc]),
    List.dropWhile_cons_of_pos (by simp [hc]), hcons, List.cons_append, List.dropWhile_cons_of_neg (by simp [he])]

theorem startsWith_append {str : String} {a : List Byte} (h : str.length ≤ a.length) (rest : List Byte) :
    startsWith (a ++ rest) str = startsWith a str := by
  rw [startsWith, startsWith, List.take_append_of_le_length h]

theorem monthOf_append {a : List Byte} (h : a.length = 3) (rest : List Byte) : monthOf (a ++ rest) = monthOf a := by
  have hlen : ∀ i < 12, (months.getD i "").length = 3 := by decide
  unfold monthOf
  refine List.foldl_ext _ _ _ fun month i hi => ?_
  rw [startsWith_append (by rw [h, hlen i (List.mem_range.mp hi)])]

/-- A month is found by its name. -/
theorem monthOf_month {m : Nat} (hm : m < 12) (rest : List Byte) :
    monthOf (bytes (months.getD m "") ++ rest) = m := by
  have hlen : ∀ i < 12, (bytes (months.getD i "")).length = 3 := by decide
  have hself : ∀ i < 12, monthOf (bytes (months.getD i "")) = i := by decide
  rw [monthOf_append (hlen m hm), hself m hm]

/-- The names are made of letters. -/
theorem months_alpha : ∀ m < 12, ∀ c ∈ bytes (months.getD m ""), ncIsalpha c = true ∧ ncIsdigit c = false := by
  have hall : ∀ m < 12, (bytes (months.getD m "")).all (fun c => ncIsalpha c && !ncIsdigit c) = true := by decide
  intro m hm c hc
  simpa using List.all_eq_true.mp (hall m hm) c hc

theorem weekdayText_not_digit (d : MailDate) : ∀ c ∈ d.weekdayText, (!ncIsdigit c) = true := by
  have hall : ∀ w : Fin 7, (bytes (weekdays.getD w "") ++ bytes ", ").all (fun c => !ncIsdigit c) = true := by decide
  unfold MailDate.weekdayText
  cases d.weekday with
  | none => exact fun c hc => absurd hc List.not_mem_nil
  | some w => exact List.all_eq_true.mp (hall w)

/-- The zero before a day is skipped. -/
theorem skip_day : ∀ day < 32, 1 ≤ day → ∀ zero, (padded (if zero = true then 2 else 1) day).head? = some (ch '0') ∧
    (padded (if zero = true then 2 else 1) day).drop 1 = padded 1 day ∨
      (padded (if zero = true then 2 else 1) day).head? ≠ some (ch '0') ∧
        padded (if zero = true then 2 else 1) day = padded 1 day := by
  decide

theorem digit_not_alpha {c : Byte} (h : ncIsdigit c = true) : ncIsalpha c = false := by
  have h9 : (ch '9').toNat = 57 := by decide
  have hA : (ch 'A').toNat = 65 := by decide
  have ha : (ch 'a').toNat = 97 := by decide
  simp only [ncIsdigit, ncIsalpha, Bool.and_eq_true, Bool.or_eq_false_iff, Bool.and_eq_false_iff, decide_eq_true_eq,
    decide_eq_false_iff_not, UInt8.le_iff_toNat_le] at h ⊢
  omega

theorem toName (day : Nat) {m : Nat} (hm : m < 12) (rest : List Byte) :
    (padded 1 day ++ ch ' ' :: (bytes (months.getD m "") ++ rest)).dropWhile (fun c => !ncIsalpha c) =
      bytes (months.getD m "") ++ rest := by
  obtain ⟨hdigits, -⟩ := padded_digits 1 day
  have hskip : ∀ c ∈ padded 1 day, (!ncIsalpha c) = true := by
    intro c hc
    rw [digit_not_alpha (hdigits c hc)]
    rfl
  have hnames : ∀ m < 12, ∃ c p, bytes (months.getD m "") = c :: p ∧ ncIsalpha c = true := by
    intro m hm
    have hlen : ∀ m < 12, bytes (months.getD m "") ≠ [] := by decide
    obtain ⟨c, p, hcons⟩ := List.exists_cons_of_ne_nil (hlen m hm)
    exact ⟨c, p, hcons, (months_alpha m hm c (hcons ▸ List.mem_cons_self)).1⟩
  obtain ⟨c, p, hcons, hc⟩ := hnames m hm
  rw [List.dropWhile_append_of_pos hskip, List.dropWhile_cons_of_pos (by decide), hcons, List.cons_append,
    List.dropWhile_cons_of_neg (by simp [hc])]

theorem toYear (year : Nat) {m : Nat} (hm : m < 12) (rest : List Byte) :
    (bytes (months.getD m "") ++ ch ' ' :: (padded 4 year ++ rest)).dropWhile (fun c => !ncIsdigit c) =
      padded 4 year ++ rest := by
  obtain ⟨hdigits, c, p, hcons⟩ := padded_digits 4 year
  have hc : ncIsdigit c = true := hdigits c (hcons ▸ List.mem_cons_self)
  have hskip : ∀ c ∈ bytes (months.getD m ""), (!ncIsdigit c) = true := by
    intro c hc
    rw [(months_alpha m hm c hc).2]
    rfl
  rw [List.dropWhile_append_of_pos hskip, List.dropWhile_cons_of_pos (by decide), hcons, List.cons_append,
    List.dropWhile_cons_of_neg (by simp [hc])]

/-- The zone is read with its sign. -/
theorem atoi_zone (d : MailDate) (second zone : Nat) (h : zone < 2 ^ 31) :
    atoi (((padded 2 second ++ ch ' ' :: d.sign :: padded 4 zone).dropWhile ncIsdigit).dropWhile
      fun c => !ncIsdigit c && c != ch '-') = if d.west then -(zone : Int) else zone := by
  obtain ⟨hdigits, -⟩ := padded_digits 2 second
  obtain ⟨hzone, c, p, hcons⟩ := padded_digits 4 zone
  have hc : ncIsdigit c = true := hzone c (hcons ▸ List.mem_cons_self)
  have hend : ∀ c ∈ ([] : List Byte).head?, ncIsdigit c = false := nofun
  have hplus : atoi (padded 4 zone ++ []) = zone := atoi_padded h hend
  have hminus : atoi (ch '-' :: (padded 4 zone ++ [])) = -zone := atoi_minus h hend
  rw [List.append_nil] at hplus hminus
  rw [List.dropWhile_append_of_pos hdigits, List.dropWhile_cons_of_neg (by decide),
    List.dropWhile_cons_of_pos (by decide), MailDate.sign]
  cases d.west with
  | true =>
      rw [if_pos rfl, if_pos rfl, List.dropWhile_cons_of_neg (by decide), hminus]
  | false =>
      rw [if_neg Bool.false_ne_true, if_neg Bool.false_ne_true, List.dropWhile_cons_of_pos (by decide), ← hplus, hcons,
        List.dropWhile_cons_of_neg (by simp [hc])]

/-- The seconds of a day and a time of the day, less those of a zone. -/
theorem mail_sum {days hour minute second : Nat} {zone : Int} (hdays : days < 2 ^ 24) (hhour : hour < 24)
    (hminute : minute < 60) (hsecond : second < 60) (hlo : -100 < zone) (hhi : zone < 100) :
    ((inInt ((hour : Int) * 3600)).bind fun n =>
      (inTime ((days : Int) * 86400 + n)).bind fun unixdate =>
        (inInt ((minute : Int) * 60)).bind fun n => (inTime (unixdate + n)).bind fun unixdate =>
          (inTime (unixdate + second)).bind fun unixdate =>
            (inInt (zone * 3600)).bind fun n => inTime (unixdate - n)) =
      some ((((days * 24 + hour) * 60 + minute) * 60 + second : Nat) - zone * 3600) := by
  have hheld : ∀ n : Int, -(2 ^ 31) ≤ n → n < 2 ^ 62 → inTime n = some n :=
    fun n hlo hhi => held_eq (by omega) (by omega)
  rw [inInt_eq (by omega) (by omega), Option.bind_some, hheld _ (by omega) (by omega),
    Option.bind_some, inInt_eq (by omega) (by omega), Option.bind_some, hheld _ (by omega) (by omega),
    Option.bind_some, hheld _ (by omega) (by omega), Option.bind_some, inInt_eq (by omega) (by omega), Option.bind_some,
    hheld _ (by omega) (by omega)]
  exact congrArg some (by omega)

theorem tdiv_zone {zoneHour zoneMinute : Nat} (h : zoneMinute < 100) (west : Bool) :
    (if west = true then -((zoneHour * 100 + zoneMinute : Nat) : Int) else
      (zoneHour * 100 + zoneMinute : Nat)).tdiv 100 = if west = true then -(zoneHour : Int) else zoneHour := by
  have hhours : ((zoneHour * 100 + zoneMinute : Nat) : Int).tdiv 100 = zoneHour := by
    rw [Int.tdiv_eq_ediv_of_nonneg (Int.natCast_nonneg _)]
    omega
  cases west with
  | true => rw [if_pos rfl, if_pos rfl, Int.neg_tdiv, hhours]
  | false => rw [if_neg Bool.false_ne_true, if_neg Bool.false_ne_true, hhours]

/-- What `time_wmgetdate` makes of a date: the minutes of its zone are left out. -/
theorem timeWmgetdate_text (h : d.Valid) : timeWmgetdate d.text = some ((d.date.seconds : Int) - d.hours * 3600) := by
  have hmonth := h.date.month
  have hyear := h.date.year
  have hdaypos := h.date.day.1
  have hday := valid_day_lt h.date
  have hhour := h.date.hour
  have hminute := h.date.minute
  have hsecond := h.date.second
  have hfour := h.year
  have hzone := h.zoneHour
  have hquarter := h.zoneMinute
  have hfirst := h.second
  have hdays : d.date.days < 2 ^ 24 := by
    have hle := yearDays_le (d.date.year - 1970)
    have hmonths := monthDays_le (y := d.date.year) (m := d.date.month - 1) (by omega)
    have hleap := leapDay_le d.date.year
    unfold Civil.days
    omega
  have hblank : ncIsdigit (ch ' ') = false := by decide
  have hcolon : ncIsdigit (ch ':') = false := by decide
  -- what stands behind the day, the name of the month and so on
  obtain ⟨zone, hzonedef⟩ : ∃ zone, zone = d.sign :: padded 4 (d.zoneHour * 100 + d.zoneMinute) := ⟨_, rfl⟩
  obtain ⟨clock, hclock⟩ : ∃ clock, clock = padded 2 d.date.hour ++ ch ':' :: (padded 2 d.date.minute ++ ch ':' ::
    (padded 2 d.date.second ++ ch ' ' :: zone)) := ⟨_, rfl⟩
  obtain ⟨name, hname⟩ : ∃ name, name = bytes (months.getD (d.date.month - 1) "") ++
    ch ' ' :: (padded 4 d.date.year ++ ch ' ' :: clock) := ⟨_, rfl⟩
  obtain ⟨hdigits, c, p, hcons⟩ := padded_digits (if d.zero = true then 2 else 1) d.date.day
  have hc : ncIsdigit c = true := hdigits c (hcons ▸ List.mem_cons_self)
  have hstart : d.text.dropWhile (fun c => !ncIsdigit c) =
      padded (if d.zero = true then 2 else 1) d.date.day ++ ch ' ' :: name := by
    unfold MailDate.text
    rw [List.dropWhile_append_of_pos (weekdayText_not_digit d), ← hzonedef, ← hclock, ← hname, hcons, List.cons_append,
      List.dropWhile_cons_of_neg (by simp [hc])]
  have hnonempty : padded (if d.zero = true then 2 else 1) d.date.day ≠ [] := hcons ▸ List.cons_ne_nil c p
  have htoName := toName d.date.day (m := d.date.month - 1) (by omega)
    (ch ' ' :: (padded 4 d.date.year ++ ch ' ' :: clock))
  have htoYear := toYear d.date.year (m := d.date.month - 1) (by omega) (ch ' ' :: clock)
  have htoHour := nextField_padded hblank 4 d.date.year 2 d.date.hour (ch ':' :: (padded 2 d.date.minute ++ ch ':' ::
    (padded 2 d.date.second ++ ch ' ' :: zone)))
  have htoMinute := nextField_padded hcolon 2 d.date.hour 2 d.date.minute (ch ':' ::
    (padded 2 d.date.second ++ ch ' ' :: zone))
  have htoSecond := nextField_padded hcolon 2 d.date.minute 2 d.date.second (ch ' ' :: zone)
  have htoZone := atoi_zone d d.date.second (d.zoneHour * 100 + d.zoneMinute) (by omega)
  rw [← hclock] at htoHour
  rw [← hname] at htoName htoYear
  rw [← hzonedef] at htoZone
  have hcount := countDays_run 63 (u := -1) hyear (by omega) ((Nat.sub_le _ 1).trans hmonth.2) (by omega) (by
    have hle := yearDays_le (d.date.year - 1970)
    omega)
  have hsum : -1 + (yearDays (d.date.year - 1970) : Int) + monthDays d.date.year (d.date.month - 1) + d.date.day =
      (d.date.days : Int) := by
    unfold Civil.days
    omega
  have hmonthcast : ((d.date.month - 1 : Nat) : Int) ≠ -1 := by omega
  unfold timeWmgetdate
  rw [hstart, if_neg (List.append_ne_nil_of_left_ne_nil hnonempty _)]
  dsimp only
  rw [skip_zero hnonempty (skip_day d.date.day hday hdaypos d.zero), htoName,
    atoi_padded (by omega) (head_not_digit hblank _)]
  have hfound := monthOf_month (m := d.date.month - 1) (by omega) (ch ' ' :: (padded 4 d.date.year ++ ch ' ' :: clock))
  rw [← hname] at hfound
  rw [hfound, if_neg hmonthcast, htoYear, atoi_padded (by omega) (head_not_digit hblank _), hcount]
  simp only [Option.bind_eq_bind, Option.bind_some]
  have hdayint : inTime (d.date.days : Int) = some (d.date.days : Int) := held_eq (by omega) (by omega)
  have hproduct : inTime ((d.date.days : Int) * 86400) = some ((d.date.days : Int) * 86400) :=
    held_eq (by omega) (by omega)
  rw [hsum, hdayint]
  simp only [Option.bind_some]
  rw [if_neg (by omega), hproduct]
  simp only [Option.bind_some]
  rw [htoHour, hclock, htoMinute, htoSecond, htoZone, tdiv_zone (by omega),
    atoi_padded (by omega) (head_not_digit hcolon _), atoi_padded (by omega) (head_not_digit hcolon _),
    atoi_padded (by omega) (head_not_digit hblank _)]
  refine mail_sum hdays hhour hminute hsecond ?_ ?_ <;> split_ifs <;> omega

/-- The date is right exactly where its zone has no minutes. -/
theorem wmgetdate_iff (d : MailDate) (h : d.Valid) : timeWmgetdate d.text = some d.utc ↔ d.zoneMinute = 0 := by
  rw [timeWmgetdate_text h, Option.some_inj, MailDate.utc, MailDate.hours, MailDate.offset]
  cases d.west with
  | true =>
      simp only [if_true]
      omega
  | false =>
      simp only [Bool.false_eq_true, if_false]
      omega

/-- `Sat, 01 Jan 2000 00:00:00 +0100`. -/
def hourDate : MailDate := ⟨some 6, true, ⟨2000, 1, 1, 0, 0, 0⟩, false, 1, 0⟩

theorem wmgetdate_hour : timeWmgetdate hourDate.text = some hourDate.utc :=
  (wmgetdate_iff hourDate ⟨⟨by decide, by decide, by decide, by decide, by decide, by decide⟩, by decide, by decide,
    by decide, by decide⟩).mpr rfl

/-- `1 Jan 2000 00:00:00 +0530`. -/
def halfDate : MailDate := ⟨none, false, ⟨2000, 1, 1, 0, 0, 0⟩, false, 5, 30⟩

/-- The half hour of the zone is lost. -/
theorem not_wmgetdate_half : halfDate.Valid ∧ timeWmgetdate halfDate.text = some 946666800 ∧
    timeWmgetdate halfDate.text ≠ some halfDate.utc := by
  have hvalid : halfDate.Valid :=
    ⟨⟨by decide, by decide, by decide, by decide, by decide, by decide⟩, by decide, by decide, by decide, by decide⟩
  have hseconds : halfDate.date.seconds = 946684800 := by decide
  have hread : timeWmgetdate halfDate.text = some 946666800 := by
    rw [timeWmgetdate_text hvalid, hseconds]
    decide
  refine ⟨hvalid, hread, ?_⟩
  rw [hread, MailDate.utc, hseconds]
  decide

end

end NullG.Mail

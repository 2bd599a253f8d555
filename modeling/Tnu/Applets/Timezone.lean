/-
**The time zone of the date command.**

`/etc/timezone` holds a text such as `UTC+5:30`.  `timezone_valid` says which texts the `timezone` command
stores, `timezone_offset_minutes` reads the minutes out of one and `apply_timezone` moves a date and a time by
them, a day at a time.

The two readers do not look at the text alike.  The validator wants an hour and, behind a colon, two digits with
nothing behind them, and the other is content with any digits.  Both keep the hours in an `int`, and an hour of
ten digits and more can come back as a small one.

Main definitions:

* `timezoneValid`, `timezoneOffsetMinutes` — the readers;
* `applyTimezone` — the move;
* `written` — the offset that a text stands for.

Main results:

* `applyTimezone_eq` — **the move ends at the moment so many minutes later**;
* `timezone_law_iff` — the law holds exactly for the texts that are not misread.
-/

import Tnu.Format.Kvsnprintf
import Tnu.Lib.Calendar
import Tnu.Net.Ipv4Text

set_option autoImplicit false

namespace Tnu.Applets

open Calendar
open Format (ch wrap)
open Net (isDigit digitOf spelled)

/-! ### The readers -/

/-- `while (*p >= '0' && *p <= '9')`, with the digits and the value so far. -/
def digitsLoop (digits : ℕ) (value : ℤ) : List Byte → ℕ × ℤ × List Byte
  | [] => (digits, value, [])
  | c :: p =>
    if isDigit c then digitsLoop (digits + 1) (wrap (value * 10 + (c.toNat - 48))) p
    else (digits, value, c :: p)

/-- `timezone_offset_minutes`, of a pointer that may be null. -/
def timezoneOffsetMinutes : Option CString → ℤ
  | none => 0
  | some tz =>
    if tz.chars = [] ∨ tz.chars = lit "UTC" ∨ tz.chars = lit "Z" then 0
    else if tz.chars.take 3 ≠ lit "UTC" ∧ tz.chars.take 3 ≠ lit "GMT" then 0
    else
      match tz.chars.drop 3 with
      | [] => 0
      | c :: p =>
        if c ≠ ch '+' ∧ c ≠ ch '-' then 0
        else
          let sign : ℤ := if c = ch '+' then 1 else -1
          let (_, hours, p) := digitsLoop 0 0 p
          let minutes :=
            match p with
            | [] => 0
            | c :: p => if c = ch ':' then (digitsLoop 0 0 p).2.1 else 0
          if 14 < hours ∨ 59 < minutes then 0 else wrap (sign * wrap (hours * 60 + minutes))

def timezoneValid : Option CString → Bool
  | none => true
  | some tz =>
    if tz.chars = [] ∨ tz.chars = lit "UTC" ∨ tz.chars = lit "Z" then true
    else if tz.chars.take 3 ≠ lit "UTC" ∧ tz.chars.take 3 ≠ lit "GMT" then false
    else
      match tz.chars.drop 3 with
      | [] => false
      | c :: p =>
        if c ≠ ch '+' ∧ c ≠ ch '-' then false
        else
          let (digits, hours, p) := digitsLoop 0 0 p
          if digits = 0 ∨ 14 < hours then false
          else
            match p with
            | [] => true
            | c :: p =>
              if c = ch ':' then
                let (mdigits, minutes, p) := digitsLoop 0 0 p
                if mdigits ≠ 2 ∨ 59 < minutes then false else p = []
              else false

/-! ### The move -/

/-- `rtc_time`. -/
structure RtcTime where
  year : ℤ
  month : ℤ
  day : ℤ
  hour : ℤ
  minute : ℤ
  second : ℤ
  deriving DecidableEq, Repr

def leapYear (year : ℤ) : Bool := (year.tmod 4 = 0 && year.tmod 100 ≠ 0) || year.tmod 400 = 0

def monthDays (year month : ℤ) : ℤ :=
  if month = 2 ∧ leapYear year then 29
  else [31, 28, 31, 30, 31, 30, 31, 31, 30, 31, 30, 31].getD (month - 1).toNat 0

def dayBack (t : RtcTime) : RtcTime :=
  let t := { t with day := wrap (t.day - 1) }
  if t.day < 1 then
    let t := { t with month := wrap (t.month - 1) }
    let t := if t.month < 1 then { t with month := 12, year := wrap (t.year - 1) } else t
    { t with day := monthDays t.year t.month }
  else t

def dayOn (t : RtcTime) : RtcTime :=
  let t := { t with day := wrap (t.day + 1) }
  if monthDays t.year t.month < t.day then
    let t := { t with day := 1, month := wrap (t.month + 1) }
    if 12 < t.month then { t with month := 1, year := wrap (t.year + 1) } else t
  else t

/-- `while (total < 0)`. -/
def borrowDays (total : ℤ) (t : RtcTime) : ℤ × RtcTime :=
  if total < 0 then borrowDays (total + 24 * 60) (dayBack t) else (total, t)
termination_by (-total).toNat
decreasing_by omega

/-- `while (total >= 24 * 60)`. -/
def carryDays (total : ℤ) (t : RtcTime) : ℤ × RtcTime :=
  if 24 * 60 ≤ total then carryDays (total - 24 * 60) (dayOn t) else (total, t)
termination_by total.toNat
decreasing_by omega

def applyTimezone (t : RtcTime) (offsetMinutes : ℤ) : RtcTime :=
  let total := wrap (t.hour * 60 + t.minute + offsetMinutes)
  let (total, t) := borrowDays total t
  let (total, t) := carryDays total t
  { t with hour := total.tdiv 60, minute := total.tmod 60 }

/-! ### What they should do -/

namespace RtcTime

def date (t : RtcTime) : Date := ⟨t.year, t.month, t.day⟩

/-- A date of the calendar and a time of the day. -/
structure Valid (t : RtcTime) : Prop where
  date : t.date.Valid
  hour : 0 ≤ t.hour ∧ t.hour < 24
  minute : 0 ≤ t.minute ∧ t.minute < 60
  second : 0 ≤ t.second ∧ t.second < 60

/-- The year is one of an `int`. -/
def Fits (t : RtcTime) : Prop := -2 ^ 31 ≤ t.year ∧ t.year < 2 ^ 31

def instant (t : RtcTime) : ℤ := ((t.date.number * 24 + t.hour) * 60 + t.minute) * 60 + t.second

end RtcTime

/-- The parts of a text with a sign: the sign, the digits behind it, and the rest. -/
structure Parts where
  sign : ℤ
  hours : List Byte
  tail : List Byte

/-- The parts of `UTC+…`, `UTC-…`, `GMT+…` and `GMT-…`. -/
def parts (s : List Byte) : Option Parts :=
  if s.take 3 = lit "UTC" ∨ s.take 3 = lit "GMT" then
    match s.drop 3 with
    | [] => none
    | c :: p =>
      if c = ch '+' then some ⟨1, p.takeWhile isDigit, p.dropWhile isDigit⟩
      else if c = ch '-' then some ⟨-1, p.takeWhile isDigit, p.dropWhile isDigit⟩
      else none
  else none

namespace Parts

def hourNumber (t : Parts) : ℕ := spelled t.hours

def minuteNumber (t : Parts) : ℕ :=
  match t.tail with
  | [] => 0
  | c :: p => if c = ch ':' then spelled (p.takeWhile isDigit) else 0

/-- The documented shape: digits, and at most a colon with two digits behind them. -/
def Shaped (t : Parts) : Prop :=
  t.hours ≠ [] ∧ (t.tail = [] ∨ ∃ p, t.tail = ch ':' :: p ∧ p.length = 2 ∧ ∀ c ∈ p, isDigit c = true)

def offset (t : Parts) : ℤ := t.sign * (t.hourNumber * 60 + t.minuteNumber)

end Parts

/-- **The text stands for an offset**: the empty text, `UTC` and `Z` for none, and hours up to 14 with minutes up
to 59 behind a sign for so many. -/
inductive Written : Option CString → ℤ → Prop
  | null : Written none 0
  | utc (tz : CString) (h : tz.chars = [] ∨ tz.chars = lit "UTC" ∨ tz.chars = lit "Z") : Written (some tz) 0
  | signed (tz : CString) (t : Parts) (h : parts tz.chars = some t) (hshape : t.Shaped) (hhour : t.hourNumber ≤ 14)
      (hminute : t.minuteNumber ≤ 59) : Written (some tz) t.offset

/-- **What the three functions should do with a text**: the readers agree on it, and the date and the time of the
move are those of the moment so many minutes later, with a way back. -/
structure TimezoneLaw (tz : Option CString) : Prop where
  valid : timezoneValid tz = true ↔ ∃ minutes, Written tz minutes
  offset : ∀ minutes, Written tz minutes → timezoneOffsetMinutes tz = minutes
  refused : timezoneValid tz = false → timezoneOffsetMinutes tz = 0
  later : timezoneValid tz = true → ∀ t t' : RtcTime, t.Valid → t.Fits → t'.Valid → t'.Fits →
    t'.instant = t.instant + timezoneOffsetMinutes tz * 60 →
    applyTimezone t (timezoneOffsetMinutes tz) = t' ∧ applyTimezone t' (wrap (-timezoneOffsetMinutes tz)) = t

/-- **The text is not read as it is written**: hours and minutes that an `int` makes small enough, of the
documented shape with too many hours, or of another shape and not no offset at all. -/
def Misread (tz : Option CString) : Prop :=
  ∃ s t, tz = some s ∧ parts s.chars = some t ∧ wrap t.hourNumber ≤ 14 ∧ wrap t.minuteNumber ≤ 59 ∧
    (t.Shaped ∧ 14 < t.hourNumber ∨ ¬ t.Shaped ∧ ¬ 2 ^ 32 ∣ t.hourNumber * 60 + t.minuteNumber)

/-! ### The move keeps the moment -/

variable {t t' : RtcTime}

theorem leapYear_iff (year : ℤ) : leapYear year = true ↔ IsLeap year := by
  have hdvd : ∀ n : ℤ, year.tmod n = 0 ↔ n ∣ year := fun n => (Int.dvd_iff_tmod_eq_zero).symm
  simp only [leapYear, IsLeap, Bool.or_eq_true, Bool.and_eq_true, decide_eq_true_eq, hdvd]
  simp only [ne_eq, hdvd]

theorem monthDays_eq {year month : ℤ} (h1 : 1 ≤ month) (h2 : month ≤ 12) :
    monthDays year month = monthLength year month := by
  rw [monthDays, monthLength]
  simp only [leapYear_iff]
  by_cases hleap : IsLeap year
  all_goals
    simp only [hleap, and_true, and_false, if_true, if_false]
    interval_cases month <;> simp [List.getD]

theorem wrap_of_mem {x : ℤ} (h0 : -2 ^ 31 ≤ x) (h : x < 2 ^ 31) : wrap x = x := by
  rw [wrap, Int.bmod_eq_of_le] <;> omega

theorem monthLength_le (year month : ℤ) : monthLength year month ≤ 31 := by
  rw [monthLength]
  split_ifs <;> norm_num

def RtcTime.on (t : RtcTime) (d : Date) : RtcTime := { t with year := d.year, month := d.month, day := d.day }

theorem dayBack_eq (h : t.date.Valid) (hyear : -2 ^ 31 ≤ t.date.prev.year) (hfits : t.Fits) :
    dayBack t = t.on t.date.prev := by
  obtain ⟨year, month, day, hour, minute, second⟩ := t
  change -2 ^ 31 ≤ (Date.prev ⟨year, month, day⟩).year at hyear
  change dayBack _ = RtcTime.on _ (Date.prev ⟨year, month, day⟩)
  obtain ⟨h1, h2, h3, h4⟩ : Date.Valid ⟨year, month, day⟩ := h
  obtain ⟨hlow, hhigh⟩ : -2 ^ 31 ≤ year ∧ year < 2 ^ 31 := hfits
  have hlen := monthLength_le year month
  dsimp only at h1 h2 h3 h4
  have hday : wrap (day - 1) = day - 1 := wrap_of_mem (by omega) (by omega)
  have hmonth : wrap (month - 1) = month - 1 := wrap_of_mem (by omega) (by omega)
  simp only [dayBack, hday, hmonth, RtcTime.on, Date.prev] at hyear ⊢
  by_cases hd : 1 < day
  · rw [if_neg (by omega), if_pos hd]
  · rw [if_pos (by omega), if_neg hd]
    rw [if_neg hd] at hyear
    by_cases hm : 1 < month
    · rw [if_neg (by omega), if_pos hm, monthDays_eq (by dsimp only; omega) (by dsimp only; omega)]
    · rw [if_neg hm] at hyear
      rw [if_pos (by omega), if_neg hm, wrap_of_mem (by omega) (by omega)]
      rfl

theorem dayOn_eq (h : t.date.Valid) (hyear : t.date.next.year < 2 ^ 31) (hfits : t.Fits) :
    dayOn t = t.on t.date.next := by
  obtain ⟨year, month, day, hour, minute, second⟩ := t
  change (Date.next ⟨year, month, day⟩).year < 2 ^ 31 at hyear
  change dayOn _ = RtcTime.on _ (Date.next ⟨year, month, day⟩)
  obtain ⟨h1, h2, h3, h4⟩ : Date.Valid ⟨year, month, day⟩ := h
  obtain ⟨hlow, hhigh⟩ : -2 ^ 31 ≤ year ∧ year < 2 ^ 31 := hfits
  have hlen := monthLength_le year month
  dsimp only at h1 h2 h3 h4
  have hday : wrap (day + 1) = day + 1 := wrap_of_mem (by omega) (by omega)
  have hmonth : wrap (month + 1) = month + 1 := wrap_of_mem (by omega) (by omega)
  simp only [dayOn, hday, hmonth, monthDays_eq h1 h2, RtcTime.on, Date.next] at hyear ⊢
  by_cases hd : day < monthLength year month
  · rw [if_neg (by omega), if_pos hd]
  · rw [if_pos (by omega), if_neg hd]
    rw [if_neg hd] at hyear
    by_cases hm : month < 12
    · rw [if_neg (by omega), if_pos hm]
    · rw [if_neg hm] at hyear
      rw [if_pos (by omega), if_neg hm, wrap_of_mem (by omega) (by omega)]

theorem year_le_of_number {a b : Date} (ha : a.Valid) (hb : b.Valid) (h : a.number ≤ b.number) : a.year ≤ b.year := by
  by_contra hlt
  have := Date.number_lt_of_year hb ha (lt_of_not_ge hlt)
  omega

variable {d : Date} {rest : ℤ}

/-- **The first loop goes back to the day of the moment**, if that is in front of this one. -/
theorem borrowDays_eq (total : ℤ) (t : RtcTime) (ht : t.date.Valid) (hfits : t.Fits) (hd : d.Valid)
    (hyear : -2 ^ 31 ≤ d.year) (hrest : 0 ≤ rest ∧ rest < 1440)
    (h : d.number * 1440 + rest = t.date.number * 1440 + total) (hneg : total < 0) :
    borrowDays total t = (rest, t.on d) := by
  -- along the loop, each round of which takes a day and adds its minutes
  induction total, t using borrowDays.induct with
  | case1 total t _ ih =>
    have hprev := Date.number_prev ht
    have hyear' := year_le_of_number hd ht.prev (by omega)
    have hle := year_le_of_number ht.prev ht (by omega)
    have hback := dayBack_eq ht (hyear.trans hyear') hfits
    have hdate : (dayBack t).date = t.date.prev := by rw [hback]; rfl
    have hfits' : (dayBack t).Fits := by
      rw [hback]
      exact ⟨hyear.trans hyear', hle.trans_lt hfits.2⟩
    rw [borrowDays, if_pos hneg]
    by_cases hmore : total + 24 * 60 < 0
    · rw [ih (hdate ▸ ht.prev) hfits' (by rw [hdate]; omega) hmore, hback]
      rfl
    · have hsame : d = t.date.prev := Date.eq_of_number_eq hd ht.prev (by omega)
      have hrest : total + 24 * 60 = rest := by rw [hsame] at h; omega
      rw [borrowDays, if_neg hmore, hback, hrest, hsame]
  | case2 total t hdone => exact absurd hneg hdone

/-- **The second loop goes on to the day of the moment**, if that is behind this one. -/
theorem carryDays_eq (total : ℤ) (t : RtcTime) (ht : t.date.Valid) (hfits : t.Fits) (hd : d.Valid)
    (hyear : d.year < 2 ^ 31) (hrest : 0 ≤ rest ∧ rest < 1440)
    (h : d.number * 1440 + rest = t.date.number * 1440 + total) (hpos : 0 ≤ total) :
    carryDays total t = (rest, t.on d) := by
  -- along the loop, each round of which adds a day and takes its minutes
  induction total, t using carryDays.induct with
  | case1 total t hmore ih =>
    have hnext := Date.number_next ht
    have hyear' := year_le_of_number ht.next hd (by omega)
    have hle := year_le_of_number ht ht.next (by omega)
    have hon := dayOn_eq ht (hyear'.trans_lt hyear) hfits
    have hdate : (dayOn t).date = t.date.next := by rw [hon]; rfl
    have hfits' : (dayOn t).Fits := by
      rw [hon]
      exact ⟨hfits.1.trans hle, hyear'.trans_lt hyear⟩
    rw [carryDays, if_pos hmore, ih (hdate ▸ ht.next) hfits' (by rw [hdate]; omega) (by omega), hon]
    rfl
  | case2 total t hdone =>
    have hsame : d = t.date := Date.eq_of_number_eq hd ht (by omega)
    have hrest : total = rest := by rw [hsame] at h; omega
    rw [carryDays, if_neg hdone, hrest, hsame]
    rfl

variable {minutes : ℤ}

/-- **The move ends at the moment so many minutes later.** -/
theorem applyTimezone_eq (ht : t.Valid) (hfits : t.Fits) (ht' : t'.Valid) (hfits' : t'.Fits)
    (hmin : -2 ^ 30 ≤ minutes ∧ minutes ≤ 2 ^ 30) (h : t'.instant = t.instant + minutes * 60) :
    applyTimezone t minutes = t' := by
  obtain ⟨hdate, hhour, hminute, hsecond⟩ := ht
  obtain ⟨hdate', hhour', hminute', hsecond'⟩ := ht'
  rw [RtcTime.instant, RtcTime.instant] at h
  have hsec : t'.second = t.second := by omega
  have hrest : 0 ≤ t'.hour * 60 + t'.minute ∧ t'.hour * 60 + t'.minute < 1440 := by omega
  have hmoment : t'.date.number * 1440 + (t'.hour * 60 + t'.minute) =
      t.date.number * 1440 + (t.hour * 60 + t.minute + minutes) := by omega
  have hon : t.on t'.date = { t' with hour := t.hour, minute := t.minute } := by
    rw [RtcTime.on, ← hsec]
    rfl
  have hend : ∀ total : ℤ, total = t'.hour * 60 + t'.minute →
      ({ t.on t'.date with hour := total.tdiv 60, minute := total.tmod 60 } : RtcTime) = t' := by
    rintro total rfl
    rw [hon, Int.tdiv_eq_ediv_of_nonneg hrest.1, Int.tmod_eq_emod_of_nonneg hrest.1]
    have h1 : (t'.hour * 60 + t'.minute) / 60 = t'.hour := by omega
    have h2 : (t'.hour * 60 + t'.minute) % 60 = t'.minute := by omega
    rw [h1, h2]
  rw [applyTimezone, wrap_of_mem (by omega) (by omega)]
  dsimp only
  by_cases hneg : t.hour * 60 + t.minute + minutes < 0
  · rw [borrowDays_eq _ t hdate hfits hdate' hfits'.1 hrest hmoment hneg]
    dsimp only
    rw [carryDays, if_neg (by omega)]
    exact hend _ rfl
  · rw [borrowDays, if_neg hneg]
    dsimp only
    rw [carryDays_eq _ t hdate hfits hdate' hfits'.2 hrest hmoment (by omega)]
    exact hend _ rfl

theorem RtcTime.exists_instant (n : ℤ) : ∃ t : RtcTime, t.Valid ∧ t.instant = n := by
  obtain ⟨d, hd, hn⟩ := Date.exists_number (n / 86400)
  refine ⟨⟨d.year, d.month, d.day, n % 86400 / 3600, n % 3600 / 60, n % 60⟩, ⟨hd, ?_, ?_, ?_⟩, ?_⟩
  · dsimp only
    omega
  · dsimp only
    omega
  · dsimp only
    omega
  · have hnumber : d.number = n / 86400 := hn
    change ((d.number * 24 + n % 86400 / 3600) * 60 + n % 3600 / 60) * 60 + n % 60 = n
    omega

/-! ### What the readers read -/

variable {tz : CString} {p : Parts}

theorem digitsLoop_eq (s : List Byte) (digits value : ℕ) :
    digitsLoop digits (wrap value) s =
      (digits + (s.takeWhile isDigit).length,
        wrap ((s.takeWhile isDigit).foldl (fun value c => value * 10 + digitOf c) value : ℕ),
        s.dropWhile isDigit) := by
  induction s generalizing digits value with
  | nil => rfl
  | cons c s ih =>
    by_cases hc : isDigit c = true
    · have hge : 48 ≤ c.toNat := by
        rw [isDigit, Bool.and_eq_true, decide_eq_true_eq] at hc
        exact UInt8.le_iff_toNat_le.1 hc.1
      have hstep : wrap (wrap value * 10 + (c.toNat - 48)) = wrap ((value * 10 + digitOf c : ℕ) : ℤ) := by
        rw [wrap, wrap, wrap, ← Int.bmod_add_bmod, Int.bmod_mul_bmod, Int.bmod_add_bmod, digitOf]
        congr 1
        omega
      rw [digitsLoop, if_pos hc, hstep, ih, List.takeWhile_cons_of_pos hc, List.dropWhile_cons_of_pos hc,
        List.length_cons, List.foldl_cons, Nat.add_assoc, Nat.add_comm 1]
    · rw [digitsLoop, if_neg hc, List.takeWhile_cons_of_neg hc, List.dropWhile_cons_of_neg hc]
      rfl

theorem digitsLoop_zero (s : List Byte) :
    digitsLoop 0 0 s =
      ((s.takeWhile isDigit).length, wrap (spelled (s.takeWhile isDigit)), s.dropWhile isDigit) := by
  have h := digitsLoop_eq s 0 0
  rw [Nat.zero_add] at h
  exact h

theorem parts_eq_some (h : parts tz.chars = some p) :
    ¬ (tz.chars = [] ∨ tz.chars = lit "UTC" ∨ tz.chars = lit "Z") ∧
      ¬ (tz.chars.take 3 ≠ lit "UTC" ∧ tz.chars.take 3 ≠ lit "GMT") ∧
      ∃ c s, tz.chars.drop 3 = c :: s ∧ ¬ (c ≠ ch '+' ∧ c ≠ ch '-') ∧
        p = ⟨if c = ch '+' then 1 else -1, s.takeWhile isDigit, s.dropWhile isDigit⟩ := by
  rw [parts] at h
  split at h
  case isFalse => cases h
  case isTrue hzone =>
    refine ⟨?_, by tauto, ?_⟩
    · rintro (h0 | h0 | h0)
      all_goals
        rw [h0] at h
        cases h
    · split at h
      · cases h
      · rename_i c s hdrop
        refine ⟨c, s, hdrop, ?_⟩
        split_ifs at h with hplus hminus
        · exact ⟨by tauto, by rw [if_pos hplus]; exact (Option.some.inj h).symm⟩
        · exact ⟨by tauto, by rw [if_neg hplus]; exact (Option.some.inj h).symm⟩

theorem wrap_sum (sign a b : ℤ) : wrap (sign * wrap (wrap a * 60 + wrap b)) = wrap (sign * (a * 60 + b)) := by
  have hsum : wrap (wrap a * 60 + wrap b) = wrap (a * 60 + b) := by
    rw [wrap, wrap, wrap, wrap, ← Int.bmod_add_bmod, Int.bmod_mul_bmod, Int.bmod_add_bmod, Int.add_bmod_bmod]
  rw [hsum, wrap, wrap, wrap, Int.mul_bmod_bmod]

theorem wrap_zero : wrap ((0 : ℕ) : ℤ) = 0 := wrap_of_mem (by norm_num) (by norm_num)

theorem minutes_eq (tail : List Byte) (sign : ℤ) (hours : List Byte) :
    (match tail with
      | [] => 0
      | c :: p => if c = ch ':' then wrap (spelled (p.takeWhile isDigit)) else 0) =
      wrap (Parts.minuteNumber ⟨sign, hours, tail⟩) := by
  cases tail with
  | nil => exact wrap_zero.symm
  | cons c s =>
    simp only [Parts.minuteNumber]
    split_ifs
    · rfl
    · exact wrap_zero.symm

/-- **What `timezone_offset_minutes` returns** for a text with a sign. -/
theorem timezoneOffsetMinutes_of_parts (h : parts tz.chars = some p) :
    timezoneOffsetMinutes (some tz) =
      if 14 < wrap p.hourNumber ∨ 59 < wrap p.minuteNumber then 0 else wrap p.offset := by
  obtain ⟨hplain, hzone, c, s, hdrop, hsign, rfl⟩ := parts_eq_some h
  rw [timezoneOffsetMinutes, if_neg hplain, if_neg hzone, hdrop]
  simp only [if_neg hsign, digitsLoop_zero, minutes_eq _ (if c = ch '+' then 1 else -1) (s.takeWhile isDigit),
    wrap_sum, Parts.hourNumber, Parts.offset]
  exact if_congr Iff.rfl rfl rfl

theorem two_digits_iff (s : List Byte) :
    (s.takeWhile isDigit).length = 2 ∧ s.dropWhile isDigit = [] ↔ s.length = 2 ∧ ∀ c ∈ s, isDigit c = true := by
  have hall : s.dropWhile isDigit = [] ↔ ∀ c ∈ s, isDigit c = true := List.dropWhile_eq_nil_iff
  rw [hall]
  refine and_congr_left fun h => ?_
  rw [List.takeWhile_eq_self_iff.2 h]

/-- **What `timezone_valid` accepts** of the texts with a sign. -/
theorem timezoneValid_of_parts (h : parts tz.chars = some p) :
    timezoneValid (some tz) = true ↔ p.Shaped ∧ wrap p.hourNumber ≤ 14 ∧ wrap p.minuteNumber ≤ 59 := by
  obtain ⟨hplain, hzone, c, s, hdrop, hsign, rfl⟩ := parts_eq_some h
  rw [timezoneValid, if_neg hplain, if_neg hzone, hdrop]
  simp only [if_neg hsign, digitsLoop_zero, Parts.Shaped, Parts.hourNumber, List.length_eq_zero_iff]
  by_cases hhour : s.takeWhile isDigit = [] ∨ 14 < wrap (spelled (s.takeWhile isDigit))
  · rw [if_pos hhour]
    simp only [Bool.false_eq_true, false_iff, not_and]
    rintro ⟨hne, -⟩ hle
    exact absurd hle (not_le.2 (hhour.resolve_left hne))
  · rw [if_neg hhour]
    push Not at hhour
    obtain ⟨hne, hle⟩ := hhour
    cases s.dropWhile isDigit with
    | nil =>
      have hminute : wrap ((0 : ℕ) : ℤ) ≤ 59 := by rw [wrap_zero]; norm_num
      exact iff_of_true rfl ⟨⟨hne, Or.inl rfl⟩, hle, hminute⟩
    | cons c' q =>
      by_cases hcolon : c' = ch ':'
      · have htwo := two_digits_iff q
        simp only [Parts.minuteNumber, if_pos hcolon]
        by_cases hbad : (q.takeWhile isDigit).length ≠ 2 ∨ 59 < wrap (spelled (q.takeWhile isDigit))
        · rw [if_pos hbad]
          simp only [Bool.false_eq_true, false_iff, not_and]
          rintro ⟨-, hnil | ⟨p, hp, hlen, hdigits⟩⟩ - hminute
          · cases hnil
          · obtain ⟨-, rfl⟩ := List.cons.inj hp
            exact hbad.elim (fun h => h (htwo.2 ⟨hlen, hdigits⟩).1) fun h => absurd hminute (not_le.2 h)
        · rw [if_neg hbad, decide_eq_true_eq]
          push Not at hbad
          obtain ⟨hlen, hminute⟩ := hbad
          constructor
          · intro hend
            have hq := htwo.1 ⟨hlen, hend⟩
            exact ⟨⟨hne, Or.inr ⟨q, by rw [hcolon], hq⟩⟩, hle, hminute⟩
          · rintro ⟨⟨-, hnil | ⟨p, hp, hq⟩⟩, -⟩
            · cases hnil
            · obtain ⟨-, rfl⟩ := List.cons.inj hp
              exact (htwo.2 hq).2
      · simp only [if_neg hcolon, Bool.false_eq_true, false_iff, not_and]
        rintro ⟨-, hnil | ⟨p, hp, -⟩⟩
        · cases hnil
        · exact absurd (List.cons.inj hp).1 hcolon

theorem readers_of_plain (h : parts tz.chars = none) :
    timezoneOffsetMinutes (some tz) = 0 ∧
      (timezoneValid (some tz) = true ↔ tz.chars = [] ∨ tz.chars = lit "UTC" ∨ tz.chars = lit "Z") := by
  rw [timezoneOffsetMinutes, timezoneValid]
  by_cases hplain : tz.chars = [] ∨ tz.chars = lit "UTC" ∨ tz.chars = lit "Z"
  · rw [if_pos hplain, if_pos hplain]
    exact ⟨rfl, iff_of_true rfl hplain⟩
  · rw [if_neg hplain, if_neg hplain]
    by_cases hzone : tz.chars.take 3 ≠ lit "UTC" ∧ tz.chars.take 3 ≠ lit "GMT"
    · rw [if_pos hzone, if_pos hzone]
      exact ⟨rfl, iff_of_false Bool.false_ne_true hplain⟩
    · rw [if_neg hzone, if_neg hzone]
      rw [parts, if_pos (by tauto)] at h
      cases hdrop : tz.chars.drop 3 with
      | nil => exact ⟨rfl, iff_of_false Bool.false_ne_true hplain⟩
      | cons c s =>
        rw [hdrop] at h
        dsimp only at h
        have hsign : c ≠ ch '+' ∧ c ≠ ch '-' := by
          split_ifs at h with hplus hminus
          exact ⟨hplus, hminus⟩
        simp only [if_pos hsign]
        exact ⟨trivial, iff_of_false Bool.false_ne_true hplain⟩

/-! ### The law -/

theorem digitOf_le {c : Byte} (h : isDigit c = true) : digitOf c ≤ 9 := by
  rw [isDigit, Bool.and_eq_true, decide_eq_true_eq, decide_eq_true_eq] at h
  have hle : c.toNat ≤ 57 := UInt8.le_iff_toNat_le.1 h.2
  rw [digitOf]
  omega

theorem Parts.Shaped.minuteNumber_lt (h : p.Shaped) : p.minuteNumber < 100 := by
  rw [Parts.minuteNumber]
  obtain ⟨-, hnil | ⟨s, htail, hlen, hdigits⟩⟩ := h
  · rw [hnil]
    norm_num
  · rw [htail]
    dsimp only
    rw [if_pos rfl, List.takeWhile_eq_self_iff.2 hdigits]
    obtain ⟨a, b, rfl⟩ := List.length_eq_two.1 hlen
    have ha := digitOf_le (hdigits a (by simp))
    have hb := digitOf_le (hdigits b (by simp))
    change (0 * 10 + digitOf a) * 10 + digitOf b < 100
    omega

theorem Written.iff_of_plain (h : parts tz.chars = none) :
    Written (some tz) minutes ↔ (tz.chars = [] ∨ tz.chars = lit "UTC" ∨ tz.chars = lit "Z") ∧ minutes = 0 := by
  constructor
  · intro hw
    cases hw with
    | utc _ hplain => exact ⟨hplain, rfl⟩
    | signed _ p hp => rw [h] at hp; cases hp
  · rintro ⟨hplain, rfl⟩
    exact Written.utc tz hplain

theorem Written.iff_of_parts (h : parts tz.chars = some p) :
    Written (some tz) minutes ↔ p.Shaped ∧ p.hourNumber ≤ 14 ∧ p.minuteNumber ≤ 59 ∧ minutes = p.offset := by
  constructor
  · intro hw
    cases hw with
    | utc _ hplain => exact absurd hplain (parts_eq_some h).1
    | signed _ q hq hshape hhour hminute =>
      obtain rfl : p = q := Option.some.inj (h.symm.trans hq)
      exact ⟨hshape, hhour, hminute, rfl⟩
  · rintro ⟨hshape, hhour, hminute, rfl⟩
    exact Written.signed tz p h hshape hhour hminute

theorem sign_of_parts (h : parts tz.chars = some p) : p.sign = 1 ∨ p.sign = -1 := by
  obtain ⟨-, -, c, s, -, -, rfl⟩ := parts_eq_some h
  dsimp only
  split_ifs
  · exact Or.inl rfl
  · exact Or.inr rfl

theorem Written.bounds {tz : Option CString} (h : Written tz minutes) :
    -900 < minutes ∧ minutes < 900 := by
  cases h with
  | null => norm_num
  | utc => norm_num
  | signed tz p hp hshape hhour hminute =>
    rw [Parts.offset]
    rcases sign_of_parts hp with hsign | hsign
    all_goals
      rw [hsign]
      omega

theorem applyTimezone_there_and_back {tz : Option CString} (h : Written tz minutes) (ht : t.Valid)
    (hfits : t.Fits) (ht' : t'.Valid) (hfits' : t'.Fits) (hinstant : t'.instant = t.instant + minutes * 60) :
    applyTimezone t minutes = t' ∧ applyTimezone t' (wrap (-minutes)) = t := by
  obtain ⟨hlow, hhigh⟩ := h.bounds
  refine ⟨applyTimezone_eq ht hfits ht' hfits' (by omega) hinstant, ?_⟩
  rw [wrap_of_mem (by omega) (by omega)]
  exact applyTimezone_eq ht' hfits' ht hfits (by omega) (by omega)

theorem TimezoneLaw.of_readers {tz : Option CString} (hvalid : timezoneValid tz = true ↔ ∃ minutes, Written tz minutes)
    (hoffset : ∀ minutes, Written tz minutes → timezoneOffsetMinutes tz = minutes)
    (hrefused : timezoneValid tz = false → timezoneOffsetMinutes tz = 0) : TimezoneLaw tz := by
  refine ⟨hvalid, hoffset, hrefused, fun h t t' ht hfits ht' hfits' hinstant => ?_⟩
  obtain ⟨minutes, hw⟩ := hvalid.1 h
  rw [hoffset minutes hw] at hinstant ⊢
  exact applyTimezone_there_and_back hw ht hfits ht' hfits' hinstant

theorem wrap_eq_zero_iff (x : ℤ) : wrap x = 0 ↔ 2 ^ 32 ∣ x := by
  rw [wrap]
  exact (Int.dvd_iff_bmod_eq_zero).symm

theorem offset_dvd_iff (h : parts tz.chars = some p) :
    (2 ^ 32 : ℤ) ∣ p.offset ↔ 2 ^ 32 ∣ p.hourNumber * 60 + p.minuteNumber := by
  have hcast : (2 ^ 32 : ℤ) ∣ (p.hourNumber * 60 + p.minuteNumber : ℤ) ↔
      2 ^ 32 ∣ p.hourNumber * 60 + p.minuteNumber := by
    exact_mod_cast Iff.rfl
  rw [Parts.offset, ← hcast]
  rcases sign_of_parts h with hsign | hsign
  · rw [hsign, one_mul]
  · rw [hsign, neg_one_mul, dvd_neg]

/-- **The functions do what they should exactly for the texts that are not misread.** -/
theorem timezone_law_iff (tz : Option CString) : TimezoneLaw tz ↔ ¬ Misread tz := by
  cases tz with
  | none =>
    refine iff_of_true (TimezoneLaw.of_readers ?_ ?_ ?_) ?_
    · exact iff_of_true rfl ⟨0, Written.null⟩
    · intro minutes h
      cases h
      rfl
    · intro h
      cases h
    · rintro ⟨s, p, hs, -⟩
      cases hs
  | some tz =>
    cases hparts : parts tz.chars with
    | none =>
      obtain ⟨hoffset, hvalid⟩ := readers_of_plain hparts
      refine iff_of_true (TimezoneLaw.of_readers ?_ ?_ fun _ => hoffset) ?_
      · simp only [hvalid, Written.iff_of_plain hparts, exists_and_left, exists_eq, and_true]
      · intro minutes h
        rw [hoffset, ((Written.iff_of_plain hparts).1 h).2]
      · rintro ⟨s, p, hs, hp, -⟩
        cases hs
        rw [hparts] at hp
        cases hp
    | some p =>
      have hvalid := timezoneValid_of_parts hparts
      have hoffset := timezoneOffsetMinutes_of_parts hparts
      have hwritten : ∀ minutes, Written (some tz) minutes ↔ _ := fun _ => Written.iff_of_parts hparts
      constructor
      · rintro hlaw ⟨s, q, hs, hq, hhour, hminute, hbad⟩
        cases hs
        obtain rfl : p = q := Option.some.inj (hparts.symm.trans hq)
        rcases hbad with ⟨hshape, hlong⟩ | ⟨hshape, hdvd⟩
        · obtain ⟨minutes, hw⟩ := hlaw.valid.1 (hvalid.2 ⟨hshape, hhour, hminute⟩)
          exact absurd ((hwritten minutes).1 hw).2.1 (not_le.2 hlong)
        · have hzero := hlaw.refused (Bool.eq_false_iff.2 fun h => hshape (hvalid.1 h).1)
          rw [hoffset, if_neg (by omega), wrap_eq_zero_iff, offset_dvd_iff hparts] at hzero
          exact hdvd hzero
      · intro hgood
        have hshort : p.Shaped → wrap p.hourNumber ≤ 14 → wrap p.minuteNumber ≤ 59 → p.hourNumber ≤ 14 :=
          fun hshape hhour hminute => not_lt.1 fun hlong =>
            hgood ⟨tz, p, rfl, hparts, hhour, hminute, Or.inl ⟨hshape, hlong⟩⟩
        have hkept : ∀ n : ℕ, n < 100 → wrap n = n := fun n hn => wrap_of_mem (by omega) (by omega)
        refine TimezoneLaw.of_readers ?_ ?_ ?_
        · simp only [hwritten, exists_and_left, exists_eq, and_true]
          rw [hvalid]
          constructor
          · rintro ⟨hshape, hhour, hminute⟩
            refine ⟨hshape, hshort hshape hhour hminute, ?_⟩
            rw [hkept _ hshape.minuteNumber_lt] at hminute
            omega
          · rintro ⟨hshape, hhour, hminute⟩
            rw [hkept _ (by omega), hkept _ (by omega)]
            exact ⟨hshape, by omega, by omega⟩
        · intro minutes h
          obtain ⟨hlow, hhigh⟩ := h.bounds
          obtain ⟨hshape, hhour, hminute, rfl⟩ := (hwritten minutes).1 h
          rw [hoffset, hkept _ (by omega), hkept _ (by omega), if_neg (by omega),
            wrap_of_mem (by omega) (by omega)]
        · intro hrefused
          rw [hoffset]
          split_ifs with hlong
          · rfl
          · push Not at hlong
            have hshape : ¬ p.Shaped := fun hshape =>
              Bool.eq_false_iff.1 hrefused (hvalid.2 ⟨hshape, hlong⟩)
            rw [wrap_eq_zero_iff, offset_dvd_iff hparts]
            by_contra hdvd
            exact hgood ⟨tz, p, rfl, hparts, hlong.1, hlong.2, Or.inr ⟨hshape, hdvd⟩⟩

/-- `UTC+5x`: the `timezone` command refuses the text, and the `date` command adds five hours for it. -/
theorem not_timezoneLaw : ¬ TimezoneLaw (some ⟨lit "UTC+5x", by decide⟩) := by
  intro hlaw
  have hzero := hlaw.refused (by decide)
  exact absurd hzero (by decide)

end Tnu.Applets

/-
**Reading the clock.**

`rtc_read_time` of `kernel/arch/x86_64/cmos.c` waits until no update is under way and reads the
registers of the clock chip one after the other, the seconds first.  If the clock moves on before a
register is read that it changes, the fields are not those of one moment; and of a clock of twelve
hours, noon is read as midnight and midnight as noon.

Main definitions:

* `rtcReadTime`, `rtcToEpoch`, `timeNowSeconds` — the functions.

Main result:

* `clock_iff` — **a reading is a time that the clock showed exactly when it is untorn**, and between
  such readings the time does not go back.
-/

import Tnu.Applets.Timezone

set_option autoImplicit false

namespace Tnu.Cmos

open Calendar
open Applets (RtcTime leapYear monthDays)

/-! ### The functions -/

def bcdToBinary (value : ℕ) : ℕ := (value &&& 0x0f) + (value >>> 4) * 10

/-- `while (cmos_read(0x0a) & 0x80)`, where `cmos i reg` is what the register answers to the access `i`. -/
def waitLoop (cmos : ℕ → ℕ → ℕ) : ℕ → ℕ → Option ℕ
  | 0, _ => none
  | fuel + 1, i => if cmos i 0x0a &&& 0x80 ≠ 0 then waitLoop cmos fuel (i + 1) else some (i + 1)

def readField (statusB value : ℕ) : ℕ := if statusB &&& 0x04 = 0 then bcdToBinary value else value

def readHour (statusB hour : ℕ) : ℕ :=
  let hour := if statusB &&& 0x04 = 0 then bcdToBinary (hour &&& 0x7f) ||| (hour &&& 0x80) else hour
  if statusB &&& 0x02 = 0 ∧ hour &&& 0x80 ≠ 0 then ((hour &&& 0x7f) + 12) % 24 else hour

/-- `rtc_read_time`, from the access `start` on: the time, or nothing for `-1`, and the access behind it. -/
def rtcReadTime (cmos : ℕ → ℕ → ℕ) (fuel start : ℕ) (out : Bool) : Option (Option RtcTime × ℕ) :=
  if out = false then some (none, start)
  else (waitLoop cmos fuel start).map fun i =>
    let statusB := cmos (i + 6) 0x0b
    (some
      { second := readField statusB (cmos i 0x00), minute := readField statusB (cmos (i + 1) 0x02)
        hour := readHour statusB (cmos (i + 2) 0x04), day := readField statusB (cmos (i + 3) 0x07)
        month := readField statusB (cmos (i + 4) 0x08), year := 2000 + readField statusB (cmos (i + 5) 0x09) },
      i + 7)

/-- `rtc_to_epoch`; `leap_year` and `days_in_month` are those of the applets. -/
def rtcToEpoch (t : RtcTime) : ℤ :=
  let days := ((List.range (t.year - 1970).toNat).map fun y : ℕ =>
      if leapYear (1970 + y) then (366 : ℤ) else 365).sum +
    ((List.range (t.month - 1).toNat).map fun m : ℕ => monthDays t.year ((m : ℤ) + 1)).sum + (t.day - 1)
  (days * 86400 + t.hour * 3600 + t.minute * 60 + t.second) % 2 ^ 64

def timeNowSeconds (cmos : ℕ → ℕ → ℕ) (fuel start : ℕ) (bootEpoch pitUptime : ℤ) : Option (ℤ × ℕ) :=
  (rtcReadTime cmos fuel start true).map fun r =>
    (match r.1 with
      | some now => rtcToEpoch now
      | none => (bootEpoch + pitUptime) % 2 ^ 64, r.2)

/-! ### The clock -/

/-- A clock that runs: what it shows at each access, when an update is under way, and its mode. -/
structure Clock where
  shows : ℕ → RtcTime
  updating : ℕ → Bool
  statusB : ℕ
  valid : ∀ i, (shows i).Valid
  century : ∀ i, 2000 ≤ (shows i).year ∧ (shows i).year < 2100
  ticks : ∀ i, (shows (i + 1)).instant = (shows i).instant ∨ (shows (i + 1)).instant = (shows i).instant + 1
  /-- The clock does not move before an update ends. -/
  still : ∀ i, updating i = true → updating (i + 1) = true → shows (i + 1) = shows i
  settles : ∀ i, ∃ k, i ≤ k ∧ updating k = false

namespace Clock

/-- A number in the mode of the chip. -/
def put (statusB n : ℕ) : ℕ := if statusB &&& 0x04 = 0 then n / 10 * 16 + n % 10 else n

def putHour (statusB h : ℕ) : ℕ :=
  if statusB &&& 0x02 = 0 then
    put statusB (if h % 12 = 0 then 12 else h % 12) ||| if 12 ≤ h then 0x80 else 0
  else put statusB h

/-- What the registers hold at an access. -/
def registers (c : Clock) (i reg : ℕ) : ℕ :=
  let t := c.shows i
  if reg = 0x00 then put c.statusB t.second.toNat
  else if reg = 0x02 then put c.statusB t.minute.toNat
  else if reg = 0x04 then putHour c.statusB t.hour.toNat
  else if reg = 0x07 then put c.statusB t.day.toNat
  else if reg = 0x08 then put c.statusB t.month.toNat
  else if reg = 0x09 then put c.statusB (t.year - 2000).toNat
  else if reg = 0x0a then if c.updating i then 0x80 else 0
  else if reg = 0x0b then c.statusB
  else 0

/-- The first access from `start` on that finds no update under way. -/
def settled (c : Clock) (start : ℕ) : ℕ := Nat.find (c.settles start)

end Clock

/-- The call that begins with the access `start` returns a time that the clock showed during it. -/
def ReadLaw (c : Clock) (start : ℕ) : Prop :=
  ∃ fuel t stop, rtcReadTime c.registers fuel start true = some (some t, stop) ∧
    ∃ i, start ≤ i ∧ i < stop ∧ t = c.shows i

/-- No field has changed between the access to the seconds and its own, and a clock of twelve hours shows
neither noon's hour nor midnight's. -/
structure Untorn (c : Clock) (start : ℕ) : Prop where
  minute : (c.shows (c.settled start + 2)).minute = (c.shows (c.settled start + 1)).minute
  hour : (c.shows (c.settled start + 3)).hour = (c.shows (c.settled start + 1)).hour
  day : (c.shows (c.settled start + 4)).day = (c.shows (c.settled start + 1)).day
  month : (c.shows (c.settled start + 5)).month = (c.shows (c.settled start + 1)).month
  year : (c.shows (c.settled start + 6)).year = (c.shows (c.settled start + 1)).year
  twelve : c.statusB &&& 0x02 = 0 → ¬ 12 ∣ (c.shows (c.settled start + 3)).hour

/-! ### The count of the seconds -/

theorem sum_years (n : ℕ) : ((List.range n).map fun y : ℕ => if leapYear (1970 + y) then (366 : ℤ) else 365).sum =
    beforeYear (1970 + n) - beforeYear 1970 := by
  induction n with
  | zero => simp
  | succ n ih =>
    have hlen : (if leapYear (1970 + n) then (366 : ℤ) else 365) = yearLength (1970 + n) := by
      simp only [Applets.leapYear_iff, yearLength]
    rw [List.range_succ, List.map_append, List.sum_append, ih, List.map_singleton, List.sum_singleton, hlen,
      Nat.cast_succ, ← add_assoc, beforeYear_succ]
    ring

theorem sum_months {month : ℤ} (h : month ≤ 12) (year : ℤ) :
    ((List.range (month - 1).toNat).map fun m : ℕ => monthDays year ((m : ℤ) + 1)).sum = beforeMonth year month := by
  rw [beforeMonth]
  refine congrArg List.sum (List.map_congr_left fun m hm => ?_)
  have hlt := List.mem_range.1 hm
  exact Applets.monthDays_eq (by omega) (by omega)

/-- **The seconds since 1970 are counted exactly.** -/
theorem rtcToEpoch_eq {t : RtcTime} (ht : t.Valid) (hyear : 1970 ≤ t.year) (hfits : t.Fits) :
    rtcToEpoch t = t.instant - RtcTime.instant ⟨1970, 1, 1, 0, 0, 0⟩ := by
  have hdays : ((t.year - 1970).toNat : ℤ) = t.year - 1970 := Int.toNat_of_nonneg (by omega)
  have hmonth : t.month ≤ 12 := ht.date.month_le
  have hfirst : RtcTime.instant ⟨1970, 1, 1, 0, 0, 0⟩ = (beforeYear 1970 + 1) * 86400 := by decide +kernel
  have hbounds := Date.number_bounds ht.date
  have hnumber : t.date.number = beforeYear t.year + beforeMonth t.year t.month + t.day := rfl
  have hlast := hfits.2
  obtain ⟨-, ⟨hh, hh'⟩, ⟨hm, hm'⟩, hs, hs'⟩ := ht
  rw [rtcToEpoch, sum_years, sum_months hmonth, hdays, add_sub_cancel, hfirst, RtcTime.instant, hnumber]
  rw [hnumber] at hbounds
  change beforeYear t.year < _ ∧ _ ≤ beforeYear (t.year + 1) at hbounds
  have hbefore : beforeYear 1970 ≤ beforeYear t.year := beforeYear_le hyear
  have hsize : beforeYear (t.year + 1) ≤ 366 * (t.year + 1) := by
    unfold beforeYear
    omega
  have h1970 : 0 ≤ beforeYear 1970 := by decide
  generalize beforeYear t.year = y at *
  generalize beforeMonth t.year t.month = m at *
  rw [Int.emod_eq_of_lt]
  · ring
  · omega
  · omega

/-! ### What is read -/

namespace Clock

theorem readField_put (statusB : ℕ) {n : ℕ} (h : n < 100) : readField statusB (put statusB n) = n := by
  rw [readField, put]
  split_ifs with hmode
  · revert h n
    decide
  · rfl

theorem readHour_putHour (statusB : ℕ) {h : ℕ} (hh : h < 24) :
    readHour statusB (putHour statusB h) = if statusB &&& 0x02 = 0 ∧ h % 12 = 0 then 12 - h else h := by
  unfold readHour putHour put
  by_cases hbcd : statusB &&& 0x04 = 0 <;> by_cases htwelve : statusB &&& 0x02 = 0
  · simp only [hbcd, htwelve, if_true, true_and]
    revert hh h
    decide
  · simp only [hbcd, htwelve, if_true, if_false, false_and]
    revert hh h
    decide
  · simp only [hbcd, htwelve, if_true, if_false, true_and]
    revert hh h
    decide
  · simp only [hbcd, htwelve, if_false, false_and]

variable {c : Clock} {start i j : ℕ}

theorem instant_le (c : Clock) (h : i ≤ j) : (c.shows i).instant ≤ (c.shows j).instant := by
  induction j, h using Nat.le_induction with
  | base => exact le_rfl
  | succ j _ ih =>
    have htick := c.ticks j
    omega

theorem instant_le_add (c : Clock) (i n : ℕ) : (c.shows (i + n)).instant ≤ (c.shows i).instant + n := by
  induction n with
  | zero => simp
  | succ n ih =>
    have htick := c.ticks (i + n)
    rw [← add_assoc]
    push_cast
    omega

theorem settled_spec (c : Clock) (start : ℕ) : start ≤ c.settled start ∧ c.updating (c.settled start) = false :=
  Nat.find_spec (c.settles start)

theorem updating_of_lt (h : start ≤ i) (hi : i < c.settled start) : c.updating i = true := by
  have hmin := Nat.find_min (c.settles start) hi
  simpa [h] using hmin

theorem shows_of_lt (h : start ≤ i) (hi : i < c.settled start) : c.shows i = c.shows start := by
  induction i, h using Nat.le_induction with
  | base => rfl
  | succ i hle ih =>
    rw [← ih (by omega)]
    exact c.still i (updating_of_lt hle (by omega)) (updating_of_lt (by omega) hi)

theorem settled_succ (h : c.updating start = true) : c.settled (start + 1) = c.settled start := by
  obtain ⟨hle, hclear⟩ := c.settled_spec start
  have hne : c.settled start ≠ start := fun heq => by
    rw [heq, h] at hclear
    cases hclear
  refine (Nat.find_eq_iff _).2 ⟨⟨by omega, hclear⟩, fun k hk hk' => ?_⟩
  rw [updating_of_lt (by omega) hk] at hk'
  cases hk'.2

theorem settled_of_clear (h : c.updating start = false) : c.settled start = start :=
  (Nat.find_eq_iff _).2 ⟨⟨le_rfl, h⟩, fun _ hk hk' => absurd hk'.1 (by omega)⟩

theorem waitLoop_succ (c : Clock) (fuel start : ℕ) : waitLoop c.registers (fuel + 1) start =
    if c.updating start then waitLoop c.registers fuel (start + 1) else some (start + 1) := by
  rw [waitLoop]
  cases hup : c.updating start <;> simp [registers, hup]

theorem waitLoop_eq (c : Clock) (n : ℕ) : ∀ start, c.settled start = start + n →
    waitLoop c.registers (n + 1) start = some (c.settled start + 1) := by
  induction n with
  | zero =>
    intro start h
    have hclear := (c.settled_spec start).2
    rw [h, add_zero] at hclear
    rw [waitLoop_succ, hclear, h]
    rfl
  | succ n ih =>
    intro start h
    have hset : c.updating start = true := updating_of_lt le_rfl (by omega)
    have hnext := settled_succ hset
    rw [waitLoop_succ, if_pos hset, ih (start + 1) (by omega), hnext]

theorem eq_of_waitLoop {n : ℕ} (fuel : ℕ) : ∀ start, waitLoop c.registers fuel start = some n → n = c.settled start + 1 := by
  induction fuel with
  | zero => exact fun _ h => nomatch h
  | succ fuel ih =>
    intro start h
    rw [waitLoop_succ] at h
    split_ifs at h with hset
    · rw [← settled_succ hset]
      exact ih _ h
    · rw [settled_of_clear (by simpa using hset)]
      exact (Option.some.inj h).symm

/-- What a call reads. -/
def reading (c : Clock) (start : ℕ) : RtcTime :=
  let s := c.settled start
  let h := (c.shows (s + 3)).hour
  { year := (c.shows (s + 6)).year, month := (c.shows (s + 5)).month, day := (c.shows (s + 4)).day
    hour := if c.statusB &&& 0x02 = 0 ∧ 12 ∣ h then 12 - h else h
    minute := (c.shows (s + 2)).minute, second := (c.shows (s + 1)).second }

theorem readField_registers (c : Clock) (i : ℕ) :
    readField c.statusB (c.registers i 0x00) = (c.shows i).second ∧
      readField c.statusB (c.registers i 0x02) = (c.shows i).minute ∧
      readField c.statusB (c.registers i 0x07) = (c.shows i).day ∧
      readField c.statusB (c.registers i 0x08) = (c.shows i).month ∧
      2000 + readField c.statusB (c.registers i 0x09) = (c.shows i).year := by
  obtain ⟨⟨hmonth, hmonth', hday, hday'⟩, -, ⟨hm, hm'⟩, hs, hs'⟩ := c.valid i
  have hlength := Applets.monthLength_le (c.shows i).year (c.shows i).month
  obtain ⟨hy, hy'⟩ := c.century i
  change _ ≤ (c.shows i).month at hmonth
  change (c.shows i).month ≤ _ at hmonth'
  change _ ≤ (c.shows i).day at hday
  change (c.shows i).day ≤ monthLength (c.shows i).year (c.shows i).month at hday'
  simp only [registers, Nat.reduceEqDiff, if_true, if_false]
  simp (disch := omega) only [readField_put]
  omega

theorem readHour_registers (c : Clock) (i : ℕ) : (readHour c.statusB (c.registers i 0x04) : ℤ) =
    if c.statusB &&& 0x02 = 0 ∧ 12 ∣ (c.shows i).hour then 12 - (c.shows i).hour else (c.shows i).hour := by
  obtain ⟨hh, hh'⟩ := (c.valid i).hour
  have hreg : c.registers i 0x04 = putHour c.statusB (c.shows i).hour.toNat := by
    simp only [registers, Nat.reduceEqDiff, if_true, if_false]
  have hdvd : (c.shows i).hour.toNat % 12 = 0 ↔ 12 ∣ (c.shows i).hour := by omega
  rw [hreg, readHour_putHour _ (by omega)]
  simp only [hdvd]
  split_ifs
  · omega
  · omega

theorem rtcReadTime_of_waitLoop {fuel i : ℕ} (h : waitLoop c.registers fuel start = some i) :
    rtcReadTime c.registers fuel start true = some (some (c.reading start), c.settled start + 8) := by
  obtain rfl := eq_of_waitLoop fuel start h
  have hstatus : ∀ i, c.registers i 0x0b = c.statusB := fun i => by simp [registers]
  rw [rtcReadTime, if_neg (by simp), h, Option.map_some]
  dsimp only
  rw [hstatus, (c.readField_registers _).1, (c.readField_registers _).2.1, (c.readField_registers _).2.2.1,
    (c.readField_registers _).2.2.2.1, (c.readField_registers _).2.2.2.2, readHour_registers]
  rfl

/-- **Every call returns**, with the time it has read. -/
theorem exists_rtcReadTime (c : Clock) (start : ℕ) : ∃ fuel,
    rtcReadTime c.registers fuel start true = some (some (c.reading start), c.settled start + 8) := by
  obtain ⟨n, hn⟩ := Nat.exists_eq_add_of_le (c.settled_spec start).1
  exact ⟨n + 1, rtcReadTime_of_waitLoop (c.waitLoop_eq n start hn)⟩

theorem eq_of_rtcReadTime {fuel : ℕ} {r : Option RtcTime × ℕ}
    (h : rtcReadTime c.registers fuel start true = some r) : r = (some (c.reading start), c.settled start + 8) := by
  cases hw : waitLoop c.registers fuel start with
  | none => simp [rtcReadTime, hw] at h
  | some i => exact Option.some.inj (h.symm.trans (rtcReadTime_of_waitLoop hw))

end Clock

/-! ### When a reading is right -/

theorem eq_of_instant_eq {t t' : RtcTime} (ht : t.Valid) (ht' : t'.Valid) (h : t.instant = t'.instant) : t = t' := by
  obtain ⟨hd, hh, hm, hs⟩ := ht
  obtain ⟨hd', hh', hm', hs'⟩ := ht'
  rw [RtcTime.instant, RtcTime.instant] at h
  have hnumber : t.date.number = t'.date.number := by omega
  have hdate := Date.eq_of_number_eq hd hd' hnumber
  obtain ⟨year, month, day, hour, minute, second⟩ := t
  obtain ⟨year', month', day', hour', minute', second'⟩ := t'
  obtain ⟨rfl, rfl, rfl⟩ := Date.mk.inj hdate
  dsimp only at *
  rw [RtcTime.mk.injEq]
  omega

variable {c : Clock} {start : ℕ}

/-- A time shown during the call, with the second that was read, is the one shown when it was read. -/
theorem shows_eq_of_second {i : ℕ} (hlo : start ≤ i) (hhi : i < c.settled start + 8)
    (h : (c.shows i).second = (c.shows (c.settled start + 1)).second) : c.shows i = c.shows (c.settled start + 1) := by
  refine eq_of_instant_eq (c.valid _) (c.valid _) ?_
  have hnear : (c.shows i).instant ≤ (c.shows (c.settled start + 1)).instant + 7 ∧
      (c.shows (c.settled start + 1)).instant ≤ (c.shows i).instant + 7 := by
    rcases Nat.lt_or_ge i (c.settled start) with hi | hi
    · have hlast : c.shows (c.settled start - 1) = c.shows start := Clock.shows_of_lt (by omega) (by omega)
      have hup := c.instant_le_add (c.settled start - 1) 2
      rw [show c.settled start - 1 + 2 = c.settled start + 1 by omega, hlast, ← Clock.shows_of_lt hlo hi] at hup
      have hle := c.instant_le (show i ≤ c.settled start + 1 by omega)
      omega
    · have hup := c.instant_le_add (c.settled start) 1
      have hup' := c.instant_le_add (c.settled start + 1) 6
      have hlow := c.instant_le hi
      have hhigh := c.instant_le (show i ≤ c.settled start + 1 + 6 by omega)
      omega
  simp only [RtcTime.instant] at hnear ⊢
  omega

theorem reading_eq_iff : c.reading start = c.shows (c.settled start + 1) ↔ Untorn c start := by
  constructor
  · intro h
    obtain ⟨hyear, hmonth, hday, hhour, hminute, -⟩ := RtcTime.mk.inj h
    -- a clock of twelve hours would be half a day off, and the clock cannot have moved so far
    have htwelve : ¬ (c.statusB &&& 0x02 = 0 ∧ 12 ∣ (c.shows (c.settled start + 3)).hour) := by
      intro htwelve
      have hhour : 12 - (c.shows (c.settled start + 3)).hour = (c.shows (c.settled start + 1)).hour :=
        (if_pos htwelve).symm.trans hhour
      have hup : (c.shows (c.settled start + 3)).instant ≤ _ := c.instant_le_add (c.settled start + 1) 2
      have hle := c.instant_le (show c.settled start + 1 ≤ c.settled start + 3 by omega)
      obtain ⟨-, hh, hm, hs⟩ := c.valid (c.settled start + 1)
      obtain ⟨-, hh', hm', hs'⟩ := c.valid (c.settled start + 3)
      obtain ⟨k, hk⟩ := htwelve.2
      simp only [RtcTime.instant] at hup hle
      omega
    rw [if_neg htwelve] at hhour
    exact ⟨hminute, hhour, hday, hmonth, hyear, fun hmode hdvd => htwelve ⟨hmode, hdvd⟩⟩
  · intro h
    rw [Clock.reading, h.minute, h.day, h.month, h.year, if_neg fun hd => h.twelve hd.1 hd.2, h.hour]

theorem readLaw_iff : ReadLaw c start ↔ Untorn c start := by
  rw [← reading_eq_iff]
  constructor
  · rintro ⟨fuel, t, stop, hread, i, hlo, hhi, rfl⟩
    have hr := Clock.eq_of_rtcReadTime hread
    rw [Prod.mk.injEq, Option.some.injEq] at hr
    obtain ⟨ht, rfl⟩ := hr
    have hsecond : (c.shows i).second = (c.reading start).second := congrArg RtcTime.second ht
    rw [← ht]
    exact shows_eq_of_second hlo hhi hsecond
  · intro h
    obtain ⟨fuel, hread⟩ := c.exists_rtcReadTime start
    have hle := (c.settled_spec start).1
    exact ⟨fuel, _, _, hread, _, by omega, by omega, h⟩

theorem eq_of_timeNowSeconds {fuel stop : ℕ} {boot pit now : ℤ} (h : Untorn c start)
    (hnow : timeNowSeconds c.registers fuel start boot pit = some (now, stop)) :
    now = (c.shows (c.settled start + 1)).instant - RtcTime.instant ⟨1970, 1, 1, 0, 0, 0⟩ ∧
      stop = c.settled start + 8 := by
  obtain ⟨r, hr, hval⟩ := Option.map_eq_some_iff.1 hnow
  obtain rfl := Clock.eq_of_rtcReadTime hr
  obtain ⟨rfl, rfl⟩ := Prod.mk.inj hval
  have hyear := c.century (c.settled start + 1)
  refine ⟨?_, rfl⟩
  dsimp only
  rw [reading_eq_iff.2 h, rtcToEpoch_eq (c.valid _) (by omega) ⟨by omega, by omega⟩]

/-- A clock on New Year's Eve of 2024, which strikes after the second access. -/
def newYear : Clock where
  shows i := if i < 2 then ⟨2024, 12, 31, 23, 59, 59⟩ else ⟨2025, 1, 1, 0, 0, 0⟩
  updating _ := false
  statusB := 0x06
  valid i := by
    split_ifs
    · exact ⟨⟨by decide, by decide, by decide, by decide⟩, by decide, by decide, by decide⟩
    · exact ⟨⟨by decide, by decide, by decide, by decide⟩, by decide, by decide, by decide⟩
  century i := by split_ifs <;> decide
  ticks i := by
    rcases Nat.lt_trichotomy i 1 with h | rfl | h
    · rw [if_pos (by omega), if_pos (by omega)]
      exact .inl rfl
    · exact .inr (by decide +kernel)
    · rw [if_neg (by omega), if_neg (by omega)]
      exact .inl rfl
  still _ h := nomatch h
  settles i := ⟨i, le_rfl, rfl⟩

theorem untorn_newYear {n : ℕ} (h : 1 ≤ n) : Untorn newYear n := by
  have hlater : ∀ i, 2 ≤ i → newYear.shows i = ⟨2025, 1, 1, 0, 0, 0⟩ := fun i hi => if_neg (by omega)
  have hsettled : newYear.settled n = n := Clock.settled_of_clear rfl
  constructor <;> rw [hsettled]
  all_goals simp (disch := omega) only [hlater]
  exact fun hmode => absurd hmode (by decide)

/-- **A reading is a time that the clock showed exactly when nothing came between**; the seconds since 1970
are counted exactly; and from one such reading to a later one the time does not go back. -/
theorem clock_iff (c : Clock) (start : ℕ) :
    (ReadLaw c start ↔ Untorn c start) ∧
      (∀ t : RtcTime, t.Valid → 1970 ≤ t.year → t.Fits →
        rtcToEpoch t = t.instant - RtcTime.instant ⟨1970, 1, 1, 0, 0, 0⟩) ∧
      ∀ fuel fuel' start' (boot pit boot' pit' now now' : ℤ) stop stop', Untorn c start → Untorn c start' →
        timeNowSeconds c.registers fuel start boot pit = some (now, stop) → stop ≤ start' →
        timeNowSeconds c.registers fuel' start' boot' pit' = some (now', stop') → now ≤ now' := by
  refine ⟨readLaw_iff, fun t ht hyear hfits => rtcToEpoch_eq ht hyear hfits, ?_⟩
  intro fuel fuel' start' boot pit boot' pit' now now' stop stop' h h' hnow hstop hnow'
  obtain ⟨rfl, rfl⟩ := eq_of_timeNowSeconds h hnow
  obtain ⟨rfl, -⟩ := eq_of_timeNowSeconds h' hnow'
  have hle := c.instant_le (show c.settled start + 1 ≤ c.settled start' + 1 by
    have := (c.settled_spec start').1
    omega)
  omega

theorem clock_iff_new_year : ReadLaw newYear 2 ∧ rtcToEpoch ⟨2025, 1, 1, 0, 0, 0⟩ = 1735689600 ∧
    (1735689600 : ℤ) ≤ 1735689600 :=
  ⟨(clock_iff newYear 2).1.2 (untorn_newYear (by norm_num)),
    (clock_iff newYear 2).2.1 _ (newYear.valid 2) (by norm_num) ⟨by norm_num, by norm_num⟩,
    (clock_iff newYear 2).2.2 1 1 10 0 0 0 0 _ _ 10 18 (untorn_newYear (by norm_num)) (untorn_newYear (by norm_num))
      (by decide +kernel) le_rfl (by decide +kernel)⟩

theorem not_readLaw : ¬ ReadLaw newYear 0 ∧
    timeNowSeconds newYear.registers 1 0 0 0 = some (1735689659, 8) ∧
    timeNowSeconds newYear.registers 1 8 0 0 = some (1735689600, 16) := by
  refine ⟨fun h => ?_, by decide +kernel, by decide +kernel⟩
  have hminute := (readLaw_iff.1 h).minute
  rw [Clock.settled_of_clear rfl] at hminute
  cases hminute

end Tnu.Cmos

import Mathlib.Order.Monotone.Basic
import Mathlib.Tactic.IntervalCases

/-!
# The Gregorian calendar

Years, months and dates, counted from the first of January of the year 0 by the rules in force
today. `days` is the number of days up to a date, and a year that starts in March has its leap day
at its end, so that its months start at fixed days.
-/

namespace Calendar

def IsLeap (y : ℕ) : Prop := y % 4 = 0 ∧ (y % 100 ≠ 0 ∨ y % 400 = 0)

instance (y : ℕ) : Decidable (IsLeap y) := inferInstanceAs (Decidable (_ ∧ _))

def daysInYear (y : ℕ) : ℕ := if IsLeap y then 366 else 365

/-- Months are counted from 1. -/
def daysInMonth (y m : ℕ) : ℕ :=
  if m = 2 then if IsLeap y then 29 else 28
  else if m = 4 ∨ m = 6 ∨ m = 9 ∨ m = 11 then 30
  else 31

/-- The days of the years before `y`. -/
def daysBeforeYear : ℕ → ℕ
  | 0 => 0
  | y + 1 => daysBeforeYear y + daysInYear y

/-- The days of the first `m` months of the year `y`. -/
def daysInMonths (y : ℕ) : ℕ → ℕ
  | 0 => 0
  | m + 1 => daysInMonths y m + daysInMonth y (m + 1)

/-- The number of the day `y`-`m`-`d`. -/
def days (y m d : ℕ) : ℕ := daysBeforeYear y + daysInMonths y (m - 1) + (d - 1)

@[ext]
structure Date where
  year : ℕ
  month : ℕ
  day : ℕ
  month_pos : 1 ≤ month
  month_le : month ≤ 12
  day_pos : 1 ≤ day
  day_le : day ≤ daysInMonth year month

def Date.days (d : Date) : ℕ := Calendar.days d.year d.month d.day

/-- A second of a day. -/
@[ext]
structure Moment where
  date : Date
  hour : ℕ
  minute : ℕ
  second : ℕ
  hour_lt : hour < 24
  minute_lt : minute < 60
  second_lt : second < 60

/-- The seconds up to a moment. -/
def Moment.seconds (t : Moment) : ℕ :=
  t.date.days * 86400 + t.hour * 3600 + t.minute * 60 + t.second

/-! ## Years -/

theorem daysBeforeYear_eq (y : ℕ) :
    daysBeforeYear y + (y + 99) / 100 = 365 * y + (y + 3) / 4 + (y + 399) / 400 := by
  induction y with
  | zero => rfl
  | succ y ih =>
    rw [daysBeforeYear, daysInYear]
    -- the quotients step up in the years divisible by 4, by 100 and by 400
    by_cases h₄ : y % 4 = 0
    · by_cases h₁₀₀ : y % 100 = 0
      · by_cases h₄₀₀ : y % 400 = 0
        · have hleap : IsLeap y := ⟨h₄, .inr h₄₀₀⟩
          rw [if_pos hleap]
          omega
        · have hleap : ¬ IsLeap y := fun h => h.2.elim (· h₁₀₀) h₄₀₀
          rw [if_neg hleap]
          omega
      · have hleap : IsLeap y := ⟨h₄, .inl h₁₀₀⟩
        rw [if_pos hleap]
        omega
    · have hleap : ¬ IsLeap y := fun h => h₄ h.1
      have hfour : (y + 1 + 3) / 4 = (y + 3) / 4 := by omega
      have hhundred : (y + 1 + 99) / 100 = (y + 99) / 100 := by omega
      have hcycle : (y + 1 + 399) / 400 = (y + 399) / 400 := by omega
      rw [if_neg hleap, hfour, hhundred, hcycle]
      omega

theorem daysBeforeYear_mono : Monotone daysBeforeYear :=
  monotone_nat_of_le_succ fun _ => Nat.le_add_right _ _

theorem daysInMonths_mono (y : ℕ) : Monotone (daysInMonths y) :=
  monotone_nat_of_le_succ fun _ => Nat.le_add_right _ _

theorem daysInMonths_twelve (y : ℕ) : daysInMonths y 12 = daysInYear y := by
  by_cases h : IsLeap y <;> simp [daysInMonths, daysInMonth, daysInYear, h]

theorem daysInMonth_le (y m : ℕ) : daysInMonth y m ≤ 31 := by
  unfold daysInMonth
  split_ifs <;> omega

/-! ## Dates -/

/-- The index of the step of a monotone sequence that a number lies on. -/
theorem index_unique {f : ℕ → ℕ} (hf : Monotone f) {a b n : ℕ} (ha : f a ≤ n)
    (ha' : n < f (a + 1)) (hb : f b ≤ n) (hb' : n < f (b + 1)) : a = b := by
  rcases Nat.lt_trichotomy a b with h | h | h
  · have hle : f (a + 1) ≤ f b := hf h
    omega
  · exact h
  · have hle : f (b + 1) ≤ f a := hf h
    omega

namespace Date

variable (d : Date)

theorem day_lt : daysInMonths d.year (d.month - 1) + (d.day - 1) < daysInMonths d.year d.month := by
  obtain ⟨m, hm⟩ := Nat.exists_eq_add_of_le' d.month_pos
  have hday := d.day_le
  have hpos := d.day_pos
  rw [hm] at hday ⊢
  simp only [Nat.add_sub_cancel, daysInMonths]
  omega

theorem days_lt : d.days < daysBeforeYear (d.year + 1) := by
  have hday := d.day_lt
  have hmonth : daysInMonths d.year d.month ≤ daysInYear d.year :=
    daysInMonths_twelve d.year ▸ daysInMonths_mono d.year d.month_le
  rw [daysBeforeYear, days, Calendar.days]
  omega

theorem le_days : daysBeforeYear d.year ≤ d.days := by
  unfold days Calendar.days
  omega

/-- Different dates have different numbers. -/
theorem days_injective : Function.Injective days := by
  intro d e h
  have hyear : d.year = e.year :=
    index_unique daysBeforeYear_mono d.le_days d.days_lt (h ▸ e.le_days) (h ▸ e.days_lt)
  have hd := d.day_lt
  have he := e.day_lt
  have hrest : daysInMonths d.year (d.month - 1) + (d.day - 1)
      = daysInMonths d.year (e.month - 1) + (e.day - 1) := by
    unfold days Calendar.days at h
    rw [← hyear] at h
    omega
  have hdm : d.month - 1 + 1 = d.month := Nat.sub_add_cancel d.month_pos
  have hem : e.month - 1 + 1 = e.month := Nat.sub_add_cancel e.month_pos
  have hmonth : d.month - 1 = e.month - 1 := by
    rw [← hyear] at he
    refine index_unique (daysInMonths_mono d.year) (Nat.le_add_right _ (d.day - 1)) ?_ ?_ ?_
    · rwa [hdm]
    · rw [hrest]
      exact Nat.le_add_right _ _
    · rwa [hem, hrest]
  have hday : d.day - 1 = e.day - 1 := by
    rw [hmonth] at hrest
    exact Nat.add_left_cancel hrest
  have := d.day_pos
  have := e.day_pos
  exact Date.ext hyear (by omega) (by omega)

end Date

/-- Different moments have different numbers. -/
theorem Moment.seconds_injective : Function.Injective Moment.seconds := by
  intro t u h
  have ht := And.intro t.hour_lt (And.intro t.minute_lt t.second_lt)
  have hu := And.intro u.hour_lt (And.intro u.minute_lt u.second_lt)
  unfold seconds at h
  have hdays : t.date.days = u.date.days := by omega
  exact Moment.ext (Date.days_injective hdays) (by omega) (by omega) (by omega)

/-! ## Years that start in March -/

/-- The days from the first of March to the first of the month `m` months later. -/
def marchDays (m : ℕ) : ℕ := (153 * m + 2) / 5

theorem daysInMonths_march {y m : ℕ} (h : m < 10) :
    daysInMonths y (m + 2) + 306 = daysInYear y + marchDays m := by
  by_cases hy : IsLeap y <;> interval_cases m <;>
    simp [daysInMonths, daysInMonth, daysInYear, marchDays, hy]

theorem marchDays_succ {y m : ℕ} (h : m < 11) :
    marchDays (m + 1) = marchDays m + daysInMonth y (if m < 10 then m + 3 else m - 9) := by
  interval_cases m <;> simp [daysInMonth, marchDays]

/-- The number of day `d`, counted from 0, of the month `m` months after the March of the year
`y`. -/
theorem days_march {y m d : ℕ} (h : m < 12) :
    days (if m < 10 then y else y + 1) (if m < 10 then m + 3 else m - 9) (d + 1) + 306
      = daysBeforeYear (y + 1) + marchDays m + d := by
  unfold days
  by_cases hm : m < 10
  · have hmonths := daysInMonths_march (y := y) hm
    have hpred : m + 3 - 1 = m + 2 := by omega
    rw [if_pos hm, if_pos hm, daysBeforeYear, hpred]
    omega
  · have hcases : m = 10 ∨ m = 11 := by omega
    rw [if_neg hm, if_neg hm]
    rcases hcases with rfl | rfl <;> simp [daysInMonths, daysInMonth, marchDays] <;> omega

theorem marchDays_le {n : ℕ} (h : n ≤ 365) :
    (5 * n + 2) / 153 < 12 ∧ marchDays ((5 * n + 2) / 153) ≤ n
      ∧ n < marchDays ((5 * n + 2) / 153 + 1) := by
  unfold marchDays
  omega

/-- The date of day `n`, counted from 0, of the year that starts in the March of `y`, in the
month `m` months later. -/
theorem exists_date_march {y m n : ℕ} (hm : m < 12) (hle : marchDays m ≤ n)
    (hlt : n < marchDays (m + 1)) (hn : n < 365 ∨ n = 365 ∧ IsLeap (y + 1)) :
    ∃ d : Date, d.year = (if m < 10 then y else y + 1)
      ∧ d.month = (if m < 10 then m + 3 else m - 9) ∧ d.day = n - marchDays m + 1
      ∧ d.days + 306 = daysBeforeYear (y + 1) + n := by
  have hday : n - marchDays m + 1
      ≤ daysInMonth (if m < 10 then y else y + 1) (if m < 10 then m + 3 else m - 9) := by
    by_cases h : m < 11
    · have hmonth := marchDays_succ (y := if m < 10 then y else y + 1) h
      omega
    · obtain rfl : m = 11 := by omega
      simp only [marchDays] at hle ⊢
      rcases hn with hn | ⟨hn, hleap⟩
      · simp only [daysInMonth]
        split_ifs <;> omega
      · simp [daysInMonth, hleap, hn]
  refine ⟨⟨_, _, _, ?_, ?_, Nat.le_add_left 1 _, hday⟩, rfl, rfl, rfl, ?_⟩
  · split <;> omega
  · split <;> omega
  · refine (days_march hm).trans ?_
    rw [Nat.add_assoc, Nat.add_sub_cancel' hle]

/-! ## The cycle of 400 years -/

/-- A day of a cycle of 400 years from a March on, by its century, four years and year; the last
day of four years, and of four centuries, has a year's last place to itself. -/
theorem cycle_split {n : ℕ} (h : n < 146097) : ∃ c q r d, c ≤ 3 ∧ q ≤ 24 ∧ r ≤ 3 ∧ d ≤ 365
    ∧ n = 36524 * c + 1461 * q + 365 * r + d
    ∧ (d = 365 → r = 3 ∧ (q = 24 → c = 3)) := by
  obtain ⟨c, k, hc, hk, hn, hlast⟩ : ∃ c k, c ≤ 3 ∧ k ≤ 36524 ∧ n = 36524 * c + k
      ∧ (k = 36524 → c = 3) :=
    ⟨min 3 (n / 36524), n - 36524 * min 3 (n / 36524), by omega⟩
  obtain ⟨q, l, hl, hkq⟩ : ∃ q l, l < 1461 ∧ k = 1461 * q + l :=
    ⟨k / 1461, k % 1461, Nat.mod_lt _ (by decide), (Nat.div_add_mod _ _).symm⟩
  exact ⟨c, q, min 3 (l / 365), l - 365 * min 3 (l / 365), by omega⟩

def yearOfCycle (n : ℕ) : ℕ := (n - n / 1460 + n / 36524 - n / 146096) / 365

theorem yearOfCycle_eq {c q r d : ℕ} (hc : c ≤ 3) (hq : q ≤ 24) (hr : r ≤ 3) (hd : d ≤ 365)
    (hleap : d = 365 → r = 3 ∧ (q = 24 → c = 3)) :
    yearOfCycle (36524 * c + 1461 * q + 365 * r + d) = 100 * c + 4 * q + r := by
  obtain ⟨n, hn⟩ : ∃ n, n = 36524 * c + 1461 * q + 365 * r + d := ⟨_, rfl⟩
  have hlast : 1461 * q + 365 * r + d < 36524 ∨ n = 146096 ∧ c = 3 := by
    rcases Nat.lt_or_eq_of_le hd with h | h
    · exact .inl (by omega)
    · obtain ⟨rfl, hc3⟩ := hleap h
      rcases Nat.lt_or_eq_of_le hq with hq | hq
      · exact .inl (by omega)
      · exact .inr ⟨by have := hc3 hq; omega, hc3 hq⟩
  have hcentury : n / 36524 = c + n / 146096 := by
    rcases hlast with hlast | ⟨rfl, rfl⟩
    · have hdiv : n / 36524 = c := Nat.div_eq_of_lt_le (by omega) (by omega)
      omega
    · rfl
  have hfour : n / 1460 = 25 * c + q ∧ d < 365 ∨ n / 1460 = 25 * c + q + 1 ∧ 1 ≤ d := by
    rcases Nat.lt_or_eq_of_le hd with h | h
    · by_cases hlate : 1460 ≤ 24 * c + q + 365 * r + d
      · exact .inr (by omega)
      · exact .inl (by omega)
    · obtain ⟨rfl, -⟩ := hleap h
      exact .inr (by omega)
  have hrest : ∃ e < 365, n - n / 1460 + (c + n / 146096) - n / 146096
      = 365 * (100 * c + 4 * q + r) + e := by
    rcases hfour with ⟨hfour, hlt⟩ | ⟨hfour, hpos⟩
    · exact ⟨d, hlt, by omega⟩
    · exact ⟨d - 1, by omega, by omega⟩
  obtain ⟨e, he, hsum⟩ := hrest
  rw [← hn, yearOfCycle, hcentury, hsum, Nat.mul_add_div (by decide), Nat.div_eq_of_lt he,
    Nat.add_zero]

end Calendar

import Communicator.Lib.Calendar
import Communicator.Message

/-!
# What a printed time says

`otime_to_string` counts seconds from the beginning of 2009. The date it prints is one of the
calendar, as many days and seconds behind that moment as it was given, and the text has a fixed
layout, so that the number can be read back from it.
-/

namespace Communicator

open Calendar (Date Moment daysBeforeYear)

/-- The days before 1970. -/
def epoch : ℕ := 719528

/-- `gmtime` gives a date of the calendar, with the day's number. -/
theorem gmtime_date (unixTime : ℕ) : ∃ d : Date, d.year = (gmtime unixTime).year
    ∧ d.month = (gmtime unixTime).mon ∧ d.day = (gmtime unixTime).mday
    ∧ d.days = unixTime / 86400 + epoch := by
  obtain ⟨z, hz⟩ : ∃ z, z = unixTime / 86400 + 719468 := ⟨_, rfl⟩
  obtain ⟨c, q, r, n, hc, hq, hr, hn, hsplit, hleap⟩ :=
    Calendar.cycle_split (Nat.mod_lt z (by decide : 0 < 146097))
  obtain ⟨y, hy⟩ : ∃ y, y = 100 * c + 4 * q + r := ⟨_, rfl⟩
  have hyear : Calendar.yearOfCycle (z % 146097) = y := by
    rw [hsplit, hy]
    exact Calendar.yearOfCycle_eq hc hq hr hn hleap
  have hfour : y / 4 = 25 * c + q := by omega
  have hcentury : y / 100 = c := by omega
  have hday : z % 146097 - (365 * y + y / 4 - y / 100) = n := by omega
  obtain ⟨Y, hY⟩ : ∃ Y, Y = y + z / 146097 * 400 := ⟨_, rfl⟩
  have hlast : n < 365 ∨ n = 365 ∧ Calendar.IsLeap (Y + 1) := by
    rcases Nat.lt_or_eq_of_le hn with h | h
    · exact .inl (by omega)
    · obtain ⟨rfl, hcentury⟩ := hleap h
      refine .inr ⟨h, ?_⟩
      unfold Calendar.IsLeap
      omega
  obtain ⟨hm, hle, hlt⟩ := Calendar.marchDays_le hn
  obtain ⟨d, hdyear, hdmonth, hdday, hdays⟩ := Calendar.exists_date_march hm hle hlt hlast
  have hnumber : d.days = unixTime / 86400 + epoch := by
    have h₄ : (Y + 1 + 3) / 4 = 100 * (z / 146097) + 25 * c + q + 1 := by omega
    have h₁₀₀ : (Y + 1 + 99) / 100 = 4 * (z / 146097) + c + 1 := by omega
    have h₄₀₀ : (Y + 1 + 399) / 400 = z / 146097 + 1 := by omega
    have hbefore := Calendar.daysBeforeYear_eq (Y + 1)
    rw [h₄, h₁₀₀, h₄₀₀] at hbefore
    unfold epoch
    omega
  unfold Calendar.yearOfCycle at hyear
  unfold gmtime
  simp only [← hz, hyear, hday]
  refine ⟨d, ?_, hdmonth, hdday, hnumber⟩
  rw [hdyear, ← hY]
  by_cases h : (5 * n + 2) / 153 < 10
  · rw [if_pos h, if_pos h, if_neg (by omega), Nat.add_zero]
  · rw [if_neg h, if_neg h, if_pos (by omega)]

/-- The layout of a printed moment. -/
def momentText (t : Moment) : Text :=
  paddedText 2 t.date.day ++ text "." ++ paddedText 2 t.date.month ++ text "."
    ++ paddedText 4 t.date.year ++ text " " ++ paddedText 2 t.hour ++ text ":"
    ++ paddedText 2 t.minute ++ text ":" ++ paddedText 2 t.second

/-- The moment that is `t` seconds behind the beginning of 2009. -/
theorem otimeToString_moment (t : ℕ) : ∃ m : Moment,
    otimeToString t = momentText m ∧ m.seconds = daysBeforeYear 2009 * 86400 + t := by
  obtain ⟨d, hyear, hmonth, hday, hdays⟩ := gmtime_date (t + omnicommTimeBase)
  have hsec : (t + omnicommTimeBase) % 86400 < 86400 := Nat.mod_lt _ (by decide)
  refine ⟨⟨d, (gmtime (t + omnicommTimeBase)).hour, (gmtime (t + omnicommTimeBase)).min,
    (gmtime (t + omnicommTimeBase)).sec, ?_, ?_, ?_⟩, ?_, ?_⟩
  · exact Nat.div_lt_of_lt_mul hsec
  · exact Nat.mod_lt _ (by decide)
  · exact Nat.mod_lt _ (by decide)
  · rw [momentText, hyear, hmonth, hday]
    rfl
  · have hbase := Calendar.daysBeforeYear_eq 2009
    simp only [Moment.seconds, hdays, gmtime]
    unfold epoch omnicommTimeBase
    omega

/-- The number that a string of decimal digits is. -/
def readUnsigned (s : Text) : ℕ := Nat.ofDigitChars 10 (s.map fun b => Char.ofNat b.toNat) 0

theorem char_of_byte {c : Char} (h : c.toNat < 256) :
    Char.ofNat (UInt8.ofNat c.toNat).toNat = c := by
  rw [UInt8.toNat_ofNat', Nat.mod_eq_of_lt h, Char.ofNat_toNat]

theorem digit_lt {c : Char} (h : c.isDigit = true) : c.toNat < 256 := by
  have hc : 48 ≤ c.toNat ∧ c.toNat ≤ 57 := by
    simp only [Char.isDigit, ge_iff_le, Bool.and_eq_true, decide_eq_true_eq] at h
    exact h
  omega

theorem chars_of_bytes {l : List Char} (h : ∀ c ∈ l, c.toNat < 256) :
    (l.map fun c => UInt8.ofNat c.toNat).map (fun b => Char.ofNat b.toNat) = l := by
  rw [List.map_map]
  exact (List.map_congr_left fun c hc => char_of_byte (h c hc)).trans (List.map_id _)

theorem chars_unsignedText (n : ℕ) :
    (unsignedText n).map (fun b => Char.ofNat b.toNat) = Nat.toDigits 10 n :=
  chars_of_bytes fun _ hc =>
    digit_lt (Nat.isDigit_of_mem_toDigits (by decide) (by decide) hc)

@[simp]
theorem readUnsigned_unsignedText (n : ℕ) : readUnsigned (unsignedText n) = n := by
  rw [readUnsigned, chars_unsignedText, Nat.ofDigitChars_ten_toDigits]

/-- Zeros in front make no difference. -/
@[simp]
theorem readUnsigned_paddedText (w n : ℕ) : readUnsigned (paddedText w n) = n := by
  have hzero : Char.ofNat (0x30 : UInt8).toNat = '0' := rfl
  rw [readUnsigned, paddedText, List.map_append, List.map_replicate, hzero,
    Nat.ofDigitChars_append, Nat.ofDigitChars_replicate_zero, chars_unsignedText, Nat.mul_zero,
    Nat.ofDigitChars_ten_toDigits]

theorem length_paddedText {w n : ℕ} (hw : 0 < w) (h : n < 10 ^ w) :
    (paddedText w n).length = w := by
  have hlen : (unsignedText n).length ≤ w := by
    rw [unsignedText, List.length_map]
    exact (Nat.length_toDigits_le_iff (by decide) hw).2 h
  rw [paddedText, List.length_append, List.length_replicate, Nat.sub_add_cancel hlen]

/-- A number of `w` digits, and what is behind the character that follows it. -/
def readField (w : ℕ) (s : Text) : ℕ × Text := (readUnsigned (s.take w), s.drop (w + 1))

/-- The seconds up to a printed moment. -/
def readSeconds (s : Text) : ℕ :=
  let day := readField 2 s
  let month := readField 2 day.2
  let year := readField 4 month.2
  let hour := readField 2 year.2
  let minute := readField 2 hour.2
  let second := readField 2 minute.2
  Calendar.days year.1 month.1 day.1 * 86400 + hour.1 * 3600 + minute.1 * 60 + second.1

theorem readField_append {w n : ℕ} (hw : 0 < w) (h : n < 10 ^ w) (b : UInt8) (rest : Text) :
    readField w (paddedText w n ++ b :: rest) = (n, rest) := by
  have hlen := length_paddedText hw h
  rw [readField, List.take_left' hlen, readUnsigned_paddedText, ← List.drop_drop,
    List.drop_left' hlen, List.drop_one, List.tail_cons]

theorem readField_self {w n : ℕ} (hw : 0 < w) (h : n < 10 ^ w) :
    readField w (paddedText w n) = (n, []) := by
  have hlen := length_paddedText hw h
  rw [readField, List.take_of_length_le hlen.le, readUnsigned_paddedText,
    List.drop_of_length_le (by omega)]

theorem fields_lt (m : Moment) : m.date.day < 10 ^ 2 ∧ m.date.month < 10 ^ 2
    ∧ m.hour < 10 ^ 2 ∧ m.minute < 10 ^ 2 ∧ m.second < 10 ^ 2 := by
  have hday := m.date.day_le.trans (Calendar.daysInMonth_le _ _)
  have hmonth := m.date.month_le
  have hhour := m.hour_lt
  have hminute := m.minute_lt
  have hsecond := m.second_lt
  omega

theorem length_momentText {m : Moment} (hyear : m.date.year < 10 ^ 4) :
    (momentText m).length = 19 := by
  obtain ⟨hday, hmonth, hhour, hminute, hsecond⟩ := fields_lt m
  have hpos : 0 < 2 := by decide
  have hmark : ∀ s : String, s ∈ [".", " ", ":"] → (text s).length = 1 := by decide
  simp only [momentText, List.length_append, length_paddedText hpos hday,
    length_paddedText hpos hmonth, length_paddedText (by decide) hyear,
    length_paddedText hpos hhour, length_paddedText hpos hminute, length_paddedText hpos hsecond,
    hmark "." (by simp), hmark " " (by simp), hmark ":" (by simp)]

theorem readSeconds_momentText {m : Moment} (hyear : m.date.year < 10 ^ 4) :
    readSeconds (momentText m) = m.seconds := by
  obtain ⟨hday, hmonth, hhour, hminute, hsecond⟩ := fields_lt m
  have hpos : 0 < 2 := by decide
  have hdot : text "." = [0x2E] := rfl
  have hblank : text " " = [0x20] := rfl
  have hcolon : text ":" = [0x3A] := rfl
  simp only [momentText, hdot, hblank, hcolon, List.append_assoc, List.cons_append, List.nil_append,
    readSeconds, readField_append hpos hday, readField_append hpos hmonth,
    readField_append (by decide) hyear, readField_append hpos hhour,
    readField_append hpos hminute, readField_self hpos hsecond]
  rfl

theorem year_lt {m : Moment} {t : ℕ} (hm : m.seconds = daysBeforeYear 2009 * 86400 + t)
    (ht : t < 2 ^ 32) : m.date.year < 10 ^ 4 := by
  by_contra hyear
  have hle := (Calendar.daysBeforeYear_mono (not_lt.1 hyear)).trans m.date.le_days
  have hfirst := Calendar.daysBeforeYear_eq 2009
  have hlast := Calendar.daysBeforeYear_eq (10 ^ 4)
  unfold Moment.seconds at hm
  omega

/-- A time of 32 bits is printed as the 19 characters of a date of the calendar and a time of
that day, the only ones as many seconds behind the beginning of 2009, and reading them gives that
number. -/
theorem time_text (t : UInt32) : ∃ m : Moment, otimeToString t.toNat = momentText m
    ∧ m.seconds = daysBeforeYear 2009 * 86400 + t.toNat
    ∧ (∀ m' : Moment, m'.seconds = daysBeforeYear 2009 * 86400 + t.toNat → m' = m)
    ∧ (otimeToString t.toNat).length = 19
    ∧ readSeconds (otimeToString t.toNat) = m.seconds := by
  obtain ⟨m, htext, hseconds⟩ := otimeToString_moment t.toNat
  have hyear := year_lt hseconds t.toNat_lt
  have honly : ∀ m' : Moment, m'.seconds = daysBeforeYear 2009 * 86400 + t.toNat → m' = m :=
    fun m' h => Moment.seconds_injective (h.trans hseconds.symm)
  rw [htext]
  exact ⟨m, rfl, hseconds, honly, length_momentText hyear, readSeconds_momentText hyear⟩

example : otimeToString (2 ^ 32 - 1) = text "07.02.2145 06:28:15" := by decide +kernel

end Communicator

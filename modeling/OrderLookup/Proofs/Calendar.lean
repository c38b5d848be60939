import OrderLookup.Calendar

/-!
Counting days to a date and back. A day of an era falls into one of its 400 years and a day of
such a year into one of its twelve months, which makes every counted day a valid date with that
count.
-/

namespace OrderLookup.Date

def yearOf (e : Nat) : Nat := (e - e / 1460 + e / 36524 - e / 146096) / 365

theorem yearOf_parts {e c a b : Nat} (he : e = 36524 * c + 1461 * a + b) (hc : c ≤ 3)
    (ha : a ≤ 24) (hb : b ≤ 1460) (hab : a = 24 → b ≤ 1459) :
    ∃ g ≤ 3, yearOf e = 100 * c + 4 * a + g ∧ 365 * g ≤ b ∧
      (b < 365 * g + 365 ∨ b = 1460 ∧ g = 3) := by
  have hcentury : e / 36524 = c := by omega
  have hlast : e / 146096 = 0 := by omega
  have hspan : e / 1460 = 25 * c + a + (24 * c + a + b) / 1460 := by omega
  rw [yearOf, hcentury, hlast, hspan]
  refine ⟨(b - (24 * c + a + b) / 1460) / 365, ?_, ?_, ?_, ?_⟩ <;> omega

theorem daysBeforeYear_parts {c a g : Nat} (ha : a ≤ 24) (hg : g ≤ 3) :
    daysBeforeYear (100 * c + 4 * a + g) = 36524 * c + 1461 * a + 365 * g := by
  have hfour : (100 * c + 4 * a + g) / 4 = 25 * c + a := by omega
  have hhundred : (100 * c + 4 * a + g) / 100 = c := by omega
  rw [daysBeforeYear, hfour, hhundred]
  omega

theorem yearOf_spec {e : Nat} (h : e < eraDays) :
    yearOf e < 400 ∧ daysBeforeYear (yearOf e) ≤ e ∧ (e < daysBeforeYear (yearOf e) + 365 ∨
      e = daysBeforeYear (yearOf e) + 365 ∧ (yearOf e + 1) % 4 = 0 ∧
        ((yearOf e + 1) % 100 ≠ 0 ∨ (yearOf e + 1) % 400 = 0)) := by
  rw [eraDays] at h
  by_cases hlast : e = 146096
  · subst hlast
    decide
  · have hf : e % 36524 < 36524 := Nat.mod_lt _ (by decide)
    have hb : e % 36524 % 1461 < 1461 := Nat.mod_lt _ (by decide)
    obtain ⟨g, hg, hy, hle, hlt⟩ := yearOf_parts (e := e) (c := e / 36524)
      (a := e % 36524 / 1461) (b := e % 36524 % 1461) (by omega) (by omega) (by omega) (by omega)
      (by omega)
    rw [hy, daysBeforeYear_parts (by omega) hg]
    omega

def era (n : Int) : Int := (n + epochShift) / eraDays

def dayOfEra (n : Int) : Nat := ((n + epochShift) % eraDays).toNat

def dayOfYear (n : Int) : Nat := dayOfEra n - daysBeforeYear (yearOf (dayOfEra n))

def monthOf (d : Nat) : Nat := (5 * d + 2) / 153

def monthNumber (k : Nat) : Nat := if k < 10 then k + 3 else k - 9

theorem ofDays_eq (n : Int) :
    let k := monthOf (dayOfYear n)
    let year := era n * 400 + yearOf (dayOfEra n)
    ofDays n = ⟨if monthNumber k ≤ 2 then year + 1 else year, monthNumber k,
      dayOfYear n - daysBeforeMonth k + 1⟩ := rfl

theorem monthOf_spec : ∀ d < 366, monthOf d < 12 ∧ daysBeforeMonth (monthOf d) ≤ d ∧
    (monthNumber (monthOf d) = 2 → d - daysBeforeMonth (monthOf d) + 1 ≤ 28 ∨ d = 365) ∧
    d - daysBeforeMonth (monthOf d) + 1 ≤ daysInMonth 0 (monthNumber (monthOf d)) := by
  decide +kernel

theorem monthNumber_spec : ∀ k < 12, 1 ≤ monthNumber k ∧ monthNumber k ≤ 12 ∧
    marchMonth (monthNumber k) = k ∧ (monthNumber k ≤ 2 ↔ 10 ≤ k) := by
  decide

theorem dayOfEra_spec (n : Int) :
    dayOfEra n < eraDays ∧ n = era n * eraDays + dayOfEra n - epochShift := by
  simp only [dayOfEra, era, eraDays, epochShift]
  omega

theorem dayOfYear_spec (n : Int) :
    (dayOfEra n : Int) = daysBeforeYear (yearOf (dayOfEra n)) + dayOfYear n ∧
      dayOfYear n < 366 ∧
        (dayOfYear n = 365 → isLeapYear (era n * 400 + yearOf (dayOfEra n) + 1)) := by
  obtain ⟨-, hle, hlt⟩ := yearOf_spec (dayOfEra_spec n).1
  have hd : dayOfYear n = dayOfEra n - daysBeforeYear (yearOf (dayOfEra n)) := rfl
  refine ⟨by omega, by omega, fun hlast => ?_⟩
  simp only [isLeapYear, Bool.and_eq_true, Bool.or_eq_true, beq_iff_eq, bne_iff_ne]
  omega

theorem days_ofDays (n : Int) : (ofDays n).days = n := by
  obtain ⟨hlt, hn⟩ := dayOfEra_spec n
  obtain ⟨hy, -, -⟩ := yearOf_spec hlt
  obtain ⟨he, hd, -⟩ := dayOfYear_spec n
  obtain ⟨hk, hle, -, -⟩ := monthOf_spec _ hd
  obtain ⟨-, -, hmarch, -⟩ := monthNumber_spec _ hk
  rw [ofDays_eq]
  generalize hyear : era n * 400 + (yearOf (dayOfEra n) : Int) = year
  have hmarchYear : (if monthNumber (monthOf (dayOfYear n)) ≤ 2 then
      (if monthNumber (monthOf (dayOfYear n)) ≤ 2 then year + 1 else year) - 1
      else if monthNumber (monthOf (dayOfYear n)) ≤ 2 then year + 1 else year) = year := by
    split <;> omega
  have hera : year / 400 = era n := by omega
  have hofEra : (year % 400).toNat = yearOf (dayOfEra n) := by omega
  rw [days]
  simp only [hmarchYear, hmarch, hera, hofEra]
  omega

theorem daysInMonth_eq {y : Int} {m : Nat} (h : m ≠ 2) : daysInMonth y m = daysInMonth 0 m := by
  have hm : (m == 2) = false := by simpa using h
  simp [daysInMonth, hm]

theorem daysInMonth_le (y : Int) (m : Nat) : daysInMonth y m ≤ 31 := by
  rw [daysInMonth]
  split
  · split <;> decide
  · split <;> decide

theorem daysInFebruary (y : Int) :
    28 ≤ daysInMonth y 2 ∧ (isLeapYear y = true → daysInMonth y 2 = 29) := by
  have hdays : daysInMonth y 2 = if isLeapYear y then 29 else 28 := rfl
  rw [hdays]
  split <;> simp_all

theorem isValid_ofDays (n : Int) : (ofDays n).isValid = true := by
  obtain ⟨-, hd, hleap⟩ := dayOfYear_spec n
  obtain ⟨hk, -, hfeb, hday⟩ := monthOf_spec _ hd
  obtain ⟨hone, htwelve, -, htwo⟩ := monthNumber_spec _ hk
  rw [ofDays_eq]
  simp only [isValid, Bool.and_eq_true, decide_eq_true_eq]
  refine ⟨⟨⟨hone, htwelve⟩, by omega⟩, ?_⟩
  by_cases hm : monthNumber (monthOf (dayOfYear n)) = 2
  · -- The leap day is the last one of a year, so only a full year has it.
    rw [if_pos (by omega)]
    rw [hm] at hday ⊢
    rcases hfeb hm with hshort | hlast
    · exact Nat.le_trans hshort (daysInFebruary _).1
    · rw [(daysInFebruary _).2 (hleap hlast)]
      exact hday
  · rw [daysInMonth_eq hm]
    exact hday

/-- The years of the days that a range of 524286 years covers. -/
theorem year_ofDays {n : Int} (h : -96465292 ≤ n) (h' : n ≤ 95026236) :
    -262143 ≤ (ofDays n).year ∧ (ofDays n).year ≤ 262142 := by
  obtain ⟨hlt, hn⟩ := dayOfEra_spec n
  obtain ⟨hy, -, -⟩ := yearOf_spec hlt
  obtain ⟨he, hd, -⟩ := dayOfYear_spec n
  obtain ⟨hk, -, -, -⟩ := monthOf_spec _ hd
  obtain ⟨-, -, -, htwo⟩ := monthNumber_spec _ hk
  have hten : 10 ≤ monthOf (dayOfYear n) ↔ 306 ≤ dayOfYear n := by
    rw [monthOf]
    omega
  rw [ofDays_eq]
  simp only [eraDays, epochShift, daysBeforeYear] at hn he hlt
  dsimp only
  constructor
  · rcases Int.lt_trichotomy (era n) (-656) with hera | hera | hera <;> split <;> omega
  · rcases Int.lt_trichotomy (era n) 655 with hera | hera | hera <;> split <;> omega

end OrderLookup.Date

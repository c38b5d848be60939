import OrderLookup.Instant.Rfc3339
import OrderLookup.Proofs.Calendar
import OrderLookup.Proofs.Text.Decimal

/-!
Written instants are read back, whatever their year, with or without decimals of the second and
also in a leap second.
-/

namespace OrderLookup.Instant

open Text

variable {n w most low high : Nat} {c : Char} {d r : List Char} {y : Int}

theorem not_isBlank_of_isDigit (h : isDigit c = true) : isBlank c = false := by
  obtain ⟨hl, hu⟩ := isDigit_iff.1 h
  simp [isBlank]
  omega

theorem trimLeft_cons (h : isBlank c = false) : trimLeft (c :: r) = c :: r := by
  simp [trimLeft, h]

theorem trimLeft_digits (hd : ∀ c ∈ d, isDigit c = true) (hne : d ≠ []) :
    trimLeft (d ++ r) = d ++ r := by
  obtain ⟨c, cs, rfl⟩ := List.exists_cons_of_ne_nil hne
  exact trimLeft_cons (not_isBlank_of_isDigit (hd c (.head _)))

theorem number_digits (hd : ∀ c ∈ d, isDigit c = true) (hne : d ≠ []) (hmost : d.length ≤ most)
    (hr : most = d.length ∨ ∀ c ∈ r.head?, isDigit c = false) :
    number most (d ++ r) = .ok (value d, r) := by
  have htake : ((d ++ r).take most).takeWhile isDigit = d := by
    rw [List.take_append, List.take_of_length_le hmost, List.takeWhile_append_of_pos hd]
    rcases hr with rfl | hr
    · simp
    · cases r with
      | nil => simp
      | cons c r =>
        cases hm : most - d.length with
        | zero => simp
        | succ k => simp [hr c rfl]
  have hempty : d.isEmpty = false := by simpa using hne
  simp only [number, htake, hempty, Bool.false_eq_true, if_false, List.drop_left]

theorem field_padded (hn : n < 100) (hl : low ≤ n) (hh : n ≤ high) :
    field low high (padded 2 n ++ r) = .ok (n, r) := by
  have hd := isDigit_padded 2 n
  have hlen : (padded 2 n).length = 2 := length_padded hn (by decide)
  rw [field, trimLeft_digits hd (padded_ne_nil 2 n),
    number_digits hd (padded_ne_nil 2 n) (by omega) (Or.inl hlen.symm), value_padded]
  simp [Bind.bind, Except.bind, hl, hh, pure, Except.pure]

theorem mark_cons (h : isBlank c = false) : mark c (c :: r) = .ok ((), r) := by
  rw [mark, trimLeft_cons h]
  simp

theorem signedYear_padded (hy : n < 10000) : signedYear (padded 4 n ++ r) = .ok ((n : Int), r) := by
  have hd := isDigit_padded 4 n
  have hlen : (padded 4 n).length = 4 := length_padded hy (by decide)
  have hnumber : number 4 (padded 4 n ++ r) = .ok (value (padded 4 n), r) :=
    number_digits hd (padded_ne_nil 4 n) (Nat.le_of_eq hlen) (Or.inl hlen.symm)
  have hhead : ∀ c r', padded 4 n ++ r = c :: r' → isDigit c = true := by
    intro c r' he
    obtain ⟨e, es, hes⟩ := List.exists_cons_of_ne_nil (padded_ne_nil 4 n)
    rw [hes] at he
    exact (List.cons.inj he).1 ▸ hd e (hes ▸ .head _)
  rw [signedYear, trimLeft_digits hd (padded_ne_nil 4 n)]
  split
  · rename_i he
    exact absurd (hhead _ _ he) (by decide)
  · rename_i he
    exact absurd (hhead _ _ he) (by decide)
  · rw [hnumber, value_padded]
    rfl

theorem number_signed (hr : ∀ c ∈ r.head?, isDigit c = false) :
    number (padded 4 n ++ r).length (padded 4 n ++ r) = .ok (n, r) := by
  rw [number_digits (isDigit_padded 4 n) (padded_ne_nil 4 n) (by simp) (Or.inr hr), value_padded]

theorem signedYear_text (hr : ∀ c ∈ r.head?, isDigit c = false) :
    signedYear (yearText y ++ r) = .ok (y, r) := by
  rw [yearText]
  split
  · rename_i hy
    rw [signedYear_padded (by omega), Int.toNat_of_nonneg hy.1]
  · split
    · rename_i hneg
      rw [List.cons_append, signedYear, trimLeft_cons (by decide)]
      simp only [number_signed hr, Except.map]
      rw [show -(y.natAbs : Int) = y by omega]
    · rename_i hneg
      rw [List.cons_append, signedYear, trimLeft_cons (by decide)]
      simp only [number_signed hr, Except.map]
      rw [show (y.natAbs : Int) = y by omega]

theorem year_text (h : -2147483648 ≤ y) (h' : y ≤ 2147483647)
    (hr : ∀ c ∈ r.head?, isDigit c = false) : year (yearText y ++ r) = .ok (y, r) := by
  rw [year, signedYear_text hr]
  simp [Bind.bind, Except.bind, h, h', pure, Except.pure]

theorem decimals_padded (hw : 0 < w) (hw' : w ≤ 9) (hn : n < Nat.pow 10 w) :
    decimals ('.' :: padded w n ++ ['Z']) = .ok (n * Nat.pow 10 (9 - w), ['Z']) := by
  have hlen := length_padded hn hw
  have hnumber : number 9 (padded w n ++ ['Z']) = .ok (value (padded w n), ['Z']) := by
    apply number_digits (isDigit_padded w n) (padded_ne_nil w n) (by omega)
    right
    intro c hc
    cases hc
    decide
  have htail : ['Z'].dropWhile isDigit = ['Z'] := by decide
  rw [List.cons_append, decimals, hnumber, value_padded]
  simp [Bind.bind, Except.bind, pure, Except.pure, hlen, htail]

theorem decimals_fraction (h : n < 1000000000) :
    decimals (shortFraction n ++ ['Z']) = .ok (n, ['Z']) := by
  have hmilli : n / 1000000 < Nat.pow 10 3 := Nat.div_lt_of_lt_mul h
  have hmicro : n / 1000 < Nat.pow 10 6 := Nat.div_lt_of_lt_mul h
  rw [shortFraction]
  split
  · rename_i hz
    rw [hz]
    rfl
  · split
    · rename_i hm
      rw [decimals_padded (by decide) (by decide) hmilli]
      change Except.ok (n / 1000000 * 1000000, ['Z']) = _
      rw [Nat.div_mul_cancel (Nat.dvd_of_mod_eq_zero hm)]
    · split
      · rename_i hm
        rw [decimals_padded (by decide) (by decide) hmicro]
        change Except.ok (n / 1000 * 1000, ['Z']) = _
        rw [Nat.div_mul_cancel (Nat.dvd_of_mod_eq_zero hm)]
      · rw [decimals_padded (by decide) (by decide) (by omega)]
        change Except.ok (n * 1, ['Z']) = _
        rw [Nat.mul_one]

variable (t : Instant)

theorem year_date : minYear ≤ t.date.year ∧ t.date.year ≤ maxYear := by
  have hfirst := t.first_le
  have hlast := t.le_last
  exact Date.year_ofDays (by omega) (by omega)

theorem assemble_parts :
    assemble t.date t.hour t.minute t.second t.subsecond 0 = .ok t := by
  obtain ⟨hmin, hmax⟩ := year_date t
  have hvalid : t.date.isValid = true := Date.isValid_ofDays _
  have hdays : t.date.days = t.seconds / 86400 := Date.days_ofDays _
  have hnanos := t.nanos_lt
  have hleap := t.leap
  have hday : (t.ofDay : Int) = t.seconds % 86400 := by
    rw [ofDay]
    omega
  have hsecond : t.second = t.ofDay % 60 + t.nanos / 1000000000 := rfl
  have hseconds : t.date.days * 86400 +
      ((t.hour * 3600 + t.minute * 60 + min t.second 59 : Nat) : Int) - 0 = t.seconds := by
    rw [hdays, hour, minute]
    omega
  have hsubsecond : t.subsecond + (if t.second = 60 then 1000000000 else 0) = t.nanos := by
    rw [subsecond]
    split <;> omega
  rw [assemble, if_pos ⟨hmin, hmax, hvalid⟩, if_pos (by decide)]
  simp only [hseconds, hsubsecond, ofUnix?_self]

theorem read_text : read t.text = .ok t := by
  obtain ⟨hmin, hmax⟩ := year_date t
  have hvalid : t.date.isValid = true := Date.isValid_ofDays _
  simp only [Date.isValid, Bool.and_eq_true, decide_eq_true_eq] at hvalid
  obtain ⟨⟨⟨hmonth, hmonth'⟩, hday⟩, hday'⟩ := hvalid
  have hlength := Date.daysInMonth_le t.date.year t.date.month
  have hclock : t.ofDay < 86400 := by
    rw [ofDay]
    omega
  have hhour : t.hour ≤ 23 := by
    rw [hour]
    omega
  have hminute : t.minute ≤ 59 := by
    rw [minute]
    omega
  have hsecond : t.second ≤ 60 := by
    have hnanos := t.nanos_lt
    rw [second]
    omega
  have hdash : ∀ r, mark '-' ('-' :: r) = .ok ((), r) := fun r => mark_cons (by decide)
  have hcolon : ∀ r, mark ':' (':' :: r) = .ok ((), r) := fun r => mark_cons (by decide)
  have hdivider : ∀ r, divider ('T' :: r) = .ok ((), r) := fun r => rfl
  have hoffset : offset (trimLeft ['Z']) = .ok (0, []) := rfl
  have hyear : ∀ r, year (yearText t.date.year ++ '-' :: r) = .ok (t.date.year, '-' :: r) := by
    intro r
    rw [minYear] at hmin
    rw [maxYear] at hmax
    apply year_text (by omega) (by omega)
    intro c hc
    cases hc
    decide
  have hsub : decimals (shortFraction t.subsecond ++ ['Z']) = .ok (t.subsecond, ['Z']) := by
    apply decimals_fraction
    rw [subsecond]
    omega
  have hnil : (trimLeft []).isEmpty = true := rfl
  simp only [read, text, textWith, List.append_assoc, List.cons_append, Bind.bind, Except.bind,
    hyear, hdash, hcolon, hdivider, hsub, hoffset, hnil, if_true,
    field_padded (n := t.date.month) (by omega) hmonth hmonth',
    field_padded (n := t.date.day) (by omega) hday (Nat.le_trans hday' hlength),
    field_padded (n := t.hour) (by omega) (Nat.zero_le _) hhour,
    field_padded (n := t.minute) (by omega) (Nat.zero_le _) hminute,
    field_padded (n := t.second) (by omega) (Nat.zero_le _) hsecond]
  exact assemble_parts t

end OrderLookup.Instant

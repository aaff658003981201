import CronSchedule.Calendar.WallClock
import CronSchedule.Calendar.Weekday
import CronSchedule.Proofs.Calendar.DateOrder

/-! # The shape of a year

Two years have the same shape when both or neither have a leap day and both start on the
same weekday (`SameShape`).  Days of the same month and number then agree in everything
that is asked of a date: its weekday, the length of its month and the working day nearest
to it (`Date.Alike`).

The calendar repeats after 400 years, whose days are whole weeks.  Within these 400 years
every shape comes back after 40 years at most (`exists_sameShape_after`), so that any 40
years in a row hold a year of each shape (`exists_sameShape_between`).
-/
namespace CronSchedule

/-- Whether two years have the same length and start on the same weekday. -/
def SameShape (a b : Int) : Prop :=
  isLeapYear a = isLeapYear b ∧ daysBeforeYear a % 7 = daysBeforeYear b % 7

instance (a b : Int) : Decidable (SameShape a b) :=
  inferInstanceAs (Decidable (_ ∧ _))

namespace SameShape

variable {a b c : Int}

theorem symm (h : SameShape a b) : SameShape b a := ⟨h.1.symm, h.2.symm⟩

theorem trans (h : SameShape a b) (h' : SameShape b c) : SameShape a c :=
  ⟨h.1.trans h'.1, h.2.trans h'.2⟩

theorem daysInMonth_eq (h : SameShape a b) (month : Nat) :
    daysInMonth a month = daysInMonth b month := by
  unfold daysInMonth
  rw [h.1]

theorem daysBeforeMonth_eq (h : SameShape a b) (month : Nat) :
    daysBeforeMonth a month = daysBeforeMonth b month := by
  unfold daysBeforeMonth
  rw [h.1]

end SameShape

/-! ## Years of a shape -/

/-- After 400 years the calendar repeats: they have 146097 days, which are 20871 weeks. -/
theorem sameShape_add_cycle (year cycles : Int) : SameShape (year + 400 * cycles) year := by
  constructor
  · unfold isLeapYear
    rw [show (year + 400 * cycles) % 4 = year % 4 by omega,
      show (year + 400 * cycles) % 100 = year % 100 by omega,
      show (year + 400 * cycles) % 400 = year % 400 by omega]
  · have hdays : daysBeforeYear (year + 400 * cycles) =
        daysBeforeYear year + 7 * (20871 * cycles) := by
      unfold daysBeforeYear
      omega
    rw [hdays, Int.add_mul_emod_self_left]

theorem exists_gap_of_lt :
    ∀ year < 400, ∃ gap ∈ [6, 11, 12, 28, 40], SameShape (year + gap : Nat) year := by
  decide +kernel

/-- The shape of a year comes back after 40 years at most. -/
theorem exists_sameShape_after (year : Int) :
    ∃ later, year < later ∧ later ≤ year + 40 ∧ SameShape later year := by
  obtain ⟨first, hfirst⟩ := Int.eq_ofNat_of_zero_le (Int.emod_nonneg year (b := 400) (by decide))
  obtain ⟨gap, hgap, hshape⟩ := exists_gap_of_lt first (by omega)
  have hbounds : 0 < gap ∧ gap ≤ 40 := by
    simp only [List.mem_cons, List.not_mem_nil, or_false] at hgap
    omega
  have hyear : SameShape year first := by
    have hcycle := sameShape_add_cycle first (year / 400)
    rwa [show (first : Int) + 400 * (year / 400) = year by omega] at hcycle
  have hlater : SameShape (year + gap) (first + gap : Nat) := by
    have hcycle := sameShape_add_cycle (first + gap : Nat) (year / 400)
    rwa [show ((first + gap : Nat) : Int) + 400 * (year / 400) = year + gap by omega] at hcycle
  exact ⟨year + gap, by omega, by omega, hlater.trans (hshape.trans hyear.symm)⟩

/-- From an early year on its shape comes back again and again, so also soon after a later
start. -/
theorem exists_sameShape_past {early start year : Int} (hle : early ≤ start)
    (h : SameShape early year) :
    ∃ later, start < later ∧ later ≤ start + 40 ∧ SameShape later year := by
  induction hn : (start - early).toNat using Nat.strongRecOn generalizing early with
  | ind n ih =>
    obtain ⟨later, hgt, hlater, hshape⟩ := exists_sameShape_after early
    by_cases hpast : start < later
    · exact ⟨later, hpast, by omega, hshape.trans h⟩
    · exact ih (start - later).toNat (by omega) (by omega) (hshape.trans h) rfl

/-- Every 40 years in a row hold a year of the shape of any other one. -/
theorem exists_sameShape_between (start year : Int) :
    ∃ later, start < later ∧ later ≤ start + 40 ∧ SameShape later year :=
  exists_sameShape_past (by omega) (sameShape_add_cycle year ((start - year) / 400))

/-! ## Dates of a shape -/

namespace Date

variable {a b : Date}

/-- Whether two dates are the same day of two years of the same shape, neither of them the
last year of the calendar. -/
structure Alike (a b : Date) : Prop where
  shape : SameShape a.year b.year
  month : a.month = b.month
  day : a.day = b.day
  lt_last : a.year < lastYear ∧ b.year < lastYear

theorem lastDayOfMonth?_eq (h : a.year < lastYear) :
    a.lastDayOfMonth? = some (daysInMonth a.year a.month) := by
  obtain ⟨next, hnext⟩ := exists_nextMonth h
  rw [lastDayOfMonth?, hnext]
  rfl

/-- The same day of another year of the same shape. -/
theorem exists_alike {date : Date} {year : Int} (h : date.year < lastYear)
    (hyear : firstYear ≤ year ∧ year < lastYear) (hshape : SameShape date.year year) :
    ∃ other : Date, other.year = year ∧ Alike date other := by
  have hday := date.day_mem
  rw [hshape.daysInMonth_eq] at hday
  exact ⟨⟨year, date.month, date.day, ⟨hyear.1, by omega⟩, date.month_mem, hday⟩, rfl,
    hshape, rfl, rfl, h, hyear.2⟩

namespace Alike

theorem daysInMonth_eq (h : Alike a b) :
    daysInMonth a.year a.month = daysInMonth b.year b.month := by
  rw [h.shape.daysInMonth_eq, h.month]

/-- The two months have the same days, which are alike as well. -/
theorem ofYMD?_eq (h : Alike a b) (day : Nat) :
    (ofYMD? a.year a.month day = none ∧ ofYMD? b.year b.month day = none) ∨
      ∃ x y, ofYMD? a.year a.month day = some x ∧ ofYMD? b.year b.month day = some y ∧
        Alike x y := by
  by_cases hday : 1 ≤ day ∧ day ≤ daysInMonth a.year a.month
  · have hday' := hday
    rw [h.daysInMonth_eq] at hday'
    refine .inr ⟨⟨a.year, a.month, day, a.year_mem, a.month_mem, hday⟩,
      ⟨b.year, b.month, day, b.year_mem, b.month_mem, hday'⟩, ?_, ?_, ?_⟩
    · exact ofYMD?_eq_some_iff.mpr ⟨rfl, rfl, rfl⟩
    · exact ofYMD?_eq_some_iff.mpr ⟨rfl, rfl, rfl⟩
    · exact ⟨h.shape, h.month, rfl, h.lt_last⟩
  · refine .inl ⟨dif_neg fun hmem => hday hmem.2.2, dif_neg fun hmem => hday ?_⟩
    rw [h.daysInMonth_eq]
    exact hmem.2.2

theorem weekday_eq (h : Alike a b) : a.weekday = b.weekday := by
  have hweek := h.shape.2
  rw [weekday, weekday, dayNumber, dayNumber, h.shape.daysBeforeMonth_eq, h.month, h.day]
  omega

theorem lastDayOfMonth?_eq (h : Alike a b) : a.lastDayOfMonth? = b.lastDayOfMonth? := by
  rw [Date.lastDayOfMonth?_eq h.lt_last.1, Date.lastDayOfMonth?_eq h.lt_last.2, h.daysInMonth_eq]

theorem isLastWeekday?_eq (h : Alike a b) : a.isLastWeekday? = b.isLastWeekday? := by
  obtain ⟨next, hnext⟩ := exists_nextMonth h.lt_last.1
  obtain ⟨next', hnext'⟩ := exists_nextMonth h.lt_last.2
  rw [isLastWeekday?, isLastWeekday?, hnext, hnext', h.daysInMonth_eq, h.day]
  rfl

theorem nearestWorkday?_eq (h : Alike a b) : a.nearestWorkday? = b.nearestWorkday? := by
  rw [nearestWorkday?, nearestWorkday?, h.lastDayOfMonth?_eq, h.weekday_eq, h.day]

end Alike
end Date
end CronSchedule

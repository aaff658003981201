import CronSchedule.Calendar.WallClock
import CronSchedule.Proofs.Calendar.DateOrder

/-! # Wall clocks in order

Seconds order the wall clocks by date, hour, minute and second, so they tell any two apart
(`toSeconds_inj`) and `ofSeconds?` reads them back (`ofSeconds?_eq_some_iff`).

A search moves a wall clock on in two ways.  An advance goes to the next second, minute,
hour, day or month, and what it passes over lies in the old one
(`sameUnit_of_lt_advance?`).  Setting a part of the time of day passes over smaller values
of that part (`part_lt_of_lt_put?`).  Both are stated for every wall clock in between,
which is what makes a jump safe.
-/
namespace CronSchedule

/-- The number of values of a part of the time of day. -/
def TimeUnit.size : TimeUnit → Nat
  | second | minute => 60
  | hour => 24
  | day | month => 0

namespace WallClock

/-! ## Seconds -/

theorem dayNumber_le_of_toSeconds_le {a b : WallClock} (h : a.toSeconds ≤ b.toSeconds) :
    a.date.dayNumber ≤ b.date.dayNumber := by
  have := a.hour_lt
  have := a.minute_lt
  have := a.second_lt
  have := b.hour_lt
  have := b.minute_lt
  have := b.second_lt
  unfold toSeconds at h
  omega

theorem year_le_of_toSeconds_le {a b : WallClock} (h : a.toSeconds ≤ b.toSeconds) :
    a.date.year ≤ b.date.year :=
  Date.year_le_of_dayNumber_le (dayNumber_le_of_toSeconds_le h)

/-- No two wall clocks have the same number of seconds. -/
theorem toSeconds_inj {a b : WallClock} (h : a.toSeconds = b.toSeconds) : a = b := by
  have hdate : a.date = b.date := Date.dayNumber_inj (Int.le_antisymm
    (dayNumber_le_of_toSeconds_le (Int.le_of_eq h))
    (dayNumber_le_of_toSeconds_le (Int.le_of_eq h.symm)))
  have := a.minute_lt
  have := a.second_lt
  have := b.minute_lt
  have := b.second_lt
  rw [toSeconds, toSeconds, hdate] at h
  have hhour : a.hour = b.hour := by omega
  have hminute : a.minute = b.minute := by omega
  have hsecond : a.second = b.second := by omega
  cases a
  cases b
  simp only [mk.injEq]
  exact ⟨hdate, hhour, hminute, hsecond⟩

/-- The seconds of a wall clock lead back to it and to no other. -/
theorem ofSeconds?_eq_some_iff {seconds : Int} {clock : WallClock} :
    ofSeconds? seconds = some clock ↔ clock.toSeconds = seconds := by
  simp only [ofSeconds?, Option.map_eq_some_iff, Date.ofDayNumber?_eq_some_iff]
  constructor
  · rintro ⟨date, hdate, rfl⟩
    simp only [toSeconds, hdate]
    omega
  · rintro rfl
    have := clock.hour_lt
    have := clock.minute_lt
    have := clock.second_lt
    refine ⟨clock.date, ?_, toSeconds_inj ?_⟩
    · unfold toSeconds
      omega
    · simp only [toSeconds]
      omega

/-! ## Units -/

/-- Whether two wall clocks lie in the same second, minute, hour, day or month. -/
def SameUnit : TimeUnit → WallClock → WallClock → Prop
  | .second, a, b => a = b
  | .minute, a, b => a.date = b.date ∧ a.hour = b.hour ∧ a.minute = b.minute
  | .hour, a, b => a.date = b.date ∧ a.hour = b.hour
  | .day, a, b => a.date = b.date
  | .month, a, b => a.date.year = b.date.year ∧ a.date.month = b.date.month

variable {clock next other : WallClock} {unit : TimeUnit}

theorem date_eq_of_lt_nextDay (hle : clock.toSeconds ≤ other.toSeconds)
    (hlt : other.toSeconds < (clock.date.dayNumber + 1 - epochDay) * 86400) :
    other.date = clock.date := by
  refine Date.dayNumber_inj ?_
  have := dayNumber_le_of_toSeconds_le hle
  rw [toSeconds] at hlt
  omega

/-- What an advance passes over lies in the unit it leaves. -/
theorem sameUnit_of_lt_advance? (h : clock.advance? unit = some next)
    (hle : clock.toSeconds ≤ other.toSeconds) (hlt : other.toSeconds < next.toSeconds) :
    SameUnit unit other clock := by
  -- all but a month lie within a day
  have hday : next.toSeconds ≤ (clock.date.dayNumber + 1 - epochDay) * 86400 →
      other.date = clock.date :=
    fun hend => date_eq_of_lt_nextDay hle (Int.lt_of_lt_of_le hlt hend)
  have := clock.hour_lt
  have := clock.minute_lt
  have := clock.second_lt
  have := other.minute_lt
  have := other.second_lt
  cases unit with
  | second =>
    have hnext := toSeconds_nextSecond h
    exact toSeconds_inj (by omega)
  | minute =>
    have hnext := toSeconds_nextMinute h
    have hdate := hday (by rw [hnext, toSeconds]; omega)
    rw [hnext] at hlt
    rw [toSeconds, toSeconds, hdate] at hle hlt
    exact ⟨hdate, by omega, by omega⟩
  | hour =>
    have hnext := toSeconds_nextHour h
    have hdate := hday (by rw [hnext, toSeconds]; omega)
    rw [hnext] at hlt
    rw [toSeconds, toSeconds, hdate] at hle hlt
    exact ⟨hdate, by omega⟩
  | day => exact hday (Int.le_of_eq (toSeconds_nextDay h))
  | month =>
    obtain ⟨date, hd, rfl⟩ := Option.map_eq_some_iff.mp h
    refine Date.month_eq_of_lt_nextMonth hd (dayNumber_le_of_toSeconds_le hle) ?_
    simp only [toSeconds, midnight] at hlt
    omega

/-- Within the larger unit a later wall clock has no smaller part. -/
theorem part_le_of_sameUnit (h : SameUnit unit.larger other clock)
    (hle : clock.toSeconds ≤ other.toSeconds) : clock.part unit ≤ other.part unit := by
  have := clock.minute_lt
  have := clock.second_lt
  have := other.minute_lt
  have := other.second_lt
  cases unit with
  | second =>
    obtain ⟨hdate, hhour, hminute⟩ := h
    rw [toSeconds, toSeconds, hdate] at hle
    simp only [part]
    omega
  | minute =>
    obtain ⟨hdate, hhour⟩ := h
    rw [toSeconds, toSeconds, hdate] at hle
    simp only [part]
    omega
  | hour =>
    have hdate : other.date = clock.date := h
    rw [toSeconds, toSeconds, hdate] at hle
    simp only [part]
    omega
  | day =>
    obtain ⟨hy, hm⟩ := h
    have hnumber := dayNumber_le_of_toSeconds_le hle
    rw [Date.dayNumber, Date.dayNumber, hy, hm] at hnumber
    simp only [part]
    omega
  | month => exact Nat.le_of_eq h.2.symm

theorem exists_put {value : Nat} (clock : WallClock) (hvalue : value < unit.size) :
    ∃ next, clock.put? value unit = some next := by
  cases unit with
  | second | minute | hour =>
    simp only [TimeUnit.size] at hvalue
    simp only [put?, hvalue, dite_true]
    exact ⟨_, rfl⟩
  | day | month => exact absurd hvalue (Nat.not_lt_zero _)

/-- Setting a part within its range keeps the larger parts. -/
theorem sameUnit_of_put? {value : Nat} (h : clock.put? value unit = some next)
    (hvalue : value < unit.size) : SameUnit unit.larger next clock ∧ next.part unit = value := by
  cases unit with
  | second =>
    simp only [TimeUnit.size] at hvalue
    simp only [put?, hvalue, dite_true, Option.some.injEq] at h
    exact h ▸ ⟨⟨rfl, rfl, rfl⟩, rfl⟩
  | minute =>
    simp only [TimeUnit.size] at hvalue
    simp only [put?, hvalue, dite_true, Option.some.injEq] at h
    exact h ▸ ⟨⟨rfl, rfl⟩, rfl⟩
  | hour =>
    simp only [TimeUnit.size] at hvalue
    simp only [put?, hvalue, dite_true, Option.some.injEq] at h
    exact h ▸ ⟨rfl, rfl⟩
  | day | month => cases h

/-- A part that is set within its range is set on the same day. -/
theorem date_eq_of_put? {value : Nat} (h : clock.put? value unit = some next)
    (hvalue : value < unit.size) : next.date = clock.date := by
  have hsame := (sameUnit_of_put? h hvalue).1
  cases unit with
  | second | minute => exact hsame.1
  | hour => exact hsame
  | day | month => cases h

/-- What setting a part passes over agrees in the larger parts and comes before the new
value. -/
theorem part_lt_of_lt_put? {value : Nat} (h : clock.put? value unit = some next)
    (hvalue : value < unit.size) (hle : clock.toSeconds ≤ other.toSeconds)
    (hlt : other.toSeconds < next.toSeconds) :
    SameUnit unit.larger other clock ∧ other.part unit < value := by
  have hdate : other.date = clock.date := by
    have hend := next.toSeconds_lt_nextDay
    rw [date_eq_of_put? h hvalue] at hend
    exact date_eq_of_lt_nextDay hle (Int.lt_trans hlt hend)
  have := clock.minute_lt
  have := clock.second_lt
  have := other.minute_lt
  have := other.second_lt
  cases unit with
  | second =>
    simp only [TimeUnit.size] at hvalue
    simp only [put?, hvalue, dite_true, Option.some.injEq] at h
    subst h
    simp only [toSeconds, hdate] at hle hlt
    exact ⟨⟨hdate, by omega, by omega⟩, by simp only [part]; omega⟩
  | minute =>
    simp only [TimeUnit.size] at hvalue
    simp only [put?, hvalue, dite_true, Option.some.injEq] at h
    subst h
    simp only [toSeconds, hdate] at hle hlt
    exact ⟨⟨hdate, by omega⟩, by simp only [part]; omega⟩
  | hour =>
    simp only [TimeUnit.size] at hvalue
    simp only [put?, hvalue, dite_true, Option.some.injEq] at h
    subst h
    simp only [toSeconds, hdate] at hlt
    exact ⟨hdate, by simp only [part]; omega⟩
  | day | month => cases h

/-- Before the last year of the calendar every advance has a result. -/
theorem exists_advance (unit : TimeUnit) (h : clock.date.year < lastYear) :
    ∃ next, clock.advance? unit = some next := by
  obtain ⟨month, hmonth⟩ := Date.exists_nextMonth h
  obtain ⟨day, hday⟩ := Date.exists_next h
  have hday' : clock.nextDay? = some (midnight day) := by rw [nextDay?, hday]; rfl
  have hhour : ∃ next, clock.nextHour? = some next := by
    unfold nextHour?
    split
    · exact ⟨_, rfl⟩
    · exact ⟨_, hday'⟩
  have hminute : ∃ next, clock.nextMinute? = some next := by
    unfold nextMinute?
    split
    · exact ⟨_, rfl⟩
    · exact hhour
  have hsecond : ∃ next, clock.nextSecond? = some next := by
    unfold nextSecond?
    split
    · exact ⟨_, rfl⟩
    · exact hminute
  cases unit with
  | second => exact hsecond
  | minute => exact hminute
  | hour => exact hhour
  | day => exact ⟨_, hday'⟩
  | month => exact ⟨midnight month, by rw [advance?, nextMonth?, hmonth]; rfl⟩

end WallClock
end CronSchedule

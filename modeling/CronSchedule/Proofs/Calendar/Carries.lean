import CronSchedule.Calendar.Carry
import CronSchedule.Proofs.Calendar.ClockOrder

/-! # Carries

One more in a place, with the smaller places at their start, is the reading at which the next
unit starts, if there is such a wall clock.  If there is none, the place was full, because the
larger places have not changed; and as a carry sets the smaller places anyway, it is the same as
one more in the larger place from the beginning (`bump_bump`).  So a wall clock is moved just as
`advance?` and `put?` move it (`run_increment`, `run_put`), although these ask each part by itself
whether it is full.

Where that leads is said by the calendar alone: an advance is the first wall clock in a later
second, minute, hour, day or month (`isNextStart_of_advance?`), and there is none only where the
calendar has no later one (`not_inLaterUnit_of_advance?`).
-/
namespace CronSchedule

namespace TimeUnit

/-- The place whose number counts a unit. -/
def place : TimeUnit → Place
  | second => .second
  | minute => .minute
  | hour => .hour
  | day => .day
  | month => .month

/-- What holds of months, and of each smaller unit when it holds of the next larger one, holds of
every unit. -/
theorem largerInduction {motive : TimeUnit → Prop} (month : motive .month)
    (smaller : ∀ unit, unit ≠ .month → motive unit.larger → motive unit) (unit : TimeUnit) :
    motive unit := by
  have hday := smaller .day (by decide) month
  have hhour := smaller .hour (by decide) hday
  have hminute := smaller .minute (by decide) hhour
  cases unit with
  | second => exact smaller .second (by decide) hminute
  | minute => exact hminute
  | hour => exact hhour
  | day => exact hday
  | month => exact month

theorem larger?_place {unit : TimeUnit} (h : unit ≠ .month) :
    unit.place.larger? = some unit.larger.place := by
  cases unit with
  | second | minute | hour | day => rfl
  | month => exact absurd rfl h

end TimeUnit

/-! ## Readings -/

namespace Date

variable {date : Date}

theorem nextMonth?_eq_or : date.nextMonth? =
    (ofYMD? date.year (date.month + 1) 1).or (ofYMD? (date.year + 1) 1 1) := by
  have hyear := date.year_mem
  have hmonth := date.month_mem
  have hday : ∀ year month, 1 ≤ daysInMonth year month := fun year month =>
    Nat.le_trans (by decide) (le_daysInMonth year month)
  by_cases hm : date.month < 12
  · simp [nextMonth?, ofYMD?, hm, hyear, hday, Nat.succ_le_of_lt hm]
  · have hfull : ¬ date.month + 1 ≤ 12 := by omega
    by_cases hy : date.year < lastYear
    · have hnext : firstYear ≤ date.year + 1 ∧ date.year + 1 ≤ lastYear := by omega
      simp [nextMonth?, ofYMD?, hm, hfull, hy, hnext, hday]
    · have hlast : ¬ date.year + 1 ≤ lastYear := by omega
      simp [nextMonth?, ofYMD?, hm, hfull, hy, hlast]

theorem next?_eq_or :
    date.next? = (ofYMD? date.year date.month (date.day + 1)).or date.nextMonth? := by
  have hyear := date.year_mem
  have hmonth := date.month_mem
  by_cases hd : date.day < daysInMonth date.year date.month
  · simp [next?, ofYMD?, hd, hyear, hmonth, Nat.succ_le_of_lt hd]
  · have hfull : ¬ date.day + 1 ≤ daysInMonth date.year date.month := by omega
    simp [next?, ofYMD?, hd, hfull]

/-- Without a next month the calendar ends with this one. -/
theorem monthIndex_le_of_nextMonth?_eq_none (h : date.nextMonth? = none) (other : Date) :
    other.monthIndex ≤ date.monthIndex := by
  have hyear := other.year_mem
  have hmonth := other.month_mem
  unfold nextMonth? at h
  split at h
  · cases h
  · split at h
    · cases h
    · unfold monthIndex
      omega

end Date

namespace Reading

theorem clock?_midnight (year : Int) (month day : Nat) :
    (⟨year, month, day, 0, 0, 0⟩ : Reading).clock? =
      (Date.ofYMD? year month day).map WallClock.midnight := by
  rw [Option.map_eq_bind]
  rfl

theorem clock?_of_date (date : Date) (hour minute second : Nat) :
    (⟨date.year, date.month, date.day, hour, minute, second⟩ : Reading).clock? =
      WallClock.ofParts? date hour minute second := by
  have hdate : Date.ofYMD? date.year date.month date.day = some date :=
    Date.ofYMD?_eq_some_iff.mpr ⟨rfl, rfl, rfl⟩
  simp only [clock?, hdate]
  rfl

/-- What a place has gained is lost when the next larger one gains. -/
theorem bump_bump {place larger : Place} (reading : Reading) (h : place.larger? = some larger) :
    (reading.bump place).bump larger = reading.bump larger := by
  cases place with
  | second | minute | hour | day | month => cases h; rfl
  | year => cases h

/-- The same holds of a number that was set. -/
theorem bump_of_put? {place larger : Place} {reading later : Reading} {value : Nat}
    (h : reading.put? value place = some later) (hlarger : place.larger? = some larger) :
    later.bump larger = reading.bump larger := by
  cases place with
  | second | minute | hour => cases h; cases hlarger; rfl
  | day | month | year => cases h

end Reading

namespace WallClock

variable {clock next other : WallClock} {unit : TimeUnit} {value : Nat}

theorem nextMonth?_eq_or : clock.nextMonth? =
    (clock.reading.bump .month).clock?.or (clock.reading.bump .year).clock? := by
  simp only [nextMonth?, Date.nextMonth?_eq_or, Option.map_or, reading, Reading.bump,
    Reading.clock?_midnight]

/-- An advance is one more in a place, or else the advance of the next larger unit. -/
theorem advance?_eq_or (hunit : unit ≠ .month) : clock.advance? unit =
    (clock.reading.bump unit.place).clock?.or (clock.advance? unit.larger) := by
  cases unit with
  | second =>
    simp only [advance?, nextSecond?, TimeUnit.place, reading, Reading.bump,
      Reading.clock?_of_date, ofParts?]
    by_cases h : clock.second + 1 < 60
    · simp [h, clock.hour_lt, clock.minute_lt]
    · simp [h, TimeUnit.larger]
  | minute =>
    simp only [advance?, nextMinute?, TimeUnit.place, reading, Reading.bump,
      Reading.clock?_of_date, ofParts?]
    by_cases h : clock.minute + 1 < 60
    · simp [h, clock.hour_lt]
    · simp [h, TimeUnit.larger]
  | hour =>
    simp only [advance?, nextHour?, TimeUnit.place, reading, Reading.bump,
      Reading.clock?_of_date, ofParts?]
    by_cases h : clock.hour + 1 < 24
    · simp [h]
    · simp [h, TimeUnit.larger]
  | day =>
    simp only [advance?, nextDay?, Date.next?_eq_or, Option.map_or, TimeUnit.place,
      TimeUnit.larger, reading, Reading.bump, Reading.clock?_midnight, nextMonth?]
  | month => exact absurd rfl hunit

theorem put?_eq_or {later : Reading} (h : clock.reading.put? value unit.place = some later) :
    clock.put? value unit = later.clock?.or (clock.advance? unit.larger) := by
  cases unit with
  | second =>
    cases h
    simp only [put?, reading, Reading.clock?_of_date, ofParts?]
    by_cases hvalue : value < 60
    · simp [hvalue, clock.hour_lt, clock.minute_lt]
    · simp [hvalue, advance?, TimeUnit.larger]
  | minute =>
    cases h
    simp only [put?, reading, Reading.clock?_of_date, ofParts?]
    by_cases hvalue : value < 60
    · simp [hvalue, clock.hour_lt]
    · simp [hvalue, advance?, TimeUnit.larger]
  | hour =>
    cases h
    simp only [put?, reading, Reading.clock?_of_date, ofParts?]
    by_cases hvalue : value < 24
    · simp [hvalue]
    · simp [hvalue, advance?, TimeUnit.larger]
  | day | month => cases h

/-! ## Moves -/

/-- What a move leaves, and its error where there is no wall clock to move to. -/
def moved (clock : WallClock) : Option WallClock → EStateM.Result Error WallClock Unit
  | some next => .ok () next
  | none => .error .invalidDate clock

end WallClock

namespace Place

variable {place larger : Place} {reading : Reading} {clock : WallClock}

theorem run_moveTo_year (clock : WallClock) (reading : Reading) :
    (year.moveTo reading).run clock = clock.moved reading.clock? := by
  unfold moveTo
  cases reading.clock? with
  | none => rfl
  | some next => rfl

theorem moveTo_of_none (hlarger : place.larger? = some larger) (h : reading.clock? = none) :
    place.moveTo reading = larger.moveTo (reading.bump larger) := by
  cases place with
  | second | minute | hour | day | month =>
    cases hlarger
    rw [moveTo, h]
    rfl
  | year => cases hlarger

/-- A move goes to the reading, or else where the carry goes.  The reading may differ from that of
the wall clock in what a carry sets anyway. -/
theorem run_moveTo (hlarger : place.larger? = some larger)
    (hbump : reading.bump larger = clock.reading.bump larger) {rest : Option WallClock}
    (hrest : (larger.moveTo (clock.reading.bump larger)).run clock = clock.moved rest) :
    (place.moveTo reading).run clock = clock.moved (reading.clock?.or rest) := by
  cases hclock : reading.clock? with
  | none =>
    rw [moveTo_of_none hlarger hclock, hbump, hrest]
    rfl
  | some next =>
    rw [moveTo, hclock]
    rfl

/-- One more in a place is an advance. -/
theorem run_moveTo_bump (unit : TimeUnit) (clock : WallClock) :
    (unit.place.moveTo (clock.reading.bump unit.place)).run clock =
      clock.moved (clock.advance? unit) := by
  induction unit using TimeUnit.largerInduction with
  | month =>
    rw [WallClock.advance?, WallClock.nextMonth?_eq_or]
    exact run_moveTo rfl (Reading.bump_bump _ rfl) (run_moveTo_year clock _)
  | smaller unit hunit ih =>
    have hlarger := TimeUnit.larger?_place hunit
    rw [WallClock.advance?_eq_or hunit]
    exact run_moveTo hlarger (Reading.bump_bump _ hlarger) ih

/-- A wall clock is incremented just as it is advanced. -/
theorem run_increment (unit : TimeUnit) (clock : WallClock) :
    unit.place.increment.run clock = clock.moved (clock.advance? unit) := by
  rw [← run_moveTo_bump]
  cases unit with
  | second | minute | hour | day | month => rfl

theorem run_put_of_some {value : Nat} (h : clock.reading.put? value place = some reading) :
    (place.put value).run clock = (place.moveTo reading).run clock := by
  cases place with
  | second | minute | hour =>
    cases h
    rfl
  | day | month | year => cases h

theorem run_put_of_none {value : Nat} (h : clock.reading.put? value place = none) :
    (place.put value).run clock = .error .invalidDate clock := by
  cases place with
  | second | minute | hour => cases h
  | day | month | year => rfl

/-- A part of a wall clock is set in either way alike. -/
theorem run_put (unit : TimeUnit) (value : Nat) (clock : WallClock) :
    (unit.place.put value).run clock = clock.moved (clock.put? value unit) := by
  cases hput : clock.reading.put? value unit.place with
  | none =>
    rw [run_put_of_none hput]
    cases unit with
    | second | minute | hour => cases hput
    | day | month => rfl
  | some reading =>
    have hunit : unit ≠ .month := by
      rintro rfl
      cases hput
    have hlarger := TimeUnit.larger?_place hunit
    rw [run_put_of_some hput, WallClock.put?_eq_or hput]
    exact run_moveTo hlarger (Reading.bump_of_put? hput hlarger) (run_moveTo_bump unit.larger clock)

end Place

/-! ## Later units -/

namespace WallClock

variable {clock next other : WallClock} {unit : TimeUnit} {value : Nat}

/-- Whether another wall clock lies in a later second, minute, hour, day or month. -/
def InLaterUnit (unit : TimeUnit) (clock other : WallClock) : Prop :=
  clock.toSeconds < other.toSeconds ∧ ¬ SameUnit unit other clock

/-- Whether another wall clock is the first one in a later unit. -/
structure IsNextStart (unit : TimeUnit) (clock next : WallClock) : Prop where
  later : InLaterUnit unit clock next
  least : ∀ other, InLaterUnit unit clock other → next.toSeconds ≤ other.toSeconds

/-- Whether another wall clock shows a value in a part, with the larger parts kept and the smaller
ones at zero. -/
structure IsPut (unit : TimeUnit) (value : Nat) (clock next : WallClock) : Prop where
  value : next.part unit = value
  larger : SameUnit unit.larger next clock
  smaller : ∀ smaller : TimeUnit, unit.place.rank < smaller.place.rank → next.part smaller = 0

theorem not_sameUnit_of_advance? (h : clock.advance? unit = some next) :
    ¬ SameUnit unit next clock := by
  intro hsame
  have := clock.second_lt
  cases unit with
  | second =>
    have hnext := toSeconds_nextSecond h
    rw [show next = clock from hsame] at hnext
    omega
  | minute =>
    obtain ⟨hdate, hhour, hminute⟩ := hsame
    have hnext := toSeconds_nextMinute h
    have := next.second_lt
    simp only [toSeconds, hdate, hhour, hminute] at hnext
    omega
  | hour =>
    obtain ⟨hdate, hhour⟩ := hsame
    have hnext := toSeconds_nextHour h
    have := next.minute_lt
    have := next.second_lt
    simp only [toSeconds, hdate, hhour] at hnext
    omega
  | day =>
    have hnext := toSeconds_nextDay h
    have hend := next.toSeconds_lt_nextDay
    rw [show next.date = clock.date from hsame] at hend
    omega
  | month =>
    obtain ⟨date, hdate, rfl⟩ := Option.map_eq_some_iff.mp h
    have hindex := (Date.monthIndex_nextMonth hdate).1
    have heq : date.monthIndex = clock.date.monthIndex := Date.monthIndex_eq_iff.mpr hsame
    omega

theorem isNextStart_of_advance? (h : clock.advance? unit = some next) :
    IsNextStart unit clock next where
  later := ⟨toSeconds_lt_of_advance? h, not_sameUnit_of_advance? h⟩
  least := by
    rintro other ⟨hlater, hleaves⟩
    refine Int.not_lt.mp fun hlt => hleaves ?_
    exact sameUnit_of_lt_advance? h (Int.le_of_lt hlater) hlt

/-- Where a part cannot be larger, a later wall clock in the larger unit is in the same one. -/
theorem sameUnit_of_part_le (hunit : unit ≠ .month) (hsame : SameUnit unit.larger other clock)
    (hle : clock.toSeconds ≤ other.toSeconds) (hpart : other.part unit ≤ clock.part unit) :
    SameUnit unit other clock := by
  have hequal : other.part unit = clock.part unit :=
    Nat.le_antisymm hpart (part_le_of_sameUnit hsame hle)
  cases unit with
  | second =>
    obtain ⟨hdate, hhour, hminute⟩ := hsame
    refine toSeconds_inj ?_
    rw [toSeconds, toSeconds, hdate, hhour, hminute, show other.second = clock.second from hequal]
  | minute => exact ⟨hsame.1, hsame.2, hequal⟩
  | hour => exact ⟨hsame, hequal⟩
  | day =>
    refine Date.dayNumber_inj ?_
    rw [Date.dayNumber, Date.dayNumber, hsame.1, hsame.2,
      show other.date.day = clock.date.day from hequal]
  | month => exact absurd rfl hunit

theorem advance?_eq_none (hunit : unit ≠ .month) (h : clock.advance? unit = none) :
    clock.advance? unit.larger = none ∧
      ∀ other, SameUnit unit.larger other clock → other.part unit ≤ clock.part unit := by
  cases unit with
  | second =>
    rw [advance?, nextSecond?] at h
    split at h
    · cases h
    · refine ⟨h, fun other _ => ?_⟩
      have := other.second_lt
      simp only [part]
      omega
  | minute =>
    rw [advance?, nextMinute?] at h
    split at h
    · cases h
    · refine ⟨h, fun other _ => ?_⟩
      have := other.minute_lt
      simp only [part]
      omega
  | hour =>
    rw [advance?, nextHour?] at h
    split at h
    · cases h
    · refine ⟨h, fun other _ => ?_⟩
      have := other.hour_lt
      simp only [part]
      omega
  | day =>
    rw [advance?, nextDay?, Option.map_eq_none_iff, Date.next?] at h
    split at h
    · cases h
    · refine ⟨by rw [TimeUnit.larger, advance?, nextMonth?, h]; rfl, fun other hsame => ?_⟩
      have hday := other.date.day_mem.2
      rw [hsame.1, hsame.2] at hday
      simp only [part]
      omega
  | month => exact absurd rfl hunit

/-- The calendar ends with the unit of a wall clock that has no advance. -/
theorem sameUnit_of_advance?_eq_none (h : clock.advance? unit = none)
    (hle : clock.toSeconds ≤ other.toSeconds) : SameUnit unit other clock := by
  induction unit using TimeUnit.largerInduction with
  | month =>
    rw [advance?, nextMonth?, Option.map_eq_none_iff] at h
    have hfirst := Date.monthIndex_le_of_dayNumber_le (dayNumber_le_of_toSeconds_le hle)
    exact Date.monthIndex_eq_iff.mp
      (Int.le_antisymm (Date.monthIndex_le_of_nextMonth?_eq_none h _) hfirst)
  | smaller unit hunit ih =>
    obtain ⟨hlarger, hfull⟩ := advance?_eq_none hunit h
    have hsame := ih hlarger
    exact sameUnit_of_part_le hunit hsame hle (hfull other hsame)

/-- Nothing later is left to move to. -/
theorem not_inLaterUnit_of_advance? (h : clock.advance? unit = none) (other : WallClock) :
    ¬ InLaterUnit unit clock other := fun hlater =>
  hlater.2 (sameUnit_of_advance?_eq_none h (Int.le_of_lt hlater.1))

theorem part_of_put? (h : clock.put? value unit = some next) (hvalue : value < unit.size)
    {smaller : TimeUnit} (hsmaller : unit.place.rank < smaller.place.rank) :
    next.part smaller = 0 := by
  cases unit with
  | second => cases smaller <;> exact absurd hsmaller (by decide)
  | minute =>
    simp only [TimeUnit.size] at hvalue
    simp only [put?, hvalue, dite_true, Option.some.injEq] at h
    subst h
    cases smaller with
    | second => rfl
    | minute | hour | day | month => exact absurd hsmaller (by decide)
  | hour =>
    simp only [TimeUnit.size] at hvalue
    simp only [put?, hvalue, dite_true, Option.some.injEq] at h
    subst h
    cases smaller with
    | second | minute => rfl
    | hour | day | month => exact absurd hsmaller (by decide)
  | day | month => cases h

theorem isPut_of_put? (h : clock.put? value unit = some next) (hvalue : value < unit.size) :
    IsPut unit value clock next where
  value := (sameUnit_of_put? h hvalue).2
  larger := (sameUnit_of_put? h hvalue).1
  smaller := fun _ => part_of_put? h hvalue

theorem put?_of_size_le (hunit : 0 < unit.size) (hvalue : unit.size ≤ value) :
    clock.put? value unit = clock.advance? unit.larger := by
  cases unit with
  | second | minute | hour => exact dif_neg (Nat.not_lt.mpr hvalue)
  | day | month => exact absurd hunit (Nat.lt_irrefl 0)

/-- **Carries.**  A wall clock that is incremented in its seconds, minutes, hours, days or months
goes to the first wall clock of a later such unit.  A part of the time of day that is set within
its range is changed, with the larger parts kept and the smaller ones at zero; past its range it
is the larger part that is incremented.  What fails is an increment after which the calendar has
nothing later, an increment of the year, or a part of the date that is set: always as an invalid
date and with the wall clock as it was.  Both are the moves that a search makes. -/
theorem carries_exact (clock : WallClock) :
    (∀ unit : TimeUnit,
      (∃ next, IsNextStart unit clock next ∧ unit.place.increment.run clock = .ok () next) ∨
      ((∀ other, ¬ InLaterUnit unit clock other) ∧
        unit.place.increment.run clock = .error .invalidDate clock)) ∧
    Place.year.increment.run clock = .error .invalidDate clock ∧
    (∀ (unit : TimeUnit) (value : Nat), value < unit.size →
      ∃ next, IsPut unit value clock next ∧ (unit.place.put value).run clock = .ok () next) ∧
    (∀ (unit : TimeUnit) (value : Nat), 0 < unit.size → unit.size ≤ value →
      (unit.place.put value).run clock = unit.larger.place.increment.run clock) ∧
    (∀ place ∈ [Place.day, .month, .year], ∀ value : Nat,
      (place.put value).run clock = .error .invalidDate clock) ∧
    (∀ unit : TimeUnit, unit.place.increment.run clock = clock.moved (clock.advance? unit)) ∧
    (∀ (unit : TimeUnit) (value : Nat),
      (unit.place.put value).run clock = clock.moved (clock.put? value unit)) := by
  refine ⟨?_, rfl, ?_, ?_, ?_, fun unit => Place.run_increment unit clock,
    fun unit value => Place.run_put unit value clock⟩
  · intro unit
    cases hnext : clock.advance? unit with
    | none =>
      refine .inr ⟨not_inLaterUnit_of_advance? hnext, ?_⟩
      rw [Place.run_increment, hnext, moved]
    | some next =>
      refine .inl ⟨next, isNextStart_of_advance? hnext, ?_⟩
      rw [Place.run_increment, hnext, moved]
  · intro unit value hvalue
    obtain ⟨next, hnext⟩ := exists_put clock hvalue
    refine ⟨next, isPut_of_put? hnext hvalue, ?_⟩
    rw [Place.run_put, hnext, moved]
  · intro unit value hunit hvalue
    rw [Place.run_put, Place.run_increment, put?_of_size_le hunit hvalue]
  · intro place hplace value
    simp only [List.mem_cons, List.not_mem_nil, or_false] at hplace
    refine Place.run_put_of_none ?_
    rcases hplace with rfl | rfl | rfl
    · rfl
    · rfl
    · rfl

/-- The last second of a leap year carries through all the places. -/
example : Place.second.increment.run
    ⟨⟨2024, 12, 31, by decide, by decide, by decide⟩, 23, 59, 59, by decide, by decide, by decide⟩ =
      .ok () (midnight ⟨2025, 1, 1, by decide, by decide, by decide⟩) :=
  Place.run_increment .second _

end WallClock

end CronSchedule

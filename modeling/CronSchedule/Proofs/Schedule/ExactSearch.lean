import CronSchedule.Proofs.Calendar.EarliestInstant
import CronSchedule.Proofs.Schedule.Alignment
import CronSchedule.Schedule.Search
import Mathlib.Data.List.Basic

/-! # The search finds the first match

Two loops make up a search.  The inner one walks over wall clocks and carries from one unit
into the next; the outer one turns what the walk finds into an instant and walks on past
wall clocks that the zone skips or repeats.  Either only ever jumps over wall clocks that
do not match, which `Pattern.SkipsTo` says of a start and a stop.

A pass is exact in this sense for each part of the time of day (`passPart_exact`), hence as
a whole (`pass_exact`), so the walk ends at the first match of a bounded stretch of years
(`firstMatch_eq_ok`) or there is none (`firstMatch_eq_error`).  The outer loop inherits both
(`firstInstant_eq_ok`, `firstInstant_eq_error`).  `nextOccurrence_exact` puts them together:
what is answered, and when the search gives up, is said without reference to how it walks.
-/
namespace CronSchedule

/-- The field by which a unit is matched. -/
def TimeUnit.field : TimeUnit → Field
  | second => .second
  | minute => .minute
  | hour => .hour
  | day => .dayOfMonth
  | month => .month

namespace Pattern

variable {pattern : Pattern} {clock next other : WallClock} {unit : TimeUnit}

/-! ## Matches -/

/-- Whether a wall clock matches every field of the pattern. -/
def Matches (pattern : Pattern) (clock : WallClock) : Prop :=
  pattern.matchesClock clock = .ok true

/-- Whether a part of the time of day matches its field. -/
def MatchesPart (pattern : Pattern) (unit : TimeUnit) (clock : WallClock) : Prop :=
  (pattern.table unit.field).has (clock.part unit) .plain = .ok true

/-- Whether a wall clock matches in a unit and in every larger one. -/
def MatchesFrom (pattern : Pattern) : TimeUnit → WallClock → Prop
  | .month, clock => pattern.matchesMonth clock.date.month = .ok true
  | .day, clock =>
    pattern.matchesDate clock.date = .ok true ∧
      pattern.matchesMonth clock.date.month = .ok true
  | .hour, clock =>
    pattern.MatchesPart .hour clock ∧ pattern.matchesDate clock.date = .ok true ∧
      pattern.matchesMonth clock.date.month = .ok true
  | .minute, clock =>
    pattern.MatchesPart .minute clock ∧ pattern.MatchesPart .hour clock ∧
      pattern.matchesDate clock.date = .ok true ∧
        pattern.matchesMonth clock.date.month = .ok true
  | .second, clock =>
    pattern.MatchesPart .second clock ∧ pattern.MatchesPart .minute clock ∧
      pattern.MatchesPart .hour clock ∧ pattern.matchesDate clock.date = .ok true ∧
        pattern.matchesMonth clock.date.month = .ok true

theorem matches_iff : pattern.Matches clock ↔ pattern.MatchesFrom .second clock := by
  have hsecond := clock.second_lt
  have hminute := clock.minute_lt
  have hhour := clock.hour_lt
  simp only [Matches, matchesClock, andM_eq_ok_true_iff, matchesSecond, matchesMinute,
    matchesHour, MarkTable.hasUpTo]
  rw [if_neg (by omega), if_neg (by omega), if_neg (by omega)]
  rfl

theorem Matches.part (h : pattern.Matches clock) (hunit : 0 < unit.size) :
    pattern.MatchesPart unit clock := by
  obtain ⟨hsecond, hminute, hhour, -⟩ := matches_iff.mp h
  cases unit with
  | second => exact hsecond
  | minute => exact hminute
  | hour => exact hhour
  | day | month => exact absurd hunit (Nat.lt_irrefl 0)

theorem matchesFrom_iff (hunit : 0 < unit.size) :
    pattern.MatchesFrom unit clock ↔
      pattern.MatchesPart unit clock ∧ pattern.MatchesFrom unit.larger clock := by
  cases unit with
  | second | minute | hour => exact Iff.rfl
  | day | month => exact absurd hunit (Nat.lt_irrefl 0)

/-- Wall clocks in the same unit match alike from that unit up. -/
theorem matchesFrom_of_sameUnit (hsame : WallClock.SameUnit unit next clock)
    (h : pattern.MatchesFrom unit clock) : pattern.MatchesFrom unit next := by
  cases unit with
  | second => exact (show next = clock from hsame) ▸ h
  | minute =>
    obtain ⟨hdate, hhour, hminute⟩ := hsame
    simpa only [MatchesFrom, MatchesPart, WallClock.part, hdate, hhour, hminute] using h
  | hour =>
    obtain ⟨hdate, hhour⟩ := hsame
    simpa only [MatchesFrom, MatchesPart, WallClock.part, hdate, hhour] using h
  | day =>
    have hdate : next.date = clock.date := hsame
    simpa only [MatchesFrom, hdate] using h
  | month => simpa only [MatchesFrom, hsame.2] using h

/-! ## Jumps -/

/-- Whether the search may go from one wall clock to another: not back, and past no
match. -/
def SkipsTo (pattern : Pattern) (start stop : WallClock) : Prop :=
  start.toSeconds ≤ stop.toSeconds ∧
    ∀ clock : WallClock, start.toSeconds ≤ clock.toSeconds → clock.toSeconds < stop.toSeconds →
      ¬ pattern.Matches clock

theorem skipsTo_refl (pattern : Pattern) (clock : WallClock) : pattern.SkipsTo clock clock :=
  ⟨Int.le_refl _, fun _ hle hlt => absurd hle (Int.not_le.mpr hlt)⟩

theorem SkipsTo.trans {a b c : WallClock} (hab : pattern.SkipsTo a b)
    (hbc : pattern.SkipsTo b c) : pattern.SkipsTo a c := by
  refine ⟨Int.le_trans hab.1 hbc.1, fun clock hle hlt => ?_⟩
  rcases Int.lt_or_le clock.toSeconds b.toSeconds with hb | hb
  · exact hab.2 clock hle hb
  · exact hbc.2 clock hb hlt

/-- Where no value of a part is left, the search may go to the next larger unit. -/
theorem skipsTo_of_advance? (hunit : 0 < unit.size)
    (hnone : (pattern.table unit.field).nextPlain (clock.part unit) = .ok none)
    (h : clock.advance? unit.larger = some next) : pattern.SkipsTo clock next := by
  refine ⟨Int.le_of_lt (WallClock.toSeconds_lt_of_advance? h), fun other hle hlt hmatch => ?_⟩
  have hsame := WallClock.sameUnit_of_lt_advance? h hle hlt
  have hpart := WallClock.part_le_of_sameUnit hsame hle
  exact MarkTable.nextPlain_eq_none hnone hpart (hmatch.part hunit)

/-- The search may set a part to its next value. -/
theorem skipsTo_of_put? {value : Nat} (hunit : 0 < unit.size)
    (hsome : (pattern.table unit.field).nextPlain (clock.part unit) = .ok (some value))
    (hvalue : value < unit.size) (hne : value ≠ clock.part unit)
    (h : clock.put? value unit = some next) : pattern.SkipsTo clock next := by
  obtain ⟨hle, -, hbelow⟩ := MarkTable.nextPlain_eq_some hsome
  have hlt : clock.part unit < value := Nat.lt_of_le_of_ne hle (Ne.symm hne)
  refine ⟨Int.le_of_lt (WallClock.toSeconds_lt_of_put? h hlt), fun other hle hlt hmatch => ?_⟩
  obtain ⟨hsame, hpart⟩ := WallClock.part_lt_of_lt_put? h hvalue hle hlt
  exact hbelow _ (WallClock.part_le_of_sameUnit hsame hle) hpart (hmatch.part hunit)

/-! ## A pass -/

/-- Whether a pass from a wall clock jumps over no match and stops on the same day. -/
def Exact (pattern : Pattern) (start : WallClock) : Pass → Prop
  | .found clock =>
    pattern.SkipsTo start clock ∧ pattern.Matches clock ∧ clock.date = start.date
  | .carry clock unit =>
    clock.date = start.date ∧
      ∀ next, clock.advance? unit = some next → pattern.SkipsTo start next

theorem Exact.of_skipsTo {start : WallClock} {result : Pass} (hskip : pattern.SkipsTo start clock)
    (hdate : clock.date = start.date) (h : pattern.Exact clock result) :
    pattern.Exact start result := by
  cases result with
  | found stop =>
    obtain ⟨hstop, hmatch, hday⟩ := h
    exact ⟨hskip.trans hstop, hmatch, hday.trans hdate⟩
  | carry stop unit =>
    obtain ⟨hday, hnext⟩ := h
    exact ⟨hday.trans hdate, fun next ha => hskip.trans (hnext next ha)⟩

/-- The second is set in any case, which changes nothing where it matches. -/
theorem passSecond_eq (pattern : Pattern) (clock : WallClock) :
    pattern.passSecond clock =
      passPart .second pattern.nextSecond (fun c => .ok (.found c)) clock := by
  unfold passSecond passPart
  rw [WallClock.part]
  cases pattern.nextSecond clock.second with
  | error e => rfl
  | ok found =>
    cases found with
    | none => rfl
    | some value =>
      simp only
      split
      · rename_i heq
        rw [heq, putPart, WallClock.put?, dif_pos clock.second_lt]
        rfl
      · cases putPart clock value .second with
        | error e => rfl
        | ok later => rfl

theorem field_max_lt {unit : TimeUnit} (hunit : 0 < unit.size) : unit.field.max < unit.size := by
  cases unit with
  | second | minute | hour => decide
  | day | month => exact absurd hunit (Nat.lt_irrefl 0)

/-- Of a wall clock every part lies within its limits. -/
theorem nextUpTo_part (pattern : Pattern) (clock : WallClock) (hunit : 0 < unit.size) :
    (pattern.table unit.field).nextUpTo unit.field.max (clock.part unit) =
      (pattern.table unit.field).nextPlain (clock.part unit) := by
  have := clock.second_lt
  have := clock.minute_lt
  have := clock.hour_lt
  refine if_neg ?_
  cases unit with
  | second | minute | hour => simp only [TimeUnit.field, Field.max, WallClock.part]; omega
  | day | month => exact absurd hunit (Nat.lt_irrefl 0)

/-- A part of a pass answers and is exact where the larger parts match and the rest of the
pass is exact. -/
theorem passPart_exact (h : pattern.Aligned) (hunit : 0 < unit.size)
    {rest : WallClock → Except Error Pass}
    (hrest : ∀ clock, pattern.MatchesFrom unit clock →
      ∃ result, rest clock = .ok result ∧ pattern.Exact clock result)
    (hclock : pattern.MatchesFrom unit.larger clock) :
    ∃ result, passPart unit ((pattern.table unit.field).nextUpTo unit.field.max) rest clock =
      .ok result ∧ pattern.Exact clock result := by
  unfold passPart
  rw [pattern.nextUpTo_part clock hunit]
  split
  · rename_i e he
    rw [MarkTable.nextPlain_eq] at he
    cases he
  · rename_i hnone
    exact ⟨_, rfl, rfl, fun next ha => skipsTo_of_advance? hunit hnone ha⟩
  · rename_i value hsome
    obtain ⟨-, hhas, -⟩ := MarkTable.nextPlain_eq_some hsome
    have hvalue : value < unit.size := by
      have hmax := (MarkTable.mem_of_has hhas).2
      rw [h unit.field] at hmax
      exact Nat.lt_of_le_of_lt hmax (field_max_lt hunit)
    split
    · rename_i heq
      rw [heq] at hhas
      exact hrest clock ((matchesFrom_iff hunit).mpr ⟨hhas, hclock⟩)
    · rename_i hne
      obtain ⟨later, hput⟩ := WallClock.exists_put clock hvalue
      obtain ⟨hsame, hpart⟩ := WallClock.sameUnit_of_put? hput hvalue
      have hmatch : pattern.MatchesFrom unit later := by
        refine (matchesFrom_iff hunit).mpr ⟨?_, matchesFrom_of_sameUnit hsame hclock⟩
        rw [MatchesPart, hpart]
        exact hhas
      obtain ⟨result, hresult, hexact⟩ := hrest later hmatch
      refine ⟨result, ?_, hexact.of_skipsTo (skipsTo_of_put? hunit hsome hvalue hne hput)
        (WallClock.date_eq_of_put? hput hvalue)⟩
      rw [putPart, hput]
      exact hresult

theorem passHour_exact (h : pattern.Aligned) (hclock : pattern.MatchesFrom .day clock) :
    ∃ result, pattern.passHour clock = .ok result ∧ pattern.Exact clock result := by
  have hours : 0 < TimeUnit.hour.size := by decide
  have minutes : 0 < TimeUnit.minute.size := by decide
  have seconds : 0 < TimeUnit.second.size := by decide
  refine passPart_exact h hours (fun atHour hhour => ?_) hclock
  refine passPart_exact h minutes (fun atMinute hminute => ?_) hhour
  rw [passSecond_eq]
  refine passPart_exact h seconds (fun atSecond hsecond => ?_) hminute
  exact ⟨_, rfl, pattern.skipsTo_refl atSecond, matches_iff.mpr hsecond, rfl⟩

/-- A pass jumps over no match. -/
theorem pass_exact (h : pattern.Aligned) {result : Pass} (hpass : pattern.pass clock = .ok result) :
    pattern.Exact clock result := by
  unfold pass at hpass
  split at hpass
  · cases hpass
  · rename_i hmonth
    cases hpass
    refine ⟨rfl, fun next ha => ⟨Int.le_of_lt (WallClock.toSeconds_lt_of_advance? ha), ?_⟩⟩
    intro other hle hlt hmatch
    have hsame := WallClock.sameUnit_of_lt_advance? ha hle hlt
    have hother := (matches_iff.mp hmatch).2.2.2.2
    rw [hsame.2, hmonth] at hother
    cases hother
  · rename_i hmonth
    split at hpass
    · cases hpass
    · rename_i hdate
      cases hpass
      refine ⟨rfl, fun next ha => ⟨Int.le_of_lt (WallClock.toSeconds_lt_of_advance? ha), ?_⟩⟩
      intro other hle hlt hmatch
      have hsame : other.date = clock.date := WallClock.sameUnit_of_lt_advance? ha hle hlt
      have hother := (matches_iff.mp hmatch).2.2.2.1
      rw [hsame, hdate] at hother
      cases hother
    · rename_i hdate
      have hday : pattern.MatchesFrom .day clock := ⟨hdate, hmonth⟩
      obtain ⟨exact, hexact, hspec⟩ := passHour_exact h hday
      rw [hexact] at hpass
      cases hpass
      exact hspec

/-- Before the last year of the calendar every pass has a result. -/
theorem exists_pass (h : pattern.Aligned) (hyear : clock.date.year < lastYear) :
    ∃ result, pattern.pass clock = .ok result := by
  obtain ⟨month, hmonth⟩ := exists_matchesMonth h clock.date
  obtain ⟨date, hdate⟩ := exists_matchesDate h hyear
  unfold pass
  rw [hmonth]
  cases month with
  | false => exact ⟨_, rfl⟩
  | true =>
    rw [hdate]
    cases date with
    | false => exact ⟨_, rfl⟩
    | true =>
      have hday : pattern.MatchesFrom .day clock := ⟨hdate, hmonth⟩
      obtain ⟨result, hresult, -⟩ := passHour_exact h hday
      exact ⟨result, hresult⟩

end Pattern

/-! ## The walk -/

namespace Schedule

variable {schedule : Schedule} {limit : Int} {clock : WallClock}

/-- The walk ends at the first match from its start on, within the limit. -/
theorem firstMatch_eq_ok (h : schedule.pattern.Aligned) {found : WallClock}
    (hfound : schedule.firstMatch limit clock = .ok found) :
    schedule.pattern.SkipsTo clock found ∧ schedule.pattern.Matches found ∧
      found.date.year ≤ limit := by
  fun_induction schedule.firstMatch limit clock with
  | case3 clock hlimit stop hpass =>
    rw [Except.ok.injEq] at hfound
    subst hfound
    obtain ⟨hskip, hmatch, hdate⟩ := Pattern.pass_exact h hpass
    exact ⟨hskip, hmatch, by rw [hdate]; omega⟩
  | case5 clock hlimit stop unit hpass next hnext _ ih =>
    obtain ⟨-, hskip⟩ := Pattern.pass_exact h hpass
    obtain ⟨hrest, hmatch, hyear⟩ := ih hfound
    exact ⟨(hskip next hnext).trans hrest, hmatch, hyear⟩
  | _ => simp at hfound

/-- A limit before the last year of the calendar is the only thing that stops the walk. -/
theorem firstMatch_eq_error (h : schedule.pattern.Aligned) (hlast : limit < lastYear)
    {error : Error} (herror : schedule.firstMatch limit clock = .error error) :
    error = .exhausted schedule.horizon ∧
      ∀ other : WallClock, clock.toSeconds ≤ other.toSeconds → other.date.year ≤ limit →
        ¬ schedule.pattern.Matches other := by
  fun_induction schedule.firstMatch limit clock with
  | case1 clock hlimit =>
    rw [Except.error.injEq] at herror
    refine ⟨herror.symm, fun other hle hyear => ?_⟩
    have := WallClock.year_le_of_toSeconds_le hle
    omega
  | case2 clock hlimit e hpass =>
    have hyear : clock.date.year < lastYear := by omega
    obtain ⟨result, hresult⟩ := Pattern.exists_pass h hyear
    rw [hresult] at hpass
    cases hpass
  | case3 => cases herror
  | case4 clock hlimit stop unit hpass hnext =>
    obtain ⟨hdate, -⟩ := Pattern.pass_exact h hpass
    have hyear : stop.date.year < lastYear := by
      rw [hdate]
      omega
    obtain ⟨next, hsome⟩ := WallClock.exists_advance unit hyear
    rw [hsome] at hnext
    cases hnext
  | case5 clock hlimit stop unit hpass next hnext _ ih =>
    obtain ⟨-, hskip⟩ := Pattern.pass_exact h hpass
    obtain ⟨hexhausted, hnone⟩ := ih herror
    refine ⟨hexhausted, fun other hle hyear hmatch => ?_⟩
    rcases Int.lt_or_le other.toSeconds next.toSeconds with hlt | hge
    · exact (hskip next hnext).2 other hle hlt hmatch
    · exact hnone other hge hyear hmatch

/-! ## From wall clocks to instants -/

variable {zone : Zone} {accepts : Instant → Bool}

/-- The search answers the earliest instant of the first match that has an accepted one. -/
theorem firstInstant_eq_ok (h : schedule.pattern.Aligned) {instant : Instant}
    (hfound : schedule.firstInstant zone accepts limit clock = .ok instant) :
    ∃ found : WallClock, clock.toSeconds ≤ found.toSeconds ∧ schedule.pattern.Matches found ∧
      found.date.year ≤ limit ∧ zone.earliest? found = some instant ∧ accepts instant ∧
        ∀ other : WallClock, clock.toSeconds ≤ other.toSeconds →
          other.toSeconds < found.toSeconds → schedule.pattern.Matches other →
            (zone.earliest? other).filter accepts = none := by
  fun_induction schedule.firstInstant zone accepts limit clock with
  | case2 clock found hmatch instant' hsome =>
    rw [Except.ok.injEq] at hfound
    subst hfound
    obtain ⟨hskip, hmatches, hyear⟩ := firstMatch_eq_ok h hmatch
    obtain ⟨hearliest, haccepts⟩ := Option.filter_eq_some_iff.mp hsome
    exact ⟨found, hskip.1, hmatches, hyear, hearliest, haccepts,
      fun other hle hlt hother => absurd hother (hskip.2 other hle hlt)⟩
  | case4 clock found hmatch hnone next hnext _ ih =>
    obtain ⟨hskip, -, -⟩ := firstMatch_eq_ok h hmatch
    have hseconds := WallClock.toSeconds_nextSecond hnext
    obtain ⟨last, hle, hmatches, hyear, hearliest, haccepts, hbefore⟩ := ih hfound
    have hle' := hskip.1
    refine ⟨last, by omega, hmatches, hyear, hearliest, haccepts, ?_⟩
    intro other hother hlt hmatch'
    -- before what was found, at it, or after it
    rcases Int.lt_trichotomy other.toSeconds found.toSeconds with hbelow | heq | habove
    · exact absurd hmatch' (hskip.2 other hother hbelow)
    · rw [WallClock.toSeconds_inj heq]
      exact hnone
    · exact hbefore other (by omega) hlt hmatch'
  | _ => simp at hfound

/-- The search gives up only where no match within the limit has an accepted instant. -/
theorem firstInstant_eq_error (h : schedule.pattern.Aligned) (hlast : limit < lastYear)
    {error : Error} (herror : schedule.firstInstant zone accepts limit clock = .error error) :
    error = .exhausted schedule.horizon ∧
      ∀ other : WallClock, clock.toSeconds ≤ other.toSeconds → other.date.year ≤ limit →
        schedule.pattern.Matches other → (zone.earliest? other).filter accepts = none := by
  fun_induction schedule.firstInstant zone accepts limit clock with
  | case1 clock e hmatch =>
    rw [Except.error.injEq] at herror
    subst herror
    obtain ⟨hexhausted, hnone⟩ := firstMatch_eq_error h hlast hmatch
    exact ⟨hexhausted, fun other hle hyear hother => absurd hother (hnone other hle hyear)⟩
  | case2 => cases herror
  | case3 clock found hmatch hnone hnext =>
    obtain ⟨-, -, hyear⟩ := firstMatch_eq_ok h hmatch
    have hlast' : found.date.year < lastYear := by omega
    obtain ⟨next, hsome⟩ := WallClock.exists_advance .second hlast'
    rw [show found.nextSecond? = some next from hsome] at hnext
    cases hnext
  | case4 clock found hmatch hnone next hnext _ ih =>
    obtain ⟨hskip, -, -⟩ := firstMatch_eq_ok h hmatch
    have hseconds := WallClock.toSeconds_nextSecond hnext
    obtain ⟨hexhausted, hrest⟩ := ih herror
    refine ⟨hexhausted, fun other hother hyear hmatch' => ?_⟩
    rcases Int.lt_trichotomy other.toSeconds found.toSeconds with hbelow | heq | habove
    · exact absurd hmatch' (hskip.2 other hother hbelow)
    · rw [WallClock.toSeconds_inj heq]
      exact hnone
    · exact hrest other (by omega) hyear hmatch'

/-! ## The answer -/

/-- A wall clock that a search may stop at, with its earliest instant: it is not before the
wall clock of the start, and later where the start itself is no candidate; it matches, within
the horizon; and the first instant at which the zone shows it, always within the calendar, is
late enough. -/
structure IsCandidate (schedule : Schedule) (zone : Zone) (start : Instant) (inclusive : Bool)
    (clock other : WallClock) (instant : Instant) : Prop where
  notBefore : clock.toSeconds ≤ other.toSeconds
  later : inclusive = false ∨ 0 < start.nanos → clock.toSeconds < other.toSeconds
  isMatch : schedule.pattern.matchesClock other = .ok true
  year_le : other.date.year ≤ clock.date.year + schedule.horizon
  whole : instant.nanos = 0
  earliest : zone.IsEarliest other instant.seconds
  inCalendar : zone.ShowsInCalendar other
  late : start.before instant ∨ inclusive = true ∧ instant = start

variable {start instant : Instant} {inclusive : Bool} {other first : WallClock}

/-- The earliest instant is what the zone answers. -/
theorem IsCandidate.earliest?_eq
    (h : schedule.IsCandidate zone start inclusive clock other instant) :
    zone.earliest? other = some instant :=
  Zone.earliest?_eq_some_iff.mpr ⟨h.whole, h.earliest, h.inCalendar⟩

theorem isLateEnough_iff :
    isLateEnough start inclusive instant ↔
      start.before instant ∨ inclusive = true ∧ instant = start := by
  simp [isLateEnough]

/-- The search starts with the first wall clock that its start allows. -/
theorem le_firstSecond?_iff (h : firstSecond? clock start inclusive = some first) :
    first.toSeconds ≤ other.toSeconds ↔
      clock.toSeconds ≤ other.toSeconds ∧
        (inclusive = false ∨ 0 < start.nanos → clock.toSeconds < other.toSeconds) := by
  unfold firstSecond? at h
  split at h
  · rename_i hstart
    cases h
    simp only [Bool.and_eq_true, beq_iff_eq] at hstart
    simp [hstart.1, hstart.2]
  · rename_i hstart
    simp only [Bool.and_eq_true, beq_iff_eq, not_and] at hstart
    have hlater : inclusive = false ∨ 0 < start.nanos := by
      cases inclusive with
      | false => exact .inl rfl
      | true => exact .inr (Nat.pos_of_ne_zero (hstart rfl))
    have hseconds := WallClock.toSeconds_nextSecond h
    simp only [hlater, forall_const]
    omega

theorem isCandidate_iff (h : firstSecond? clock start inclusive = some first) :
    schedule.IsCandidate zone start inclusive clock other instant ↔
      first.toSeconds ≤ other.toSeconds ∧ other.date.year ≤ clock.date.year + schedule.horizon ∧
        schedule.pattern.Matches other ∧
          (zone.earliest? other).filter (isLateEnough start inclusive) = some instant := by
  rw [le_firstSecond?_iff h, Option.filter_eq_some_iff, isLateEnough_iff,
    Zone.earliest?_eq_some_iff]
  constructor
  · rintro ⟨hnot, hlater, hmatch, hyear, hwhole, hearliest, hcalendar, hlate⟩
    exact ⟨⟨hnot, hlater⟩, hyear, hmatch, ⟨hwhole, hearliest, hcalendar⟩, hlate⟩
  · rintro ⟨⟨hnot, hlater⟩, hyear, hmatch, ⟨hwhole, hearliest, hcalendar⟩, hlate⟩
    exact ⟨hnot, hlater, hmatch, hyear, hwhole, hearliest, hcalendar, hlate⟩

/-- What a search answers belongs to its first candidate. -/
theorem isCandidate_of_nextOccurrence (h : schedule.pattern.Aligned)
    (hclock : zone.wallClock? start = some clock)
    (hfound : schedule.nextOccurrence zone start inclusive = .ok instant) :
    ∃ found, schedule.IsCandidate zone start inclusive clock found instant ∧
      ∀ other later, schedule.IsCandidate zone start inclusive clock other later →
        found.toSeconds ≤ other.toSeconds := by
  rw [nextOccurrence, hclock] at hfound
  simp only at hfound
  split at hfound
  · cases hfound
  · rename_i first hfirst
    obtain ⟨found, hle, hmatch, hyear, hearliest, hlate, hbefore⟩ := firstInstant_eq_ok h hfound
    refine ⟨found, (isCandidate_iff hfirst).mpr ⟨hle, hyear, hmatch, ?_⟩, ?_⟩
    · exact Option.filter_eq_some_iff.mpr ⟨hearliest, hlate⟩
    · intro other later hother
      obtain ⟨hle', -, hmatch', hlater⟩ := (isCandidate_iff hfirst).mp hother
      refine Int.not_lt.mp fun hlt => ?_
      rw [hbefore other hle' hlt hmatch'] at hlater
      cases hlater

/-- A search that ends before the last year of the calendar only fails for want of a
candidate. -/
theorem not_isCandidate_of_nextOccurrence (h : schedule.pattern.Aligned)
    (hclock : zone.wallClock? start = some clock)
    (hyear : clock.date.year + schedule.horizon < lastYear) {error : Error}
    (herror : schedule.nextOccurrence zone start inclusive = .error error) :
    error = .exhausted schedule.horizon ∧
      ∀ other later, ¬ schedule.IsCandidate zone start inclusive clock other later := by
  rw [nextOccurrence, hclock] at herror
  simp only at herror
  split at herror
  · rename_i hfirst
    have hlast : clock.date.year < lastYear := by omega
    obtain ⟨next, hnext⟩ := WallClock.exists_advance .second hlast
    unfold firstSecond? at hfirst
    split at hfirst
    · cases hfirst
    · rw [show clock.nextSecond? = some next from hnext] at hfirst
      cases hfirst
  · rename_i first hfirst
    obtain ⟨hexhausted, hnone⟩ := firstInstant_eq_error h hyear herror
    refine ⟨hexhausted, fun other later hother => ?_⟩
    obtain ⟨hle, hyear', hmatch, hlater⟩ := (isCandidate_iff hfirst).mp hother
    rw [hnone other hle hyear' hmatch] at hlater
    cases hlater

/-- **Exact search.**  A search whose horizon ends before the last year of the calendar
answers the earliest instant of the first candidate.  Where there is no candidate, it fails
with the horizon it was given, and it fails in no other way. -/
theorem nextOccurrence_exact {options : ParseOptions} {expression : String}
    (hparse : parseWith options expression = .ok schedule)
    (hclock : zone.wallClock? start = some clock)
    (hyear : clock.date.year + options.horizon < lastYear) (inclusive : Bool) :
    (∀ instant, schedule.nextOccurrence zone start inclusive = .ok instant ↔
      ∃ found, schedule.IsCandidate zone start inclusive clock found instant ∧
        ∀ other later, schedule.IsCandidate zone start inclusive clock other later →
          found.toSeconds ≤ other.toSeconds) ∧
    (∀ error, schedule.nextOccurrence zone start inclusive = .error error ↔
      error = .exhausted options.horizon ∧
        ∀ other later, ¬ schedule.IsCandidate zone start inclusive clock other later) := by
  have haligned := aligned_of_parseWith hparse
  have hhorizon : schedule.horizon = options.horizon := horizon_of_parseWith hparse
  rw [← hhorizon] at hyear ⊢
  refine ⟨fun instant => ⟨isCandidate_of_nextOccurrence haligned hclock, ?_⟩,
    fun error => ⟨not_isCandidate_of_nextOccurrence haligned hclock hyear, ?_⟩⟩
  · rintro ⟨found, hfound, hleast⟩
    cases hresult : schedule.nextOccurrence zone start inclusive with
    | error e =>
      have hnone := (not_isCandidate_of_nextOccurrence haligned hclock hyear hresult).2
      exact absurd hfound (hnone found instant)
    | ok answer =>
      obtain ⟨first, hfirst, hleast'⟩ := isCandidate_of_nextOccurrence haligned hclock hresult
      have hsame : first = found := WallClock.toSeconds_inj
        (Int.le_antisymm (hleast' _ _ hfound) (hleast _ _ hfirst))
      have hanswer := hfirst.earliest?_eq
      rw [hsame, hfound.earliest?_eq, Option.some.injEq] at hanswer
      rw [hanswer]
  · rintro ⟨rfl, hnone⟩
    cases hresult : schedule.nextOccurrence zone start inclusive with
    | error e => rw [(not_isCandidate_of_nextOccurrence haligned hclock hyear hresult).1]
    | ok answer =>
      obtain ⟨first, hfirst, -⟩ := isCandidate_of_nextOccurrence haligned hclock hresult
      exact absurd hfirst (hnone first answer)

/-- Half past two is skipped on the 31st of March 2024.  A search that starts at noon of the day
before finds it on the day after. -/
theorem nextOccurrence_exact_over_gap :
    ∃ schedule clock found, parseWith {} "30 2 * * *" = .ok schedule ∧
      Zone.summerTime2024.wallClock? ⟨1711796400, 0⟩ = some clock ∧
        clock.date.year + 28 < lastYear ∧
    schedule.nextOccurrence .summerTime2024 ⟨1711796400, 0⟩ false = .ok ⟨1711931400, 0⟩ ∧
    (clock.date.month = 3 ∧ clock.date.day = 30) ∧ (found.date.month = 4 ∧ found.date.day = 1) ∧
    schedule.IsCandidate .summerTime2024 ⟨1711796400, 0⟩ false clock found ⟨1711931400, 0⟩ ∧
    (∀ other later,
      schedule.IsCandidate .summerTime2024 ⟨1711796400, 0⟩ false clock other later →
        found.toSeconds ≤ other.toSeconds) ∧
    (∀ error, schedule.nextOccurrence .summerTime2024 ⟨1711796400, 0⟩ false = .error error ↔
      error = .exhausted 28 ∧ ∀ other later,
        ¬ schedule.IsCandidate .summerTime2024 ⟨1711796400, 0⟩ false clock other later) := by
  obtain ⟨schedule, hparse, hnext⟩ := map_eq_ok_iff.mp
    (show (parseWith {} "30 2 * * *").map (fun schedule =>
      schedule.nextOccurrence .summerTime2024 ⟨1711796400, 0⟩ false) = .ok (.ok ⟨1711931400, 0⟩) by
        decide +kernel)
  obtain ⟨clock, hclock, hdate⟩ := Option.map_eq_some_iff.mp
    (show (Zone.summerTime2024.wallClock? ⟨1711796400, 0⟩).map (fun clock =>
      (clock.date.year, clock.date.month, clock.date.day)) = some (2024, 3, 30) by decide)
  obtain ⟨hyear, hmonth, hday⟩ : clock.date.year = 2024 ∧ clock.date.month = 3 ∧
      clock.date.day = 30 := by simpa using hdate
  have hlast : clock.date.year + 28 < lastYear := by rw [hyear]; decide
  obtain ⟨hanswer, herror⟩ := nextOccurrence_exact hparse hclock hlast false
  obtain ⟨found, hfound, hleast⟩ := (hanswer _).mp hnext
  have hshown : (Zone.summerTime2024.wallClock? ⟨1711931400, 0⟩).map (fun clock =>
      (clock.date.month, clock.date.day)) = some (4, 1) := by decide
  rw [Zone.wallClock?_eq_some_iff.mpr hfound.earliest.shows, Option.map_some,
    Option.some.injEq, Prod.mk.injEq] at hshown
  exact ⟨schedule, clock, found, hparse, hclock, hlast, hnext, ⟨hmonth, hday⟩, hshown, hfound,
    hleast, herror⟩

end Schedule
end CronSchedule

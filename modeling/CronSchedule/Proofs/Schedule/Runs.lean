import CronSchedule.Proofs.Schedule.ExactSearch
import CronSchedule.Schedule.Occurrences
import Mathlib.Data.Set.Card

/-! # Runs of a list of occurrences

A list of occurrences is asked for one item after the other, and each item is where the
search for the next one starts.  What one search guarantees carries over to a run of any
length.

* **Soundness, in every zone** (`results_sound`): the items are instants at which the
  schedule fires, in strictly ascending order, and so are their wall clocks.  The first
  error ends the list.
* **Completeness, in zones that keep the order of the wall clocks** (`kth_item_exact`): the
  items are all of these instants, none is left out.

The link between the two orders is `isCandidate_of_fires`.  A search compares wall clocks
with the one of its start; it misses no later instant exactly because an earlier wall clock
has no later first instant.
-/
namespace CronSchedule

namespace Schedule

variable {schedule : Schedule} {zone : Zone} {start instant : Instant} {inclusive : Bool}
  {clock : WallClock}

/-- Whether the schedule fires at an instant: at a whole second whose wall clock matches and
has not been shown before. -/
structure Fires (schedule : Schedule) (zone : Zone) (instant : Instant) : Prop where
  whole : instant.nanos = 0
  isMatch : schedule.isMatch zone instant = .ok true
  earliest : ∃ clock, zone.IsEarliest clock instant.seconds ∧ zone.ShowsInCalendar clock

theorem fires_of_earliest? (hmatch : schedule.pattern.Matches clock)
    (h : zone.earliest? clock = some instant) : schedule.Fires zone instant where
  whole := (Zone.earliest?_eq_some_iff.mp h).1
  isMatch := by rw [isMatch, Zone.wallClock?_of_earliest? h]; exact hmatch
  earliest := ⟨clock, (Zone.earliest?_eq_some_iff.mp h).2⟩

theorem Fires.exists_clock (h : schedule.Fires zone instant) :
    ∃ clock, zone.wallClock? instant = some clock ∧ zone.earliest? clock = some instant ∧
      schedule.pattern.Matches clock := by
  obtain ⟨clock, hearliest, hcalendar⟩ := h.earliest
  have hclock := Zone.wallClock?_eq_some_iff.mpr hearliest.shows
  have hmatch := h.isMatch
  rw [Schedule.isMatch, hclock] at hmatch
  exact ⟨clock, hclock, Zone.earliest?_eq_some_iff.mpr ⟨h.whole, hearliest, hcalendar⟩, hmatch⟩

/-! ## One search -/

theorem exists_wallClock?_of_nextOccurrence
    (h : schedule.nextOccurrence zone start inclusive = .ok instant) :
    ∃ clock, zone.wallClock? start = some clock := by
  unfold nextOccurrence at h
  split at h
  · cases h
  · exact ⟨_, ‹_›⟩

/-- What a search answers is an instant at which the schedule fires, late enough and with a
wall clock within the horizon. -/
theorem fires_of_nextOccurrence (h : schedule.pattern.Aligned)
    (hclock : zone.wallClock? start = some clock)
    (hfound : schedule.nextOccurrence zone start inclusive = .ok instant) :
    schedule.Fires zone instant ∧ (start.before instant ∨ inclusive = true ∧ instant = start) ∧
      ∃ found, zone.wallClock? instant = some found ∧
        found.date.year ≤ clock.date.year + schedule.horizon ∧
          (inclusive = false → clock.toSeconds < found.toSeconds) := by
  obtain ⟨found, hcandidate, -⟩ := isCandidate_of_nextOccurrence h hclock hfound
  exact ⟨fires_of_earliest? hcandidate.isMatch hcandidate.earliest?_eq, hcandidate.late, found,
    Zone.wallClock?_eq_some_iff.mpr hcandidate.earliest.shows, hcandidate.year_le,
    fun hexclusive => hcandidate.later (.inl hexclusive)⟩

/-- Where the zone keeps the order of the wall clocks, an instant at which the schedule
fires late enough has a wall clock that the search may stop at. -/
theorem isCandidate_of_fires (hzone : zone.EarliestGrows)
    (hclock : zone.wallClock? start = some clock) {other : WallClock}
    (hmatch : schedule.pattern.Matches other) (hearliest : zone.earliest? other = some instant)
    (hlate : start.before instant ∨ inclusive = true ∧ instant = start)
    (hyear : other.date.year ≤ clock.date.year + schedule.horizon) :
    schedule.IsCandidate zone start inclusive clock other instant := by
  obtain ⟨hwhole, hother, hcalendar⟩ := Zone.earliest?_eq_some_iff.mp hearliest
  obtain ⟨first, hfirst, hle⟩ := Zone.exists_isEarliest (Zone.wallClock?_eq_some_iff.mp hclock)
  have hseconds : start.seconds ≤ instant.seconds := by
    rcases hlate with hbefore | ⟨-, rfl⟩
    · rw [Instant.before_iff] at hbefore
      omega
    · exact Int.le_refl _
  have hnot : clock.toSeconds ≤ other.toSeconds := by
    refine Int.not_lt.mp fun hlt => ?_
    have := hzone other clock _ _ hother hfirst hlt
    omega
  refine ⟨hnot, fun hlater => ?_, hmatch, hyear, hwhole, hother, hcalendar, hlate⟩
  refine lt_of_le_of_ne hnot fun heq => ?_
  -- the wall clock of the start was first shown no later than at the start
  have hsame := hfirst.le _ ((WallClock.toSeconds_inj heq) ▸ hother.shows)
  have hsame' := hother.le _ ((WallClock.toSeconds_inj heq) ▸ hfirst.shows)
  rcases hlate with hbefore | ⟨hinclusive, rfl⟩
  · rw [Instant.before_iff] at hbefore
    omega
  · rcases hlater with hexclusive | hfraction
    · rw [hinclusive] at hexclusive
      cases hexclusive
    · omega

/-- Such a search passes over no instant at which the schedule fires. -/
theorem not_before_nextOccurrence (h : schedule.pattern.Aligned) (hzone : zone.EarliestGrows)
    (hfound : schedule.nextOccurrence zone start inclusive = .ok instant) {other : Instant}
    (hother : schedule.Fires zone other)
    (hlate : start.before other ∨ inclusive = true ∧ other = start) :
    ¬ other.before instant := by
  intro hbefore
  obtain ⟨clock, hclock⟩ := exists_wallClock?_of_nextOccurrence hfound
  obtain ⟨found, hfound, hleast⟩ := isCandidate_of_nextOccurrence h hclock hfound
  obtain ⟨otherClock, -, hearliest, hmatch⟩ := hother.exists_clock
  have hfirst := (Zone.earliest?_eq_some_iff.mp hearliest).2.1
  have hlt : otherClock.toSeconds < found.toSeconds := by
    refine Int.not_le.mp fun hle => ?_
    rw [Instant.before_iff] at hbefore
    rcases Int.lt_or_eq_of_le hle with hgt | heq
    · have := hzone _ _ _ _ hfound.earliest hfirst hgt
      have := hfound.whole
      omega
    · have := hfound.earliest.le _ (WallClock.toSeconds_inj heq ▸ hfirst.shows)
      have := hfound.whole
      omega
  have hyear := Int.le_trans (WallClock.year_le_of_toSeconds_le (Int.le_of_lt hlt)) hfound.year_le
  have hcandidate := isCandidate_of_fires hzone hclock hmatch hearliest hlate hyear
  exact absurd (hleast _ _ hcandidate) (Int.not_le.mpr hlt)

/-- Such a search gives up only where the schedule does not fire within the horizon. -/
theorem lt_year_of_nextOccurrence (h : schedule.pattern.Aligned) (hzone : zone.EarliestGrows)
    (hclock : zone.wallClock? start = some clock)
    (hyear : clock.date.year + schedule.horizon < lastYear) {error : Error}
    (herror : schedule.nextOccurrence zone start inclusive = .error error) {other : Instant}
    (hother : schedule.Fires zone other)
    (hlate : start.before other ∨ inclusive = true ∧ other = start) {otherClock : WallClock}
    (hotherClock : zone.wallClock? other = some otherClock) :
    clock.date.year + schedule.horizon < otherClock.date.year := by
  refine Int.not_le.mp fun hle => ?_
  obtain ⟨-, hnone⟩ := not_isCandidate_of_nextOccurrence h hclock hyear herror
  obtain ⟨shown, hshown, hearliest, hmatch⟩ := hother.exists_clock
  rw [hshown, Option.some.injEq] at hotherClock
  rw [← hotherClock] at hle
  exact hnone _ _ (isCandidate_of_fires hzone hclock hmatch hearliest hlate hle)

end Schedule

/-! ## Runs -/

namespace Schedule

/-- The occurrences of a schedule after a start, and at the start if it is included. -/
def occurrences (schedule : Schedule) (zone : Zone) (start : Instant) (inclusive : Bool) :
    Occurrences :=
  if inclusive then schedule.occurrencesFrom zone start else schedule.occurrencesAfter zone start

theorem occurrences_eq (schedule : Schedule) (zone : Zone) (start : Instant) (inclusive : Bool) :
    schedule.occurrences zone start inclusive = ⟨schedule, zone, start, inclusive, false⟩ := by
  cases inclusive with
  | false => rfl
  | true => rfl

end Schedule

namespace Occurrences

variable {schedule : Schedule} {zone : Zone} {start instant : Instant} {inclusive : Bool}

/-- What is left of a list after a number of calls. -/
def after (occurrences : Occurrences) : Nat → Occurrences
  | 0 => occurrences
  | calls + 1 => occurrences.next.2.after calls

/-- What a number of calls answer. -/
def results (occurrences : Occurrences) : Nat → List (Option (Except Error Instant))
  | 0 => []
  | calls + 1 => occurrences.next.1 :: occurrences.next.2.results calls

theorem next_eq_of_ok
    (h : schedule.nextOccurrence zone start inclusive = .ok instant) :
    next ⟨schedule, zone, start, inclusive, false⟩ =
      (some (.ok instant), ⟨schedule, zone, instant, false, false⟩) := by
  simp [next, h]

theorem next_eq_of_error {error : Error}
    (h : schedule.nextOccurrence zone start inclusive = .error error) :
    next ⟨schedule, zone, start, inclusive, false⟩ =
      (some (.error error), ⟨schedule, zone, start, inclusive, true⟩) := by
  simp [next, h]

theorem next_eq_of_finished {occurrences : Occurrences} (h : occurrences.finished = true) :
    occurrences.next = (none, occurrences) := by
  simp [next, h]

theorem results_of_finished {occurrences : Occurrences} (h : occurrences.finished = true)
    (calls : Nat) : occurrences.results calls = List.replicate calls none := by
  induction calls with
  | zero => rfl
  | succ calls ih => rw [results, next_eq_of_finished h, ih, List.replicate_succ]

theorem after_of_finished {occurrences : Occurrences} (h : occurrences.finished = true)
    (calls : Nat) : occurrences.after calls = occurrences := by
  induction calls with
  | zero => rfl
  | succ calls ih => rw [after, next_eq_of_finished h, ih]

theorem after_succ_of_ok (h : schedule.nextOccurrence zone start inclusive = .ok instant)
    (calls : Nat) :
    after ⟨schedule, zone, start, inclusive, false⟩ (calls + 1) =
      after ⟨schedule, zone, instant, false, false⟩ calls := by
  rw [after, next_eq_of_ok h]

theorem after_succ_of_error {error : Error}
    (h : schedule.nextOccurrence zone start inclusive = .error error) (calls : Nat) :
    after ⟨schedule, zone, start, inclusive, false⟩ (calls + 1) =
      ⟨schedule, zone, start, inclusive, true⟩ := by
  rw [after, next_eq_of_error h]
  exact after_of_finished rfl calls

/-- A list of one item more is a search and the list from what it answers. -/
theorem take_succ (schedule : Schedule) (zone : Zone) (start : Instant) (inclusive : Bool)
    (count : Nat) :
    take ⟨schedule, zone, start, inclusive, false⟩ (count + 1) =
      schedule.nextOccurrence zone start inclusive >>= fun item =>
        (take ⟨schedule, zone, item, false, false⟩ count).map (item :: ·) := by
  rw [take]
  cases hnext : schedule.nextOccurrence zone start inclusive with
  | error error => rw [next_eq_of_error hnext]; rfl
  | ok item => rw [next_eq_of_ok hnext]; rfl

/-! ### Soundness -/

/-- What the items of a run have in common: the schedule fires at each of them, they and
their wall clocks ascend, and only the first can be the start. -/
structure Sound (schedule : Schedule) (zone : Zone) (start : Instant) (inclusive : Bool)
    (found : List Instant) : Prop where
  fires : ∀ item ∈ found, schedule.Fires zone item
  ascending : found.Pairwise fun a b => a.before b
  clocks : found.Pairwise zone.ClockBefore
  late : ∀ item ∈ found,
    start.before item ∨ inclusive = true ∧ item = start ∧ found.head? = some item
  clockLate : inclusive = false → ∀ item ∈ found, zone.ClockBefore start item

theorem sound_nil : Sound schedule zone start inclusive [] where
  fires := fun _ h => nomatch h
  ascending := List.Pairwise.nil
  clocks := List.Pairwise.nil
  late := fun _ h => nomatch h
  clockLate := fun _ _ h => nomatch h

/-- An item in front of the run that starts after it. -/
theorem sound_cons (h : schedule.pattern.Aligned)
    (hfound : schedule.nextOccurrence zone start inclusive = .ok instant) {rest : List Instant}
    (hrest : Sound schedule zone instant false rest) :
    Sound schedule zone start inclusive (instant :: rest) := by
  obtain ⟨clock, hclock⟩ := Schedule.exists_wallClock?_of_nextOccurrence hfound
  obtain ⟨hfires, hlate, shown, hshown, -, hlater⟩ :=
    Schedule.fires_of_nextOccurrence h hclock hfound
  have hafter : ∀ item ∈ rest, instant.before item := by
    intro item hitem
    rcases hrest.late item hitem with hbefore | ⟨hfalse, -⟩
    · exact hbefore
    · cases hfalse
  refine ⟨?_, List.pairwise_cons.mpr ⟨hafter, hrest.ascending⟩,
    List.pairwise_cons.mpr ⟨hrest.clockLate rfl, hrest.clocks⟩, ?_, ?_⟩
  · intro item hitem
    rcases List.mem_cons.mp hitem with rfl | hitem
    · exact hfires
    · exact hrest.fires item hitem
  · intro item hitem
    rcases List.mem_cons.mp hitem with rfl | hitem
    · rcases hlate with hbefore | ⟨hinclusive, hstart⟩
      · exact .inl hbefore
      · exact .inr ⟨hinclusive, hstart, rfl⟩
    · rcases hlate with hbefore | ⟨-, rfl⟩
      · exact .inl (Instant.before_trans hbefore (hafter item hitem))
      · exact .inl (hafter item hitem)
  · intro hexclusive item hitem
    have hstart : zone.ClockBefore start instant :=
      ⟨clock, shown, hclock, hshown, hlater hexclusive⟩
    rcases List.mem_cons.mp hitem with rfl | hitem
    · exact hstart
    · exact hstart.trans (hrest.clockLate rfl item hitem)

/-- A run answers sound items, then at most one error, then nothing. -/
theorem results_sound (h : schedule.pattern.Aligned) (zone : Zone) (start : Instant)
    (inclusive : Bool) (calls : Nat) :
    ∃ found ending,
      results ⟨schedule, zone, start, inclusive, false⟩ calls =
        found.map (fun item => some (.ok item)) ++ ending ∧
      (ending = [] ∨ ∃ error count, ending = some (.error error) :: List.replicate count none) ∧
      Sound schedule zone start inclusive found := by
  induction calls generalizing start inclusive with
  | zero => exact ⟨[], [], rfl, .inl rfl, sound_nil⟩
  | succ calls ih =>
    rw [results]
    cases hnext : schedule.nextOccurrence zone start inclusive with
    | error error =>
      rw [next_eq_of_error hnext, results_of_finished rfl]
      exact ⟨[], _, rfl, .inr ⟨error, calls, rfl⟩, sound_nil⟩
    | ok item =>
      rw [next_eq_of_ok hnext]
      obtain ⟨found, ending, hresults, hending, hsound⟩ := ih item false
      refine ⟨item :: found, ending, ?_, hending, sound_cons h hnext hsound⟩
      rw [hresults]
      rfl

/-! ### The first items as a list -/

theorem length_of_take {count : Nat} {found : List Instant}
    (h : take ⟨schedule, zone, start, inclusive, false⟩ count = .ok found) :
    found.length = count := by
  induction count generalizing start inclusive found with
  | zero => cases h; rfl
  | succ count ih =>
    rw [take_succ] at h
    obtain ⟨item, -, h⟩ := bind_eq_ok_iff.mp h
    obtain ⟨rest, hrest, rfl⟩ := map_eq_ok_iff.mp h
    rw [List.length_cons, ih hrest]

/-- Fewer items are a prefix of more. -/
theorem take_of_le {count fewer : Nat} {found : List Instant}
    (h : take ⟨schedule, zone, start, inclusive, false⟩ count = .ok found)
    (hle : fewer ≤ count) :
    take ⟨schedule, zone, start, inclusive, false⟩ fewer = .ok (found.take fewer) := by
  induction fewer generalizing start inclusive count found with
  | zero => rfl
  | succ fewer ih =>
    obtain ⟨count, rfl⟩ := Nat.exists_eq_add_of_lt hle
    rw [take_succ] at h
    obtain ⟨item, hnext, h⟩ := bind_eq_ok_iff.mp h
    obtain ⟨rest, hrest, rfl⟩ := map_eq_ok_iff.mp h
    rw [take_succ, List.take_succ_cons]
    refine bind_eq_ok_iff.mpr ⟨item, hnext, map_eq_ok_iff.mpr ⟨_, ih hrest ?_, rfl⟩⟩
    exact Nat.le_add_right _ _

/-- An error met by fewer items is met by more. -/
theorem take_error_of_le {count more : Nat} {error : Error}
    (h : take ⟨schedule, zone, start, inclusive, false⟩ count = .error error)
    (hle : count ≤ more) :
    take ⟨schedule, zone, start, inclusive, false⟩ more = .error error := by
  induction count generalizing start inclusive more with
  | zero => cases h
  | succ count ih =>
    obtain ⟨more, rfl⟩ := Nat.exists_eq_add_of_lt hle
    rw [take_succ] at h ⊢
    rcases bind_eq_error_iff.mp h with hnext | ⟨item, hnext, h⟩
    · exact bind_eq_error_iff.mpr (.inl hnext)
    · refine bind_eq_error_iff.mpr (.inr ⟨item, hnext, map_eq_error_iff.mpr ?_⟩)
      exact ih (map_eq_error_iff.mp h) (Nat.le_add_right _ _)

/-! ### Completeness -/

/-- Whether an instant is still due: the schedule fires at it, and the list has not come
that far yet. -/
structure Due (occurrences : Occurrences) (instant : Instant) : Prop where
  fires : occurrences.schedule.Fires occurrences.zone instant
  ahead : occurrences.position.before instant ∨
    occurrences.inclusive = true ∧ instant = occurrences.position

theorem Due.before {first : Instant} (h : Due ⟨schedule, zone, first, false, false⟩ instant) :
    first.before instant := by
  rcases h.ahead with hbefore | ⟨hfalse, -⟩
  · exact hbefore
  · cases hfalse

/-- What is due after an item was due before it. -/
theorem Due.of_after {first : Instant}
    (hfirst : Due ⟨schedule, zone, start, inclusive, false⟩ first)
    (h : Due ⟨schedule, zone, first, false, false⟩ instant) :
    Due ⟨schedule, zone, start, inclusive, false⟩ instant := by
  refine ⟨h.fires, .inl ?_⟩
  rcases hfirst.ahead with hbefore | ⟨-, hstart⟩
  · exact Instant.before_trans hbefore h.before
  · exact hstart ▸ h.before

/-- Whether an instant is due with just `k` due before it. -/
structure IsKthDue (occurrences : Occurrences) (k : Nat) (instant : Instant) : Prop where
  due : occurrences.Due instant
  rank : {other | occurrences.Due other ∧ other.before instant}.encard = k

/-- In a zone that keeps the order of the wall clocks the next item is the first one due. -/
theorem isKthDue_zero (h : schedule.pattern.Aligned) (hzone : zone.EarliestGrows)
    (hfound : schedule.nextOccurrence zone start inclusive = .ok instant) :
    IsKthDue ⟨schedule, zone, start, inclusive, false⟩ 0 instant := by
  obtain ⟨clock, hclock⟩ := Schedule.exists_wallClock?_of_nextOccurrence hfound
  obtain ⟨hfires, hlate, -⟩ := Schedule.fires_of_nextOccurrence h hclock hfound
  refine ⟨⟨hfires, hlate⟩, ?_⟩
  rw [Nat.cast_zero, Set.encard_eq_zero, Set.eq_empty_iff_forall_notMem]
  intro other ⟨hdue, hbefore⟩
  exact Schedule.not_before_nextOccurrence h hzone hfound hdue.fires hdue.ahead hbefore

/-- What is due after the first item comes one place later in the whole list. -/
theorem isKthDue_succ {first : Instant} {k : Nat}
    (hfirst : IsKthDue ⟨schedule, zone, start, inclusive, false⟩ 0 first)
    (h : IsKthDue ⟨schedule, zone, first, false, false⟩ k instant) :
    IsKthDue ⟨schedule, zone, start, inclusive, false⟩ (k + 1) instant := by
  have hempty := hfirst.rank
  rw [Nat.cast_zero, Set.encard_eq_zero, Set.eq_empty_iff_forall_notMem] at hempty
  refine ⟨hfirst.due.of_after h.due, ?_⟩
  have hinsert : {other | Due ⟨schedule, zone, start, inclusive, false⟩ other ∧
      other.before instant} = insert first
        {other | Due ⟨schedule, zone, first, false, false⟩ other ∧ other.before instant} := by
    ext other
    rw [Set.mem_insert_iff]
    constructor
    · intro ⟨hother, hbefore⟩
      rcases Instant.eq_or_before_or_before other first with heq | hlt | hgt
      · exact .inl heq
      · exact absurd ⟨hother, hlt⟩ (hempty other)
      · exact .inr ⟨⟨hother.fires, .inl hgt⟩, hbefore⟩
    · rintro (rfl | ⟨hother, hbefore⟩)
      · exact ⟨hfirst.due, h.due.before⟩
      · exact ⟨hfirst.due.of_after hother, hbefore⟩
  rw [hinsert, Set.encard_insert_of_notMem, h.rank, Nat.cast_succ]
  exact fun hmem => Instant.before_irrefl _ hmem.1.before

/-- The k-th item of a run is the k-th instant that is due. -/
theorem isKthDue_of_after (h : schedule.pattern.Aligned) (hzone : zone.EarliestGrows) {k : Nat}
    (hitem : (after ⟨schedule, zone, start, inclusive, false⟩ k).next.1 = some (.ok instant)) :
    IsKthDue ⟨schedule, zone, start, inclusive, false⟩ k instant := by
  induction k generalizing start inclusive with
  | zero =>
    cases hnext : schedule.nextOccurrence zone start inclusive with
    | error error =>
      rw [after, next_eq_of_error hnext] at hitem
      cases hitem
    | ok found =>
      rw [after, next_eq_of_ok hnext] at hitem
      cases hitem
      exact isKthDue_zero h hzone hnext
  | succ k ih =>
    cases hnext : schedule.nextOccurrence zone start inclusive with
    | error error =>
      rw [after_succ_of_error hnext, next_eq_of_finished rfl] at hitem
      cases hitem
    | ok first =>
      rw [after_succ_of_ok hnext] at hitem
      exact isKthDue_succ (isKthDue_zero h hzone hnext) (ih hitem)

/-- A run keeps its schedule and its zone. -/
theorem exists_after_eq (schedule : Schedule) (zone : Zone) (start : Instant) (inclusive : Bool)
    (k : Nat) :
    ∃ position next finished, after ⟨schedule, zone, start, inclusive, false⟩ k =
      ⟨schedule, zone, position, next, finished⟩ := by
  induction k generalizing start inclusive with
  | zero => exact ⟨_, _, _, rfl⟩
  | succ k ih =>
    cases hnext : schedule.nextOccurrence zone start inclusive with
    | error error => exact ⟨_, _, _, after_succ_of_error hnext k⟩
    | ok item =>
      rw [after_succ_of_ok hnext]
      exact ih item false

/-- A run ends in an error and not otherwise. -/
theorem exists_error_of_after {k : Nat}
    (h : (after ⟨schedule, zone, start, inclusive, false⟩ k).next.1 = none) :
    ∃ j error, j < k ∧
      (after ⟨schedule, zone, start, inclusive, false⟩ j).next.1 = some (.error error) := by
  induction k generalizing start inclusive with
  | zero =>
    cases hnext : schedule.nextOccurrence zone start inclusive with
    | error error =>
      rw [after, next_eq_of_error hnext] at h
      cases h
    | ok item =>
      rw [after, next_eq_of_ok hnext] at h
      cases h
  | succ k ih =>
    cases hnext : schedule.nextOccurrence zone start inclusive with
    | error error =>
      exact ⟨0, error, Nat.succ_pos k, by rw [after, next_eq_of_error hnext]⟩
    | ok item =>
      rw [after_succ_of_ok hnext] at h
      obtain ⟨j, error, hj, herror⟩ := ih h
      refine ⟨j + 1, error, Nat.succ_lt_succ hj, ?_⟩
      rw [after_succ_of_ok hnext]
      exact herror

/-- A search that answers is where the next one starts. -/
theorem after_succ_of_item {occurrences : Occurrences} {k : Nat}
    (h : (occurrences.after k).next.1 = some (.ok instant)) :
    (occurrences.after (k + 1)).position = instant := by
  induction k generalizing occurrences with
  | zero =>
    simp only [after] at h ⊢
    unfold next at h ⊢
    split at h
    · cases h
    · rename_i hfinished
      rw [if_neg hfinished]
      split at h
      · cases h
        rfl
      · cases h
  | succ k ih => exact ih h

/-- A run that fails before the last year of the calendar has looked through its horizon,
and nothing is due within it. -/
theorem lt_year_of_after (h : schedule.pattern.Aligned) (hzone : zone.EarliestGrows) {k : Nat}
    {error : Error} {clock : WallClock}
    (herror : (after ⟨schedule, zone, start, inclusive, false⟩ k).next.1 = some (.error error))
    (hclock : zone.wallClock? (after ⟨schedule, zone, start, inclusive, false⟩ k).position =
      some clock)
    (hyear : clock.date.year + schedule.horizon < lastYear) :
    error = .exhausted schedule.horizon ∧
      ∀ other, Due (after ⟨schedule, zone, start, inclusive, false⟩ k) other →
        ∀ shown, zone.wallClock? other = some shown →
          clock.date.year + schedule.horizon < shown.date.year := by
  obtain ⟨position, inclusive', finished, heq⟩ := exists_after_eq schedule zone start inclusive k
  rw [heq] at herror hclock ⊢
  cases finished with
  | true =>
    rw [next_eq_of_finished rfl] at herror
    cases herror
  | false =>
    cases hnext : schedule.nextOccurrence zone position inclusive' with
    | ok item =>
      rw [next_eq_of_ok hnext] at herror
      cases herror
    | error error' =>
      rw [next_eq_of_error hnext] at herror
      cases herror
      refine ⟨(Schedule.not_isCandidate_of_nextOccurrence h hclock hyear hnext).1, ?_⟩
      intro other hother shown hshown
      exact Schedule.lt_year_of_nextOccurrence h hzone hclock hyear hnext hother.fires
        hother.ahead hshown

/-! ## The two results -/

/-- **No occurrence is lost.**  A fixed offset, or changes that lie far enough apart, keep
the earliest instants in the order of the wall clocks.  In a zone that does, the k-th item
is the k-th instant at which the schedule fires after the start.  When a search fails before
the last year of the calendar, the schedule does not fire within the horizon of the item
that the search started from. -/
theorem kth_item_exact {options : ParseOptions} {expression : String}
    (hparse : Schedule.parseWith options expression = .ok schedule) :
    (∀ zone : Zone, (zone.transitions = [] ∨ ∃ distance, zone.Spaced distance) →
      zone.EarliestGrows) ∧
    ∀ zone : Zone, zone.EarliestGrows → ∀ start inclusive k,
      (∀ item,
        ((schedule.occurrences zone start inclusive).after k).next.1 = some (.ok item) →
          (schedule.occurrences zone start inclusive).IsKthDue k item ∧
          ((schedule.occurrences zone start inclusive).after (k + 1)).position = item) ∧
      (∀ error clock,
        ((schedule.occurrences zone start inclusive).after k).next.1 = some (.error error) →
        zone.wallClock? ((schedule.occurrences zone start inclusive).after k).position =
          some clock →
        clock.date.year + options.horizon < lastYear →
          error = .exhausted options.horizon ∧
          ∀ other, ((schedule.occurrences zone start inclusive).after k).Due other →
            ∀ shown, zone.wallClock? other = some shown →
              clock.date.year + options.horizon < shown.date.year) ∧
      (((schedule.occurrences zone start inclusive).after k).next.1 = none →
        ∃ j error, j < k ∧
          ((schedule.occurrences zone start inclusive).after j).next.1 =
            some (.error error)) := by
  have haligned := Schedule.aligned_of_parseWith hparse
  have hhorizon : schedule.horizon = options.horizon := Schedule.horizon_of_parseWith hparse
  refine ⟨?_, ?_⟩
  · rintro zone (hfixed | ⟨distance, hspaced⟩)
    · obtain ⟨offset, transitions⟩ := zone
      cases hfixed
      exact Zone.earliestGrows_of_spaced (Zone.spaced_of_fixed offset)
    · exact Zone.earliestGrows_of_spaced hspaced
  · intro zone hzone start inclusive k
    rw [Schedule.occurrences_eq, ← hhorizon]
    exact ⟨fun item hitem => ⟨isKthDue_of_after haligned hzone hitem, after_succ_of_item hitem⟩,
      fun error clock herror hclock hyear => lt_year_of_after haligned hzone herror hclock hyear,
      exists_error_of_after⟩

/-- Half past two is shown twice on the 27th of October 2024, and a search from the midnight
before finds the first time. -/
theorem nextOccurrence_in_repeated_hour :
    ∃ schedule, Schedule.parseWith {} "30 2 * * *" = .ok schedule ∧
      schedule.nextOccurrence .summerTime2024 ⟨1729980000, 0⟩ false = .ok ⟨1729989000, 0⟩ :=
  map_eq_ok_iff.mp (show (Schedule.parseWith {} "30 2 * * *").map (fun schedule =>
    schedule.nextOccurrence .summerTime2024 ⟨1729980000, 0⟩ false) = .ok (.ok ⟨1729989000, 0⟩) by
      decide +kernel)

/-- The first item after midnight is the first instant due. -/
theorem kth_item_exact_over_repeated_hour :
    ∃ schedule, Schedule.parseWith {} "30 2 * * *" = .ok schedule ∧
      Zone.summerTime2024.EarliestGrows ∧
      ((schedule.occurrences .summerTime2024 ⟨1729980000, 0⟩ false).after 0).next.1 =
        some (.ok ⟨1729989000, 0⟩) ∧
      (schedule.occurrences .summerTime2024 ⟨1729980000, 0⟩ false).IsKthDue 0
        ⟨1729989000, 0⟩ := by
  obtain ⟨schedule, hparse, hnext⟩ := nextOccurrence_in_repeated_hour
  have hgrows := (kth_item_exact hparse).1 _ (.inr ⟨3600, Zone.spaced_summerTime2024⟩)
  have hitem : ((schedule.occurrences .summerTime2024 ⟨1729980000, 0⟩ false).after 0).next.1 =
      some (.ok ⟨1729989000, 0⟩) := by
    rw [Schedule.occurrences_eq, after, next_eq_of_ok hnext]
  exact ⟨schedule, hparse, hgrows, hitem,
    (((kth_item_exact hparse).2 _ hgrows ⟨1729980000, 0⟩ false 0).1 _ hitem).1⟩

/-- **Every run is sound, in every zone.**  A run answers instants at which the schedule
fires, in ascending order of the instants and of their wall clocks, then at most one error
and then nothing.  A list of the first items has as many as were asked for; fewer are a
prefix of more, and an error stays the same when more are asked for. -/
theorem runs_sound (expression : String) (zone : Zone) (start : Instant) :
    (∀ options schedule, Schedule.parseWith options expression = .ok schedule →
      ∀ inclusive calls, ∃ found ending,
        (schedule.occurrences zone start inclusive).results calls =
          found.map (fun item => some (.ok item)) ++ ending ∧
        (ending = [] ∨
          ∃ error count, ending = some (.error error) :: List.replicate count none) ∧
        Sound schedule zone start inclusive found ∧
        ∀ item ∈ found, ∀ clock other, zone.wallClock? item = some clock →
          zone.wallClock? other = some clock → ¬ other.before item) ∧
    (∀ count found, executionsAfter expression count zone start = .ok found →
      found.length = count ∧
      ∀ fewer, fewer ≤ count →
        executionsAfter expression fewer zone start = .ok (found.take fewer)) ∧
    (∀ count error, executionsAfter expression count zone start = .error error →
      ∀ more, count ≤ more → executionsAfter expression more zone start = .error error) := by
  refine ⟨?_, ?_, ?_⟩
  · intro options schedule hparse inclusive calls
    have haligned := Schedule.aligned_of_parseWith hparse
    rw [Schedule.occurrences_eq]
    obtain ⟨found, ending, hresults, hending, hsound⟩ :=
      results_sound haligned zone start inclusive calls
    refine ⟨found, ending, hresults, hending, hsound, ?_⟩
    intro item hitem clock other hclock hother
    obtain ⟨shown, hshown, hearliest, -⟩ := (hsound.fires item hitem).exists_clock
    rw [hshown, Option.some.injEq] at hclock
    exact Zone.not_before_of_earliest? hearliest (hclock ▸ hother)
  · intro count found hfound
    obtain ⟨schedule, hparse, htake⟩ := bind_eq_ok_iff.mp hfound
    refine ⟨length_of_take htake, fun fewer hle => ?_⟩
    rw [executionsAfter, hparse]
    exact take_of_le htake hle
  · intro count error herror more hle
    unfold executionsAfter at herror ⊢
    cases hparse : Schedule.parse expression with
    | error e =>
      rw [hparse] at herror
      exact herror
    | ok schedule =>
      rw [hparse] at herror
      exact take_error_of_le herror hle

/-- A run of one call, a list of one item, and an expression that fails. -/
theorem runs_sound_over_repeated_hour :
    ∃ schedule, Schedule.parseWith {} "30 2 * * *" = .ok schedule ∧
      (schedule.occurrences .summerTime2024 ⟨1729980000, 0⟩ false).results 1 =
        [some (.ok ⟨1729989000, 0⟩)] ∧
      Sound schedule .summerTime2024 ⟨1729980000, 0⟩ false [⟨1729989000, 0⟩] ∧
      executionsAfter "30 2 * * *" 1 .summerTime2024 ⟨1729980000, 0⟩ =
        .ok [⟨1729989000, 0⟩] ∧
      executionsAfter "30 2 * * *" 0 .summerTime2024 ⟨1729980000, 0⟩ = .ok [] ∧
      executionsAfter "" 0 .summerTime2024 ⟨1729980000, 0⟩ = .error .emptyExpression ∧
      executionsAfter "" 9 .summerTime2024 ⟨1729980000, 0⟩ = .error .emptyExpression := by
  obtain ⟨schedule, hparse, hnext⟩ := nextOccurrence_in_repeated_hour
  obtain ⟨hruns, hfewer, -⟩ := runs_sound "30 2 * * *" .summerTime2024 ⟨1729980000, 0⟩
  obtain ⟨-, -, hfails⟩ := runs_sound "" .summerTime2024 ⟨1729980000, 0⟩
  have hresults : (schedule.occurrences .summerTime2024 ⟨1729980000, 0⟩ false).results 1 =
      [some (.ok ⟨1729989000, 0⟩)] := by
    rw [Schedule.occurrences_eq, results, next_eq_of_ok hnext]
    rfl
  have htake : executionsAfter "30 2 * * *" 1 .summerTime2024 ⟨1729980000, 0⟩ =
      .ok [⟨1729989000, 0⟩] := by
    refine bind_eq_ok_iff.mpr ⟨schedule, hparse, ?_⟩
    rw [Schedule.occurrencesAfter, take, next_eq_of_ok hnext]
    rfl
  have hempty : executionsAfter "" 0 .summerTime2024 ⟨1729980000, 0⟩ =
      .error .emptyExpression := rfl
  obtain ⟨found, ending, hfound, hending, hsound, -⟩ := hruns {} schedule hparse false 1
  refine ⟨schedule, hparse, hresults, ?_, htake,
    (hfewer 1 _ htake).2 0 (Nat.zero_le 1), hempty, hfails 0 _ hempty 9 (Nat.zero_le 9)⟩
  rw [hresults] at hfound
  cases found with
  | nil => rcases hending with rfl | ⟨error, count, rfl⟩ <;> cases hfound
  | cons first rest =>
    obtain ⟨hfirst, hrest⟩ := List.cons.inj hfound
    obtain ⟨hnil, -⟩ := List.append_eq_nil_iff.mp hrest.symm
    cases hfirst
    rw [List.map_eq_nil_iff.mp hnil] at hsound
    exact hsound

end Occurrences
end CronSchedule

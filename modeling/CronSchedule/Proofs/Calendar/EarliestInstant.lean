import CronSchedule.Calendar.Zone
import CronSchedule.Proofs.Calendar.ClockOrder

/-! # The earliest instant of a wall clock

A zone shows a wall clock at the seconds whose offset leads there (`Shows`).  There may be
any number of them, in any order relative to the wall clocks before and after.
`Zone.earliest?` answers the first of them, provided that the calendar holds them all
(`earliest?_eq_some_iff`).

A zone whose clock is only set back after it has run on for long enough keeps the earliest
instants in the order of the wall clocks (`EarliestGrows`).  That holds without changes
of the offset, and with changes that lie further apart than any two offsets
(`earliestGrows_of_spaced`).
-/
namespace CronSchedule

namespace Instant

variable {a b c : Instant}

theorem before_iff :
    a.before b ↔ a.seconds < b.seconds ∨ a.seconds = b.seconds ∧ a.nanos < b.nanos := by
  simp [before]

theorem before_irrefl (a : Instant) : ¬ a.before a := by
  rw [before_iff]
  omega

theorem before_trans (hab : a.before b) (hbc : b.before c) : a.before c := by
  rw [before_iff] at *
  omega

theorem eq_or_before_or_before (a b : Instant) : a = b ∨ a.before b ∨ b.before a := by
  rw [before_iff, before_iff]
  cases a
  cases b
  simp only [mk.injEq]
  omega

end Instant

namespace Zone

variable {zone : Zone} {clock : WallClock} {instant : Instant} {seconds : Int}

/-- Whether the zone shows a wall clock at a second, in UTC. -/
def Shows (zone : Zone) (seconds : Int) (clock : WallClock) : Prop :=
  seconds + zone.offsetAt seconds = clock.toSeconds

/-- The first second, in UTC, at which the zone shows a wall clock. -/
structure IsEarliest (zone : Zone) (clock : WallClock) (seconds : Int) : Prop where
  shows : zone.Shows seconds clock
  le : ∀ other, zone.Shows other clock → seconds ≤ other

/-- Whether the calendar holds every instant at which the zone shows a wall clock. -/
def ShowsInCalendar (zone : Zone) (clock : WallClock) : Prop :=
  ∀ seconds, zone.Shows seconds clock → inCalendar seconds = true

theorem wallClock?_eq_some_iff :
    zone.wallClock? instant = some clock ↔ zone.Shows instant.seconds clock := by
  rw [wallClock?, WallClock.ofSeconds?_eq_some_iff, Shows, eq_comm]

theorem offsetAt_mem_offsets (zone : Zone) (seconds : Int) :
    zone.offsetAt seconds ∈ zone.offsets := by
  unfold offsetAt offsets
  generalize zone.offset = offset
  induction zone.transitions generalizing offset with
  | nil => exact List.mem_cons_self
  | cons change changes ih =>
    rw [List.foldl_cons, List.map_cons]
    split
    · exact List.mem_cons_of_mem _ (ih change.2)
    · rcases List.mem_cons.mp (ih offset) with heq | hmem
      · rw [heq]
        exact List.mem_cons_self
      · exact List.mem_cons_of_mem _ (List.mem_cons_of_mem _ hmem)

theorem mem_secondsOf : seconds ∈ zone.secondsOf clock ↔ zone.Shows seconds clock := by
  simp only [secondsOf, List.mem_filter, List.mem_map, beq_iff_eq, Shows]
  constructor
  · exact fun h => h.2
  · intro h
    exact ⟨⟨_, zone.offsetAt_mem_offsets seconds, by omega⟩, h⟩

/-- The earliest instant of a wall clock is the first second at which the zone shows it,
where all of them lie within the calendar. -/
theorem earliest?_eq_some_iff :
    zone.earliest? clock = some instant ↔
      instant.nanos = 0 ∧ zone.IsEarliest clock instant.seconds ∧ zone.ShowsInCalendar clock := by
  have hall : (zone.secondsOf clock).all inCalendar = true ↔ zone.ShowsInCalendar clock := by
    simp only [List.all_eq_true, mem_secondsOf, ShowsInCalendar]
  unfold earliest?
  split
  · rename_i hcal
    simp only [Option.map_eq_some_iff, List.min?_eq_some_iff, mem_secondsOf]
    constructor
    · rintro ⟨seconds, ⟨hshows, hle⟩, rfl⟩
      exact ⟨rfl, ⟨hshows, hle⟩, hall.mp hcal⟩
    · rintro ⟨hnanos, ⟨hshows, hle⟩, -⟩
      refine ⟨instant.seconds, ⟨hshows, hle⟩, ?_⟩
      cases instant
      exact congrArg _ hnanos.symm
  · rename_i hcal
    simp only [reduceCtorEq, false_iff]
    exact fun h => hcal (hall.mpr h.2.2)

theorem wallClock?_of_earliest? (h : zone.earliest? clock = some instant) :
    zone.wallClock? instant = some clock :=
  wallClock?_eq_some_iff.mpr (earliest?_eq_some_iff.mp h).2.1.shows

/-- No instant with the wall clock comes before its earliest one. -/
theorem not_before_of_earliest? (h : zone.earliest? clock = some instant) {other : Instant}
    (hother : zone.wallClock? other = some clock) : ¬ other.before instant := by
  obtain ⟨hnanos, hearliest, -⟩ := earliest?_eq_some_iff.mp h
  have := hearliest.le _ (wallClock?_eq_some_iff.mp hother)
  rw [Instant.before_iff]
  omega

/-- A second at which a wall clock is shown is not before a first one. -/
theorem exists_isEarliest (h : zone.Shows seconds clock) :
    ∃ first, zone.IsEarliest clock first ∧ first ≤ seconds := by
  cases hmin : (zone.secondsOf clock).min? with
  | none =>
    rw [List.min?_eq_none_iff] at hmin
    have hmem := mem_secondsOf.mpr h
    rw [hmin] at hmem
    cases hmem
  | some first =>
    simp only [List.min?_eq_some_iff, mem_secondsOf] at hmin
    exact ⟨first, ⟨hmin.1, hmin.2⟩, hmin.2 _ h⟩

/-- Whether the zone shows an earlier wall clock at one instant than at another. -/
def ClockBefore (zone : Zone) (a b : Instant) : Prop :=
  ∃ clockA clockB, zone.wallClock? a = some clockA ∧ zone.wallClock? b = some clockB ∧
    clockA.toSeconds < clockB.toSeconds

theorem ClockBefore.trans {a b c : Instant} (hab : zone.ClockBefore a b)
    (hbc : zone.ClockBefore b c) : zone.ClockBefore a c := by
  obtain ⟨clockA, clockB, ha, hb, hlt⟩ := hab
  obtain ⟨clockB', clockC, hb', hc, hlt'⟩ := hbc
  rw [hb, Option.some.injEq] at hb'
  subst hb'
  exact ⟨clockA, clockC, ha, hc, Int.lt_trans hlt hlt'⟩

/-! ## Zones that keep the order -/

/-- A zone in which a later wall clock has a later earliest instant. -/
def EarliestGrows (zone : Zone) : Prop :=
  ∀ a b s t, zone.IsEarliest a s → zone.IsEarliest b t → a.toSeconds < b.toSeconds → s < t

/-- A zone whose changes lie at least a distance apart that no two offsets exceed. -/
structure Spaced (zone : Zone) (distance : Int) : Prop where
  changes : zone.transitions.Pairwise fun a b => a.1 + distance ≤ b.1
  offsets : ∀ a ∈ zone.offsets, ∀ b ∈ zone.offsets, a - b ≤ distance

/-- The offset of a table of changes that starts out with a given one. -/
def offsetFrom (offset : Int) (changes : List (Int × Int)) (seconds : Int) : Int :=
  changes.foldl (fun offset change => if change.1 ≤ seconds then change.2 else offset) offset

theorem offsetFrom_of_lt {offset : Int} {changes : List (Int × Int)}
    (h : ∀ change ∈ changes, seconds < change.1) : offsetFrom offset changes seconds = offset := by
  induction changes with
  | nil => rfl
  | cons change changes ih =>
    have hlt := h change List.mem_cons_self
    rw [offsetFrom, List.foldl_cons, if_neg (Int.not_le.mpr hlt)]
    exact ih fun c hc => h c (List.mem_cons_of_mem _ hc)

/-- Where the offset changes between two seconds, the one at the first of them has been in
force since `distance` before the second. -/
theorem offsetFrom_eq_of_ne {distance : Int} {changes : List (Int × Int)}
    (hspaced : changes.Pairwise fun a b => a.1 + distance ≤ b.1) (hdistance : 0 ≤ distance)
    {offset u s t : Int} (hus : u ≤ s) (hst : s < t) (hut : t - distance ≤ u)
    (hne : offsetFrom offset changes s ≠ offsetFrom offset changes t) :
    offsetFrom offset changes u = offsetFrom offset changes s := by
  induction changes generalizing offset with
  | nil => rfl
  | cons change changes ih =>
    obtain ⟨hfirst, hrest⟩ := List.pairwise_cons.mp hspaced
    simp only [offsetFrom, List.foldl_cons] at hne ih ⊢
    by_cases hu : change.1 ≤ u
    · rw [if_pos (show change.1 ≤ s by omega), if_pos (show change.1 ≤ t by omega)] at hne
      rw [if_pos hu, if_pos (show change.1 ≤ s by omega)]
      exact ih hrest hne
    · by_cases hs : change.1 ≤ s
      · -- the next change would come more than `distance` after `u`
        have hlater : ∀ c ∈ changes, t < c.1 := fun c hc => by
          have := hfirst c hc
          omega
        rw [if_pos hs, if_pos (show change.1 ≤ t by omega)] at hne
        refine absurd ?_ hne
        exact (offsetFrom_of_lt fun c hc => Int.lt_trans hst (hlater c hc)).trans
          (offsetFrom_of_lt hlater).symm
      · have hlater : ∀ c ∈ changes, s < c.1 := fun c hc => by
          have := hfirst c hc
          omega
        rw [if_neg hu, if_neg hs]
        exact (offsetFrom_of_lt fun c hc => Int.lt_of_le_of_lt hus (hlater c hc)).trans
          (offsetFrom_of_lt hlater).symm

/-- Changes that lie further apart than any two offsets keep the earliest instants in the
order of the wall clocks. -/
theorem earliestGrows_of_spaced {distance : Int} (h : zone.Spaced distance) :
    zone.EarliestGrows := by
  intro a b s t hs ht hab
  refine Int.not_le.mp fun hle => ?_
  have hsa := hs.shows
  have htb := ht.shows
  unfold Shows at hsa htb
  have hoffset := h.offsets _ (zone.offsetAt_mem_offsets s) _ (zone.offsetAt_mem_offsets t)
  have hoffset' := h.offsets _ (zone.offsetAt_mem_offsets t) _ (zone.offsetAt_mem_offsets s)
  have hlt : t < s := by
    rcases Int.lt_or_eq_of_le hle with hlt | heq
    · exact hlt
    · rw [heq] at htb
      omega
  -- the second at which the offset of `t` leads to `a` is shown earlier than `s`
  have hsame : zone.offsetAt (s + zone.offsetAt s - zone.offsetAt t) = zone.offsetAt t := by
    by_cases hne : zone.offsetAt t = zone.offsetAt s
    · rw [← hne]
      congr 1
      omega
    · exact offsetFrom_eq_of_ne h.changes (by omega) (by omega) hlt (by omega) hne
  have := hs.le (s + zone.offsetAt s - zone.offsetAt t) (by rw [Shows, hsame]; omega)
  omega

/-- Without changes nothing has to be far apart. -/
theorem spaced_of_fixed (offset : Int) : (Zone.mk offset []).Spaced 0 where
  changes := List.Pairwise.nil
  offsets := by simp [Zone.offsets]

/-- A zone one hour ahead of UTC, with summer time from the 31st of March 2024 to the 27th
of October. -/
def summerTime2024 : Zone := ⟨3600, [(1711846800, 7200), (1729990800, 3600)]⟩

theorem spaced_summerTime2024 : summerTime2024.Spaced 3600 where
  changes := by decide
  offsets := by decide

end Zone
end CronSchedule

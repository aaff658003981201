import CronSchedule.Generation
import CronSchedule.Proofs.FreeText.ValidRuns

/-! # Asking a source again

A source may remember what it was asked (`Source`), so a reply to an attempt depends on the
attempts before it.  As the attempts are made in order from the first one on, what a source
replies to each of them is a sequence (`Source.reply`), whatever it remembers.

One attempt is the last: the first one whose reply is not a text without a valid expression, or
else the one that the limit allows (`IsLast`).  There is exactly one (`exists_isLast`,
`IsLast.eq`), and its reply alone is what a run comes to (`run_generateFrom`, by induction on the
attempts that are left).  A source that writes down its attempts (`Source.recorded`) replies
alike, so it tells which attempts a run makes.
-/
namespace CronSchedule

variable {σ ε : Type}

/-- A source of text with a state of its own. -/
abbrev Source (σ ε : Type) := Nat → StateM σ (Except ε String)

namespace Source

variable (source : Source σ ε) (start : σ)

/-- The state of a source after the attempts below a number, in order. -/
def stateBefore : Nat → σ
  | 0 => start
  | attempt + 1 => ((source attempt).run (stateBefore attempt)).2

/-- The reply to an attempt that follows all the attempts below it. -/
def reply (attempt : Nat) : Except ε String :=
  ((source attempt).run (source.stateBefore start attempt)).1

/-- The source that also writes down the numbers it is asked with. -/
def recorded : Source (σ × List Nat) ε := fun attempt memory =>
  let (reply, state) := (source attempt).run memory.1
  (reply, state, memory.2 ++ [attempt])

theorem stateBefore_recorded (attempt : Nat) :
    source.recorded.stateBefore (start, []) attempt =
      (source.stateBefore start attempt, List.range attempt) := by
  induction attempt with
  | zero => rfl
  | succ attempt ih =>
    rw [stateBefore, ih, List.range_succ]
    rfl

theorem reply_recorded : source.recorded.reply (start, []) = source.reply start := by
  funext attempt
  rw [reply, stateBefore_recorded]
  rfl

end Source

/-! ## Replies -/

/-- Whether a reply is a text in which no valid expression is found. -/
def Fruitless (reply : Except ε String) : Prop :=
  ∃ text, reply = .ok text ∧ extractExpression? text = none

/-- Whether a reply is a text in which this expression is found. -/
def Yields (reply : Except ε String) (expression : String) : Prop :=
  ∃ text, reply = .ok text ∧ extractExpression? text = some expression

/-- What a reply comes to, unless it is fruitless. -/
def outcome? (attempt : Nat) : Except ε String → Option (Except (GenerationError ε) Generated)
  | .error error => some (.error (.source error))
  | .ok text => (extractExpression? text).map fun expression => .ok ⟨expression, attempt⟩

/-- What the reply to the last attempt comes to. -/
def conclude (attempt : Nat) (reply : Except ε String) : Except (GenerationError ε) Generated :=
  (outcome? attempt reply).getD (.error (.noValidExpression (attempt + 1)))

variable {reply : Except ε String} {attempt limit k : Nat}

theorem outcome?_eq_none_iff : outcome? attempt reply = none ↔ Fruitless reply := by
  cases reply with
  | error error => simp [outcome?, Fruitless]
  | ok text => simp [outcome?, Fruitless]

theorem Yields.not_fruitless {expression : String} (h : Yields reply expression) :
    ¬ Fruitless reply := by
  obtain ⟨text, rfl, hsome⟩ := h
  rintro ⟨_, hreply, hnone⟩
  cases hreply
  rw [hsome] at hnone
  cases hnone

theorem not_fruitless_error (error : ε) : ¬ Fruitless (.error error : Except ε String) := by
  rintro ⟨_, hreply, -⟩
  cases hreply

theorem conclude_eq_ok_iff {expression : String} {n : Nat} :
    conclude attempt reply = .ok ⟨expression, n⟩ ↔ attempt = n ∧ Yields reply expression := by
  cases reply with
  | error error => simp [conclude, outcome?, Yields]
  | ok text =>
    cases hfound : extractExpression? text with
    | none => simp [conclude, outcome?, Yields, hfound]
    | some found => simp [conclude, outcome?, Yields, hfound, and_comm]

theorem conclude_eq_source_iff {error : ε} :
    conclude attempt reply = .error (.source error) ↔ reply = .error error := by
  cases reply with
  | error error => simp [conclude, outcome?]
  | ok text =>
    cases hfound : extractExpression? text with
    | none => simp [conclude, outcome?, hfound]
    | some found => simp [conclude, outcome?, hfound]

theorem conclude_eq_noValidExpression_iff {attempts : Nat} :
    conclude attempt reply = .error (.noValidExpression attempts) ↔
      attempt + 1 = attempts ∧ Fruitless reply := by
  cases reply with
  | error error => simp [conclude, outcome?, Fruitless]
  | ok text =>
    cases hfound : extractExpression? text with
    | none => simp [conclude, outcome?, Fruitless, hfound]
    | some found => simp [conclude, outcome?, Fruitless, hfound]

/-! ## The last attempt -/

/-- Whether an attempt is the last one of a run: those before it were fruitless, and it is not or
is the last that the limit allows. -/
structure IsLast (replies : Nat → Except ε String) (limit k : Nat) : Prop where
  le : k ≤ limit
  before : ∀ j < k, Fruitless (replies j)
  stops : k < limit → ¬ Fruitless (replies k)

variable {replies : Nat → Except ε String}

/-- Only the limit ends a run after a fruitless reply. -/
theorem IsLast.eq_limit (h : IsLast replies limit k) (hfruitless : Fruitless (replies k)) :
    k = limit :=
  Nat.le_antisymm h.le (Nat.le_of_not_lt fun hlt => h.stops hlt hfruitless)

/-- After a last reply that is fruitless all of them were. -/
theorem IsLast.forall_fruitless (h : IsLast replies limit k) (hfruitless : Fruitless (replies k)) :
    ∀ j < limit + 1, Fruitless (replies j) := by
  obtain rfl := h.eq_limit hfruitless
  intro j hj
  rcases Nat.lt_succ_iff_lt_or_eq.mp hj with hlt | rfl
  · exact h.before j hlt
  · exact hfruitless

theorem exists_isLast (replies : Nat → Except ε String) (limit : Nat) :
    ∃ k, IsLast replies limit k := by
  induction limit with
  | zero =>
    exact ⟨0, Nat.le_refl 0, fun j hj => absurd hj (Nat.not_lt_zero j),
      fun hlt => absurd hlt (Nat.lt_irrefl 0)⟩
  | succ limit ih =>
    obtain ⟨k, hk⟩ := ih
    by_cases hagain : Fruitless (replies k)
    · -- one more attempt is made after all the fruitless ones
      exact ⟨limit + 1, Nat.le_refl _, hk.forall_fruitless hagain,
        fun hlt => absurd hlt (Nat.lt_irrefl _)⟩
    · exact ⟨k, Nat.le_succ_of_le hk.le, hk.before, fun _ => hagain⟩

/-- No two attempts are the last one. -/
theorem IsLast.eq {n : Nat} (h : IsLast replies limit k) (h' : IsLast replies limit n) :
    k = n := by
  rcases Nat.lt_trichotomy k n with hlt | heq | hgt
  · exact absurd (h'.before k hlt) (h.stops (Nat.lt_of_lt_of_le hlt h'.le))
  · exact heq
  · exact absurd (h.before n hgt) (h'.stops (Nat.lt_of_lt_of_le hgt h.le))

/-- The first attempt that is not fruitless is the last one. -/
theorem IsLast.eq_of_first {n : Nat} (h : IsLast replies limit k) (hn : n ≤ limit)
    (hbefore : ∀ j < n, Fruitless (replies j)) (hnot : ¬ Fruitless (replies n)) : k = n :=
  h.eq ⟨hn, hbefore, fun _ => hnot⟩

theorem IsLast.succeeds_iff (h : IsLast replies limit k) {expression : String} {n : Nat} :
    conclude k (replies k) = .ok ⟨expression, n⟩ ↔
      n ≤ limit ∧ (∀ j < n, Fruitless (replies j)) ∧ Yields (replies n) expression := by
  rw [conclude_eq_ok_iff]
  constructor
  · rintro ⟨rfl, hyields⟩
    exact ⟨h.le, h.before, hyields⟩
  · rintro ⟨hn, hbefore, hyields⟩
    obtain rfl := h.eq_of_first hn hbefore hyields.not_fruitless
    exact ⟨rfl, hyields⟩

theorem IsLast.fails_iff (h : IsLast replies limit k) {error : ε} :
    conclude k (replies k) = .error (.source error) ↔
      ∃ n ≤ limit, (∀ j < n, Fruitless (replies j)) ∧ replies n = .error error := by
  rw [conclude_eq_source_iff]
  constructor
  · intro herror
    exact ⟨k, h.le, h.before, herror⟩
  · rintro ⟨n, hn, hbefore, herror⟩
    obtain rfl := h.eq_of_first hn hbefore (herror ▸ not_fruitless_error error)
    exact herror

theorem IsLast.exhausts_iff (h : IsLast replies limit k) {attempts : Nat} :
    conclude k (replies k) = .error (.noValidExpression attempts) ↔
      attempts = limit + 1 ∧ ∀ j < limit + 1, Fruitless (replies j) := by
  rw [conclude_eq_noValidExpression_iff]
  constructor
  · rintro ⟨rfl, hfruitless⟩
    exact ⟨congrArg (· + 1) (h.eq_limit hfruitless), h.forall_fruitless hfruitless⟩
  · rintro ⟨rfl, hall⟩
    have hlimit : IsLast replies limit limit :=
      ⟨Nat.le_refl limit, fun j hj => hall j (Nat.lt_succ_of_lt hj),
        fun hlt => absurd hlt (Nat.lt_irrefl limit)⟩
    obtain rfl := h.eq hlimit
    exact ⟨rfl, hall k (Nat.lt_succ_self k)⟩

/-! ## A run -/

section Run

variable (source : Source σ ε) (start : σ)

theorem run_attemptOnce (attempt : Nat) :
    (attemptOnce source attempt).run (source.stateBefore start attempt) =
      (outcome? attempt (source.reply start attempt), source.stateBefore start (attempt + 1)) := by
  have hask : (source attempt).run (source.stateBefore start attempt) =
      (source.reply start attempt, source.stateBefore start (attempt + 1)) := rfl
  rw [attemptOnce, StateT.run_bind, hask]
  cases source.reply start attempt with
  | error error => rfl
  | ok text => rfl

/-- A run that is not past its last attempt goes on to it, and comes to what its reply does. -/
theorem run_generateFrom {left : Nat} (h : IsLast (source.reply start) (attempt + left) k)
    (hle : attempt ≤ k) :
    (generateFrom source attempt left).run (source.stateBefore start attempt) =
      (conclude k (source.reply start k), source.stateBefore start (k + 1)) := by
  induction left generalizing attempt with
  | zero =>
    have hk : attempt = k := Nat.le_antisymm hle h.le
    rw [generateFrom, StateT.run_bind, run_attemptOnce, hk, conclude]
    cases outcome? k (source.reply start k) with
    | none => rfl
    | some outcome => rfl
  | succ left ih =>
    rw [generateFrom, StateT.run_bind, run_attemptOnce]
    rcases Nat.eq_or_lt_of_le hle with rfl | hlt
    · have hsome : outcome? attempt (source.reply start attempt) ≠ none :=
        fun hnone => h.stops (by omega) (outcome?_eq_none_iff.mp hnone)
      obtain ⟨outcome, houtcome⟩ := Option.ne_none_iff_exists'.mp hsome
      rw [houtcome, conclude, houtcome]
      rfl
    · rw [outcome?_eq_none_iff.mpr (h.before attempt hlt)]
      have hlimit : attempt + 1 + left = attempt + (left + 1) := by omega
      exact ih (hlimit ▸ h) hlt

theorem run_generateWithRetry (h : IsLast (source.reply start) retryLimit k) :
    (generateWithRetry source).run start =
      (conclude k (source.reply start k), source.stateBefore start (k + 1)) := by
  rw [← Nat.zero_add retryLimit] at h
  exact run_generateFrom source start h (Nat.zero_le k)

/-- A source that writes down its attempts writes down those up to the last one. -/
theorem run_generateWithRetry_recorded (h : IsLast (source.reply start) retryLimit k) :
    (generateWithRetry source.recorded).run (start, []) =
      (conclude k (source.reply start k), source.stateBefore start (k + 1),
        List.range (k + 1)) := by
  rw [← source.reply_recorded] at h
  rw [run_generateWithRetry source.recorded (start, []) h, source.reply_recorded,
    source.stateBefore_recorded]

end Run

/-- **Asking again.**  Let a source make its texts in any way and remember what it likes.  It is
asked with 0, 1 and so on up to some number of at most 3, once with each.  An expression comes
out exactly when it is found in the text of an attempt after fruitless ones only, with the number
of that attempt, the last one; an error of the source, when it answers an attempt after fruitless
ones only; and no valid expression after four attempts, when all four were fruitless.  Each
expression is valid and a part of the text it was found in. -/
theorem generateWithRetry_exact (source : Source σ ε) (start : σ) :
    let replies := source.reply start
    ∃ k ≤ 3, ∃ outcome,
      (generateWithRetry source).run start = (outcome, source.stateBefore start (k + 1)) ∧
      (generateWithRetry source.recorded).run (start, []) =
        (outcome, source.stateBefore start (k + 1), List.range (k + 1)) ∧
      (∀ expression n, outcome = .ok ⟨expression, n⟩ ↔
        n ≤ 3 ∧ (∀ j < n, Fruitless (replies j)) ∧ Yields (replies n) expression) ∧
      (∀ error, outcome = .error (.source error) ↔
        ∃ n ≤ 3, (∀ j < n, Fruitless (replies j)) ∧ replies n = .error error) ∧
      (∀ attempts, outcome = .error (.noValidExpression attempts) ↔
        attempts = 4 ∧ ∀ j < 4, Fruitless (replies j)) ∧
      (∀ expression n, outcome = .ok ⟨expression, n⟩ →
        n = k ∧ Schedule.isValid expression = true ∧
          ∃ text, replies k = .ok text ∧ expression.toList <:+: text.toList) ∧
      (∀ error, outcome = .error (.source error) → replies k = .error error) ∧
      (∀ attempts, outcome = .error (.noValidExpression attempts) → k = 3) := by
  intro replies
  obtain ⟨k, hlast⟩ := exists_isLast replies 3
  refine ⟨k, hlast.le, conclude k (replies k), run_generateWithRetry source start hlast,
    run_generateWithRetry_recorded source start hlast, fun _ _ => hlast.succeeds_iff,
    fun _ => hlast.fails_iff, fun _ => hlast.exhausts_iff,
    ?_, ?_, ?_⟩
  · intro expression n h
    obtain ⟨rfl, text, htext, hfound⟩ := conclude_eq_ok_iff.mp h
    obtain ⟨hpart, -, hvalid⟩ := isRun_of_extractExpression? hfound
    exact ⟨rfl, hvalid, text, htext, hpart⟩
  · intro error h
    exact conclude_eq_source_iff.mp h
  · intro attempts h
    obtain ⟨-, hfruitless⟩ := conclude_eq_noValidExpression_iff.mp h
    exact hlast.eq_limit hfruitless

end CronSchedule

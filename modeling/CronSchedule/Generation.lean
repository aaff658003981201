import CronSchedule.FreeText

/-! # Generating an expression

A source is asked for text until the text holds a valid expression.  Text without one is
asked for again a limited number of times; an error of the source ends the attempt at
once.
-/
namespace CronSchedule

/-- How many times a source is asked again. -/
def retryLimit : Nat := 3

/-- An expression found in the text of a source. -/
structure Generated where
  expression : String
  /-- How many times the source was asked again before it gave the expression. -/
  retryCount : Nat
  deriving DecidableEq

/-- Why no expression was generated. -/
inductive GenerationError (ε : Type) where
  /-- The source failed. -/
  | source (error : ε)
  /-- No text of the source held a valid expression. -/
  | noValidExpression (attempts : Nat)
  deriving DecidableEq

namespace GenerationError

/-- The wording of an error. -/
def message {ε : Type} : GenerationError ε → String
  | source _ => "candidate source failed"
  | noValidExpression attempts => s!"no valid cron expression after {attempts} attempts"

end GenerationError

variable {m : Type → Type} [Monad m] {ε : Type}

/-- Asks the source once.  There is no outcome when its text holds no valid expression. -/
def attemptOnce (source : Nat → m (Except ε String)) (attempt : Nat) :
    m (Option (Except (GenerationError ε) Generated)) := do
  match ← source attempt with
  | .error e => return some (.error (.source e))
  | .ok text =>
    return (extractExpression? text).map fun expression => .ok ⟨expression, attempt⟩

/-- Asks the source from one attempt on, and again at most as many times as are left. -/
def generateFrom (source : Nat → m (Except ε String)) (attempt : Nat) :
    Nat → m (Except (GenerationError ε) Generated)
  | 0 => do
    match ← attemptOnce source attempt with
    | some outcome => return outcome
    | none => return .error (.noValidExpression (attempt + 1))
  | left + 1 => do
    match ← attemptOnce source attempt with
    | some outcome => return outcome
    | none => generateFrom source (attempt + 1) left

/-- Asks a source, which is told the number of the attempt, until its text holds a valid
expression. -/
def generateWithRetry (source : Nat → m (Except ε String)) :
    m (Except (GenerationError ε) Generated) :=
  generateFrom source 0 retryLimit

end CronSchedule

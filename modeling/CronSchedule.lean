import CronSchedule.Main
import CronSchedule.Proofs.Schedule.ExactSearch
import CronSchedule.Proofs.Schedule.Runs
import CronSchedule.Proofs.Schedule.Acceptance
import CronSchedule.Proofs.Mark.Entering
import CronSchedule.Proofs.Schedule.TokenMeaning
import CronSchedule.Proofs.Calendar.YearShape
import CronSchedule.Proofs.Calendar.Carries
import CronSchedule.Proofs.Schedule.Horizon
import CronSchedule.Proofs.Schedule.NamePlaces
import CronSchedule.Proofs.Explanation.Phrases
import CronSchedule.Proofs.Explanation.SamePhrase
import CronSchedule.Proofs.Mark.Bounds
import CronSchedule.Proofs.Schedule.Representation
import CronSchedule.Proofs.Schedule.Termination
import CronSchedule.Proofs.Schedule.Failures
import CronSchedule.Proofs.Schedule.TextRoundTrip
import CronSchedule.Proofs.Schedule.DayMeaning
import CronSchedule.Proofs.Schedule.NamesAsNumbers
import CronSchedule.Proofs.Text.Padding
import CronSchedule.Proofs.Schedule.LeadingZeros
import CronSchedule.Proofs.FreeText.Forms
import CronSchedule.Proofs.FreeText.PlainExpressions
import CronSchedule.Proofs.Calendar.Workdays
import CronSchedule.Proofs.Schedule.NearestWorkday
import CronSchedule.Proofs.Explanation.ShapeMeaning
import CronSchedule.Proofs.Explanation.Lists
import CronSchedule.Proofs.FreeText.ValidRuns
import CronSchedule.Proofs.FreeText.Retries
import CronSchedule.Proofs.Mark.Histories
import CronSchedule.Proofs.Schedule.CalendarEnd
import CronSchedule.Proofs.Schedule.SameAnswers
import CronSchedule.Proofs.Schedule.FullDays
import CronSchedule.Proofs.Schedule.ListUnion
import CronSchedule.Proofs.Mark.Unions
import CronSchedule.Proofs.Mark.Sunday

import CronSchedule.Dialect
import CronSchedule.Schedule.Read
import CronSchedule.Timetable.Occurrences
import CronSchedule.Translation.Basic
import CronSchedule.Proofs.Search.FixedOffset
import CronSchedule.Proofs.Search.RepeatedHour
import CronSchedule.Proofs.Reading.Schedule
import CronSchedule.Proofs.Translation.Schedule
import CronSchedule.Proofs.Translation.Same
import CronSchedule.Proofs.Search.Consistent
import CronSchedule.Proofs.Search.Series
import CronSchedule.Proofs.Translation.Draft
import CronSchedule.Proofs.Translation.ToUnix
import CronSchedule.Proofs.Translation.Permits
import CronSchedule.Proofs.Translation.Wraparound
import CronSchedule.Proofs.Translation.ThereAndBack
import CronSchedule.Proofs.Search.Horizon
import CronSchedule.Proofs.Zone.Beside
import CronSchedule.Proofs.Search.Backward
import CronSchedule.Proofs.Search.SkippedInput
import CronSchedule.Proofs.Days.Advance
import CronSchedule.Proofs.Days.Special
import CronSchedule.Proofs.Reading.Complete
import CronSchedule.Proofs.Translation.NormalForm
import CronSchedule.Proofs.Timetable.Evaluation
import CronSchedule.Proofs.Search.Overlap
import CronSchedule.Proofs.Search.CalendarEnds
import CronSchedule.Proofs.Reading.Place
import CronSchedule.Proofs.Reading.LetterCase
import CronSchedule.Proofs.Steps
import CronSchedule.Proofs.Zone.Shown

import OpeningHours.Audience
import OpeningHours.Main
import OpeningHours.Profile
import OpeningHours.Proofs.Hours.Cycle
import OpeningHours.Proofs.Hours.Normal
import OpeningHours.Proofs.Hours.Canonical
import OpeningHours.Proofs.Hours.Scan
import OpeningHours.Proofs.Decimal.Numeral
import OpeningHours.Proofs.Json.Token
import OpeningHours.Proofs.Json.Value
import OpeningHours.Proofs.Json.Record
import OpeningHours.Proofs.Schedule.Storage
import OpeningHours.Proofs.Hours.Words
import OpeningHours.Proofs.Hours.Day
import OpeningHours.Proofs.Hours.Runs
import OpeningHours.Proofs.Schedule.Edit
import OpeningHours.Proofs.Hours.View
import OpeningHours.Proofs.Hours.Locality
import OpeningHours.Proofs.Hours.Days
import OpeningHours.Proofs.Hours.Rotation
import OpeningHours.Proofs.Hours.Count
import OpeningHours.Proofs.Hours.SavedView
import OpeningHours.Proofs.Hours.ClearedDay
import OpeningHours.Proofs.Hours.ReplacedDay
import OpeningHours.Proofs.Hours.Transition
import OpeningHours.Proofs.Hours.Moments
import OpeningHours.Proofs.Hours.Walk
import OpeningHours.Proofs.Command.Arguments
import OpeningHours.Proofs.Command.Editing
import OpeningHours.Proofs.Command.Status
import OpeningHours.Proofs.Command.Script
import OpeningHours.Proofs.Command.Failure
import OpeningHours.Proofs.Storage
import OpeningHours.Fault
import OpeningHours.Proofs.Text
import OpeningHours.Proofs.Clock.Reading
import OpeningHours.Proofs.Clock.Writing
import OpeningHours.Proofs.Week.Name
import OpeningHours.Proofs.Timezone

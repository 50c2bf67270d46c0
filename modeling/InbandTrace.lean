import InbandTrace.Connection.Path
import InbandTrace.Echo.Channel
import InbandTrace.Main
import InbandTrace.Net.Interface
import InbandTrace.Route
import InbandTrace.Session.Operation
import InbandTrace.Trace.Fleet
import InbandTrace.Proofs.Registry.Mailbox
import InbandTrace.Proofs.Registry.Sound
import InbandTrace.Proofs.Engine.Evolution
import InbandTrace.Proofs.Sender.Launch
import InbandTrace.Proofs.Trace.Turn
import InbandTrace.Proofs.Trace.Sweep
import InbandTrace.Proofs.Trace.Run
import InbandTrace.Proofs.Trace.Termination
import InbandTrace.Proofs.Trace.Outcome
import InbandTrace.Proofs.Packet.Datagram
import InbandTrace.Proofs.Packet.Layout
import InbandTrace.Proofs.Sender.Correlation
import InbandTrace.Proofs.Path.Crossing
import InbandTrace.Proofs.Path.Calm
import InbandTrace.Proofs.Path.Probe
import InbandTrace.Proofs.Path.Answer
import InbandTrace.Proofs.Path.Walk
import InbandTrace.Proofs.Registry.Tenure
import InbandTrace.Proofs.Engine.Lapse
import InbandTrace.Proofs.Trace.Course
import InbandTrace.Proofs.Trace.Custody
import InbandTrace.Proofs.Registry.Guest
import InbandTrace.Proofs.Trace.Wire
import InbandTrace.Proofs.Registry.Sole
import InbandTrace.Proofs.Trace.Provenance
import InbandTrace.Proofs.Trace.Deadline
import InbandTrace.Proofs.Trace.Cancellation
import InbandTrace.Proofs.Connection.Delay
import InbandTrace.Proofs.Registry.Tenancy
import InbandTrace.Proofs.Engine.Company
import InbandTrace.Proofs.Sender.Company
import InbandTrace.Proofs.Trace.Company
import InbandTrace.Proofs.Trace.Shadow
import InbandTrace.Proofs.Trace.Apart
import InbandTrace.Proofs.Session.History
import InbandTrace.Proofs.Session.Contiguity
import InbandTrace.Proofs.Echo.Conversation
import InbandTrace.Proofs.Registry.Lone
import InbandTrace.Proofs.Connection.Swept
import InbandTrace.Proofs.Engine.Swept
import InbandTrace.Proofs.Sender.Swept
import InbandTrace.Proofs.Trace.Swept
import InbandTrace.Proofs.Trace.Reaper
import InbandTrace.Proofs.Log.Lines
import InbandTrace.Proofs.Trace.Ending
import InbandTrace.Proofs.Log.Report
import InbandTrace.Proofs.Sender.Echo
import InbandTrace.Proofs.Trace.Elapsed
import InbandTrace.Proofs.Trace.Payload
import InbandTrace.Proofs.Trace.Echoes
import InbandTrace.Proofs.Binary64.Rounding
import InbandTrace.Proofs.Json.Magnitude
import InbandTrace.Proofs.Json.Strings
import InbandTrace.Proofs.Json.Digits
import InbandTrace.Proofs.Json.Numerals
import InbandTrace.Proofs.Json.Reread
import InbandTrace.Proofs.Json.Normal
import InbandTrace.Proofs.Json.RoundTrip
import InbandTrace.Proofs.Echo.ReadBack
import InbandTrace.Proofs.Binary64.Nearest
import InbandTrace.Proofs.Json.Short
import InbandTrace.Proofs.Packet.Extension
import InbandTrace.Proofs.Registry.Dispatch
import InbandTrace.Proofs.Echo.Decoding
import InbandTrace.Proofs.Sender.Attempt
import InbandTrace.Proofs.Route.Request
import InbandTrace.Proofs.Sender.Span
import InbandTrace.Proofs.Sender.Patience
import InbandTrace.Proofs.Json.Overlong
import InbandTrace.Proofs.Json.Survival
import InbandTrace.Proofs.Options.Usable

import Commute.Cmd.RunServer
import Commute.Crdt.DotAssignment
import Commute.Crdt.WallClock
import Commute.Server.AdvertiseAddr
import Commute.Server.ApiRuns
import Commute.Server.CausalReads
import Commute.Server.ContextOverflow
import Commute.Server.DeltaEquivalence
import Commute.Server.DeltaPurity
import Commute.Server.NullMessages
import Commute.Server.Quiescence
import Commute.Server.SetWrites
import Commute.Server.WireFormat
import Commute.Swim.AckService
import Commute.Swim.Announcements
import Commute.Swim.Detection
import Commute.Swim.Discovery
import Commute.Swim.EventQueue
import Commute.Swim.NodeParts
import Commute.Swim.RelayChannels
import Commute.Swim.RoundRobin
import Commute.Swim.Sending
import Commute.Swim.WireGrammar

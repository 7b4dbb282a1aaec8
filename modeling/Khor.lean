import Khor.A2a.Limits
import Khor.Acp.EventOrder
import Khor.Acp.Fifo
import Khor.Adaptor.Following
import Khor.Files.MovingRuns
import Khor.Files.PullRuns
import Khor.Files.SaveRuns
import Khor.Gui.CommandRuns
import Khor.Gui.FanoutWakes
import Khor.Live.Asking
import Khor.Net.Holders
import Khor.Net.RoadOrder
import Khor.Node.AgentOutput
import Khor.Node.CancelScheduler
import Khor.Node.OnceRuns
import Khor.Node.PostWords
import Khor.Node.PublicationRuns
import Khor.Node.RoadBookRuns
import Khor.Node.TreeFilled
import Khor.Node.Turns
import Khor.Readings.DayHistory
import Khor.Readings.Rounds
import Khor.Runtime.Recovery
import Khor.Sync.BindingsCanonical
import Khor.Sync.Channel
import Khor.Sync.Compaction
import Khor.Sync.Convergence
import Khor.Sync.DeviceSetters
import Khor.Sync.EpochFence
import Khor.Sync.KeptAgree
import Khor.Sync.Lease
import Khor.Sync.PlanRuns
import Khor.Sync.StagingRuns
import Khor.Tabs.Runs
import Khor.Term.Answers
import Khor.Term.Faces
import Khor.Update.Reclaim

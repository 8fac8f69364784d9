import Tribuchet.Session.Admission
import Tribuchet.Session.Verdicts
import Tribuchet.Staging.Progress
import Tribuchet.Staging.AnyHub
import Tribuchet.Staging.BadChunk
import Tribuchet.Staging.Deadlock
import Tribuchet.Worker.Redelivery
import Tribuchet.Worker.Undelivered
import Tribuchet.Worker.Answers
import Tribuchet.Hub.Departure
import Tribuchet.Hub.HeldKeys
import Tribuchet.Hub.Identical
import Tribuchet.Outputs.Exact
import Tribuchet.Outputs.Fanout
import Tribuchet.ChunkStore.Survival
import Tribuchet.Agents.Pool
import Tribuchet.Agents.Agent
import Tribuchet.Agents.Framing
import Tribuchet.Hub.Order
import Tribuchet.ChunkStore.Rounds
import Tribuchet.ChunkStore.Ghosts
import Tribuchet.Hub.BadFrames
import Tribuchet.Outputs.Extras
import Tribuchet.Staging.Pins
import Tribuchet.Staging.Relaying
import Tribuchet.Staging.Resends
import Tribuchet.Hub.TmpDir
import Tribuchet.Worker.NetPolicy
import Tribuchet.Hub.Requests
import Tribuchet.Worker.AgentUids
import Tribuchet.Worker.CancelFlags
import Tribuchet.Worker.LogTail
import Tribuchet.Hub.NixConfig
import Tribuchet.Outputs.Recipes

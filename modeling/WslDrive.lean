import WslDrive.Agent.Coherence
import WslDrive.Agent.Convergence
import WslDrive.Agent.EndToEnd
import WslDrive.Agent.Expand
import WslDrive.Agent.Fetch
import WslDrive.Agent.Handshake
import WslDrive.Agent.Lifetime
import WslDrive.Agent.LinkCache
import WslDrive.Agent.Pruning
import WslDrive.Agent.Quiescence
import WslDrive.Agent.ReadYourWrites
import WslDrive.Agent.Rename
import WslDrive.Agent.Rescan
import WslDrive.Agent.Resurrection
import WslDrive.Agent.SharedChannel
import WslDrive.Agent.Verdict
import WslDrive.Agent.Window
import WslDrive.Core.Churn
import WslDrive.Core.Folding
import WslDrive.Core.Glob
import WslDrive.Core.StringStore
import WslDrive.Core.Timing
import WslDrive.Core.Tree.PathLoops
import WslDrive.Core.Tree.Teardown
import WslDrive.Core.Truncation
import WslDrive.Core.Varint
import WslDrive.Mount.Times

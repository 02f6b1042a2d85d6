import Astrid.Wal.Transaction
import Astrid.Content.Appended
import Astrid.Catalog.Run
import Astrid.Capability.Single
import Astrid.Bearer.Spent
import Astrid.Durable.Refines
import Astrid.Durable.Compacted
import Astrid.Audit.Position
import Astrid.Fuel.Budget
import Astrid.Approval.Deferred
import Astrid.Workspace.Branch
import Astrid.Bus.Routed
import Astrid.Bus.Reserved
import Astrid.Config.Loader
import Astrid.Host.Files
import Astrid.Bus.Topic
import Astrid.Bus.WaitGraph
import Astrid.Capability.Signing
import Astrid.Durable.Search
import Astrid.Kv.Ranges

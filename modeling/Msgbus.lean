
import Msgbus.Server.Markers
import Msgbus.Network.Deletes
import Msgbus.Guarantees
import Msgbus.Isolation
import Msgbus.Lib.CodedTable
import Msgbus.Queues
import Msgbus.Redb.Queues
import Msgbus.Sqlite.Queues
import Msgbus.Interchange
import Msgbus.Fifo
import Msgbus.Windows
import Msgbus.Network.Accepted
import Msgbus.Network.Broadcasts
import Msgbus.Network.Identities
import Msgbus.Network.Ownership
import Msgbus.Network.Blocking
import Msgbus.Network.Restart
import Msgbus.Redb.Scans
import Msgbus.Server.Pinning
import Msgbus.Limits
import Msgbus.Tombstones
import Msgbus.Replication
import Msgbus.Peers
import Msgbus.Replay
import Msgbus.Passes
import Msgbus.Network.Reconnects
import Msgbus.Network.Relays
import Msgbus.Network.Histories
import Msgbus.Network.Recovery
import Msgbus.Network.Feeds
import Msgbus.Network.Reports
import Msgbus.Network.Convergence
import Msgbus.Network.Durability

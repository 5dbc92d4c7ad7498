import Lachesis.Pos.Counter
import Lachesis.Eventcheck
import Lachesis.Vecfc.VectorBytes
import Lachesis.Vecfc.BranchCap
import Lachesis.Vecfc.IndexErrors
import Lachesis.Abft.FrameAcceptance
import Lachesis.Abft.BootBlocks
import Lachesis.Abft.Transparency
import Lachesis.Gossip.SeederIsolation
import Lachesis.Gossip.SeederChunks
import Lachesis.Gossip.Leecher
import Lachesis.Gossip.PeerLeecher
import Lachesis.Gossip.ItemsfetcherBooks
import Lachesis.Gossip.EventsConnected
import Lachesis.Gossip.EventsAccounts
import Lachesis.Utils.SemaphoreRuns
import Lachesis.Gossip.ProcessorOrder
import Lachesis.Kvdb.TableBounds
import Lachesis.Kvdb.FlushableInterleaving
import Lachesis.Abft.RootsTable
import Lachesis.Kvdb.PoolReopen
import Lachesis.Kvdb.FlaggedProducer
import Lachesis.Kvdb.CachedProducer
import Lachesis.Kvdb.CachedWrappers
import Lachesis.Kvdb.RoutingOrder
import Lachesis.Utils.Piecefunc
import Lachesis.Utils.Simplewlru
import Lachesis.Emitter.Doublesign
import Lachesis.Emitter.QuorumIndexer
import Lachesis.Emitter.ChooseParents
import Lachesis.Kvdb.Skipkeys

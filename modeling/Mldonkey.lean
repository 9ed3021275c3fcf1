import Mldonkey.Swarming.Transfer
import Mldonkey.Swarming.Tags.Steps
import Mldonkey.Kademlia.Shape
import Mldonkey.Kademlia.Invariant
import Mldonkey.Kademlia.Reload
import Mldonkey.Lib.Counting
import Mldonkey.Swarming.Ledger.Verify
import Mldonkey.Swarming.Ledger.Choosing
import Mldonkey.Swarming.Ledger.Picking
import Mldonkey.Swarming.SetPresent
import Mldonkey.Swarming.Counters
import Mldonkey.Swarming.Choices
import Mldonkey.Swarming.Priorities
import Mldonkey.Swarming.Pieces
import Mldonkey.Swarming.Tags.Frontends
import Mldonkey.Swarming.Tags.Trace
import Mldonkey.Lib.Hashtbl
import Mldonkey.Dht.Once
import Mldonkey.Dht.Lookup
import Mldonkey.Unix32.Buffered
import Mldonkey.Queues.Queue
import Mldonkey.BitTorrent.Stream
import Mldonkey.Dht.Packets
import Mldonkey.Donkey.Hashing
import Mldonkey.Sources.NotFound
import Mldonkey.BitTorrent.TorrentRoundTrip
import Mldonkey.Donkey.ClientRoundTrip
import Mldonkey.Ggep.Blocks
import Mldonkey.Gui.Query
import Mldonkey.Donkey.TagLists
import Mldonkey.IpSet.Lookup
import Mldonkey.Queues.FifoList
import Mldonkey.Sockets.Queues
import Mldonkey.Donkey.KademliaRoundTrip
import Mldonkey.Options.RoundTrip
import Mldonkey.Options.QueryOption
import Mldonkey.Indexing.Meaning
import Mldonkey.Donkey.Cut
import Mldonkey.Donkey.Chunks
import Mldonkey.Donkey.Published
import Mldonkey.Indexer.Answers
import Mldonkey.BitTorrent.Announced
import Mldonkey.BitTorrent.Metadata
import Mldonkey.BitTorrent.TrackerKey
import Mldonkey.Gnutella.RoundTrip
import Mldonkey.Gnutella2.UdpRuns
import Mldonkey.Http.Headers
import Mldonkey.Http.Pages
import Mldonkey.Http.WgetBody
import Mldonkey.Store.Runs
import Mldonkey.Indexing.FormMeaning
import Mldonkey.FileTP.Reader
import Mldonkey.Ggep.Cobs
import Mldonkey.Sockets.Udp
import Mldonkey.Sockets.BandwidthRuns
import Mldonkey.Sockets.ConnectionRuns
import Mldonkey.Hosts.Accounted
import Mldonkey.Uploads.SlotRuns
import Mldonkey.Overnet.BucketRuns
import Mldonkey.Overnet.SearchRuns
import Mldonkey.Lib.Smallest
import Mldonkey.Dht.LimitedSet
import Mldonkey.Lib.PairTree
import Mldonkey.Uploads.TigerTree
import Mldonkey.BitTorrent.Chooser
import Mldonkey.BitTorrent.Rate
import Mldonkey.Dht.Tokens
import Mldonkey.Unix32.Descriptors
import Mldonkey.Unix32.FullDisk
import Mldonkey.Overnet.Closest
import Mldonkey.Overnet.Publish
import Mldonkey.Gnutella.QueryRouting
import Mldonkey.Hashes.Texts
import Mldonkey.Filename.NormalForm
import Mldonkey.Filename.Compliant
import Mldonkey.Urls.Arguments
import Mldonkey.Uids.Magnet
import Mldonkey.Indexer.FilterRuns
import Mldonkey.Multimedia.Avi
import Mldonkey.Swarming.Received
import Mldonkey.Swarming.Reload
import Mldonkey.Gnutella2.Servers

import Soshal.Sync.OutboxReplay
import Soshal.Sync.Profile
import Soshal.Sync.Reactions
import Soshal.Sync.Batch
import Soshal.Sync.Watermarks
import Soshal.Sync.Gossip
import Soshal.Mesh.Flooding
import Soshal.Mesh.LinkProofs
import Soshal.Mesh.LinkSizes
import Soshal.Sync.RollupRuns
import Soshal.Sync.HashRouting
import Soshal.Network.EigenTrust
import Soshal.Network.BlobSchedules
import Soshal.Network.ChunkServing
import Soshal.Network.BlobRuns
import Soshal.Bridge.Invoices
import Soshal.Relay.Deliveries
import Soshal.Identity.WotFreshness
import Soshal.Common.NormalizedStore
import Soshal.Bridge.EscrowRuns
import Soshal.Telemetry.Transcript
import Soshal.Telemetry.Bounds
import Soshal.Telemetry.RingProtocol
import Soshal.Db.Convergence
import Soshal.Crypto.LegacyBlobs
import Soshal.Crypto.ReleaseRuns
import Soshal.Sync.TxFail
import Soshal.Network.LiveReplay
import Soshal.Db.Observable
import Soshal.Network.QuicAuthRuns
import Soshal.Network.RateLimit
import Soshal.Sync.MissingKeys
import Soshal.Sync.TreeLevels
import Soshal.Media.ManifestBounds
import Soshal.Mesh.P2pFrame
import Soshal.Mesh.Routing
import Soshal.Mesh.EnsureSession
import Soshal.Network.ClosestPeers
import Soshal.Bridge.DescriptionHash
import Soshal.Identity.WotGraph
import Soshal.Identity.WotScores
import Soshal.Bridge.PinAttempts
import Soshal.Crypto.Frost
import Soshal.Crypto.ZkTrust
import Soshal.Relay.Published
import Soshal.Relay.LocalStore
import Soshal.Streaming.Subscriber
import Soshal.Feed.Buffer
import Soshal.Storage.Fountain
import Soshal.Network.NatDriver
import Soshal.Mesh.BleChunks
import Soshal.Content.Compress
import Soshal.Content.Markdown
import Soshal.Content.AsciiEntities
import Soshal.Streaming.VideoServer
import Soshal.Common.CivilDate
import Soshal.Common.Bounded
import Soshal.Crypto.ConversationKeys
import Soshal.Media.FifoCache
import Soshal.Nostr.CacheBound
import Soshal.Db.Reposts
import Soshal.Bridge.Polls
import Soshal.Bridge.Ephemeral
import Soshal.Bridge.Scheduled
import Soshal.Bridge.GroupThreads
import Soshal.Webrtc.Sdp

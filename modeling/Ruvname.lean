import Ruvname.Exec
import Ruvname.Table
import Ruvname.Bytes
import Ruvname.Record
import Ruvname.Transaction
import Ruvname.Block
import Ruvname.Store
import Ruvname.Chain
import Ruvname.CheckBlock
import Ruvname.CheckChain
import Ruvname.Network
import Ruvname.Run
import Ruvname.Verdict
import Ruvname.Ledger
import Ruvname.Steps
import Ruvname.Reachable
import Ruvname.Origin
import Ruvname.Finality
import Ruvname.Position
import Ruvname.StoreInvariant
import Ruvname.TipCache
import Ruvname.Vetted
import Ruvname.Ownership
import Ruvname.Quorum
import Ruvname.SignerSearch
import Ruvname.Totality
import Ruvname.AgreeBelow
import Ruvname.History
import Ruvname.Cooldown
import Ruvname.SignerDiscipline
import Ruvname.Redelivery
import Ruvname.ClockIndependence
import Ruvname.Framing
import Ruvname.Preimage
import Ruvname.HexText
import Ruvname.Wire
import Ruvname.Transparency
import Ruvname.Message
import Ruvname.Serving
import Ruvname.Protocol
import Ruvname.Sync
import Ruvname.Packet
import Ruvname.Filter
import Ruvname.RuvchainZones
import Ruvname.Startup
import Ruvname.DnsCache
import Ruvname.DnsClient
import Ruvname.ForkChoice
import Ruvname.Buffer
import Ruvname.Codec
import Ruvname.Layout
import Ruvname.Decoding
import Ruvname.BufferAgreement
import Ruvname.NameTermination
import Ruvname.Encoding
import Ruvname.SectionCounts
import Ruvname.NameCompression
import Ruvname.RecordLayout
import Ruvname.RoundTrip
import Ruvname.CountedReading
import Ruvname.DnsServer
import Ruvname.SignerMemo
import Ruvname.ForkPoint
import Ruvname.Mining
import Ruvname.OwnBlocks
import Ruvname.Resolution
import Ruvname.Discount
import Ruvname.DomainMining
import Ruvname.MiningGate
import Ruvname.RecordLimits
import Ruvname.Lossy
import Ruvname.NameSequences
import Ruvname.TextRecords
import Ruvname.SizeLimit
import Ruvname.ParseFaults
import Ruvname.ResponseWorker
import Ruvname.Convergence
import Ruvname.OwnAnswers
import Ruvname.Authority
import Ruvname.Refresh
import Ruvname.Referrals
import Ruvname.Chunked
import Ruvname.Transport
import Ruvname.Peers
import Ruvname.Twins
import Ruvname.DomainNames
import Ruvname.Hosts
import Ruvname.Numbering
import Ruvname.BlockRequests
import Ruvname.MiningQueue
import Ruvname.MiningThreads
import Ruvname.NetworkSafety
import Ruvname.CommonHistory
import Ruvname.Connection
import Ruvname.Peering
import Ruvname.Workers
import Ruvname.DnsWorkers
import Ruvname.DnsAnswers
import Ruvname.ChainNames
import Ruvname.LoneWorker
import Ruvname.QueryIds
import Ruvname.Lru
import Ruvname.UdpServer
import Ruvname.MyDomains
import Ruvname.ZoneFiles
import Ruvname.KeyGenerator

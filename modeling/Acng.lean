import Acng.DlConn
import Acng.DlSystem
import Acng.Lifetime
import Acng.Proofs.Chunked
import Acng.Proofs.Pipeline
import Acng.Proofs.Partition
import Acng.Proofs.Redirect
import Acng.Proofs.DestroyMode
import Acng.Proofs.RefCount
import Acng.Proofs.SingleWriter
import Acng.Proofs.Lengths
import Acng.Proofs.Histories
import Acng.Proofs.Confinement
import Acng.Proofs.RegistryRaces
import Acng.Proofs.Sharing
import Acng.Proofs.Encoder
import Acng.Proofs.Ranges
import Acng.Proofs.ClientStream
import Acng.Proofs.Displacement
import Acng.Proofs.Handover
import Acng.Proofs.PassThrough
import Acng.Proofs.Publication
import Acng.Proofs.HeadStorage
import Acng.Proofs.FullAnswer
import Acng.Proofs.HeadOnly
import Acng.Proofs.WorkLoop
import Acng.Proofs.ThreadPool
import Acng.Proofs.Maintenance
import Acng.Proofs.Versions
import Acng.Proofs.Expiration
import Acng.Proofs.Catalogue
import Acng.Proofs.Deletion
import Acng.Proofs.Sources
import Acng.Proofs.Inject
import Acng.Proofs.ByHash
import Acng.Proofs.Patch
import Acng.Proofs.IndexUpdate
import Acng.Proofs.HeadLoad
import Acng.Proofs.CustomHeaders
import Acng.Proofs.Tasks
import Acng.Proofs.RepoHooks
import Acng.Proofs.Cleaner
import Acng.Proofs.Aconnect
import Acng.Proofs.Disconnected
import Acng.Proofs.Failover
import Acng.Dns
import Acng.Proofs.Dns
import Acng.Proofs.DnsCache
import Acng.Proofs.SrvWeights
import Acng.Proofs.Dispatch
import Acng.Proofs.DataWrites
import Acng.Proofs.Setup
import Acng.Proofs.BufferSpace
import Acng.Proofs.Credentials
import Acng.Proofs.Remap
import Acng.Proofs.PatchChunk
import Acng.Proofs.ConnPool
import Acng.Proofs.RepoFiles
import Acng.Proofs.KeptVersions
import Acng.Proofs.DownloadRecursion
import Acng.Proofs.MetaFiles
import Acng.Proofs.FileGroups
import Acng.Proofs.PackagesIndex
import Acng.Proofs.Validation
import Acng.Proofs.ScannedFiles
import Acng.Proofs.EdScript
import Acng.Proofs.RepItem
import Acng.Proofs.Shrink
import Acng.Proofs.UncompMore
import Acng.Proofs.InitFromFile
import Acng.Proofs.DirWalk
import Acng.Proofs.AddrList
import Acng.Proofs.MirrorIndexes
import Acng.Proofs.ImportRun
import Acng.Proofs.Trim
import Acng.Proofs.DateOrder
import Acng.Proofs.KeyOrder
import Acng.Proofs.FingerprintObject
import Acng.Proofs.EncodeBase64
import Acng.Proofs.EscapeInverses
import Acng.Proofs.TransferLog
import Acng.Proofs.SplitWalk
import Acng.Proofs.MarkupFile
import Acng.Proofs.FishLongest
import Acng.Proofs.Tunnel
import Acng.Proofs.Relay
import Acng.Proofs.IdlePool
import Acng.Proofs.BgTask

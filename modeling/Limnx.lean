import Limnx.Theorems.Confinement
import Limnx.Theorems.Capabilities
import Limnx.Theorems.TokenRevocation
import Limnx.Theorems.TokenAttenuation
import Limnx.Theorems.TokenSubtree
import Limnx.Theorems.VfsNames
import Limnx.Theorems.LfsBlockMap
import Limnx.Theorems.FilePerms
import Limnx.Theorems.TcpReceive
import Limnx.Theorems.TcpRetransmit
import Limnx.Theorems.PmmInit
import Limnx.Theorems.EnvMap
import Limnx.Theorems.ElfBounds
import Limnx.Theorems.DeadThreads
import Limnx.Theorems.FutexWakes
import Limnx.Theorems.MmAccounting
import Limnx.Theorems.MmConfined
import Limnx.Theorems.MmHeap
import Limnx.Theorems.TaskOrder
import Limnx.Theorems.NetRx
import Limnx.Theorems.SignalPrivilege
import Limnx.Theorems.SignalNesting
import Limnx.Theorems.ChildCollection
import Limnx.Theorems.PubSubQueues
import Limnx.Theorems.PubSubIsolation
import Limnx.Theorems.AgentMail
import Limnx.Theorems.UnixStreams
import Limnx.Theorems.TcpPrivacy
import Limnx.Theorems.NsQuota
import Limnx.Theorems.RamFiles
import Limnx.Theorems.DirListing
import Limnx.Theorems.XnsTokens
import Limnx.Theorems.AgentNames
import Limnx.Theorems.SuperTexts
import Limnx.Theorems.BpeTokens
import Limnx.Theorems.VectorMap
import Limnx.Theorems.VectorSearch
import Limnx.Theorems.Checksums
import Limnx.Theorems.BlockScan

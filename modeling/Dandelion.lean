import Dandelion.Runtime.HeapFit
import Dandelion.Runtime.HeapAlign
import Dandelion.Runtime.IoExhaustion
import Dandelion.FileSystem.UniqueNames
import Dandelion.FileSystem.Removal
import Dandelion.FileSystem.ArgumentLaw
import Dandelion.FileSystem.FailedOpens
import Dandelion.FileSystem.DirectoryScans
import Dandelion.FileSystem.ChunkBounds
import Dandelion.FileSystem.TruncateLaw
import Dandelion.FileSystem.SeekLaw
import Dandelion.FileSystem.OpenVisible
import Dandelion.FileSystem.TypedWalks
import Dandelion.FileSystem.Tailing
import Dandelion.FileSystem.Descriptors
import Dandelion.FileSystem.Modes
import Dandelion.FileSystem.AccessLaw
import Dandelion.FileSystem.Dirents
import Dandelion.FileSystem.AppendLaw
import Dandelion.NewlibShim.ThreadKeyRuns
import Dandelion.NewlibShim.Mutexes
import Dandelion.FileSystem.SliceSplit
import Dandelion.System.MemoryOrder
import Dandelion.System.DebugSets
import Dandelion.Program.Lifecycle

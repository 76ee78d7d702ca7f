import Cosmos.Sched.Sem
import Cosmos.Rfs.Refine
import Cosmos.Obj.Caches
import Cosmos.Page.Undo
import Cosmos.Page.Scan
import Cosmos.Page.Tiles
import Cosmos.Space.Isolation
import Cosmos.Space.Secrets
import Cosmos.Rfs.Paths
import Cosmos.Rfs.Memory
import Cosmos.Rfs.Buffers
import Cosmos.Thread.Start
import Cosmos.Hal.I8259
import Cosmos.Dev.Entry
import Cosmos.Video.Bank
import Cosmos.Print.Stdio
import Cosmos.Page.Sort
import Cosmos.Print.Render
import Cosmos.Ldr.Image
import Cosmos.Page.Segment
import Cosmos.Cpu.Spinlock
import Cosmos.Space.Kernel
import Cosmos.Sched.Clock

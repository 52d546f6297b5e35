import GheithOS.Cow.Race
import GheithOS.Sync.Future
import GheithOS.Sync.BoundedBuffer
import GheithOS.Sync.Pipe
import GheithOS.Syscall.Failure
import GheithOS.Heap.Choice
import GheithOS.MemoryMapping.FirstFit
import GheithOS.MemoryMapping.Paging
import GheithOS.Input.Keyboard
import GheithOS.Input.Mouse
import GheithOS.Signal.Return
import GheithOS.Files.Assembly
import GheithOS.Files.CacheRace
import GheithOS.Files.SharedOffset
import GheithOS.Files.ScanBounds
import GheithOS.Files.Image
import GheithOS.BitTree.UseAfterFree
import GheithOS.Exec.Accepted
import GheithOS.Signal.FrameBounds
import GheithOS.Syscall.DescriptorRuns
import GheithOS.Events.Delay
import GheithOS.Boot.Madt
import GheithOS.Libc.Sbrk
import GheithOS.Exec.Arguments
import GheithOS.Input.CircularBuffer
import GheithOS.Sync.QueueFamily
import GheithOS.PhysMem.Numbers
import GheithOS.Vmm.Isolation

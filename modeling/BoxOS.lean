import BoxOS.TagFS.InterruptedFlush
import BoxOS.TagFS.QueryAnswers
import BoxOS.TagFS.Door
import BoxOS.TagFS.BcdcLz
import BoxOS.TagFS.DedupRle
import BoxOS.TagFS.BcdcBounds
import BoxOS.TagFS.VolumeGrowth
import BoxOS.TagFS.Defrag
import BoxOS.TagFS.SharedWrites
import BoxOS.TagFS.Isolation
import BoxOS.TagFS.DedupRefsRun
import BoxOS.Storage.WriteQueue
import BoxOS.Storage.WriteJobFailRun
import BoxOS.Scheduler.RunQueueRun
import BoxOS.Scheduler.LoadCountRun
import BoxOS.Scheduler.ScheduleRun
import BoxOS.Baton.Knock
import BoxOS.Brook.StreamRun
import BoxOS.TagFS.DiskBook
import BoxOS.Memory.BuddyWindow
import BoxOS.Memory.KernelHeap
import BoxOS.Memory.GuardAccess
import BoxOS.Memory.Pcid
import BoxOS.Memory.UserBuf
import BoxOS.Ipc.RoutingRun
import BoxOS.Touch.OwedRun
import BoxOS.Touch.IrqRingRun
import BoxOS.Touch.PublishRefused
import BoxOS.Touch.InterruptRun
import BoxOS.Sync.AddrWaitRun
import BoxOS.Manifest.Malformed
import BoxOS.Process.LoadBinary
import BoxOS.TagFS.IntegrityRun
import BoxOS.TagFS.BraidRun
import BoxOS.Manifest.TableRun
import BoxOS.Bay.ObjectRun
import BoxOS.Bay.Chunks
import BoxOS.Boxcxx.HashTableRun
import BoxOS.Boxcxx.FlatHashRun
import BoxOS.Boxcxx.DequeRun
import BoxOS.Boxcxx.Leap
import BoxOS.Memory.TlbRun
import BoxOS.Memory.SlabRun
import BoxOS.Brook.SleepRun
import BoxOS.Memory.RegionLookup
import BoxOS.TagFS.SpaceRemount
import BoxOS.Process.Pid

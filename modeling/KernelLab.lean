import KernelLab.Interrupt.Thread
import KernelLab.Interrupt.Counts
import KernelLab.Unload
import KernelLab.Poll.Poll
import KernelLab.RamDisk.RequestQueue
import KernelLab.RamDisk.Interleave
import KernelLab.RamDisk.SampleBlk
import KernelLab.RamDisk.Load
import KernelLab.RamDisk.RangeCheck
import KernelLab.CharDev.Bounds
import KernelLab.CharDev.Fault
import KernelLab.Kvm.SegmentDescriptor
import KernelLab.DataStruct.ProductTreeClear
import KernelLab.DataStruct.NameHash
import KernelLab.MmapRoot.Finds
import KernelLab.Deadline.Edf
import KernelLab.Deadline.Server
import KernelLab.Deadline.Limit
import KernelLab.Deadline.Push

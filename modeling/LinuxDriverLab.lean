import LinuxDriverLab.Irq.Lifecycle
import LinuxDriverLab.MiscEcho.Register
import LinuxDriverLab.Ramdisk.Image
import LinuxDriverLab.TwoDev.Init
import LinuxDriverLab.TwoDev.ReadRange
import LinuxDriverLab.Irq.BottomHalf
import LinuxDriverLab.ListMsg.Lossless
import LinuxDriverLab.TwoDev.SetBufsz
import LinuxDriverLab.MmapBuf.Lifetime
import LinuxDriverLab.MmapBuf.Pages
import LinuxDriverLab.MmapBuf.Shared
import LinuxDriverLab.RunConsole.Account
import LinuxDriverLab.RunConsole.Follow
import LinuxDriverLab.RbFill.Account
import LinuxDriverLab.PtabLab.Disklab
import LinuxDriverLab.EchoLoop
import LinuxDriverLab.TwoDev.Isolation
import LinuxDriverLab.ListMsg.Payload
import LinuxDriverLab.Irq.ReadLine
import LinuxDriverLab.StunProbe.Answer
import LinuxDriverLab.StunProbe.Truncated
import LinuxDriverLab.StunProbe.PublicAddress
import LinuxDriverLab.RemoteTools.Sudo
import LinuxDriverLab.ParamDemo.PrintArr
import LinuxDriverLab.ParamDemo.Probe
import LinuxDriverLab.ParamDemo.ProbeMain
import LinuxDriverLab.PtabLab.FindMount
import LinuxDriverLab.RunPty.Drain
import LinuxDriverLab.MiscEcho.Locking
import LinuxDriverLab.TwoDev.Locking
import LinuxDriverLab.Ramdisk.Life
import LinuxDriverLab.MemDemo.Leak
import LinuxDriverLab.MemDemo.Report
import LinuxDriverLab.ListMsg.Life
import LinuxDriverLab.RunPty.Report
import LinuxDriverLab.ShowFile
import LinuxDriverLab.PtabLab.Session
import LinuxDriverLab.ParamDemo.Log
import LinuxDriverLab.Sniff
import LinuxDriverLab.RemoteTools.Deploy
import LinuxDriverLab.Irq.Toggles
import LinuxDriverLab.RbFill.Table

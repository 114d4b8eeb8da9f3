import PlantOS.Fs.BcacheFaults
import PlantOS.Fs.BcacheLru
import PlantOS.Fs.ElfImage
import PlantOS.Fs.FatLoops
import PlantOS.Fs.FatMount
import PlantOS.Fs.FatName
import PlantOS.Fs.PipeDirection
import PlantOS.Fs.PipeFifo
import PlantOS.Fs.PipeProgress
import PlantOS.Fs.RamfsHandles
import PlantOS.Gui.DrawLine
import PlantOS.Gui.Terminal
import PlantOS.Lib.Strncpy
import PlantOS.Mm.HeapCoalesced
import PlantOS.Mm.PmmInit
import PlantOS.Net.Checksum
import PlantOS.Net.DnsHosts
import PlantOS.Net.DnsParse
import PlantOS.Net.Receive
import PlantOS.Net.TcpHandle
import PlantOS.Net.TcpPayload
import PlantOS.Net.TcpSendSpace
import PlantOS.Net.TcpSlots
import PlantOS.Net.UdpDatagrams
import PlantOS.Shell.Condition
import PlantOS.Shell.EditorLoad
import PlantOS.Shell.EditorUndo
import PlantOS.Shell.History
import PlantOS.Shell.ScriptLoad
import PlantOS.Shell.ScriptNest
import PlantOS.Shell.TabComplete
import PlantOS.Task.Arguments
import PlantOS.Task.Context
import PlantOS.Task.Credentials
import PlantOS.Task.Isolation
import PlantOS.Task.PageFault
import PlantOS.Task.Sbrk
import PlantOS.Task.SignalReturn
import PlantOS.Task.WaitWakeup
import PlantOS.User.Backprop
import PlantOS.User.PrintfNumber
import PlantOS.User.Sort

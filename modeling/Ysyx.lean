import Ysyx.Am.TimerProperties
import Ysyx.Nemu.MulDivProperties
import Ysyx.Nemu.CsrProperties
import Ysyx.Soc.SpiXipProperties
import Ysyx.Am.ContextsProperties
import Ysyx.Soc.PsramPathProperties
import Ysyx.RtThread.ContextProperties
import Ysyx.RtThread.RoundRobin
import Ysyx.RtThread.SemaphoreProperties
import Ysyx.Nemu.WatchpointProperties
import Ysyx.Nemu.RingBufferProperties
import Ysyx.Nemu.AudioProperties
import Ysyx.Difftest.CoreLockstep
import Ysyx.Npc.InterconnectFairness
import Ysyx.Npc.LsuProperties
import Ysyx.Npc.LsuMemoryProperties
import Ysyx.Npc.NextPcProperties
import Ysyx.Npc.ResetProperties
import Ysyx.Soc.Ps2Properties
import Ysyx.Soc.ApbDelayerProperties
import Ysyx.Soc.SdramProperties
import Ysyx.Soc.SdramBurstProperties
import Ysyx.Nemu.MemoryProperties
import Ysyx.Nemu.RegLookup
import Ysyx.Npc.UartOutput
import Ysyx.Klib.CompareProperties
import Ysyx.Klib.Int64Properties
import Ysyx.Klib.StdlibProperties
import Ysyx.Klib.AtoiProperties
import Ysyx.Am.InputProperties
import Ysyx.Am.GpuProperties
import Ysyx.Am.BootProperties
import Ysyx.Am.LibgccProperties

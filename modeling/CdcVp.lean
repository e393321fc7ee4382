import CdcVp.ElfClasses
import CdcVp.PlicLevel
import CdcVp.PlicGateway
import CdcVp.PlicDrain
import CdcVp.PlicMap
import CdcVp.PlicCapacity
import CdcVp.ClintProgress
import CdcVp.ClintSlices
import CdcVp.IrqEdges
import CdcVp.BusTree
import CdcVp.BusDecode
import CdcVp.MemoryDmi
import CdcVp.SpiDrains
import CdcVp.SpiReset
import CdcVp.SpiPoll
import CdcVp.SpiIntr
import CdcVp.WatchdogSafety
import CdcVp.WatchdogLock
import CdcVp.TimerCount
import CdcVp.TimerLine
import CdcVp.TimerAck
import CdcVp.TimerReset
import CdcVp.TimerPeriod
import CdcVp.TimerOnTime
import CdcVp.WatchdogOutputs
import CdcVp.WatchdogTiming
import CdcVp.SpiMask
import CdcVp.PayloadBounds
import CdcVp.PwmDuty
import CdcVp.PwmCounter
import CdcVp.PwmPhase
import CdcVp.IgnoreCommand
import CdcVp.SocSettles
import CdcVp.SocBoot
import CdcVp.SocIrqServed
import CdcVp.MemoryLoad
import CdcVp.CpuStub

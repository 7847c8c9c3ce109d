import GvmCore.ArithmeticLaws
import GvmCore.Bitfield
import GvmCore.BlockRange
import GvmCore.BreakPoints
import GvmCore.BusAccess
import GvmCore.CompareLaws
import GvmCore.ConfigComments
import GvmCore.ContractLoad
import GvmCore.Conversion
import GvmCore.DigitHeap
import GvmCore.DivisionLaws
import GvmCore.FifoLoad
import GvmCore.GasArgument
import GvmCore.Halting
import GvmCore.HashLaw
import GvmCore.Leftovers
import GvmCore.MemoryLaw
import GvmCore.MemorySize
import GvmCore.PcTracking
import GvmCore.Placement
import GvmCore.ReturnedData
import GvmCore.StackLaws
import GvmCore.StackShape
import GvmCore.StorageLaw
import GvmCore.StorageList
import GvmCore.SwapUnits
import GvmCore.Termination
import GvmCore.KeccakLaw
import GvmCore.SimThread
import GvmCore.TornHistory
import GvmCore.RefinedRuns
import GvmCore.Barrett
import GvmCore.BignumPower
import GvmCore.PipeLine
import GvmCore.PipeLineLaw
import GvmCore.PowerLaw

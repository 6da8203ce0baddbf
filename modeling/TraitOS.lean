import TraitOS.BitmapScan
import TraitOS.ByteMemory
import TraitOS.RingBuffer
import TraitOS.Runs
import TraitOS.Tpmm
import TraitOS.TpmmPool
import TraitOS.Multiboot
import TraitOS.TpmmInit
import TraitOS.TpmmContract
import TraitOS.TpmmBootData
import TraitOS.Ttask
import TraitOS.Tipc
import TraitOS.TipcSpec
import TraitOS.TipcMailbox
import TraitOS.TipcMutex
import TraitOS.TipcWakeup
import TraitOS.TtaskSwitch
import TraitOS.TtaskSpace
import TraitOS.PageTable
import TraitOS.Tstring
import TraitOS.Tvmm
import TraitOS.FreeList
import TraitOS.Tmalloc
import TraitOS.TmallocLayout
import TraitOS.TmallocSpec
import TraitOS.TmallocIsolation
import TraitOS.TvmmTables
import TraitOS.TvmmMap
import TraitOS.TvmmKernel
import TraitOS.TmallocTables
import TraitOS.TvmmAspace
import TraitOS.TvmmSpaces
import TraitOS.TvmmTeardown
import TraitOS.TvmmWorld
import TraitOS.TvmmSound
import TraitOS.TvmmLife
import TraitOS.TvmmBoot
import TraitOS.TvmmLaw
import TraitOS.TvmmSupply
import TraitOS.TvmmRelease
import TraitOS.TvmmShared
import TraitOS.TvmmKernelLaw
import TraitOS.Gdt
import TraitOS.Tfs
import TraitOS.TfsTree
import TraitOS.TfsRemoval
import TraitOS.Ttarfs
import TraitOS.TfsRuns
import TraitOS.TfsView
import TraitOS.TtarfsRoundTrip
import TraitOS.Keyboard
import TraitOS.TsecScrub
import TraitOS.Telf
import TraitOS.Tsys
import TraitOS.TmallocLedger
import TraitOS.TtaskPreempt
import TraitOS.TtaskSlice
import TraitOS.TvmmLookup
import TraitOS.TpmmContig
import TraitOS.TmallocCapacity
import TraitOS.TmallocRequest
import TraitOS.TmallocFailure
import TraitOS.TelfLoad
import TraitOS.TelfImage
import TraitOS.TelfBytes
import TraitOS.TtaskBooks
import TraitOS.Timer
import TraitOS.ReadLog
import TraitOS.TelfReads
import TraitOS.TelfPages
import TraitOS.TsecWindow
import TraitOS.TsecKaslr
import TraitOS.TsecTables
import TraitOS.TsecModule
import TraitOS.TshEnv
import TraitOS.TshTokens
import TraitOS.TshQuote
import TraitOS.TtarfsNames
import TraitOS.TtarfsReads
import TraitOS.TfsCreate
import TraitOS.TfsHeap
import TraitOS.TelfOverlap
import TraitOS.Vga
import TraitOS.TshHistory
import TraitOS.TernelEditor
import TraitOS.TernelDisplay
import TraitOS.Numeral
import TraitOS.Tprintf
import TraitOS.KeyboardScan
import TraitOS.Kush
import TraitOS.TipcLives
import TraitOS.TtaskCreators
import TraitOS.TtaskResume
import TraitOS.Idt
import TraitOS.Pic
import TraitOS.TaskSwitchAsm
import TraitOS.TsecHarden
import TraitOS.TsecPhysmap

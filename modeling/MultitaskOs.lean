import MultitaskOs.Heap
import MultitaskOs.Paging
import MultitaskOs.TaskList
import MultitaskOs.Keyboard
import MultitaskOs.AllocationTable
import MultitaskOs.Isolation
import MultitaskOs.PathParser
import MultitaskOs.Registers
import MultitaskOs.ElfMap
import MultitaskOs.OpenClose
import MultitaskOs.Descriptors
import MultitaskOs.FatRead
import MultitaskOs.FileType
import MultitaskOs.Clusters
import MultitaskOs.FileSeek
import MultitaskOs.Filename
import MultitaskOs.Directory
import MultitaskOs.RootRegion
import MultitaskOs.FindItem
import MultitaskOs.HeapMarks
import MultitaskOs.PagingFree
import MultitaskOs.Resolve
import MultitaskOs.Divisions
import MultitaskOs.DataArea
import MultitaskOs.ElfLoad
import MultitaskOs.ElfReads
import MultitaskOs.MapMemory
import MultitaskOs.ProcessTable
import MultitaskOs.FreeUnowned
import MultitaskOs.Injection
import MultitaskOs.ProgramPath
import MultitaskOs.Backspace
import MultitaskOs.Terminal
import MultitaskOs.Scheduling
import MultitaskOs.Gdt
import MultitaskOs.HeapSearch
import MultitaskOs.HeapSize
import MultitaskOs.ElfBounds
import MultitaskOs.PathFree
import MultitaskOs.Readline
import MultitaskOs.Printf
import MultitaskOs.ParseCommand
import MultitaskOs.Termination
import MultitaskOs.UserMode
import MultitaskOs.Boot
import MultitaskOs.PrintLayout
import MultitaskOs.Resumption
import MultitaskOs.StackArguments
import MultitaskOs.SystemCall
import MultitaskOs.TypedText

import AurorOS.Heap.Model
import AurorOS.Lib.FirstFit
import AurorOS.Lib.Runs
import AurorOS.Heap.Representation
import AurorOS.Heap.Simulation
import AurorOS.Heap.Safety
import AurorOS.Heap.Conservation
import AurorOS.Lib.Bitmap
import AurorOS.Phys.Model
import AurorOS.Phys.Pages
import AurorOS.Phys.Sessions
import AurorOS.Phys.Conservation
import AurorOS.Phys.Boot
import AurorOS.Lib.Scan
import AurorOS.Phys.Mmap
import AurorOS.Phys.Initialised
import AurorOS.Phys.AfterBoot
import AurorOS.Phys.Builds
import AurorOS.Phys.Reserved
import AurorOS.Phys.Windows
import AurorOS.Fs.Model
import AurorOS.Lib.Forest
import AurorOS.Fs.Tree
import AurorOS.Fs.Delete
import AurorOS.Fs.Invariant
import AurorOS.Lib.Restoring
import AurorOS.Numbers.Division
import AurorOS.Phys.Search
import AurorOS.Fs.Read
import AurorOS.Fs.Resolve
import AurorOS.Exec.Descriptors
import AurorOS.Fs.Paths
import AurorOS.Exec.Syscall
import AurorOS.Exec.Isolation
import AurorOS.Devices.Keyboard
import AurorOS.Apps.Hexedit
import AurorOS.Apps.Tinypad
import AurorOS.Shell.Commands
import AurorOS.Fs.Prune
import AurorOS.Fs.Actions
import AurorOS.Fs.Files
import AurorOS.Shell.Effects
import AurorOS.Shell.Sessions
import AurorOS.Shell.WriteProtection
import AurorOS.Exec.AccessBits
import AurorOS.Fs.Hidden
import AurorOS.Shell.Confidentiality
import AurorOS.Apps.Users
import AurorOS.Shell.References
import AurorOS.Heap.Memory
import AurorOS.Heap.Clients
import AurorOS.Fs.Bytes.Model
import AurorOS.Fs.Bytes.Refinement
import AurorOS.Fs.Bytes.Contents
import AurorOS.Phys.OwnStorage
import AurorOS.Phys.AnyBuffer
import AurorOS.Phys.Bump
import AurorOS.Heap.Frees
import AurorOS.Heap.Aligned
import AurorOS.Fs.Releases
import AurorOS.Apps.SaveTarget
import AurorOS.Shell.Mkdir
import AurorOS.Shell.NameBounds
import AurorOS.Shell.Init
import AurorOS.Fs.Capacity
import AurorOS.Shell.Capacity
import AurorOS.Lib.Lines
import AurorOS.Apps.UserLines
import AurorOS.Apps.UserFile
import AurorOS.Apps.UserRecords
import AurorOS.Apps.LoginSafety
import AurorOS.Apps.HexCodec
import AurorOS.Apps.HexEnter
import AurorOS.Shell.PromptPath
import AurorOS.Apps.Saved
import AurorOS.Devices.Cursor
import AurorOS.Devices.Editing
import AurorOS.Lib.Wrapping
import AurorOS.Devices.Terminal
import AurorOS.Devices.Colours
import AurorOS.Numbers.Conversions
import AurorOS.Numbers.Parsing
import AurorOS.Numbers.Signed
import AurorOS.Apps.Calculator
import AurorOS.Shell.ModeLetters
import AurorOS.Shell.PromptHome
import AurorOS.Shell.Strings
import AurorOS.Shell.Choice
import AurorOS.Shell.Frames
import AurorOS.Shell.Evaluate
import AurorOS.Shell.Calls
import AurorOS.Shell.Transparency
import AurorOS.Shell.StringBounds
import AurorOS.Shell.Operands
import AurorOS.Heap.Memmove
import AurorOS.Numbers.Numerals
import AurorOS.Apps.CalculatorInput
import AurorOS.Apps.CalculatorBuilds
import AurorOS.Shell.Tokenizers
import AurorOS.Lib.Replacement
import AurorOS.Shell.Replace
import AurorOS.Apps.TinypadBuffer
import AurorOS.Fs.Bytes.Deletion
import AurorOS.Fs.Bytes.Lookup
import AurorOS.Fs.Garbage
import AurorOS.Fs.Bytes.Sessions
import AurorOS.Shell.Login
import AurorOS.Shell.Authentication
import AurorOS.Lib.PageWalk
import AurorOS.Boot.Paging
import AurorOS.Lib.StackFrame
import AurorOS.Interrupts.Frames
import AurorOS.Interrupts.LongFrames
import AurorOS.Interrupts.Controllers
import AurorOS.Interrupts.Table
import AurorOS.Interrupts.Delivery

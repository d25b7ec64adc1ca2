import Bijou.Library.Continuation
import Bijou.Library.Automaton
import Bijou.Library.Checked
import Bijou.Library.CString
import Bijou.Library.BitField
import Bijou.Library.Pool
import Bijou.Library.Buffer
import Bijou.Library.LittleEndian
import Bijou.Library.Rounding
import Bijou.Library.Transfer
import Bijou.Library.TextMemory
import Bijou.Library.Runs
import Bijou.Library.Simulation
import Bijou.Library.CallStack
import Bijou.Library.Postconditions
import Bijou.Library.Agreement
import Bijou.Library.Growth
import Bijou.Library.Flow
import Bijou.Values
import Bijou.Numbers
import Bijou.Opcodes
import Bijou.Blocks
import Bijou.Machine
import Bijou.MachineRules
import Bijou.Control
import Bijou.Dispatch
import Bijou.Access
import Bijou.Selection
import Bijou.Operators
import Bijou.Effects
import Bijou.Calls
import Bijou.Recursion
import Bijou.Scanner
import Bijou.Compiler
import Bijou.Parser
import Bijou.CompilerRules
import Bijou.Termination
import Bijou.Buffers
import Bijou.Comments
import Bijou.Constants
import Bijou.Words
import Bijou.Operands
import Bijou.CodeText
import Bijou.LineOperands
import Bijou.CodeSection
import Bijou.Programs
import Bijou.BufferedWords
import Bijou.Assembly
import Bijou.Dump
import Bijou.Debug
import Bijou.Escapes
import Bijou.Load
import Bijou.LoadRules
import Bijou.Truncation
import Bijou.Reload
import Bijou.Overlap
import Bijou.RoundTrip
import Bijou.Assembled
import Bijou.Rebuild
import Bijou.Reproducible
import Bijou.Survival
import Bijou.Skeleton
import Bijou.Registers
import Bijou.FileFormat
import Bijou.StringDump
import Bijou.WriterStatus
import Bijou.Disassembly
import Bijou.Equality
import Bijou.ActiveMember
import Bijou.Strings
import Bijou.IndexOf
import Bijou.EmptyString
import Bijou.Children
import Bijou.Fields
import Bijou.External
import Bijou.Printing
import Bijou.Listing
import Bijou.Layout
import Bijou.InPlace
import Bijou.Numerals
import Bijou.Safety
import Bijou.Bounded
import Bijou.Locals
import Bijou.Alike
import Bijou.Preservation
import Bijou.SafeFiles
import Bijou.Initialised
import Bijou.FunctionValues
import Bijou.Vectors
import Bijou.Commands
import Bijou.Toolchain

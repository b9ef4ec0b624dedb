import FencedTape.CommandLine.Folder
import FencedTape.CommandLine.Job
import FencedTape.CommandLine.Options
import FencedTape.Debugger
import FencedTape.Debugger.Request
import FencedTape.Instr
import FencedTape.Listing
import FencedTape.Listing.Line
import FencedTape.Machine
import FencedTape.Main
import FencedTape.Memory
import FencedTape.Program
import FencedTape.Reservation
import FencedTape.Shell.Command
import FencedTape.Shell.Console
import FencedTape.Shell.Session
import FencedTape.Stream
import FencedTape.Tape
import FencedTape.Text.Blank
import FencedTape.Text.Bytes
import FencedTape.Text.Numeral
import FencedTape.Proofs.BigStep
import FencedTape.Proofs.Breakpoints
import FencedTape.Proofs.Transparency
import FencedTape.Proofs.Text
import FencedTape.Proofs.RoundTrip
import FencedTape.Proofs.Grammar
import FencedTape.Proofs.Scan
import FencedTape.Proofs.Reservation
import FencedTape.Proofs.Stream
import FencedTape.Proofs.Resumption
import FencedTape.Proofs.Layout
import FencedTape.Proofs.LargerTape
import FencedTape.Proofs.PauseMark
import FencedTape.Proofs.Lines
import FencedTape.Proofs.Dialogue
import FencedTape.Proofs.MoveLoop
import FencedTape.Proofs.Pairing
import FencedTape.Proofs.Ledger
import FencedTape.Proofs.NarrowConsole
import FencedTape.Proofs.Landing
import FencedTape.Proofs.Unmatched
import FencedTape.Proofs.Composition
import FencedTape.Proofs.Controls
import FencedTape.Proofs.Tail
import FencedTape.Proofs.Nesting
import FencedTape.Proofs.Overflow
import FencedTape.Proofs.CommandLanguage
import FencedTape.Proofs.Displacement
import FencedTape.Proofs.LineEndings

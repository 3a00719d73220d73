import SlotScript.Text.Blank
import SlotScript.Text.Edit
import SlotScript.Syntax.Nesting
import SlotScript.Syntax.Split
import SlotScript.Number.Binary64
import SlotScript.Number.Literal
import SlotScript.Number.Shortest
import SlotScript.Number.Format
import SlotScript.Slot
import SlotScript.Value
import SlotScript.Error
import SlotScript.Bindings
import SlotScript.OrderedMap
import SlotScript.Store
import SlotScript.Config
import SlotScript.Syntax.Term
import SlotScript.Store.Total
import SlotScript.Store.Reach
import SlotScript.Store.Weight
import SlotScript.Machine
import SlotScript.Machine.Reclaim
import SlotScript.Machine.Load
import SlotScript.Tree
import SlotScript.Machine.Render
import SlotScript.Machine.Action
import SlotScript.Machine.Eval
import SlotScript.Vocabulary.Console
import SlotScript.Vocabulary.Workbench
import SlotScript.Text.Range
import SlotScript.Text.Hidden
import SlotScript.Text.Quoted
import SlotScript.Value.Detail
import SlotScript.Vocabulary
import SlotScript.Session
import SlotScript.FileTree
import SlotScript.Text.Identifier
import SlotScript.Notation.Gap
import SlotScript.Notation.Name
import SlotScript.Notation.Numeral
import SlotScript.Notation.Quoted
import SlotScript.Notation.Attribute
import SlotScript.Notation.Value
import SlotScript.Config.Notation
import SlotScript.Config.File
import SlotScript.CommandLine.Verbosity
import SlotScript.CommandLine.Arguments
import SlotScript.CommandLine
import SlotScript.Main
import SlotScript.Proofs.Store.WellFormed
import SlotScript.Proofs.Machine.Releases
import SlotScript.Proofs.Machine.Run
import SlotScript.Proofs.Machine.Evaluation
import SlotScript.Proofs.Machine.Reclamation
import SlotScript.Proofs.Store.Refinement
import SlotScript.Proofs.Console.Moves
import SlotScript.Proofs.Console.Tidiness
import SlotScript.Proofs.Console.Handles
import SlotScript.Proofs.Console.Leaks
import SlotScript.Proofs.Number.Binary64
import SlotScript.Proofs.Number.RoundTrip
import SlotScript.Proofs.Syntax.RoundTrip
import SlotScript.Proofs.Machine.RoundTrip
import SlotScript.Proofs.Machine.Acceptance
import SlotScript.Proofs.Machine.Ownership
import SlotScript.Proofs.Console.Ownership
import SlotScript.Proofs.Console.Sessions
import SlotScript.Proofs.Machine.Mirror
import SlotScript.Proofs.Console.Mirror
import SlotScript.Proofs.Console.Invisibility
import SlotScript.Proofs.Store.Counters
import SlotScript.Proofs.Machine.Statements
import SlotScript.Proofs.Machine.Levels
import SlotScript.Proofs.Machine.Rest
import SlotScript.Proofs.Console.Composition
import SlotScript.Proofs.Machine.Contracts
import SlotScript.Proofs.Machine.Depth
import SlotScript.Proofs.Machine.Turning
import SlotScript.Proofs.Console.Limits
import SlotScript.Proofs.Syntax.Cutting
import SlotScript.Proofs.Syntax.Groups
import SlotScript.Proofs.Machine.Groups
import SlotScript.Proofs.Machine.Reading
import SlotScript.Proofs.Console.Isolation
import SlotScript.Proofs.Machine.Payloads
import SlotScript.Proofs.Machine.Custody
import SlotScript.Proofs.Store.Search
import SlotScript.Proofs.Machine.Shedding
import SlotScript.Proofs.Console.Rebinding
import SlotScript.Proofs.Store.Texts
import SlotScript.Proofs.Machine.Texts
import SlotScript.Proofs.Console.Texts
import SlotScript.Proofs.Store.Journals
import SlotScript.Proofs.Machine.Rendering
import SlotScript.Proofs.Syntax.Joining
import SlotScript.Proofs.Number.Rounding
import SlotScript.Proofs.Number.Literals
import SlotScript.Proofs.Number.Reading
import SlotScript.Proofs.Machine.Words
import SlotScript.Proofs.Table.History
import SlotScript.Proofs.Text.Occurrences
import SlotScript.Proofs.Text.Bytes

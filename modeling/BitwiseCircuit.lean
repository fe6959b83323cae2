import BitwiseCircuit.Command.Invocation
import BitwiseCircuit.Command.Session
import BitwiseCircuit.Evaluation
import BitwiseCircuit.Fault
import BitwiseCircuit.Gate
import BitwiseCircuit.Main
import BitwiseCircuit.Netlist
import BitwiseCircuit.Netlist.Fault
import BitwiseCircuit.Netlist.OfSchematic
import BitwiseCircuit.Netlist.Resolve
import BitwiseCircuit.Netlist.Search
import BitwiseCircuit.Notice
import BitwiseCircuit.Operator
import BitwiseCircuit.Position
import BitwiseCircuit.Proofs.Command.Arguments
import BitwiseCircuit.Proofs.Command.Course
import BitwiseCircuit.Proofs.Command.Modes
import BitwiseCircuit.Proofs.Command.Readback
import BitwiseCircuit.Proofs.Command.Verbosity
import BitwiseCircuit.Proofs.Evaluation.Culprits
import BitwiseCircuit.Proofs.Evaluation.Equations
import BitwiseCircuit.Proofs.Evaluation.FirstMentions
import BitwiseCircuit.Proofs.Evaluation.Layout
import BitwiseCircuit.Proofs.Evaluation.Literals
import BitwiseCircuit.Proofs.Evaluation.Quotation
import BitwiseCircuit.Proofs.Except
import BitwiseCircuit.Proofs.Gate.Evaluation
import BitwiseCircuit.Proofs.Gate.Mapping
import BitwiseCircuit.Proofs.Netlist.Acceptance
import BitwiseCircuit.Proofs.Netlist.Coherence
import BitwiseCircuit.Proofs.Netlist.Construction
import BitwiseCircuit.Proofs.Netlist.Denotation
import BitwiseCircuit.Proofs.Netlist.Dependencies
import BitwiseCircuit.Proofs.Netlist.Extension
import BitwiseCircuit.Proofs.Netlist.Mentions
import BitwiseCircuit.Proofs.Netlist.Names
import BitwiseCircuit.Proofs.Netlist.Places
import BitwiseCircuit.Proofs.Netlist.Refusal
import BitwiseCircuit.Proofs.Netlist.Table
import BitwiseCircuit.Proofs.Netlist.Wiring
import BitwiseCircuit.Proofs.Notice.Alignment
import BitwiseCircuit.Proofs.Notice.Rows
import BitwiseCircuit.Proofs.Resolution.Consistency
import BitwiseCircuit.Proofs.Resolution.Cycle
import BitwiseCircuit.Proofs.Resolution.History
import BitwiseCircuit.Proofs.Resolution.Independence
import BitwiseCircuit.Proofs.Resolution.Laziness
import BitwiseCircuit.Proofs.Resolution.Listing
import BitwiseCircuit.Proofs.Resolution.Names
import BitwiseCircuit.Proofs.Resolution.Outcome
import BitwiseCircuit.Proofs.Resolution.Pointwise
import BitwiseCircuit.Proofs.Resolution.Report
import BitwiseCircuit.Proofs.Resolution.Selection
import BitwiseCircuit.Proofs.Resolution.Stack
import BitwiseCircuit.Proofs.Resolution.Statements
import BitwiseCircuit.Proofs.Resolution.Termination
import BitwiseCircuit.Proofs.Schematic.FirstMentions
import BitwiseCircuit.Proofs.Schematic.Mentions
import BitwiseCircuit.Proofs.Schematic.Outline
import BitwiseCircuit.Proofs.Schematic.Places
import BitwiseCircuit.Proofs.Schematic.Spelling
import BitwiseCircuit.Proofs.Schematic.Transitions
import BitwiseCircuit.Proofs.Schematic.ViablePrefix
import BitwiseCircuit.Proofs.Search.Expansion
import BitwiseCircuit.Proofs.Search.FirstFault
import BitwiseCircuit.Proofs.Search.Recursion
import BitwiseCircuit.Proofs.Search.Relabelling
import BitwiseCircuit.Proofs.Search.Simulation
import BitwiseCircuit.Proofs.Search.Visits
import BitwiseCircuit.Proofs.Text.Counting
import BitwiseCircuit.Proofs.Text.Coverage
import BitwiseCircuit.Proofs.Text.Places
import BitwiseCircuit.Proofs.Text.Rows
import BitwiseCircuit.Proofs.Text.Runs
import BitwiseCircuit.Proofs.Token.Coverage
import BitwiseCircuit.Proofs.Token.Display
import BitwiseCircuit.Proofs.Token.Lines
import BitwiseCircuit.Proofs.Token.Scanning
import BitwiseCircuit.Proofs.Token.Standard
import BitwiseCircuit.Proofs.Token.Verdict
import BitwiseCircuit.Proofs.Word.Arithmetic
import BitwiseCircuit.Proofs.Word.Decimal
import BitwiseCircuit.Proofs.Word.Range
import BitwiseCircuit.Schematic
import BitwiseCircuit.Schematic.Fault
import BitwiseCircuit.Schematic.Grammar
import BitwiseCircuit.Schematic.Tree
import BitwiseCircuit.Text.Blank
import BitwiseCircuit.Text.Lines
import BitwiseCircuit.Token
import BitwiseCircuit.Token.Fault
import BitwiseCircuit.Token.Lexicon
import BitwiseCircuit.Token.Scan
import BitwiseCircuit.Word

import Bracket.Main
import Bracket.Proofs.Steps
import Bracket.Proofs.StepsCorrect
import Bracket.Proofs.Changes
import Bracket.Proofs.Loops
import Bracket.Proofs.Frames
import Bracket.Proofs.Agree
import Bracket.Proofs.Flat
import Bracket.Proofs.FlatCorrect
import Bracket.Proofs.Grammar
import Bracket.Proofs.GrammarCorrect
import Bracket.Proofs.Limits
import Bracket.Proofs.Precedence
import Bracket.Proofs.PrecedenceCorrect
import Bracket.Proofs.Slots
import Bracket.Proofs.WellFormed
import Bracket.Proofs.Spelling
import Bracket.Proofs.Render
import Bracket.Proofs.Composition
import Bracket.Proofs.Widening
import Bracket.Proofs.Writes
import Bracket.Proofs.Code
import Bracket.Proofs.CodeCorrect
import Bracket.Proofs.Bindings
import Bracket.Proofs.Splicing
import Bracket.Proofs.Ensures
import Bracket.Proofs.Depth
import Bracket.Proofs.Termination
import Bracket.Proofs.Nesting
import Bracket.Proofs.Operators
import Bracket.Proofs.Schedule
import Bracket.Proofs.ScheduleCorrect
import Bracket.Proofs.Contents
import Bracket.Proofs.Positions
import Bracket.Proofs.Effects
import Bracket.Proofs.Sessions
import Bracket.Proofs.Breaks
import Bracket.Proofs.Rounds
import Bracket.Proofs.Chunks
import Bracket.Proofs.Order
import Bracket.Proofs.Chains
import Bracket.Proofs.Sequencing
import Bracket.Proofs.Assignments
import Bracket.Proofs.Lockstep
import Bracket.Proofs.Enclosing
import Bracket.Proofs.ReadBack
import Bracket.Proofs.Readings
import Bracket.Proofs.Progress
import Bracket.Proofs.WordSearch
import Bracket.Proofs.Parts

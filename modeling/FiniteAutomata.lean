import FiniteAutomata.Ordered
import FiniteAutomata.SortedSet
import FiniteAutomata.Sublists
import FiniteAutomata.Written
import FiniteAutomata.LogLevel
import FiniteAutomata.Failure
import FiniteAutomata.Condition
import FiniteAutomata.Table
import FiniteAutomata.Worklist
import FiniteAutomata.Event
import FiniteAutomata.Automaton.Basic
import FiniteAutomata.Automaton.Edit
import FiniteAutomata.SpontaneousMoves
import FiniteAutomata.Automaton.Evaluation
import FiniteAutomata.SubsetConstruction
import FiniteAutomata.LanguageComparison
import FiniteAutomata.Settings.Value
import FiniteAutomata.Toml.Scalar
import FiniteAutomata.Toml.Quoted
import FiniteAutomata.Toml.Tables
import FiniteAutomata.Toml.Document
import FiniteAutomata.Settings.Basic
import FiniteAutomata.Settings.Read
import FiniteAutomata.Declaration.Token
import FiniteAutomata.Declaration.Scan
import FiniteAutomata.Declaration.SyntaxFault
import FiniteAutomata.Declaration.Reader
import FiniteAutomata.Declaration.Grammar.Basic
import FiniteAutomata.Declaration.Grammar.Attributes
import FiniteAutomata.Declaration.Grammar.Types
import FiniteAutomata.Declaration.Grammar.Patterns
import FiniteAutomata.Declaration.Grammar.Expressions
import FiniteAutomata.Declaration.Grammar.Statements
import FiniteAutomata.Declaration.Basic
import FiniteAutomata.Declaration.Read
import FiniteAutomata.Declaration.Expansion
import FiniteAutomata.Demonstration
import FiniteAutomata.Main
import FiniteAutomata.Proofs.QueueRuns
import FiniteAutomata.Proofs.SpontaneousReach
import FiniteAutomata.Proofs.TableContents
import FiniteAutomata.Proofs.EditInvariants
import FiniteAutomata.Proofs.Frontiers
import FiniteAutomata.Proofs.BoundedConversion
import FiniteAutomata.Proofs.BuiltAutomata
import FiniteAutomata.Proofs.ReachableSubsets
import FiniteAutomata.Proofs.Simulation
import FiniteAutomata.Proofs.ShortWords
import FiniteAutomata.Proofs.ResidualLanguages
import FiniteAutomata.Proofs.EditOutcomes
import FiniteAutomata.Proofs.BreadthFirst
import FiniteAutomata.Proofs.Removals
import FiniteAutomata.Proofs.InsertionOrder
import FiniteAutomata.Proofs.LeastDisagreement
import FiniteAutomata.Proofs.Renaming
import FiniteAutomata.Proofs.RepeatedConversion
import FiniteAutomata.Proofs.TableHistory
import FiniteAutomata.Proofs.Assembly
import FiniteAutomata.Proofs.ForeignSymbols
import FiniteAutomata.Proofs.CascadingRemovals
import FiniteAutomata.Proofs.ConversionSteps
import FiniteAutomata.Proofs.AvoidingPaths
import FiniteAutomata.Proofs.DeterministicRuns
import FiniteAutomata.Proofs.SetOrder
import FiniteAutomata.Proofs.UndoneEdits
import FiniteAutomata.Proofs.UnmetStates
import FiniteAutomata.Proofs.RenamedStates
import FiniteAutomata.Proofs.Additions
import FiniteAutomata.Proofs.StoppedConversion
import FiniteAutomata.Proofs.ClosureSteps
import FiniteAutomata.Proofs.RunningConstruction
import FiniteAutomata.Proofs.ConversionLog
import FiniteAutomata.Proofs.PlainTexts

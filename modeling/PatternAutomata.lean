import PatternAutomata.Automaton.Bounded
import PatternAutomata.Grammar.Cursor
import PatternAutomata.Main
import PatternAutomata.Pattern
import PatternAutomata.Proofs.Automaton.Path
import PatternAutomata.Proofs.Automaton.WellFormed
import PatternAutomata.Report
import PatternAutomata.Subset.Dfa
import PatternAutomata.Subset.Worklist
import PatternAutomata.Proofs.Automaton.Joining
import PatternAutomata.Proofs.Automaton.Branching
import PatternAutomata.Proofs.Automaton.Iteration
import PatternAutomata.Proofs.Grammar.Fragment
import PatternAutomata.Proofs.Grammar.Compilation
import PatternAutomata.Proofs.Subset.Exploration
import PatternAutomata.Proofs.Subset.Numbering
import PatternAutomata.Proofs.Obtainable
import PatternAutomata.Proofs.Subset.Simulation
import PatternAutomata.Proofs.Automaton.Renumbering
import PatternAutomata.Proofs.Automaton.Alternation
import PatternAutomata.Proofs.Grammar.Scanner
import PatternAutomata.Proofs.Grammar.Leftmost
import PatternAutomata.Proofs.Subset.Discovery
import PatternAutomata.Proofs.Subset.Canonical
import PatternAutomata.Proofs.Workspace
import PatternAutomata.Proofs.Automaton.Trim
import PatternAutomata.Proofs.Grammar.Trim
import PatternAutomata.Proofs.Subset.Trim
import PatternAutomata.Grammar.Descent
import PatternAutomata.Proofs.Grammar.Descent
import PatternAutomata.Proofs.Grammar.Session
import PatternAutomata.Proofs.Faultless
import PatternAutomata.Proofs.Automaton.Determinism
import PatternAutomata.Proofs.Automaton.Layout
import PatternAutomata.Proofs.Subset.Proper
import PatternAutomata.Proofs.Subset.Comparison
import PatternAutomata.Proofs.Grammar.Layout
import PatternAutomata.Proofs.Subset.Bound
import PatternAutomata.Proofs.Automaton.EpsilonNFA
import PatternAutomata.Proofs.Automaton.Refusal
import PatternAutomata.Proofs.Grammar.NestLimit
import PatternAutomata.Proofs.Automaton.Composition
import PatternAutomata.Proofs.Subset.Renumbering
import PatternAutomata.Proofs.Automaton.DeterministicRun
import PatternAutomata.Proofs.Automaton.Associativity
import PatternAutomata.Proofs.Subset.Reachable
import PatternAutomata.Proofs.Grammar.Stars
import PatternAutomata.Proofs.Automaton.BuildingOrder
import PatternAutomata.Proofs.Automaton.Search

import FiniteAutomata.Settings.Read
import FiniteAutomata.SubsetConstruction

/-!
The program's demonstration: a small ε-NFA is converted as the settings ask, and the result is
described in a log. What is printed is a function of the settings file and of the environment.
-/
namespace FiniteAutomata.Demonstration
open Settings

/-- Four states over six letters, accepting in the last, which is also reached spontaneously. -/
def exampleNfa : EpsilonNFA Nat Char :=
  Automaton.afterAll (.withInputs ['a', 'm', 'n', 'o', 't', 'u'])
    [.addState 0, .addState 1, .addState 2, .addState 3, .setInitial 0, .addFinal 3,
     .addTransition (.labeled 0 'a') 1, .addTransition (.labeled 1 'u') 2,
     .addTransition (.labeled 2 't') 3, .addTransition (.labeled 3 'o') 2,
     .addTransition (.labeled 2 'm') 0, .addTransition (.labeled 0 'a') 2,
     .addTransition (.labeled 2 'n') 3, .addTransition (.spontaneous 0) 3]

def exampleWord : List Char := "automaton".toList

structure LogLine where
  level : LogLevel
  /-- The activity during which the line was written. -/
  span : Option String := none
  target : String
  message : String
deriving DecidableEq, Repr

def LogLine.text (threshold : LogLevel) (line : LogLine) : String :=
  let span := if threshold.shows .debug then line.span else none
  line.level.tag ++ " " ++ (span.map (· ++ ": ")).getD "" ++ line.target ++ ": " ++ line.message

def conversionLine (event : Event (SortedSet Nat)) : LogLine :=
  { level := event.level
    span := some "convert_to_dfa"
    target := "nautomaton_lib::automaton::determinize"
    message := event.message }

def resultLine (message : String) : LogLine :=
  { level := .info, target := "nautomaton_playground", message }

open Written in
def describe (nfa : EpsilonNFA Nat Char) (dfa : DFA (SortedSet Nat) Char) : List LogLine :=
  [resultLine ("NFA states: " ++ literal nfa.states),
   resultLine ("DFA initial state: " ++ literalOption dfa.initial),
   resultLine ("DFA final states: " ++ literal dfa.finals)]
  ++ dfa.states.toList.map (fun q => resultLine ("DFA state " ++ plain q))
  ++ dfa.transitions.map (fun t =>
    resultLine (t.condition.plain ++ " -> " ++ plain t.destination))
  ++ [resultLine ("NFA on \"automaton\": " ++ literal (nfa.evaluate exampleWord)),
      resultLine ("DFA on \"automaton\": " ++ literal (dfa.evaluate exampleWord))]

structure Outcome where
  lines : List String
  error : Option String
deriving DecidableEq, Repr

def Outcome.exitCode (o : Outcome) : Nat := if o.error.isSome then 1 else 0

/-- The level from the environment goes before that of the settings, and asks for a log even if the
settings do not. Faults of the settings file go before an unknown level. -/
def run (file : Option File) (environment : Option String) : Outcome :=
  match ConversionSettings.ofOptionalFile file with
  | .error e => ⟨[], some e.message⟩
  | .ok settings =>
    match (environment.map LogLevel.parse).getD (.ok settings.log.level) with
    | .error e => ⟨[], some e.message⟩
    | .ok threshold =>
      let (result, events) := exampleNfa.convertWithin settings.maxStates
      let conversion := events.map conversionLine
      let (lines, error) := match result with
        | .ok dfa => (conversion ++ describe exampleNfa dfa, none)
        | .error e => (conversion, some e.message)
      let isLogged := settings.log.enabled || environment.isSome
      let shown := if isLogged then lines.filter (threshold.shows ·.level) else []
      ⟨shown.map (·.text threshold), error⟩

end FiniteAutomata.Demonstration

import FiniteAutomata.Automaton.Evaluation

/-!
Comparing two recognizers on all short words. Words are tried in shortlex order over the inputs of
the first recognizer: shorter words first, and of one length the one that is less at the first
difference.
-/
namespace FiniteAutomata

structure Recognizer (S : Type) [Ordered S] where
  inputs : SortedSet S
  accepts : List S → Bool

namespace Automaton
variable {kind : Kind} [Ordered Q] [Ordered S]

def recognizer (a : Automaton kind Q S) : Recognizer S := ⟨a.inputs, a.accepts⟩

def closedRecognizer (a : Automaton kind Q S) : Recognizer S := ⟨a.inputs, a.acceptsClosed⟩

end Automaton

/-- The words of one length, in lexicographic order if the alphabet is ascending. -/
def wordsOfLength (alphabet : List S) : Nat → List (List S)
  | 0 => [[]]
  | n + 1 => alphabet.flatMap fun s => (wordsOfLength alphabet n).map (s :: ·)

def firstWord (alphabet : List S) (hit : List S → Bool) (length : Nat) : Nat → Option (List S)
  | 0 => none
  | count + 1 =>
    match (wordsOfLength alphabet length).find? hit with
    | some word => some word
    | none => firstWord alphabet hit (length + 1) count

namespace Recognizer
variable [Ordered S]

/-- The first word shorter than `bound` on which the two differ, and whether `a` accepts it. -/
def difference (a b : Recognizer S) (bound : Nat) : Option (List S × Bool) :=
  (firstWord a.inputs.toList (fun word => a.accepts word != b.accepts word) 0 bound).map
    fun word => (word, a.accepts word)

def sameLanguage (a b : Recognizer S) (bound : Nat) : Bool :=
  a.inputs = b.inputs && (a.difference b bound).isNone

inductive Disagreement (S : Type) where
  | alphabets
  | languages (word : List S) (acceptedByFirst : Bool)
deriving DecidableEq, Repr

def agree (a b : Recognizer S) (bound : Nat) : Except (Disagreement S) Unit :=
  if a.inputs ≠ b.inputs then .error .alphabets
  else match a.difference b bound with
    | some (word, acceptedByFirst) => .error (.languages word acceptedByFirst)
    | none => .ok ()

def Disagreement.message [Written S] : Disagreement S → String
  | .alphabets => "Alphabets are not the same"
  | .languages word acceptedByFirst =>
    let (accepting, rejecting) := if acceptedByFirst then ("a", "b") else ("b", "a")
    Written.literalWord word ++ " is accepted by automaton `" ++ accepting
      ++ "` but not by automaton `" ++ rejecting ++ "`. Thus their languages are not equal."

end Recognizer
end FiniteAutomata

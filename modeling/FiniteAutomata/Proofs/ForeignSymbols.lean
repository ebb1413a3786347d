import FiniteAutomata.Proofs.LeastDisagreement
import FiniteAutomata.Proofs.Paths

/-!
Comparing recognizers whose inputs differ. A built automaton accepts only words over its own inputs,
and the search for a difference tries only words over the inputs of the first recognizer. So it
passes over the words with other symbols that the second one accepts, and over no others; trying
both orders passes over none.
-/
namespace FiniteAutomata

namespace Recognizer

/-- A built automaton, read without its spontaneous moves or, unless it is a DFA, with them. -/
inductive Built {S : Type} [Ordered S] : Recognizer S → Prop where
  | plain {kind : Kind} {Q : Type} [Ordered Q] {a : Automaton kind Q S} (built : a.Built) :
      Built a.recognizer
  | closed {kind : Kind} {Q : Type} [Ordered Q] {a : Automaton kind Q S}
      (nondeterministic : kind ≠ .dfa) (built : a.Built) : Built a.closedRecognizer

variable [Ordered S] {a b : Recognizer S} {bound : Nat} {word : List S}

theorem Built.symbols_declared (built : a.Built) (accepted : a.accepts word = true) :
    ∀ s ∈ word, s ∈ a.inputs := by
  cases built with
  | plain built =>
    obtain ⟨q, ends⟩ := Automaton.accepts_iff.mp accepted
    exact Automaton.symbols_declared_of_mem_frontier built.wellFormed.toConsistent
      (Automaton.mem_evaluate.mp ends).1
  | closed _ built =>
    obtain ⟨q, ends⟩ := Automaton.acceptsClosed_iff.mp accepted
    exact Automaton.symbols_declared_of_mem_closedFrontier built.wellFormed.toConsistent
      (Automaton.mem_evaluateClosed.mp ends).1

theorem Built.rejects (built : a.Built) (foreign : ∃ s ∈ word, s ∉ a.inputs) :
    a.accepts word = false := by
  obtain ⟨s, among, undeclared⟩ := foreign
  exact Bool.eq_false_iff.mpr fun accepted =>
    undeclared (built.symbols_declared accepted s among)

structure Separates (a b : Recognizer S) (bound : Nat) (word : List S) : Prop where
  short : word.length < bound
  differs : a.accepts word ≠ b.accepts word

theorem Separates.symm (separates : a.Separates b bound word) : b.Separates a bound word :=
  ⟨separates.short, separates.differs.symm⟩

theorem Separates.accepted (separates : a.Separates b bound word) :
    a.accepts word = true ∨ b.accepts word = true := by
  by_contra rejected
  push Not at rejected
  apply separates.differs
  rw [Bool.eq_false_iff.mpr rejected.1, Bool.eq_false_iff.mpr rejected.2]

theorem Built.separates_iff_of_foreign (built : a.Built) (foreign : ∃ s ∈ word, s ∉ a.inputs) :
    a.Separates b bound word ↔ word.length < bound ∧ b.accepts word = true := by
  have rejected := built.rejects foreign
  constructor
  · intro separates
    have accepted := separates.accepted
    rw [rejected] at accepted
    exact ⟨separates.short, accepted.resolve_left Bool.false_ne_true⟩
  · intro given
    obtain ⟨short, accepted⟩ := given
    refine ⟨short, ?_⟩
    rw [rejected, accepted]
    exact Bool.false_ne_true

theorem difference_sound {accepted : Bool} (found : a.difference b bound = some (word, accepted)) :
    a.Separates b bound word ∧ (∀ s ∈ word, s ∈ a.inputs) ∧ accepted = a.accepts word := by
  obtain ⟨least, named⟩ := difference_eq_some_iff.mp found
  exact ⟨⟨least.short, least.differs⟩, least.declared, named⟩

/-- The search fails exactly if every word it was to find has a symbol it does not try. -/
theorem difference_eq_none_iff_foreign : a.difference b bound = none ↔
    ∀ word, a.Separates b bound word → ∃ s ∈ word, s ∉ a.inputs := by
  rw [difference_eq_none_iff]
  constructor
  · intro agree word separates
    by_contra declared
    push Not at declared
    exact separates.differs (agree word separates.short declared)
  · intro foreign word short declared
    by_contra differs
    obtain ⟨s, among, undeclared⟩ := foreign word ⟨short, differs⟩
    exact undeclared (declared s among)

theorem difference_ne_none_iff_declared : a.difference b bound ≠ none ↔
    ∃ word, a.Separates b bound word ∧ ∀ s ∈ word, s ∈ a.inputs := by
  rw [Ne, difference_eq_none_iff_foreign]
  push Not
  exact .rfl

def FindsDifference (a b : Recognizer S) (bound : Nat) : Prop :=
  (∃ word, a.Separates b bound word ∧ ∀ s ∈ word, s ∈ a.inputs ∨ s ∈ b.inputs) →
    ∃ word accepted, a.difference b bound = some (word, accepted) ∧ a.Separates b bound word

theorem findsDifference_of_ne_none (found : a.difference b bound ≠ none) :
    a.FindsDifference b bound := by
  intro _
  obtain ⟨⟨word, accepted⟩, found⟩ := Option.ne_none_iff_exists'.mp found
  exact ⟨word, accepted, found, (difference_sound found).1⟩

structure DifferenceCoverage (a b : Recognizer S) (bound : Nat) : Prop where
  sound : ∀ word accepted, a.difference b bound = some (word, accepted) →
    a.Separates b bound word ∧ accepted = a.accepts word
  missed : a.difference b bound = none ↔
    ∀ word, a.Separates b bound word → b.accepts word = true ∧ ∃ s ∈ word, s ∉ a.inputs
  finds : a.FindsDifference b bound ↔
    ((∃ word, word.length < bound ∧ b.accepts word = true ∧ ∃ s ∈ word, s ∉ a.inputs) →
      ∃ word, a.Separates b bound word ∧ ∀ s ∈ word, s ∈ a.inputs)
  finds_within : b.inputs ⊆ a.inputs → a.FindsDifference b bound
  either_order : (∃ word, a.Separates b bound word) ↔
    a.difference b bound ≠ none ∨ b.difference a bound ≠ none
  symmetric : a.inputs = b.inputs → (a.difference b bound = none ↔ b.difference a bound = none)

theorem difference_eq_none_iff_accepted (built : a.Built) : a.difference b bound = none ↔
    ∀ word, a.Separates b bound word → b.accepts word = true ∧ ∃ s ∈ word, s ∉ a.inputs := by
  rw [difference_eq_none_iff_foreign]
  refine forall₂_congr fun word separates => ?_
  constructor
  · intro foreign
    exact ⟨((built.separates_iff_of_foreign foreign).mp separates).2, foreign⟩
  · exact And.right

theorem findsDifference_iff (builtA : a.Built) (builtB : b.Built) :
    a.FindsDifference b bound ↔
      ((∃ word, word.length < bound ∧ b.accepts word = true ∧ ∃ s ∈ word, s ∉ a.inputs) →
        ∃ word, a.Separates b bound word ∧ ∀ s ∈ word, s ∈ a.inputs) := by
  constructor
  · intro finds given
    -- the foreign word tells the two apart, so the search finds some word, and only tries others
    obtain ⟨word, short, accepted, foreign⟩ := given
    have separates := (builtA.separates_iff_of_foreign foreign).mpr ⟨short, accepted⟩
    have declared := builtB.symbols_declared accepted
    obtain ⟨other, _, found, _⟩ := finds ⟨word, separates, fun s among => .inr (declared s among)⟩
    obtain ⟨separates, within, _⟩ := difference_sound found
    exact ⟨other, separates, within⟩
  · intro other given
    have found : a.difference b bound ≠ none := by
      obtain ⟨word, separates, _⟩ := given
      rw [difference_ne_none_iff_declared]
      by_cases foreign : ∃ s ∈ word, s ∉ a.inputs
      · obtain ⟨short, accepted⟩ := (builtA.separates_iff_of_foreign foreign).mp separates
        exact other ⟨word, short, accepted, foreign⟩
      · push Not at foreign
        exact ⟨word, separates, foreign⟩
    exact findsDifference_of_ne_none found given

theorem exists_separates_iff (builtA : a.Built) (builtB : b.Built) :
    (∃ word, a.Separates b bound word) ↔
      a.difference b bound ≠ none ∨ b.difference a bound ≠ none := by
  rw [difference_ne_none_iff_declared, difference_ne_none_iff_declared]
  constructor
  · intro given
    obtain ⟨word, separates⟩ := given
    rcases separates.accepted with accepted | accepted
    · exact .inl ⟨word, separates, builtA.symbols_declared accepted⟩
    · exact .inr ⟨word, separates.symm, builtB.symbols_declared accepted⟩
  · intro given
    rcases given with first | second
    · obtain ⟨word, separates, _⟩ := first
      exact ⟨word, separates⟩
    · obtain ⟨word, separates, _⟩ := second
      exact ⟨word, separates.symm⟩

/-- Over different inputs the search may miss a difference, but only one that the swapped search
finds. -/
theorem difference_coverage (builtA : a.Built) (builtB : b.Built) (bound : Nat) :
    a.DifferenceCoverage b bound := by
  constructor
  · intro word accepted found
    obtain ⟨separates, _, named⟩ := difference_sound found
    exact ⟨separates, named⟩
  · exact difference_eq_none_iff_accepted builtA
  · exact findsDifference_iff builtA builtB
  · intro within
    refine (findsDifference_iff builtA builtB).mpr fun given => ?_
    obtain ⟨word, _, accepted, s, among, undeclared⟩ := given
    exact absurd (within s (builtB.symbols_declared accepted s among)) undeclared
  · exact exists_separates_iff builtA builtB
  · intro inputs
    rw [difference_eq_none_iff_foreign, difference_eq_none_iff_foreign, inputs]
    exact ⟨fun missed word separates => missed word separates.symm,
      fun missed word separates => missed word separates.symm⟩

end Recognizer

namespace Automaton

def ofLetter (letter : Char) : DFA Nat Char :=
  afterAll (.withInputs [letter])
    [.addState 0, .addState 1, .setInitial 0, .addFinal 1, .addTransition (.labeled 0 letter) 1]

theorem ofLetter_built (letter : Char) : (ofLetter letter).recognizer.Built :=
  .plain ((Built.withInputs _).afterAll _)

theorem ofLetter_difference :
    let a := (ofLetter 'a').recognizer
    let b := (ofLetter 'b').recognizer
    a.Built ∧ b.Built ∧ a.DifferenceCoverage b 2 ∧ b.accepts ['b'] = true ∧ 'b' ∉ a.inputs ∧
      a.FindsDifference b 2 := by
  intro a b
  have coverage : a.DifferenceCoverage b 2 :=
    Recognizer.difference_coverage (ofLetter_built 'a') (ofLetter_built 'b') 2
  have separates : a.Separates b 2 ['a'] := ⟨by decide, by decide +kernel⟩
  have accepted : a.accepts ['a'] = true := by decide +kernel
  have declared := (ofLetter_built 'a').symbols_declared accepted
  have finds := coverage.finds.mpr fun _ => ⟨['a'], separates, declared⟩
  exact ⟨ofLetter_built 'a', ofLetter_built 'b', coverage, by decide +kernel, by decide +kernel,
    finds⟩

/-- A DFA without states and one that accepts a letter the first does not declare: exactly one of
them accepts this letter, but only the swapped search finds it. -/
theorem foreign_letter_missed :
    let a := (withInputs ['a'] : DFA Nat Char).recognizer
    let b := (ofLetter 'b').recognizer
    a.Built ∧ b.Built ∧ a.Separates b 2 ['b'] ∧ a.difference b 2 = none ∧
      b.difference a 2 = some (['b'], true) ∧ ¬ a.FindsDifference b 2 := by
  intro a b
  have missed : a.difference b 2 = none := by decide +kernel
  have separates : a.Separates b 2 ['b'] := ⟨by decide, by decide +kernel⟩
  have accepted : b.accepts ['b'] = true := by decide +kernel
  have declared := (ofLetter_built 'b').symbols_declared accepted
  refine ⟨.plain (.withInputs _), ofLetter_built 'b', separates, missed, by decide +kernel, ?_⟩
  intro finds
  obtain ⟨_, _, found, _⟩ := finds ⟨['b'], separates, fun s among => .inr (declared s among)⟩
  rw [missed] at found
  cases found

end Automaton
end FiniteAutomata

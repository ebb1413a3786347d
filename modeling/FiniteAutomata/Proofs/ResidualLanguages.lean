import FiniteAutomata.Proofs.Paths
import FiniteAutomata.Proofs.ShortWords
import Mathlib.Computability.MyhillNerode
import Mathlib.Data.Set.Card

/-!
How long a word must be to tell two DFAs apart. What a DFA still accepts from one of its states is a
residual language; the residuals of two DFAs and the empty language, to which every missing
transition leads, are a family that reading a symbol does not leave. Words of growing length tell
more and more members of such a family apart until one length tells no more of them apart than the
one before, and then no length ever does. So words shorter than the number of states decide.
-/
namespace FiniteAutomata
variable {family : Set (Language S)} {l m : Language S} {bound : Nat}

def shorterPart (bound : Nat) (l : Language S) : Language S :=
  {word | word ∈ l ∧ word.length < bound}

theorem mem_shorterPart {word : List S} :
    word ∈ shorterPart bound l ↔ word ∈ l ∧ word.length < bound := .rfl

theorem shorterPart_eq_iff : shorterPart bound l = shorterPart bound m ↔
    ∀ word, word.length < bound → (word ∈ l ↔ word ∈ m) := by
  constructor
  · intro same word short
    have both : word ∈ shorterPart bound l ↔ word ∈ shorterPart bound m := by rw [same]
    simpa [mem_shorterPart, short] using both
  · intro agree
    ext word
    rw [mem_shorterPart, mem_shorterPart]
    exact and_congr_left (agree word)

theorem shorterPart_shorterPart (bound : Nat) (l : Language S) :
    shorterPart bound (shorterPart (bound + 1) l) = shorterPart bound l := by
  rw [shorterPart_eq_iff]
  intro word short
  rw [mem_shorterPart]
  exact and_iff_left (Nat.lt_succ_of_lt short)

/-- A finite family of languages that reading a symbol does not leave. -/
structure ClosedFamily (family : Set (Language S)) : Prop where
  finite : family.Finite
  quotient : ∀ l ∈ family, ∀ s, l.leftQuotient [s] ∈ family

/-- Words of the length `bound` tell no members of the family apart that shorter words do not. -/
def Settled (family : Set (Language S)) (bound : Nat) : Prop :=
  ∀ l ∈ family, ∀ m ∈ family, shorterPart bound l = shorterPart bound m →
    shorterPart (bound + 1) l = shorterPart (bound + 1) m

/-- What one more symbol tells apart, the residuals after the first symbol told apart before. -/
theorem Settled.succ (closed : ClosedFamily family) (settled : Settled family bound) :
    Settled family (bound + 1) := by
  intro l hl m hm same
  rw [shorterPart_eq_iff] at same ⊢
  intro word short
  cases word with
  | nil => exact same [] (Nat.succ_pos bound)
  | cons s rest =>
    have residuals :
        shorterPart bound (l.leftQuotient [s]) = shorterPart bound (m.leftQuotient [s]) := by
      rw [shorterPart_eq_iff]
      intro word short
      exact same (s :: word) (Nat.succ_lt_succ short)
    have more := settled _ (closed.quotient l hl s) _ (closed.quotient m hm s) residuals
    rw [shorterPart_eq_iff] at more
    exact more rest (Nat.lt_of_succ_lt_succ short)

theorem Settled.mono {later : Nat} (closed : ClosedFamily family) (settled : Settled family bound)
    (le : bound ≤ later) : Settled family later := by
  induction later, le using Nat.le_induction with
  | base => exact settled
  | succ later _ ih => exact ih.succ closed

theorem Settled.eq (closed : ClosedFamily family) (settled : Settled family bound)
    (hl : l ∈ family) (hm : m ∈ family) (same : shorterPart bound l = shorterPart bound m) :
    l = m := by
  have always : ∀ later, bound ≤ later → shorterPart later l = shorterPart later m := by
    intro later le
    induction later, le using Nat.le_induction with
    | base => exact same
    | succ later le ih => exact settled.mono closed le l hl m hm ih
  ext word
  have long := always (max bound (word.length + 1)) (Nat.le_max_left _ _)
  exact shorterPart_eq_iff.mp long word (by omega)

/-- How many members of the family words shorter than the bound tell apart. -/
noncomputable def classes (family : Set (Language S)) (bound : Nat) : Nat :=
  (shorterPart bound '' family).ncard

theorem image_shorterPart (family : Set (Language S)) (bound : Nat) :
    shorterPart bound '' (shorterPart (bound + 1) '' family) = shorterPart bound '' family := by
  rw [Set.image_image]
  exact Set.image_congr fun l _ => shorterPart_shorterPart bound l

theorem classes_lt_of_not_settled (finite : family.Finite) (unsettled : ¬ Settled family bound) :
    classes family bound < classes family (bound + 1) := by
  have parts : (shorterPart (bound + 1) '' family).Finite := finite.image _
  have fewer : classes family bound ≤ classes family (bound + 1) := by
    rw [classes, ← image_shorterPart]
    exact Set.ncard_image_le parts
  apply Nat.lt_of_le_of_ne fewer
  intro same
  -- as many classes as before: the longer parts are determined by the shorter ones
  have injective : Set.InjOn (shorterPart bound) (shorterPart (bound + 1) '' family) := by
    apply Set.injOn_of_ncard_image_eq _ parts
    rw [image_shorterPart]
    exact same
  apply unsettled
  intro l hl m hm equal
  apply injective (Set.mem_image_of_mem _ hl) (Set.mem_image_of_mem _ hm)
  rw [shorterPart_shorterPart, shorterPart_shorterPart, equal]

theorem classes_of_unsettled (finite : family.Finite) (inhabited : family.Nonempty)
    (unsettled : ∀ k < bound, ¬ Settled family k) : bound < classes family bound := by
  induction bound with
  | zero => exact (Set.ncard_pos (finite.image _)).mpr (inhabited.image _)
  | succ k ih =>
    have before := ih fun j lt => unsettled j (Nat.lt_succ_of_lt lt)
    have more := classes_lt_of_not_settled finite (unsettled k (Nat.lt_succ_self k))
    omega

/-- Members of a closed family are equal if no word tells them apart that is shorter than the number
of the other members. -/
theorem ClosedFamily.eq (closed : ClosedFamily family) (small : family.ncard ≤ bound + 1)
    (hl : l ∈ family) (hm : m ∈ family) (same : shorterPart bound l = shorterPart bound m) :
    l = m := by
  by_contra differ
  have unsettled : ∀ k < bound + 1, ¬ Settled family k := fun k lt settled =>
    differ ((settled.mono closed (Nat.le_of_lt_succ lt)).eq closed hl hm same)
  have many := classes_of_unsettled closed.finite ⟨l, hl⟩ unsettled
  have few : classes family (bound + 1) ≤ family.ncard := Set.ncard_image_le closed.finite
  omega

theorem ClosedFamily.union {other : Set (Language S)} (first : ClosedFamily family)
    (second : ClosedFamily other) : ClosedFamily (family ∪ other) where
  finite := first.finite.union second.finite
  quotient := fun l member s =>
    member.imp (fun here => first.quotient l here s) fun there => second.quotient l there s

namespace Automaton
variable [Ordered Q] [Ordered R] [Ordered S] {a : DFA Q S} {b : DFA R S} {q : Q}
  {word : List S}

def residual (d : DFA Q S) (q : Q) : Language S :=
  {word | ∃ r ∈ d.finals, word.foldlM d.successor? q = some r}

theorem mem_residual : word ∈ a.residual q ↔
    ∃ r ∈ a.finals, word.foldlM a.successor? q = some r := .rfl

theorem leftQuotient_residual (d : DFA Q S) (q : Q) (s : S) :
    (d.residual q).leftQuotient [s] = ((d.successor? q s).map d.residual).getD 0 := by
  ext word
  rw [Language.mem_leftQuotient, List.singleton_append, mem_residual, List.foldlM_cons]
  cases d.successor? q s with
  | none => simp [Language.notMem_zero]
  | some r => exact .rfl

def language (d : DFA Q S) : Language S := (d.initial.map d.residual).getD 0

theorem mem_language (valid : a.WellFormed) : word ∈ a.language ↔ a.accepts word = true := by
  simp only [accepts_iff, mem_evaluate, mem_frontier_iff valid, stateAfter?, language]
  cases a.initial with
  | none => simp [Language.notMem_zero]
  | some q => simp [mem_residual, and_comm]

/-- The languages that a run can still have before it: that of a state, or the empty one after a
missing transition. -/
def residuals (d : DFA Q S) : Set (Language S) := insert 0 (d.residual '' {q | q ∈ d.states})

theorem residual_step_mem (step : Option Q)
    (declared : ∀ q ∈ step, q ∈ a.states) : (step.map a.residual).getD 0 ∈ a.residuals := by
  cases step with
  | none => exact .inl rfl
  | some q => exact .inr ⟨q, declared q rfl, rfl⟩

theorem language_mem_residuals (valid : a.WellFormed) : a.language ∈ a.residuals :=
  residual_step_mem a.initial valid.initial_declared

theorem residuals_closed (valid : a.WellFormed) : ClosedFamily a.residuals where
  finite := (a.states.toList.finite_toSet.image _).insert _
  quotient := by
    intro l member s
    rcases member with rfl | member
    · exact .inl rfl
    · obtain ⟨q, _, rfl⟩ := member
      rw [leftQuotient_residual]
      apply residual_step_mem
      intro r next
      have listed := (successor?_eq_some_iff valid).mp next
      exact (valid.transitions_declared _ listed).2.2

theorem ncard_image_states {α : Type*} (f : Q → α) (d : DFA Q S) :
    (f '' {q | q ∈ d.states}).ncard ≤ d.stateCount := by
  have listed : {q | q ∈ d.states} = (d.states.toList.toFinset : Set Q) := by
    ext q
    simp [SortedSet.mem_def]
  have counted : {q | q ∈ d.states}.ncard = d.stateCount := by
    rw [listed, Set.ncard_coe_finset, List.toFinset_card_of_nodup d.states.nodup]
    rfl
  exact counted ▸ Set.ncard_image_le d.states.toList.finite_toSet

/-- The two DFAs share the empty language, so their residuals are at most one more than their
states. -/
theorem ncard_residuals (a : DFA Q S) (b : DFA R S) :
    (a.residuals ∪ b.residuals).ncard ≤ a.stateCount + b.stateCount + 1 := by
  have together := Set.insert_union_distrib (0 : Language S)
    (a.residual '' {q | q ∈ a.states}) (b.residual '' {q | q ∈ b.states})
  unfold residuals
  rw [← together]
  calc (insert 0 (a.residual '' {q | q ∈ a.states} ∪ b.residual '' {q | q ∈ b.states})).ncard
      ≤ (a.residual '' {q | q ∈ a.states} ∪ b.residual '' {q | q ∈ b.states}).ncard + 1 :=
        Set.ncard_insert_le _ _
    _ ≤ (a.residual '' {q | q ∈ a.states}).ncard + (b.residual '' {q | q ∈ b.states}).ncard + 1 :=
        Nat.add_le_add_right (Set.ncard_union_le _ _) 1
    _ ≤ a.stateCount + b.stateCount + 1 :=
        Nat.add_le_add_right
          (Nat.add_le_add (ncard_image_states _ a) (ncard_image_states _ b)) 1

theorem language_eq_of_short (validA : a.WellFormed) (validB : b.WellFormed)
    (enough : a.stateCount + b.stateCount ≤ bound)
    (short : ∀ word, word.length < bound → a.accepts word = b.accepts word) :
    a.language = b.language := by
  have closed := (residuals_closed validA).union (residuals_closed validB)
  have small : (a.residuals ∪ b.residuals).ncard ≤ bound + 1 :=
    (ncard_residuals a b).trans (Nat.succ_le_succ enough)
  have memberA := language_mem_residuals validA
  have memberB := language_mem_residuals validB
  apply closed.eq small (.inl memberA) (.inr memberB)
  rw [shorterPart_eq_iff]
  intro word less
  rw [mem_language validA, mem_language validB, short word less]

theorem symbols_declared_of_accepts (valid : a.WellFormed) (accepted : a.accepts word = true) :
    ∀ s ∈ word, s ∈ a.inputs := by
  obtain ⟨q, ends⟩ := accepts_iff.mp accepted
  exact symbols_declared_of_mem_frontier valid.toConsistent (mem_evaluate.mp ends).1

/-- A comparison up to the number of states of both DFAs settles whether they are the same on words
of every length. -/
theorem sameLanguage_decisive (builtA : a.Built) (builtB : b.Built)
    (enough : a.stateCount + b.stateCount ≤ bound) :
    a.recognizer.sameLanguage b.recognizer bound = true ↔
      a.inputs = b.inputs ∧ ∀ word, a.accepts word = b.accepts word := by
  have validA := builtA.wellFormed
  have validB := builtB.wellFormed
  rw [Recognizer.sameLanguage_iff]
  refine and_congr_right fun (inputs : a.inputs = b.inputs) => ?_
  constructor
  · intro agree
    have short : ∀ word, word.length < bound → a.accepts word = b.accepts word := by
      intro word less
      by_cases declared : ∀ s ∈ word, s ∈ a.inputs
      · exact agree word less declared
      · have rejectedA : a.accepts word = false :=
          Bool.eq_false_iff.mpr fun accepted =>
            declared (symbols_declared_of_accepts validA accepted)
        have rejectedB : b.accepts word = false :=
          Bool.eq_false_iff.mpr fun accepted =>
            declared (inputs ▸ symbols_declared_of_accepts validB accepted)
        rw [rejectedA, rejectedB]
    have same := language_eq_of_short validA validB enough short
    intro word
    rw [Bool.eq_iff_iff, ← mem_language validA, ← mem_language validB, same]
  · intro agree word _ _
    exact agree word

def counting (n : Nat) (accepting : List Nat) : DFA Nat Char :=
  afterAll (.withInputs ['a'])
    ((List.range n).map .addState ++
      (List.range n).map (fun i => .addTransition (.labeled i 'a') ((i + 1) % n)) ++
      [.setInitial 0] ++ accepting.map .addFinal)

theorem counting_built (n : Nat) (accepting : List Nat) : (counting n accepting).Built :=
  (Built.withInputs _).afterAll _

theorem counting_even_decided :
    (counting 2 [0]).Built ∧ (counting 4 [0, 2]).Built ∧
      (counting 2 [0]).stateCount + (counting 4 [0, 2]).stateCount ≤ 6 ∧
      ∀ word, (counting 2 [0]).accepts word = (counting 4 [0, 2]).accepts word := by
  have even := counting_built 2 [0]
  have doubly := counting_built 4 [0, 2]
  have enough : (counting 2 [0]).stateCount + (counting 4 [0, 2]).stateCount ≤ 6 := by
    decide +kernel
  have compared :
      (counting 2 [0]).recognizer.sameLanguage (counting 4 [0, 2]).recognizer 6 = true := by
    decide +kernel
  exact ⟨even, doubly, enough, ((sameLanguage_decisive even doubly enough).mp compared).2⟩

end Automaton
end FiniteAutomata

import FiniteAutomata.Proofs.ShortWords
import Mathlib.Data.List.Shortlex

/-!
Which word a comparison names. The words a search goes through stand in shortlex order, so its first
hit is its least one: a comparison that fails over equal alphabets names the least word on which the
two recognizers differ, and the one that accepts it.
-/
namespace FiniteAutomata

theorem find?_eq_some_iff_least {r : α → α → Prop} [Std.Asymm r] {l : List α} {hit : α → Bool}
    {x : α} (ordered : l.Pairwise r) : l.find? hit = some x ↔
      x ∈ l ∧ hit x = true ∧ ∀ y ∈ l, hit y = true → y ≠ x → r x y := by
  induction l with
  | nil => simp
  | cons z rest ih =>
    obtain ⟨first, ordered⟩ := List.pairwise_cons.mp ordered
    by_cases hits : hit z = true
    · rw [List.find?_cons_of_pos hits, Option.some.injEq]
      constructor
      · rintro rfl
        refine ⟨.head _, hits, ?_⟩
        intro y member _ differs
        exact first y ((List.mem_cons.mp member).resolve_left differs)
      · intro given
        obtain ⟨member, _, least⟩ := given
        by_contra differs
        have before := first x ((List.mem_cons.mp member).resolve_left (Ne.symm differs))
        exact Std.Asymm.asymm _ _ before (least z (.head _) hits differs)
    · rw [List.find?_cons_of_neg hits, ih ordered]
      simp only [List.mem_cons]
      grind

variable [Ordered S] {alphabet : List S} {length : Nat}

/-- The shorter word comes first, and of two of one length the one that is less at the first
difference. -/
abbrev Precedes : List S → List S → Prop := List.Shortlex fun s x => compare s x = .lt

instance asymm_compare : Std.Asymm fun s x : S => compare s x = .lt :=
  ⟨fun s _ less greater => Ordered.lt_irrefl s (Ordered.lt_trans less greater)⟩

theorem wordsOfLength_pairwise (ascending : alphabet.Pairwise fun s x => compare s x = .lt)
    (length : Nat) :
    (wordsOfLength alphabet length).Pairwise (List.Lex fun s x => compare s x = .lt) := by
  induction length with
  | zero => exact List.pairwise_singleton _ _
  | succ length ih =>
    -- words that begin alike are in the order of what follows, others in that of their beginnings
    refine List.pairwise_flatMap.mpr ⟨?_, ?_⟩
    · intro s _
      exact List.pairwise_map.mpr (ih.imp .cons)
    · refine ascending.imp ?_
      intro s x less word listed other also
      obtain ⟨_, _, rfl⟩ := List.mem_map.mp listed
      obtain ⟨_, _, rfl⟩ := List.mem_map.mp also
      exact .rel less

theorem shortWords_pairwise (ascending : alphabet.Pairwise fun s x => compare s x = .lt)
    (length count : Nat) : (shortWords alphabet length count).Pairwise Precedes := by
  refine List.pairwise_flatMap.mpr ⟨?_, ?_⟩
  · intro measure _
    refine (wordsOfLength_pairwise ascending measure).imp_of_mem ?_
    intro word other listed also less
    have measured := (mem_wordsOfLength.mp listed).1
    exact .of_lex (measured.trans (mem_wordsOfLength.mp also).1.symm) less
  · refine (List.pairwise_lt_range' 1).imp ?_
    intro measure longer less word listed other also
    rw [← (mem_wordsOfLength.mp listed).1, ← (mem_wordsOfLength.mp also).1] at less
    exact .of_length_lt less

namespace Recognizer
variable {a b : Recognizer S} {bound : Nat}

/-- The word is the least of those shorter than the bound, over the inputs of `a`, on which the two
differ. -/
structure LeastDisagreement (a b : Recognizer S) (bound : Nat) (word : List S) : Prop where
  short : word.length < bound
  declared : ∀ s ∈ word, s ∈ a.inputs
  differs : a.accepts word ≠ b.accepts word
  least : ∀ other, other.length < bound → (∀ s ∈ other, s ∈ a.inputs) →
    a.accepts other ≠ b.accepts other → other ≠ word → Precedes word other

theorem firstDisagreement_iff {word : List S} :
    firstWord a.inputs.toList (fun word => a.accepts word != b.accepts word) 0 bound = some word ↔
      a.LeastDisagreement b bound word := by
  have ordered := shortWords_pairwise a.inputs.ascending 0 bound
  rw [firstWord_eq_find?, find?_eq_some_iff_least ordered]
  simp only [mem_shortWords, Nat.zero_le, Nat.zero_add, true_and, bne_iff_ne]
  constructor
  · intro found
    obtain ⟨⟨short, declared⟩, differs, least⟩ := found
    exact ⟨short, declared, differs, fun other short declared => least other ⟨short, declared⟩⟩
  · intro given
    exact ⟨⟨given.short, given.declared⟩, given.differs,
      fun other within => given.least other within.1 within.2⟩

theorem difference_eq_some_iff {word : List S} {accepted : Bool} :
    a.difference b bound = some (word, accepted) ↔
      a.LeastDisagreement b bound word ∧ accepted = a.accepts word := by
  simp only [difference, Option.map_eq_some_iff, firstDisagreement_iff, Prod.mk.injEq]
  constructor
  · intro found
    obtain ⟨_, least, rfl, rfl⟩ := found
    exact ⟨least, rfl⟩
  · intro given
    obtain ⟨least, rfl⟩ := given
    exact ⟨word, least, rfl, rfl⟩

theorem agree_eq_ok_iff : a.agree b bound = .ok () ↔ a.sameLanguage b bound = true := by
  unfold agree sameLanguage
  split
  · simp_all
  · cases a.difference b bound <;> simp_all

theorem agree_of_inputs (different : a.inputs ≠ b.inputs) :
    a.agree b bound = .error .alphabets := by
  rw [agree, if_pos different]

theorem agree_of_least {word : List S} (inputs : a.inputs = b.inputs)
    (least : a.LeastDisagreement b bound word) :
    a.agree b bound = .error (.languages word (a.accepts word)) := by
  have found := difference_eq_some_iff.mpr ⟨least, rfl⟩
  simp only [agree, inputs, ne_eq, not_true, if_false, found]

/-- What the three ways to compare `a` with `b` on the words shorter than the bound come to. -/
structure ShortlexComparison [Written S] (a b : Recognizer S) (bound : Nat) : Prop where
  agreement : a.difference b bound = none ↔
    ∀ word, word.length < bound → (∀ s ∈ word, s ∈ a.inputs) → a.accepts word = b.accepts word
  difference : ∀ word accepted, a.difference b bound = some (word, accepted) ↔
    a.LeastDisagreement b bound word ∧ accepted = a.accepts word
  sameLanguage : a.sameLanguage b bound = true ↔
    a.inputs = b.inputs ∧ a.difference b bound = none
  passes : a.agree b bound = .ok () ↔ a.sameLanguage b bound = true
  alphabets_differ : a.inputs ≠ b.inputs →
    (a.agree b bound).mapError Disagreement.message = .error "Alphabets are not the same"
  first_accepts : ∀ word, a.inputs = b.inputs → a.LeastDisagreement b bound word →
    a.accepts word = true → (a.agree b bound).mapError Disagreement.message =
      .error (Written.literalWord word ++ " is accepted by automaton `a` but not by automaton `b`."
        ++ " Thus their languages are not equal.")
  second_accepts : ∀ word, a.inputs = b.inputs → a.LeastDisagreement b bound word →
    b.accepts word = true → (a.agree b bound).mapError Disagreement.message =
      .error (Written.literalWord word ++ " is accepted by automaton `b` but not by automaton `a`."
        ++ " Thus their languages are not equal.")

theorem comparison_shortlex [Written S] (a b : Recognizer S) (bound : Nat) :
    a.ShortlexComparison b bound := by
  constructor
  · exact difference_eq_none_iff
  · intro word accepted
    exact difference_eq_some_iff
  · rw [sameLanguage_iff, difference_eq_none_iff]
  · exact agree_eq_ok_iff
  · intro different
    rw [agree_of_inputs different]
    rfl
  · intro word inputs least accepts
    rw [agree_of_least inputs least, accepts]
    simp [Except.mapError, Disagreement.message, String.append_assoc]
  · intro word inputs least accepts
    have rejects : a.accepts word = false := by
      have differs := least.differs
      rw [accepts] at differs
      exact Bool.eq_false_iff.mpr differs
    rw [agree_of_least inputs least, rejects]
    simp [Except.mapError, Disagreement.message, String.append_assoc]

/-- Both recognizers take `b`, so the least word on which they differ is of two symbols. -/
example : Recognizer.difference ⟨.ofList ['b', 'a'], fun word => word.contains 'b'⟩
    ⟨.ofList ['a', 'b'], fun word => word = ['b'] ∨ word = ['b', 'a']⟩ 3 =
      some (['a', 'b'], true) := by
  decide

end Recognizer
end FiniteAutomata

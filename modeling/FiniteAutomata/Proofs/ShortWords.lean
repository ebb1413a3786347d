import FiniteAutomata.LanguageComparison

/-!
What the search for a distinguishing word goes through. It meets exactly the words over the alphabet
whose length is in its range, so a search without a hit speaks for all of them, and a comparison
succeeds if and only if the two recognizers agree on every short word.
-/
namespace FiniteAutomata
variable {alphabet : List S} {hit : List S → Bool} {word : List S} {length : Nat}

theorem mem_wordsOfLength :
    word ∈ wordsOfLength alphabet length ↔ word.length = length ∧ ∀ s ∈ word, s ∈ alphabet := by
  induction length generalizing word with
  | zero =>
    rw [wordsOfLength, List.mem_singleton]
    constructor
    · rintro rfl
      simp
    · intro given
      exact List.length_eq_zero_iff.mp given.1
  | succ n ih =>
    simp only [wordsOfLength, List.mem_flatMap, List.mem_map]
    constructor
    · intro listed
      obtain ⟨s, declared, rest, among, rfl⟩ := listed
      obtain ⟨measured, others⟩ := ih.mp among
      exact ⟨by rw [List.length_cons, measured], List.forall_mem_cons.mpr ⟨declared, others⟩⟩
    · intro given
      obtain ⟨measured, declared⟩ := given
      cases word with
      | nil => cases measured
      | cons s rest =>
        have shorter : rest.length = n := by simpa using measured
        have others : ∀ x ∈ rest, x ∈ alphabet := fun x member => declared x (.tail _ member)
        exact ⟨s, declared s (.head _), rest, ih.mpr ⟨shorter, others⟩, rfl⟩

def shortWords (alphabet : List S) (length count : Nat) : List (List S) :=
  (List.range' length count).flatMap (wordsOfLength alphabet)

theorem mem_shortWords {count : Nat} : word ∈ shortWords alphabet length count ↔
    length ≤ word.length ∧ word.length < length + count ∧ ∀ s ∈ word, s ∈ alphabet := by
  simp only [shortWords, List.mem_flatMap, List.mem_range'_1, mem_wordsOfLength]
  constructor
  · intro listed
    obtain ⟨_, ⟨least, most⟩, rfl, declared⟩ := listed
    exact ⟨least, most, declared⟩
  · intro given
    obtain ⟨least, most, declared⟩ := given
    exact ⟨_, ⟨least, most⟩, rfl, declared⟩

theorem firstWord_eq_find? (alphabet : List S) (hit : List S → Bool) (length count : Nat) :
    firstWord alphabet hit length count = (shortWords alphabet length count).find? hit := by
  induction count generalizing length with
  | zero => rfl
  | succ count ih =>
    have split : shortWords alphabet length (count + 1) =
        wordsOfLength alphabet length ++ shortWords alphabet (length + 1) count := by
      rw [shortWords, List.range'_succ, List.flatMap_cons]
      rfl
    rw [firstWord, split, List.find?_append, ← ih]
    cases (wordsOfLength alphabet length).find? hit <;> rfl

theorem firstWord_eq_none_iff {count : Nat} : firstWord alphabet hit length count = none ↔
    ∀ word, length ≤ word.length → word.length < length + count → (∀ s ∈ word, s ∈ alphabet) →
      hit word = false := by
  simp only [firstWord_eq_find?, List.find?_eq_none, mem_shortWords, Bool.not_eq_true, and_imp]

namespace Recognizer
variable [Ordered S] {a b : Recognizer S} {bound : Nat}

theorem difference_eq_none_iff : a.difference b bound = none ↔
    ∀ word, word.length < bound → (∀ s ∈ word, s ∈ a.inputs) →
      a.accepts word = b.accepts word := by
  simp only [difference, Option.map_eq_none_iff, firstWord_eq_none_iff, bne_eq_false_iff_eq,
    Nat.zero_le, Nat.zero_add, forall_const]
  exact .rfl

theorem sameLanguage_iff : a.sameLanguage b bound = true ↔ a.inputs = b.inputs ∧
    ∀ word, word.length < bound → (∀ s ∈ word, s ∈ a.inputs) →
      a.accepts word = b.accepts word := by
  rw [sameLanguage, Bool.and_eq_true, decide_eq_true_eq, Option.isNone_iff_eq_none,
    difference_eq_none_iff]

end Recognizer
end FiniteAutomata

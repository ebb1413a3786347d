import FiniteAutomata.Condition
import FiniteAutomata.Proofs.SetOrder
import Std.Data.String.ToInt

/-!
Reading plain texts back. What follows a label in a text is a separator or a closing bracket, and
neither occurs in a number, so a number ends where its digits do and a set where its bracket is
closed. A plain text therefore determines the label, sets of sets included. In the text of a
condition the symbol stands in a known place, whatever character it is, so two different conditions
are written alike only if one of them reads the letter that stands for no symbol in the other.
-/
namespace FiniteAutomata

namespace Written

def isNumeral (c : Char) : Bool := c.isDigit || c = '-'

def Separate (rest : List Char) : Prop := ∀ c ∈ rest.head?, isNumeral c = false

/-- The text of an element can be split off the front of a longer one, and it is not taken for the
end of a set. -/
structure Readable (α : Type) [Written α] : Prop where
  opens : ∀ x : α, ∃ c rest, (plain x).toList = c :: rest ∧ c ≠ '\x7d'
  splits : ∀ (x y : α) (u v : List Char), Separate u → Separate v →
    (plain x).toList ++ u = (plain y).toList ++ v → x = y ∧ u = v

theorem Readable.plain_inj [Written α] (readable : Readable α) {x y : α} :
    plain x = plain y ↔ x = y := by
  constructor
  · intro same
    have nothing : Separate [] := by simp [Separate]
    exact (readable.splits x y [] [] nothing nothing (by rw [same])).1
  · rintro rfl
    rfl

theorem numeral_of_mem_repr {n : Nat} {c : Char} (member : c ∈ n.repr.toList) :
    isNumeral c = true := by
  rw [Nat.repr_eq_ofList_toDigits, String.toList_ofList] at member
  simp [isNumeral, Nat.isDigit_of_mem_toDigits (by decide) (by decide) member]

theorem numeral_of_mem_plain {x : Int} {c : Char} (member : c ∈ (plain x).toList) :
    isNumeral c = true := by
  change c ∈ x.repr.toList at member
  rw [Int.repr_eq_if] at member
  split at member
  · exact numeral_of_mem_repr member
  · rw [String.toList_append, List.mem_append] at member
    rcases member with sign | digit
    · simp at sign
      subst sign
      decide
    · exact numeral_of_mem_repr digit

theorem plain_int_ne_nil (x : Int) : (plain x).toList ≠ [] := by
  change x.repr.toList ≠ []
  rw [Int.repr_eq_if]
  split
  · simp
  · simp

theorem takeWhile_plain (x : Int) {rest : List Char} (separate : Separate rest) :
    ((plain x).toList ++ rest).takeWhile isNumeral = (plain x).toList := by
  have none : rest.takeWhile isNumeral = [] := by
    cases rest with
    | nil => rfl
    | cons c rest => simp [separate c rfl]
  rw [List.takeWhile_append_of_pos fun c member => numeral_of_mem_plain member, none,
    List.append_nil]

theorem readable_int : Readable Int where
  opens x := by
    obtain ⟨c, rest, text⟩ := List.exists_cons_of_ne_nil (plain_int_ne_nil x)
    have numeral : isNumeral c = true := numeral_of_mem_plain (by rw [text]; exact .head _)
    refine ⟨c, rest, text, ?_⟩
    rintro rfl
    revert numeral
    decide
  splits x y u v left right same := by
    have texts := congrArg (List.takeWhile isNumeral) same
    rw [takeWhile_plain x left, takeWhile_plain y right, String.toList_inj] at texts
    obtain rfl : x = y := Int.repr_inj.mp texts
    exact ⟨rfl, List.append_cancel_left same⟩

section Sets
variable [Written α] {x y : α} {l k : List α} {u v : List Char}

def laterElements (l : List α) : List Char := l.flatMap fun x => ',' :: ' ' :: (plain x).toList

def elements : List α → List Char
  | [] => []
  | x :: rest => (plain x).toList ++ laterElements rest

theorem toList_intercalate_plain (l : List α) :
    (", ".intercalate (l.map plain)).toList = elements l := by
  cases l with
  | nil => simp [elements]
  | cons x rest =>
    induction rest generalizing x with
    | nil => simp [elements, laterElements]
    | cons y rest ih =>
      rw [List.map_cons, List.map_cons, String.intercalate_cons_cons, String.toList_append,
        ← List.map_cons, ih]
      simp [elements, laterElements]

theorem separate_laterElements (l : List α) (rest : List Char) :
    Separate (laterElements l ++ '}' :: rest) := by
  cases l <;> simp [Separate, laterElements, isNumeral]

theorem Readable.laterElements_inj (readable : Readable α)
    (same : laterElements l ++ '}' :: u = laterElements k ++ '}' :: v) : l = k ∧ u = v := by
  induction l generalizing k with
  | nil =>
    cases k with
    | nil => exact ⟨rfl, by simpa [laterElements] using same⟩
    | cons y others => simp [laterElements] at same
  | cons x rest ih =>
    cases k with
    | nil => simp [laterElements] at same
    | cons y others =>
      simp only [laterElements, List.flatMap_cons, List.cons_append, List.append_assoc,
        List.cons.injEq, true_and] at same
      obtain ⟨rfl, later⟩ := readable.splits x y _ _ (separate_laterElements rest u)
        (separate_laterElements others v) same
      obtain ⟨rfl, after⟩ := ih later
      exact ⟨rfl, after⟩

theorem Readable.elements_ne_closed (readable : Readable α) (x : α) (rest : List α) :
    elements (x :: rest) ++ '}' :: u ≠ '}' :: v := by
  obtain ⟨c, more, text, differs⟩ := readable.opens x
  rw [elements, text]
  simp [differs]

theorem Readable.elements_inj (readable : Readable α)
    (same : elements l ++ '}' :: u = elements k ++ '}' :: v) : l = k ∧ u = v := by
  cases l with
  | nil =>
    cases k with
    | nil => exact ⟨rfl, by simpa [elements] using same⟩
    | cons y others => exact absurd same.symm (readable.elements_ne_closed y others)
  | cons x rest =>
    cases k with
    | nil => exact absurd same (readable.elements_ne_closed x rest)
    | cons y others =>
      rw [elements, elements, List.append_assoc, List.append_assoc] at same
      obtain ⟨rfl, later⟩ := readable.splits x y _ _ (separate_laterElements rest u)
        (separate_laterElements others v) same
      obtain ⟨rfl, after⟩ := readable.laterElements_inj later
      exact ⟨rfl, after⟩

variable [Ordered α]

theorem toList_plain_set (s : SortedSet α) (rest : List Char) :
    (plain s).toList ++ rest = '{' :: (elements s.toList ++ '}' :: rest) := by
  change (braced (s.toList.map plain)).toList ++ rest = _
  rw [braced, listed, String.toList_append, String.toList_append, toList_intercalate_plain]
  simp

theorem Readable.sortedSet (readable : Readable α) : Readable (SortedSet α) where
  opens s := by
    have text := toList_plain_set s []
    rw [List.append_nil] at text
    exact ⟨_, _, text, by decide⟩
  splits s t u v _ _ same := by
    rw [toList_plain_set, toList_plain_set, List.cons.injEq] at same
    obtain ⟨elements, after⟩ := readable.elements_inj same.2
    exact ⟨SortedSet.toList_inj.mp elements, after⟩

end Sets

instance instNested (α : Type) [Ordered α] [Written α] :
    (depth : Nat) → Written (SortedSet.Nested α depth)
  | 0 => inferInstanceAs (Written α)
  | depth + 1 =>
    let _ := instNested α depth
    inferInstanceAs (Written (SortedSet (SortedSet.Nested α depth)))

theorem Readable.nested [Ordered α] [Written α] (readable : Readable α) (depth : Nat) :
    Readable (SortedSet.Nested α depth) := by
  induction depth with
  | zero => exact readable
  | succ depth ih => exact ih.sortedSet

end Written

namespace Condition
variable [Written Q] {c d : Condition Q Char}

def sign : Condition Q Char → Char
  | .labeled _ s => s
  | .spontaneous _ => 'ε'

theorem toList_plain (c : Condition Q Char) :
    c.plain.toList = '(' :: ((Written.plain c.state).toList ++ [',', ' ', c.sign, ')']) := by
  cases c <;> simp [plain, state, sign, Written.plain]

theorem plain_eq_iff_sign (readable : Written.Readable Q) :
    c.plain = d.plain ↔ c.state = d.state ∧ c.sign = d.sign := by
  rw [← String.toList_inj, toList_plain, toList_plain, List.cons.injEq]
  constructor
  · intro same
    have separate : ∀ x : Char, Written.Separate [',', ' ', x, ')'] := by
      simp [Written.Separate, Written.isNumeral]
    obtain ⟨state, signs⟩ := readable.splits c.state d.state _ _ (separate _) (separate _) same.2
    exact ⟨state, by simpa using signs⟩
  · intro alike
    rw [alike.1, alike.2]
    exact ⟨rfl, rfl⟩

/-- One condition reads nothing; the other reads, in the same state, the letter that stands for it. -/
inductive EpsilonTwins : Condition Q Char → Condition Q Char → Prop where
  | silent_first (q : Q) : EpsilonTwins (.spontaneous q) (.labeled q 'ε')
  | silent_second (q : Q) : EpsilonTwins (.labeled q 'ε') (.spontaneous q)

theorem plain_eq_iff (readable : Written.Readable Q) :
    c.plain = d.plain ↔ c = d ∨ c.EpsilonTwins d := by
  rw [plain_eq_iff_sign readable]
  constructor
  · rintro ⟨states, signs⟩
    cases c with
    | labeled p s =>
      cases d with
      | labeled q x =>
        cases states
        cases signs
        exact .inl rfl
      | spontaneous q =>
        cases states
        cases signs
        exact .inr (.silent_second p)
    | spontaneous p =>
      cases d with
      | labeled q x =>
        cases states
        cases signs
        exact .inr (.silent_first p)
      | spontaneous q =>
        cases states
        exact .inl rfl
  · intro alike
    rcases alike with rfl | twins
    · exact ⟨rfl, rfl⟩
    · cases twins with
      | silent_first q => exact ⟨rfl, rfl⟩
      | silent_second q => exact ⟨rfl, rfl⟩

end Condition

namespace Written

/-- The plain texts of sets of numbers, of sets of such sets and so on tell the sets apart, and those
of conditions with such states tell the conditions apart up to the letter for no symbol. -/
theorem nested_plain_unambiguous (depth : Nat) :
    (∀ x y : SortedSet.Nested Int depth, plain x = plain y ↔ x = y) ∧
      ∀ c d : Condition (SortedSet.Nested Int depth) Char,
        c.plain = d.plain ↔ c = d ∨ c.EpsilonTwins d := by
  have readable := readable_int.nested depth
  exact ⟨fun x y => readable.plain_inj, fun c d => Condition.plain_eq_iff readable⟩

example : plain (.ofList [.ofList [2, -1], ∅] : SortedSet.Nested Int 2) =
    "\x7b\x7b\x7d, \x7b-1, 2\x7d\x7d" := by
  cbv

end Written
end FiniteAutomata

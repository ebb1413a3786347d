import FiniteAutomata.Condition
import FiniteAutomata.Sublists

/-!
The order of sets and of conditions. It is total and agrees with equality, a set comes before the sets
that properly hold it, and sets of which none holds the other are told apart as `ThreeWay` says. Sets
are themselves elements of such an order, so the same is true of sets of sets, to any depth, and of
conditions whose states are such sets.
-/
namespace FiniteAutomata

structure TotalOrder (α : Type) [Ord α] : Prop where
  refl : ∀ a : α, compare a a = .eq
  antisymm : ∀ a b : α, compare a b = (compare b a).swap
  trans : ∀ a b c : α, compare a b ≠ .gt → compare b c ≠ .gt → compare a c ≠ .gt
  strict_trans : ∀ a b c : α, compare a b = .lt → compare b c = .lt → compare a c = .lt
  total : ∀ a b : α, compare a b ≠ .gt ∨ compare b a ≠ .gt
  eq_iff : ∀ a b : α, compare a b = .eq ↔ a = b

theorem Ordered.totalOrder (α : Type) [Ordered α] : TotalOrder α where
  refl _ := Std.compare_self
  antisymm _ _ := Std.OrientedCmp.eq_swap
  trans a b c := by
    simp only [ne_eq, ← Ordering.isLE_iff_ne_gt]
    exact Std.TransCmp.isLE_trans
  strict_trans _ _ _ := Ordered.lt_trans
  total a b := by
    cases first : compare a b with
    | gt => exact .inr (by simp [Ordered.lt_of_gt first])
    | _ => exact .inl nofun
  eq_iff _ _ := Std.compare_eq_iff_eq

section
variable [Ordered α] {x y : α} {l k : List α}

theorem compare_append_left (common : List α) :
    compare (common ++ l) (common ++ k) = compare l k := by
  induction common with
  | nil => rfl
  | cons z rest ih =>
    rw [List.cons_append, List.cons_append, List.compare_cons_cons, Std.compare_self, ih]
    rfl

theorem compare_cons_of_ne (differs : x ≠ y) : compare (x :: l) (y :: k) = compare x y := by
  rw [List.compare_cons_cons]
  cases first : compare x y with
  | eq => exact absurd (Ordered.eq_of_eq first) differs
  | _ => rfl

theorem exists_first_difference (same : l.length = k.length) (differ : l ≠ k) :
    ∃ common x y l' k', x ≠ y ∧ l = common ++ x :: l' ∧ k = common ++ y :: k' := by
  induction l generalizing k with
  | nil => exact absurd (List.length_eq_zero_iff.mp same.symm).symm differ
  | cons x l ih =>
    cases k with
    | nil => cases same
    | cons y k =>
      by_cases first : x = y
      · subst first
        have later : l ≠ k := fun alike => differ (alike ▸ rfl)
        obtain ⟨common, p, q, l', k', apart, rfl, rfl⟩ := ih (Nat.succ.inj same) later
        exact ⟨x :: common, p, q, l', k', apart, rfl, rfl⟩
      · exact ⟨[], x, y, l, k, first, rfl, rfl⟩

end

namespace SortedSet
variable [Ordered α] {s t : SortedSet α} {x y : α} {o : Ordering}

theorem size_le_of_subset (subset : s ⊆ t) : s.size ≤ t.size :=
  (sublist_of_subset t.ascending s.ascending subset).length_le

theorem eq_of_subset_of_size (subset : s ⊆ t) (same : s.size = t.size) : s = t :=
  toList_inj.mp ((sublist_of_subset t.ascending s.ascending subset).eq_of_length same)

def OrderedBySize (s t : SortedSet α) : Prop := s ⊆ t ∨ t ⊆ s ∨ s.size ≠ t.size

/-- The rule that orders two sets: their sizes, if these decide, and else the first pair of elements
that differ when both sets are walked in ascending order. -/
inductive ThreeWay (s t : SortedSet α) : Ordering → Prop where
  | by_size (decides : s.OrderedBySize t) : ThreeWay s t (compare s.size t.size)
  | by_difference (undecided : ¬ s.OrderedBySize t) {common l k : List α} {x y : α}
      (differs : x ≠ y) (left : s.toList = common ++ x :: l)
      (right : t.toList = common ++ y :: k) : ThreeWay s t (compare x y)

theorem compare_of_size_ne (differs : s.size ≠ t.size) : compare s t = compare s.size t.size := by
  rw [compare_def]
  cases sizes : compare s.size t.size with
  | eq => exact absurd (Std.compare_eq_iff_eq.mp sizes) differs
  | _ => rfl

theorem compare_of_size_eq (same : s.size = t.size) : compare s t = compare s.toList t.toList := by
  rw [compare_def, same, Std.compare_self]
  rfl

/-- A set and a part of it of the same size are one set, so that size decides about parts, too. -/
theorem compare_of_orderedBySize (decides : s.OrderedBySize t) :
    compare s t = compare s.size t.size := by
  by_cases same : s.size = t.size
  · have equal : s = t := by
      rcases decides with subset | superset | differs
      · exact eq_of_subset_of_size subset same
      · exact (eq_of_subset_of_size superset same.symm).symm
      · exact absurd same differs
    rw [equal, Std.compare_self, Std.compare_self]
  · exact compare_of_size_ne same

theorem compare_of_difference {common l k : List α} (same : s.size = t.size) (differs : x ≠ y)
    (left : s.toList = common ++ x :: l) (right : t.toList = common ++ y :: k) :
    compare s t = compare x y := by
  rw [compare_of_size_eq same, left, right, compare_append_left, compare_cons_of_ne differs]

theorem size_eq_of_undecided (undecided : ¬ s.OrderedBySize t) : s.size = t.size :=
  Decidable.of_not_not fun differs => undecided (.inr (.inr differs))

theorem ThreeWay.compare_eq (rule : s.ThreeWay t o) : compare s t = o := by
  cases rule with
  | by_size decides => exact compare_of_orderedBySize decides
  | by_difference undecided differs left right =>
    exact compare_of_difference (size_eq_of_undecided undecided) differs left right

theorem threeWay_compare (s t : SortedSet α) : s.ThreeWay t (compare s t) := by
  by_cases decides : s.OrderedBySize t
  · rw [compare_of_orderedBySize decides]
    exact .by_size decides
  · have same := size_eq_of_undecided decides
    have differ : s.toList ≠ t.toList := by
      intro alike
      rw [toList_inj] at alike
      exact decides (.inl fun x member => alike ▸ member)
    obtain ⟨common, x, y, l, k, differs, left, right⟩ := exists_first_difference same differ
    rw [compare_of_difference same differs left right]
    exact .by_difference decides differs left right

theorem threeWay_iff : s.ThreeWay t o ↔ compare s t = o := by
  constructor
  · exact ThreeWay.compare_eq
  · rintro rfl
    exact threeWay_compare s t

theorem compare_of_proper (subset : s ⊆ t) (proper : ¬ t ⊆ s) : compare s t = .lt := by
  have fewer : s.size ≠ t.size := by
    intro same
    have equal := eq_of_subset_of_size subset same
    exact proper fun x member => equal ▸ member
  rw [compare_of_size_ne fewer, Nat.compare_eq_lt]
  exact Nat.lt_of_le_of_ne (size_le_of_subset subset) fewer

theorem compare_eq_iff_same_members : compare s t = .eq ↔ ∀ x, x ∈ s ↔ x ∈ t := by
  rw [Std.compare_eq_iff_eq]
  constructor
  · rintro rfl x
    exact .rfl
  · exact ext

structure InclusionOrder (α : Type) [Ordered α] : Prop extends TotalOrder (SortedSet α) where
  eq_iff_same_members : ∀ s t : SortedSet α, compare s t = .eq ↔ ∀ x, x ∈ s ↔ x ∈ t
  lt_of_proper : ∀ s t : SortedSet α, s ⊆ t → ¬ t ⊆ s → compare s t = .lt
  three_way : ∀ (s t : SortedSet α) (o : Ordering), compare s t = o ↔ s.ThreeWay t o

/-- The elements of `α`, sets of them, sets of such sets and so on, each with its order. -/
def nestedOrdered (α : Type) [Ordered α] : Nat → (β : Type) × Ordered β
  | 0 => ⟨α, inferInstance⟩
  | depth + 1 =>
    let ⟨β, _⟩ := nestedOrdered α depth
    ⟨SortedSet β, inferInstance⟩

abbrev Nested (α : Type) [Ordered α] (depth : Nat) : Type := (nestedOrdered α depth).1

instance {depth : Nat} : Ordered (Nested α depth) := (nestedOrdered α depth).2

end SortedSet

namespace Condition

/-- Conditions are totally ordered: labeled ones before spontaneous ones, then by state and symbol. -/
structure LabeledFirst (Q S : Type) [Ordered Q] [Ordered S] : Prop
    extends TotalOrder (Condition Q S) where
  labeled_spontaneous : ∀ (p q : Q) (s : S),
    compare (.labeled p s : Condition Q S) (.spontaneous q) = .lt
  labeled_labeled : ∀ (p q : Q) (s x : S),
    compare (.labeled p s : Condition Q S) (.labeled q x) = (compare p q).then (compare s x)
  spontaneous_spontaneous : ∀ p q : Q,
    compare (.spontaneous p : Condition Q S) (.spontaneous q) = compare p q

end Condition

namespace SortedSet

/-- Sets of any depth are in a lawful order that extends inclusion, and so the conditions that have
such sets for states are in a lawful order, too. -/
theorem nested_lawfully_ordered (α S : Type) [Ordered α] [Ordered S] (depth : Nat) :
    InclusionOrder (Nested α depth) ∧
      Condition.LabeledFirst (SortedSet (Nested α depth)) S := by
  refine ⟨⟨Ordered.totalOrder _, ?_, ?_, ?_⟩, ⟨Ordered.totalOrder _, ?_, ?_, ?_⟩⟩
  · intro s t
    exact compare_eq_iff_same_members
  · intro s t subset proper
    exact compare_of_proper subset proper
  · intro s t o
    exact threeWay_iff.symm
  · intro p q s
    rfl
  · intro p q s x
    rfl
  · intro p q
    exact Ordering.then_eq

/-- A pair comes after every single element, and of two pairs the first difference decides. -/
example : compare (ofList [9]) (ofList [0, 1]) = .lt ∧
    compare (ofList [4, 0]) (ofList [3, 1]) = .lt := by
  decide

end SortedSet
end FiniteAutomata

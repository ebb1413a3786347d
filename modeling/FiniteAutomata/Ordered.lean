/-!
The total orders by which labels, symbols and conditions are kept ascending.
Equality of two values is exactly the answer `.eq`, so an order decides it.
-/
namespace FiniteAutomata

/-- A type whose comparison is a total order that agrees with equality. -/
class Ordered (α : Type) extends Ord α, Std.TransOrd α, Std.LawfulEqOrd α where
  decEq : DecidableEq α := fun _ _ => decidable_of_decidable_of_iff Std.compare_eq_iff_eq

instance [Ordered α] : DecidableEq α := Ordered.decEq

instance : Ordered Nat where
  decEq := inferInstance

instance : Ordered Int where
  decEq := inferInstance

instance : Ordered Char where
  decEq := inferInstance

instance : Ordered String where
  decEq := inferInstance

namespace Ordered
variable [Ordered α]

theorem lt_trans {a b c : α} : compare a b = .lt → compare b c = .lt → compare a c = .lt :=
  Std.TransCmp.lt_trans

theorem lt_irrefl (a : α) : compare a a ≠ .lt := by simp

theorem lt_of_gt {a b : α} : compare a b = .gt → compare b a = .lt :=
  Std.OrientedCmp.gt_iff_lt.mp

theorem eq_of_eq {a b : α} : compare a b = .eq → a = b :=
  Std.compare_eq_iff_eq.mp

end Ordered
end FiniteAutomata

import FiniteAutomata.SortedSet

/-!
The subsets of a finite set, listed. A search among sets of states ends because there are only so
many of them.
-/
namespace FiniteAutomata.SortedSet
variable [Ordered α]

def sublists : List α → List (List α)
  | [] => [[]]
  | x :: rest => sublists rest ++ (sublists rest).map (x :: ·)

omit [Ordered α] in
theorem mem_sublists {l k : List α} : k ∈ sublists l ↔ k.Sublist l := by
  induction l generalizing k with
  | nil => simp [sublists]
  | cons x rest ih =>
    simp only [sublists, List.mem_append, List.mem_map, ih, List.sublist_cons_iff]
    grind

/-- Of two ascending lists, one with fewer elements arises from the other by striking out. -/
theorem sublist_of_subset {l k : List α} (ascending : l.Pairwise fun a b => compare a b = .lt)
    (smaller : k.Pairwise fun a b => compare a b = .lt) (subset : ∀ x ∈ k, x ∈ l) :
    k.Sublist l := by
  induction l generalizing k with
  | nil => cases k with
    | nil => exact .slnil
    | cons y _ => exact absurd (subset y (.head _)) List.not_mem_nil
  | cons x rest ih =>
    obtain ⟨above, tail⟩ := List.pairwise_cons.mp ascending
    cases k with
    | nil => exact List.nil_sublist _
    | cons y others =>
      obtain ⟨higher, others_ascending⟩ := List.pairwise_cons.mp smaller
      rcases List.mem_cons.mp (subset y (.head _)) with rfl | later
      · refine .cons_cons _ (ih tail others_ascending fun z member => ?_)
        rcases List.mem_cons.mp (subset z (.tail _ member)) with rfl | found
        · exact absurd (higher z member) (Ordered.lt_irrefl z)
        · exact found
      · refine .cons _ (ih tail smaller fun z member => ?_)
        rcases List.mem_cons.mp (subset z member) with rfl | found
        · rcases List.mem_cons.mp member with rfl | other
          · exact later
          · exact absurd (Ordered.lt_trans (above y later) (higher z other)) (Ordered.lt_irrefl z)
        · exact found

theorem mem_sublists_of_subset {s t : SortedSet α} (subset : s ⊆ t) :
    s.toList ∈ sublists t.toList :=
  mem_sublists.mpr (sublist_of_subset t.ascending s.ascending subset)

end FiniteAutomata.SortedSet

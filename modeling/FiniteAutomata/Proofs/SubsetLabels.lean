import FiniteAutomata.SubsetConstruction
import FiniteAutomata.Proofs.Frontiers

/-!
The labels of a subset construction, apart from any run of it. What a label can read and where it
leads are described through the transitions of the NFA; the labels that arise from the first one
are the nonempty closed frontiers of words.
-/
namespace FiniteAutomata

theorem nodup_eraseDups [DecidableEq α] (l : List α) : l.eraseDups.Nodup := by
  -- the rest of the list is filtered before the recursion, so only its length gets smaller
  induction h : l.length using Nat.strongRecOn generalizing l with
  | ind k ih =>
    cases l with
    | nil => simp
    | cons x rest =>
      have shorter : (rest.filter fun y => !y == x).length < k := by
        have := List.length_filter_le (fun y => !y == x) rest
        simp only [List.length_cons] at h
        omega
      rw [List.eraseDups_cons, List.nodup_cons]
      constructor
      · intro again
        simp [List.mem_eraseDups] at again
      · exact ih _ shorter _ rfl

theorem eraseDups_of_nodup [DecidableEq α] {l : List α} (nodup : l.Nodup) : l.eraseDups = l := by
  induction l with
  | nil => rfl
  | cons x rest ih =>
    obtain ⟨fresh, nodup⟩ := List.nodup_cons.mp nodup
    have kept : rest.filter (fun y => !y == x) = rest := by
      apply List.filter_eq_self.mpr
      intro y member
      have differs : y ≠ x := fun same => fresh (same ▸ member)
      simp [differs]
    rw [List.eraseDups_cons, kept, ih nodup]

theorem flatMap_of_single {l : List α} {x : α} {f : α → List β} (nodup : l.Nodup) (member : x ∈ l)
    (others : ∀ y ∈ l, y ≠ x → f y = []) : l.flatMap f = f x := by
  induction l with
  | nil => cases member
  | cons y rest ih =>
    obtain ⟨fresh, nodup⟩ := List.nodup_cons.mp nodup
    rw [List.flatMap_cons]
    rcases List.mem_cons.mp member with rfl | later
    · have nothing : rest.flatMap f = [] :=
        List.flatMap_eq_nil_iff.mpr fun y among =>
          others y (.tail _ among) fun same => fresh (same ▸ among)
      rw [nothing, List.append_nil]
    · have differs : y ≠ x := fun same => fresh (same ▸ later)
      rw [others y (.head _) differs, List.nil_append,
        ih nodup later fun z among => others z (.tail _ among)]

namespace Automaton
variable {kind : Kind} [Ordered Q] [Ordered S] {n : Automaton kind Q S} {p q r : Q} {s : S}
  {label : SortedSet Q}

theorem mem_leaving :
    (s, q) ∈ n.leaving label ↔ ∃ p ∈ label, ⟨.labeled p s, q⟩ ∈ n.transitions := by
  simp only [leaving, List.mem_filterMap]
  constructor
  · intro leaves
    obtain ⟨⟨c, d⟩, listed, leads⟩ := leaves
    cases c with
    | spontaneous source => cases leads
    | labeled source symbol =>
      simp only [Option.ite_none_right_eq_some, Option.some.injEq, Prod.mk.injEq] at leads
      obtain ⟨member, rfl, rfl⟩ := leads
      exact ⟨source, member, listed⟩
  · intro leaves
    obtain ⟨p, member, listed⟩ := leaves
    exact ⟨_, listed, by simp [member]⟩

theorem mem_outgoing :
    s ∈ n.outgoing label ↔ ∃ p ∈ label, ∃ q, ⟨.labeled p s, q⟩ ∈ n.transitions := by
  simp only [outgoing, List.mem_eraseDups, List.mem_map, Prod.exists, exists_and_right, exists_eq_right]
  constructor
  · intro reads
    obtain ⟨q, leaves⟩ := reads
    obtain ⟨p, member, listed⟩ := mem_leaving.mp leaves
    exact ⟨p, member, q, listed⟩
  · intro reads
    obtain ⟨p, member, q, listed⟩ := reads
    exact ⟨q, mem_leaving.mpr ⟨p, member, listed⟩⟩

theorem outgoing_nodup (n : Automaton kind Q S) (label : SortedSet Q) : (n.outgoing label).Nodup :=
  nodup_eraseDups _

theorem mem_target : q ∈ n.target label s ↔
    ∃ p ∈ label, ∃ r, ⟨.labeled p s, r⟩ ∈ n.transitions ∧ n.Drifts r q := by
  rw [target, SpontaneousMoves.mem_closure, reaches_moves]
  simp only [List.mem_map, List.mem_filter, decide_eq_true_eq, Prod.exists, exists_eq_right]
  constructor
  · intro reached
    obtain ⟨r, leaves, drifts⟩ := reached
    obtain ⟨p, member, listed⟩ := mem_leaving.mp leaves
    exact ⟨p, member, r, listed, drifts⟩
  · intro reached
    obtain ⟨p, member, r, listed, drifts⟩ := reached
    exact ⟨r, mem_leaving.mpr ⟨p, member, listed⟩, drifts⟩

theorem mem_target_singleton (still : ∀ t ∈ n.transitions, t.condition.isSpontaneous = false) :
    q ∈ n.target {p} s ↔ ⟨.labeled p s, q⟩ ∈ n.transitions := by
  rw [mem_target]
  simp [drifts_iff_eq still]

theorem target_ne_empty_iff : n.target label s ≠ ∅ ↔ s ∈ n.outgoing label := by
  rw [SortedSet.ne_empty_iff, mem_outgoing]
  constructor
  · intro inhabited
    obtain ⟨q, member⟩ := inhabited
    obtain ⟨p, inside, r, listed, _⟩ := mem_target.mp member
    exact ⟨p, inside, r, listed⟩
  · intro reads
    obtain ⟨p, inside, r, listed⟩ := reads
    exact ⟨r, mem_target.mpr ⟨p, inside, r, listed, .refl⟩⟩

theorem target_eq_close (consistent : n.Consistent) (label : SortedSet Q) (s : S) :
    n.target label s = n.close (n.advance label s) := by
  apply SortedSet.ext
  intro q
  rw [mem_target, mem_close]
  constructor
  · intro reached
    obtain ⟨p, inside, r, listed, drifts⟩ := reached
    have declared := (consistent.transitions_declared _ listed).2.2
    exact ⟨drifts.declared consistent declared, r, mem_advance.mpr ⟨declared, p, inside, listed⟩,
      drifts⟩
  · intro closed
    obtain ⟨_, r, member, drifts⟩ := closed
    obtain ⟨_, p, inside, listed⟩ := mem_advance.mp member
    exact ⟨p, inside, r, listed, drifts⟩

theorem outgoing_declared (consistent : n.Consistent) (reads : s ∈ n.outgoing label) :
    s ∈ n.inputs := by
  obtain ⟨p, _, q, listed⟩ := mem_outgoing.mp reads
  exact (consistent.transitions_declared _ listed).2.1 s rfl

def firstLabel? (n : Automaton kind Q S) : Option (SortedSet Q) :=
  n.initial.map fun q => n.moves.closure [q]

theorem firstLabel?_of_initial (initial : n.initial = some q) :
    n.firstLabel? = some (n.moves.closure [q]) := by
  rw [firstLabel?, initial, Option.map_some]

theorem mem_firstLabel? {q₀ : Q} (initial : n.initial = some q₀) (first : n.firstLabel? = some label) :
    q ∈ label ↔ n.Drifts q₀ q := by
  rw [firstLabel?, initial, Option.map_some, Option.some.injEq] at first
  rw [← first, SpontaneousMoves.mem_closure, reaches_moves]
  simp

theorem close_start (consistent : n.Consistent) : n.close n.start = n.firstLabel?.getD ∅ := by
  cases initial : n.initial with
  | none =>
    have start : n.start = ∅ := by simp [start, initial, SortedSet.ofList, SortedSet.insertAll]
    rw [start, close_empty, firstLabel?, initial]
    rfl
  | some q₀ =>
    have first := firstLabel?_of_initial initial
    rw [first, Option.getD_some]
    apply SortedSet.ext
    intro q
    rw [mem_firstLabel? initial first, mem_close]
    constructor
    · intro closed
      obtain ⟨_, p, member, drifts⟩ := closed
      have same : some q₀ = some p := initial ▸ mem_start.mp member
      cases same
      exact drifts
    · intro drifts
      have declared := consistent.initial_declared q₀ initial
      exact ⟨drifts.declared consistent declared, q₀, mem_start.mpr initial, drifts⟩

theorem firstLabel?_ne_empty (first : n.firstLabel? = some label) : label ≠ ∅ := by
  obtain ⟨q₀, initial, rfl⟩ := Option.map_eq_some_iff.mp first
  rw [ne_eq, SpontaneousMoves.closure_eq_empty_iff]
  simp

theorem firstLabel?_eq_singleton
    (still : ∀ t ∈ n.transitions, t.condition.isSpontaneous = false) :
    n.firstLabel? = n.initial.map fun q => {q} := by
  have alone : ∀ q, n.moves.closure [q] = {q} := by
    intro q
    apply SortedSet.ext
    intro r
    rw [SpontaneousMoves.mem_closure, reaches_moves]
    simp [drifts_iff_eq still, eq_comm]
  simp only [firstLabel?, alone]

/-- The labels that arise from the first one by reading. -/
inductive Label (n : Automaton kind Q S) : SortedSet Q → Prop where
  | first {label : SortedSet Q} (begins : n.firstLabel? = some label) : Label n label
  | next {label : SortedSet Q} {s : S} (before : Label n label) (reads : s ∈ n.outgoing label) :
      Label n (n.target label s)

theorem Label.ne_empty (arises : n.Label label) : label ≠ ∅ := by
  cases arises with
  | first begins => exact firstLabel?_ne_empty begins
  | next before reads => exact target_ne_empty_iff.mpr reads

theorem Label.closedFrontier (arises : n.Label label) (consistent : n.Consistent) :
    ∃ word, (∀ s ∈ word, s ∈ n.inputs) ∧ n.closedFrontier word = label := by
  induction arises with
  | @first label begins =>
    have start : n.closedFrontier [] = label := by
      rw [closedFrontier_nil, close_start consistent, begins, Option.getD_some]
    exact ⟨[], nofun, start⟩
  | @next label s before reads ih =>
    obtain ⟨word, declared, ends⟩ := ih
    have all_declared : ∀ x ∈ word ++ [s], x ∈ n.inputs := by
      intro x member
      rcases List.mem_append.mp member with old | new
      · exact declared x old
      · rw [List.mem_singleton.mp new]
        exact outgoing_declared consistent reads
    have extended : n.closedFrontier (word ++ [s]) = n.target label s := by
      rw [closedFrontier_append, ends, target_eq_close consistent]
    exact ⟨word ++ [s], all_declared, extended⟩

/-- No symbol of the word has to be declared: reading one that is not empties the frontier. -/
theorem label_closedFrontier (consistent : n.Consistent) (word : List S)
    (full : n.closedFrontier word ≠ ∅) : n.Label (n.closedFrontier word) := by
  induction word using List.reverseRecOn with
  | nil =>
    rw [closedFrontier_nil, close_start consistent] at full ⊢
    cases begins : n.firstLabel? with
    | none =>
      rw [begins] at full
      exact absurd rfl full
    | some label => exact .first begins
  | append_singleton word s ih =>
    rw [closedFrontier_append, ← target_eq_close consistent] at full ⊢
    have reads := target_ne_empty_iff.mp full
    have before : n.closedFrontier word ≠ ∅ := by
      obtain ⟨p, member, _⟩ := mem_outgoing.mp reads
      exact SortedSet.ne_empty_iff.mpr ⟨p, member⟩
    exact .next (ih before) reads

theorem label_iff (consistent : n.Consistent) : n.Label label ↔
    label ≠ ∅ ∧ ∃ word, (∀ s ∈ word, s ∈ n.inputs) ∧ n.closedFrontier word = label := by
  constructor
  · intro arises
    exact ⟨arises.ne_empty, arises.closedFrontier consistent⟩
  · intro reached
    obtain ⟨full, word, _, rfl⟩ := reached
    exact label_closedFrontier consistent word full

end Automaton
end FiniteAutomata

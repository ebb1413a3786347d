import FiniteAutomata.Proofs.Assembly
import FiniteAutomata.Proofs.ConversionSteps
import FiniteAutomata.Proofs.Renaming

/-!
Conversion and the names of states. An automaton with its states renamed has the same conditions in
the same order, but the destinations of one condition may be listed in another order, since the new
names are ordered on their own. No such difference is met by a conversion: what a label reads, and in
which order, is told by the conditions, and where it leads is a set.
-/
namespace FiniteAutomata

section
variable [Ordered α] [Ordered β] {f : α → β} {s t : SortedSet α} {all : SortedSet α}

theorem SortedSet.size_map (injective : ∀ x ∈ s, ∀ y ∈ s, f x = f y → x = y) :
    (s.map f).size = s.size := by
  have nodup : (s.toList.map f).Nodup := s.nodup.map_on fun x first y second => injective x first y second
  have same : ∀ y, y ∈ (s.map f).toList ↔ y ∈ s.toList.map f := by
    intro y
    rw [List.mem_map]
    exact SortedSet.mem_map
  have reordered : (s.map f).toList.Perm (s.toList.map f) :=
    (List.perm_ext_iff_of_nodup (s.map f).nodup nodup).mpr same
  exact reordered.length_eq.trans (List.length_map _)

theorem SortedSet.mem_map_of_inj {x : α} (injective : ∀ x ∈ all, ∀ y ∈ all, f x = f y → x = y)
    (subset : s ⊆ all) (member : x ∈ all) : f x ∈ s.map f ↔ x ∈ s := by
  rw [SortedSet.mem_map]
  constructor
  · intro mapped
    obtain ⟨y, inside, same⟩ := mapped
    exact injective y (subset y inside) x member same ▸ inside
  · intro inside
    exact ⟨x, inside, rfl⟩

theorem SortedSet.map_inj (injective : ∀ x ∈ all, ∀ y ∈ all, f x = f y → x = y) (first : s ⊆ all)
    (second : t ⊆ all) : s.map f = t.map f ↔ s = t := by
  constructor
  · intro same
    apply SortedSet.ext
    intro x
    constructor
    · intro inside
      rw [← SortedSet.mem_map_of_inj injective second (first x inside), ← same]
      exact SortedSet.mem_map.mpr ⟨x, inside, rfl⟩
    · intro inside
      rw [← SortedSet.mem_map_of_inj injective first (second x inside), same]
      exact SortedSet.mem_map.mpr ⟨x, inside, rfl⟩
  · rintro rfl
    rfl

end

namespace Condition

theorem state_map (f : Q → R) (c : Condition Q S) : (c.map f).state = f c.state := by
  cases c <;> rfl

theorem label?_map (f : Q → R) (c : Condition Q S) : (c.map f).label? = c.label? := by
  cases c <;> rfl

theorem stores_map (kind : TableKind) (f : Q → R) (c : Condition Q S) :
    kind.stores (c.map f) = kind.stores c := by
  cases c <;> rfl

theorem eq_of_map_eq {f : Q → R} {c d : Condition Q S} (same : c.map f = d.map f)
    (injective : f c.state = f d.state → c.state = d.state) : c = d := by
  cases c with
  | labeled p s =>
    cases d with
    | labeled q x =>
      obtain ⟨named, rfl⟩ := Condition.labeled.inj same
      rw [show p = q from injective named]
    | spontaneous q => cases same
  | spontaneous p =>
    cases d with
    | labeled q x => cases same
    | spontaneous q => rw [show p = q from injective (Condition.spontaneous.inj same)]

end Condition

def Row.map [Ordered Q] [Ordered R] (f : Q → R) (row : Row Q S) : Row R S :=
  ⟨row.condition.map f, row.destinations.map f⟩

namespace Automaton
variable {kind : Kind} [Ordered Q] [Ordered R] [Ordered S]

/-- The automaton with every state renamed, the transitions added under their new names in the order
in which they were listed. -/
def rename (f : Q → R) (n : Automaton kind Q S) : Automaton kind R S where
  states := n.states.map f
  inputs := n.inputs
  table := .filled kind.table (Table.additions (n.transitions.map (Transition.map f)))
  initial := n.initial.map f
  finals := n.finals.map f

variable {f : Q → R} {n : Automaton kind Q S} {p q : Q} {r : R} {s : S} {l : SortedSet Q}

omit [Ordered S] in
theorem filterMap_readFrom_row (row : Row Q S) (l : SortedSet Q) :
    (Table.rowTransitions row).filterMap (readFrom l) =
      match row.condition with
      | .labeled p s => if p ∈ l then List.replicate row.destinations.size s else []
      | .spontaneous _ => [] := by
  obtain ⟨c, set⟩ := row
  cases c with
  | spontaneous p => simp [Table.rowTransitions, readFrom, Function.comp_def]
  | labeled p s =>
    by_cases inside : p ∈ l <;>
      simp [Table.rowTransitions, readFrom, inside, Function.comp_def, SortedSet.size]

theorem mem_transitions_rename {t : Transition R S} :
    t ∈ (n.rename f).transitions ↔ ∃ u ∈ n.transitions, u.map f = t := by
  have stored : ∀ t ∈ n.transitions.map (Transition.map f), kind.table.stores t.condition = true := by
    intro t listed
    obtain ⟨u, before, rfl⟩ := List.mem_map.mp listed
    exact (Condition.stores_map kind.table f u.condition).trans (Table.stores_of_mem before)
  rw [← List.mem_map]
  exact Table.mem_transitions_additions stored

theorem Consistent.row_declared (consistent : n.Consistent) {row : Row Q S}
    (stands : row ∈ n.table.rows) : row.condition.state ∈ n.states ∧ row.destinations ⊆ n.states := by
  have declared : ∀ q ∈ row.destinations, n.Declares row.condition q := fun q leads =>
    consistent.transitions_declared ⟨row.condition, q⟩
      (Table.mem_transitions_iff_row.mpr ⟨row, stands, rfl, leads⟩)
  obtain ⟨q, leads⟩ := SortedSet.ne_empty_iff.mp (n.table.inhabited row stands)
  exact ⟨(declared q leads).1, fun q leads => (declared q leads).2.2⟩

theorem Consistent.rename (consistent : n.Consistent) (f : Q → R) : (n.rename f).Consistent := by
  have named : ∀ q ∈ n.states, f q ∈ (n.rename f).states := fun q declared =>
    SortedSet.mem_map.mpr ⟨q, declared, rfl⟩
  refine ⟨?_, ?_, ?_⟩
  · intro r initial
    obtain ⟨q, before, rfl⟩ := Option.map_eq_some_iff.mp initial
    exact named q (consistent.initial_declared q before)
  · intro r final
    obtain ⟨q, before, rfl⟩ := SortedSet.mem_map.mp final
    exact named q (consistent.finals_declared q before)
  · intro t listed
    obtain ⟨u, before, rfl⟩ := mem_transitions_rename.mp listed
    obtain ⟨source, symbol, destination⟩ := consistent.transitions_declared u before
    refine ⟨?_, ?_, named _ destination⟩
    · rw [Transition.map, Condition.state_map]
      exact named _ source
    · rw [Transition.map, Condition.label?_map]
      exact symbol

section
variable (consistent : n.Consistent)
  (injective : ∀ p ∈ n.states, ∀ q ∈ n.states, f p = f q → p = q)
include consistent injective

theorem rows_rename : (n.rename f).table.rows = n.table.rows.map (Row.map f) := by
  let groups := n.table.rows.map fun row => (row.condition.map f, row.destinations.toList.map f)
  have listed : n.transitions.map (Transition.map f) =
      groups.flatMap fun group => group.2.map (⟨group.1, ·⟩) := by
    rw [List.flatMap_map, Automaton.transitions, Table.transitions_eq, List.map_flatMap]
    simp only [Table.rowTransitions, List.map_map]
    rfl
  have stored : ∀ group ∈ groups, kind.table.stores group.1 = true := by
    intro group among
    obtain ⟨row, stands, rfl⟩ := List.mem_map.mp among
    exact (Condition.stores_map kind.table f row.condition).trans (n.table.stored row stands)
  have distinct : (groups.map Prod.fst).Nodup := by
    have conditions : groups.map Prod.fst = (n.table.rows.map Row.condition).map (Condition.map f) := by
      simp only [groups, List.map_map]
      rfl
    rw [conditions]
    refine n.table.distinct.map_on ?_
    intro c first d second same
    obtain ⟨row, stands, rfl⟩ := List.mem_map.mp first
    obtain ⟨other, also, rfl⟩ := List.mem_map.mp second
    exact Condition.eq_of_map_eq same
      (injective _ (consistent.row_declared stands).1 _ (consistent.row_declared also).1)
  have full : ∀ group ∈ groups, group.2 ≠ [] := by
    intro group among
    obtain ⟨row, stands, rfl⟩ := List.mem_map.mp among
    intro empty
    exact n.table.inhabited row stands (SortedSet.toList_inj.mp (List.map_eq_nil_iff.mp empty))
  rw [rename, listed, Table.rows_additions_groups stored distinct full, List.map_map]
  rfl

theorem listed_rename {c : Condition Q S} (declared : c.state ∈ n.states) :
    ⟨c.map f, r⟩ ∈ (n.rename f).transitions ↔ ∃ q, ⟨c, q⟩ ∈ n.transitions ∧ f q = r := by
  rw [mem_transitions_rename]
  constructor
  · intro renamed
    obtain ⟨⟨d, q⟩, listed, same⟩ := renamed
    obtain ⟨condition, rfl⟩ := Transition.mk.inj same
    have source := (consistent.transitions_declared _ listed).1
    obtain rfl := Condition.eq_of_map_eq condition (injective _ source _ declared)
    exact ⟨q, listed, rfl⟩
  · intro before
    obtain ⟨q, listed, rfl⟩ := before
    exact ⟨_, listed, rfl⟩

theorem drifts_rename (declared : p ∈ n.states) :
    (n.rename f).Drifts (f p) r ↔ ∃ q, n.Drifts p q ∧ f q = r := by
  constructor
  · intro drifts
    induction drifts with
    | refl => exact ⟨p, .refl, rfl⟩
    | tail _ move ih =>
      obtain ⟨q, before, rfl⟩ := ih
      have source : q ∈ n.states := before.declared consistent declared
      obtain ⟨d, listed, rfl⟩ :=
        (listed_rename consistent injective (c := .spontaneous q) source).mp move
      exact ⟨d, before.tail listed, rfl⟩
  · intro reached
    obtain ⟨q, drifts, rfl⟩ := reached
    induction drifts with
    | refl => exact .refl
    | tail _ move ih => exact ih.tail (mem_transitions_rename.mpr ⟨_, move, rfl⟩)

theorem closure_rename {states : List Q} (declared : ∀ p ∈ states, p ∈ n.states) :
    (n.rename f).moves.closure (states.map f) = (n.moves.closure states).map f := by
  apply SortedSet.ext
  intro r
  simp only [SortedSet.mem_map, SpontaneousMoves.mem_closure, reaches_moves, List.mem_map,
    exists_exists_and_eq_and]
  constructor
  · intro reached
    obtain ⟨p, member, drifts⟩ := reached
    obtain ⟨q, before, rfl⟩ := (drifts_rename consistent injective (declared p member)).mp drifts
    exact ⟨q, ⟨p, member, before⟩, rfl⟩
  · intro reached
    obtain ⟨q, ⟨p, member, before⟩, rfl⟩ := reached
    exact ⟨p, member, (drifts_rename consistent injective (declared p member)).mpr ⟨q, before, rfl⟩⟩

theorem firstLabel?_rename : (n.rename f).firstLabel? = n.firstLabel?.map (SortedSet.map f) := by
  cases initial : n.initial with
  | none => simp [Automaton.firstLabel?, Automaton.rename, initial]
  | some q =>
    have declared : ∀ p ∈ [q], p ∈ n.states := by simpa using consistent.initial_declared q initial
    have renamed : (n.rename f).initial = some (f q) := by rw [Automaton.rename, initial]; rfl
    rw [firstLabel?_of_initial renamed, firstLabel?_of_initial initial, Option.map_some,
      ← closure_rename consistent injective declared]
    rfl

theorem outgoing_rename (inside : l ⊆ n.states) :
    (n.rename f).outgoing (l.map f) = n.outgoing l := by
  rw [outgoing_eq, outgoing_eq, Automaton.transitions, Automaton.transitions, Table.transitions_eq,
    Table.transitions_eq, rows_rename consistent injective, List.flatMap_map, List.filterMap_flatMap,
    List.filterMap_flatMap]
  congr 1
  apply List.flatMap_congr
  intro row stands
  obtain ⟨source, destinations⟩ := consistent.row_declared stands
  obtain ⟨c, set⟩ := row
  rw [filterMap_readFrom_row, filterMap_readFrom_row]
  cases c with
  | spontaneous p => rfl
  | labeled p s =>
    have size : (set.map f).size = set.size :=
      SortedSet.size_map fun x first y second =>
        injective x (destinations x first) y (destinations y second)
    have leaves : f p ∈ l.map f ↔ p ∈ l := SortedSet.mem_map_of_inj injective inside source
    simp only [Row.map, Condition.map, leaves, size]

theorem target_rename (inside : l ⊆ n.states) (s : S) :
    (n.rename f).target (l.map f) s = (n.target l s).map f := by
  apply SortedSet.ext
  intro r
  simp only [SortedSet.mem_map, mem_target]
  constructor
  · intro reached
    obtain ⟨_, ⟨p, member, rfl⟩, _, listed, drifts⟩ := reached
    obtain ⟨d, before, rfl⟩ :=
      (listed_rename consistent injective (c := .labeled p s) (inside p member)).mp listed
    have declared := (consistent.transitions_declared _ before).2.2
    obtain ⟨q, drifted, rfl⟩ := (drifts_rename consistent injective declared).mp drifts
    exact ⟨q, ⟨p, member, d, before, drifted⟩, rfl⟩
  · intro reached
    obtain ⟨q, ⟨p, member, d, listed, drifted⟩, rfl⟩ := reached
    have declared := (consistent.transitions_declared _ listed).2.2
    exact ⟨f p, ⟨p, member, rfl⟩, f d, mem_transitions_rename.mpr ⟨_, listed, rfl⟩,
      (drifts_rename consistent injective declared).mpr ⟨q, drifted, rfl⟩⟩

theorem mirrors_rename : Mirrors (SortedSet.map f) n (n.rename f) where
  injective := by
    intro l first k second same
    exact (SortedSet.map_inj injective (subset_states_of_mem_labels consistent first)
      (subset_states_of_mem_labels consistent second)).mp same
  inputs := rfl
  first := firstLabel?_rename consistent injective
  outgoing := fun l found =>
    outgoing_rename consistent injective (subset_states_of_mem_labels consistent found)
  target := fun l found s _ =>
    target_rename consistent injective (subset_states_of_mem_labels consistent found) s
  finals := by
    intro l found
    have inside := subset_states_of_mem_labels consistent found
    have final : ∀ q ∈ l, f q ∈ (n.rename f).finals ↔ q ∈ n.finals := fun q member =>
      SortedSet.mem_map_of_inj injective consistent.finals_declared (inside q member)
    simp only [SortedSet.mem_map, exists_exists_and_eq_and]
    exact exists_congr fun q => and_congr_right fun member => final q member

end

theorem WellFormed.rename (valid : n.WellFormed)
    (injective : ∀ p ∈ n.states, ∀ q ∈ n.states, f p = f q → p = q) : (n.rename f).WellFormed := by
  refine ⟨valid.toConsistent.rename f, ?_⟩
  intro deterministic row stands
  rw [rows_rename valid.toConsistent injective] at stands
  obtain ⟨before, stood, rfl⟩ := List.mem_map.mp stands
  have declared := (valid.toConsistent.row_declared stood).2
  have size : (before.destinations.map f).size = before.destinations.size :=
    SortedSet.size_map fun x first y second => injective x (declared x first) y (declared y second)
  exact size ▸ valid.deterministic deterministic before stood

/-- Renaming the states, in whatever order the new names stand, only renames what the labels of the
conversion hold; its transitions stay in their order, and the same limits are enough. -/
theorem determinize_rename (built : n.Built) (f : Q → R)
    (injective : ∀ p ∈ n.states, ∀ q ∈ n.states, f p = f q → p = q) :
    (n.rename f).Built ∧ (n.rename f).table.rows = n.table.rows.map (Row.map f) ∧
      Renamed (SortedSet.map f) n.determinize (n.rename f).determinize ∧ ∀ limit,
        (∃ d, ((n.rename f).convertWithin limit).1 = .ok d) ↔
          ∃ d, (n.convertWithin limit).1 = .ok d := by
  have valid := built.wellFormed
  have consistent := valid.toConsistent
  have mirrors := mirrors_rename consistent injective
  have counted : (n.rename f).determinize.stateCount = n.determinize.stateCount := by
    rw [stateCount_determinize, stateCount_determinize, mirrors.labels, List.length_map]
  refine ⟨.ofParts (ofParts?_parts (valid.rename injective)), rows_rename consistent injective,
    mirrors.renamed consistent (consistent.rename f), ?_⟩
  intro limit
  simp only [convertWithin_eq_ok_iff, counted, exists_eq_left]

open Demonstration in
/-- Under the negative numbers the destinations of one condition change places, and so do the labels
of one size, but the transitions of the DFA do not. -/
theorem exampleNfa_renamed :
    let negated : Nat → Int := fun q => -q
    let negative := exampleNfa.rename negated
    exampleNfa.Built ∧ negative.Built ∧
      negative.transitions ≠ exampleNfa.transitions.map (Transition.map negated) ∧
      negative.determinize.states.toList = [{-3}, {-2}, .ofList [-3, 0], .ofList [-2, -1]] ∧
      negative.determinize.transitions =
        exampleNfa.determinize.transitions.map (Transition.map (SortedSet.map negated)) := by
  intro negated negative
  have injective : ∀ p ∈ exampleNfa.states, ∀ q ∈ exampleNfa.states, negated p = negated q → p = q := by
    intro p _ q _ same
    exact Int.ofNat_inj.mp (Int.neg_inj.mp same)
  obtain ⟨built, _, renamed, _⟩ := determinize_rename exampleNfa_built negated injective
  exact ⟨exampleNfa_built, built, by decide +kernel, by decide +kernel, renamed.transitions⟩

end Automaton
end FiniteAutomata

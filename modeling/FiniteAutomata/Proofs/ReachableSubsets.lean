import FiniteAutomata.Proofs.BuiltAutomata

/-!
The conversion of an NFA is its reachable subset automaton: the states are the nonempty closed
frontiers, and a transition leads to the closure of the direct destinations. `SubsetAutomaton` says
so without mentioning how the DFA is constructed.
-/
namespace FiniteAutomata.Automaton
variable {kind : Kind} [Ordered Q] [Ordered S] {n : Automaton kind Q S} {l m : SortedSet Q}
  {base : Q → Prop} {s : S}

/-- The least set of states that holds `base` and that no spontaneous transition leaves. -/
def IsClosure (n : Automaton kind Q S) (base : Q → Prop) (l : SortedSet Q) : Prop :=
  ∀ q, q ∈ l ↔ ∃ p, base p ∧ n.Drifts p q

theorem IsClosure.unique (first : n.IsClosure base l) (second : n.IsClosure base m) : l = m :=
  SortedSet.ext fun q => (first q).trans (second q).symm

theorem firstLabel?_isClosure {q : Q} (initial : n.initial = some q)
    (begins : n.firstLabel? = some l) : n.IsClosure (· = q) l := by
  intro r
  rw [mem_firstLabel? initial begins]
  simp

theorem target_isClosure (n : Automaton kind Q S) (l : SortedSet Q) (s : S) :
    n.IsClosure (fun r => ∃ p ∈ l, ⟨.labeled p s, r⟩ ∈ n.transitions) (n.target l s) := by
  intro q
  rw [mem_target]
  constructor
  · intro reached
    obtain ⟨p, member, r, listed, drifts⟩ := reached
    exact ⟨r, ⟨p, member, listed⟩, drifts⟩
  · intro reached
    obtain ⟨r, ⟨p, member, listed⟩, drifts⟩ := reached
    exact ⟨p, member, r, listed, drifts⟩

theorem Label.closed (arises : n.Label l) {p q : Q} (member : p ∈ l)
    (move : ⟨.spontaneous p, q⟩ ∈ n.transitions) : q ∈ l := by
  cases arises with
  | first begins =>
    obtain ⟨q₀, initial, _⟩ := Option.map_eq_some_iff.mp begins
    have drifts := (mem_firstLabel? initial begins).mp member
    exact (mem_firstLabel? initial begins).mpr (drifts.tail move)
  | next _ _ =>
    obtain ⟨r, inside, d, listed, drifts⟩ := mem_target.mp member
    exact mem_target.mpr ⟨r, inside, d, listed, drifts.tail move⟩

theorem Label.drifts (arises : n.Label l) {p q : Q} (inside : p ∈ l) (drifts : n.Drifts p q) :
    q ∈ l := by
  induction drifts with
  | refl => exact inside
  | tail _ move ih => exact arises.closed ih move

theorem successor?_determinize (consistent : n.Consistent) (found : l ∈ n.determinize.states)
    (s : S) : n.determinize.successor? l s =
      if n.target l s = ∅ then none else some (n.target l s) := by
  have leads : ∀ m, n.determinize.successor? l s = some m ↔
      l ∈ n.determinize.states ∧ s ∈ n.outgoing l ∧ m = n.target l s := fun m =>
    (successor?_eq_some_iff (wellFormed_determinize consistent)).trans
      (mem_transitions_determinize consistent)
  split
  · rename_i stuck
    apply Option.eq_none_iff_forall_ne_some.mpr
    intro m reached
    exact target_ne_empty_iff.mpr ((leads m).mp reached).2.1 stuck
  · rename_i full
    exact (leads _).mpr ⟨found, target_ne_empty_iff.mp full, rfl⟩

/-- The run of the converted DFA goes through the closed frontiers until one is empty. -/
theorem stateAfter?_determinize (consistent : n.Consistent) (word : List S) :
    n.determinize.stateAfter? word =
      if n.closedFrontier word = ∅ then none else some (n.closedFrontier word) := by
  induction word using List.reverseRecOn with
  | nil =>
    have state : n.determinize.stateAfter? [] = n.firstLabel? := by
      simp [stateAfter?, initial_determinize consistent]
    rw [closedFrontier_nil, close_start consistent, state]
    cases begins : n.firstLabel? with
    | none => simp
    | some l => simp [firstLabel?_ne_empty begins]
  | append_singleton word s ih =>
    rw [stateAfter?_append, ih, closedFrontier_append]
    by_cases empty : n.closedFrontier word = ∅
    · rw [empty, advance_empty, close_empty]
      simp
    · rw [if_neg empty] at ih ⊢
      have found := stateAfter?_declared (wellFormed_determinize consistent) ih
      rw [Option.bind_some, successor?_determinize consistent found, target_eq_close consistent]

theorem Label.reached (arises : n.Label l) (consistent : n.Consistent) :
    ∃ word, (∀ s ∈ word, s ∈ n.inputs) ∧ n.determinize.stateAfter? word = some l := by
  obtain ⟨word, declared, rfl⟩ := arises.closedFrontier consistent
  have reached := stateAfter?_determinize consistent word
  rw [if_neg arises.ne_empty] at reached
  exact ⟨word, declared, reached⟩

theorem initial_determinize_iff (consistent : n.Consistent) :
    n.determinize.initial = some l ↔ ∃ q, n.initial = some q ∧ n.IsClosure (· = q) l := by
  rw [initial_determinize consistent]
  constructor
  · intro begins
    obtain ⟨q, initial, _⟩ := Option.map_eq_some_iff.mp begins
    exact ⟨q, initial, firstLabel?_isClosure initial begins⟩
  · intro given
    obtain ⟨q, initial, closure⟩ := given
    have begins := firstLabel?_of_initial initial
    rw [begins, closure.unique (firstLabel?_isClosure initial begins)]

theorem states_determinize_of_none (absent : n.initial = none) : n.determinize.states = ∅ := by
  apply SortedSet.eq_empty_iff.mpr
  intro l found
  rw [mem_states_determinize, n.labels_eq_nil_iff.mpr absent] at found
  cases found

theorem transitions_determinize_iff (consistent : n.Consistent) (found : l ∈ n.determinize.states) :
    ⟨.labeled l s, m⟩ ∈ n.determinize.transitions ↔
      (∃ p ∈ l, ∃ r, ⟨.labeled p s, r⟩ ∈ n.transitions) ∧
        n.IsClosure (fun r => ∃ p ∈ l, ⟨.labeled p s, r⟩ ∈ n.transitions) m := by
  rw [mem_transitions_determinize consistent, mem_outgoing]
  constructor
  · intro listed
    obtain ⟨_, reads, rfl⟩ := listed
    exact ⟨reads, target_isClosure n l s⟩
  · intro leads
    obtain ⟨reads, closure⟩ := leads
    exact ⟨found, reads, closure.unique (target_isClosure n l s)⟩

structure SubsetAutomaton (n : Automaton kind Q S) (d : DFA (SortedSet Q) S) : Prop where
  states : ∀ l, l ∈ d.states ↔
    l ≠ ∅ ∧ ∃ word, (∀ s ∈ word, s ∈ n.inputs) ∧ n.closedFrontier word = l
  states_inside : ∀ l ∈ d.states, l ⊆ n.states
  states_closed : ∀ l ∈ d.states, ∀ p ∈ l, ∀ q, ⟨.spontaneous p, q⟩ ∈ n.transitions → q ∈ l
  states_reached : ∀ l ∈ d.states,
    ∃ word, (∀ s ∈ word, s ∈ d.inputs) ∧ d.stateAfter? word = some l
  inputs : d.inputs = n.inputs
  initial : ∀ l, d.initial = some l ↔ ∃ q, n.initial = some q ∧ n.IsClosure (· = q) l
  without_initial : n.initial = none → d.initial = none ∧ d.states = ∅
  finals : ∀ l, l ∈ d.finals ↔ l ∈ d.states ∧ ∃ q ∈ l, q ∈ n.finals
  sources : ∀ t ∈ d.transitions, t.condition.state ∈ d.states
  transitions : ∀ l ∈ d.states, ∀ s m, ⟨.labeled l s, m⟩ ∈ d.transitions ↔
    (∃ p ∈ l, ∃ r, ⟨.labeled p s, r⟩ ∈ n.transitions) ∧
      n.IsClosure (fun r => ∃ p ∈ l, ⟨.labeled p s, r⟩ ∈ n.transitions) m

theorem determinize_subsetAutomaton (built : n.Built) : n.SubsetAutomaton n.determinize := by
  have valid := built.wellFormed
  have consistent := valid.toConsistent
  have arise : ∀ l, l ∈ n.determinize.states ↔ n.Label l := by
    intro l
    rw [mem_states_determinize, mem_labels consistent]
  have frontiers : ∀ l, l ∈ n.determinize.states ↔
      l ≠ ∅ ∧ ∃ word, (∀ s ∈ word, s ∈ n.inputs) ∧ n.closedFrontier word = l := by
    intro l
    rw [arise, label_iff consistent]
  have inputs := inputs_determinize consistent
  constructor
  · exact frontiers
  · intro l found
    obtain ⟨_, word, _, rfl⟩ := (frontiers l).mp found
    exact closedFrontier_subset n word
  · intro l found p member q move
    exact ((arise l).mp found).closed member move
  · intro l found
    obtain ⟨word, declared, reached⟩ := ((arise l).mp found).reached consistent
    exact ⟨word, inputs ▸ declared, reached⟩
  · exact inputs
  · intro l
    exact initial_determinize_iff consistent
  · intro absent
    have uninitial : n.determinize.initial = none := by
      rw [initial_determinize consistent, firstLabel?, absent]
      rfl
    exact ⟨uninitial, states_determinize_of_none absent⟩
  · intro l
    exact n.mem_finals_determinize
  · intro t listed
    exact ((wellFormed_determinize consistent).transitions_declared t listed).1
  · intro l found s m
    exact transitions_determinize_iff consistent found

open Demonstration in
theorem exampleNfa_subsetAutomaton :
    exampleNfa.Built ∧ exampleNfa.SubsetAutomaton exampleNfa.determinize ∧
      exampleNfa.determinize.states.toList = [{2}, {3}, .ofList [0, 3], .ofList [1, 2]] :=
  ⟨exampleNfa_built, determinize_subsetAutomaton exampleNfa_built, by decide +kernel⟩

end FiniteAutomata.Automaton

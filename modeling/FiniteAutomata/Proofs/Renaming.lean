import FiniteAutomata.Proofs.BreadthFirst

/-!
Conversions that go in step. If a map takes the labels of one automaton to those of another, symbol
by symbol, then in every turn both conversions find labels that correspond, and they find them in
the same order. So one DFA is the other with its states renamed, transitions in place
(`Mirrors.renamed`).
-/
namespace FiniteAutomata

def Condition.map (f : Q → R) : Condition Q S → Condition R S
  | .labeled q s => .labeled (f q) s
  | .spontaneous q => .spontaneous (f q)

def Transition.map (f : Q → R) (t : Transition Q S) : Transition R S :=
  ⟨t.condition.map f, f t.destination⟩

section
variable [DecidableEq α] [DecidableEq β] {f : α → β} {all l new : List α} {x : α}

theorem map_putNew (injective : ∀ y ∈ l, f y = f x → y = x) :
    (putNew l x).map f = putNew (l.map f) (f x) := by
  unfold putNew
  by_cases old : x ∈ l
  · rw [if_pos old, if_pos (List.mem_map_of_mem old)]
  · have fresh : f x ∉ l.map f := by
      intro member
      obtain ⟨y, among, same⟩ := List.mem_map.mp member
      exact old (injective y among same ▸ among)
    rw [if_neg old, if_neg fresh, List.map_append, List.map_singleton]

theorem map_foldl_putNew (injective : ∀ x ∈ all, ∀ y ∈ all, f x = f y → x = y) (old : l ⊆ all)
    (later : new ⊆ all) : (new.foldl putNew l).map f = (new.map f).foldl putNew (l.map f) := by
  induction new generalizing l with
  | nil => rfl
  | cons x rest ih =>
    obtain ⟨here, rest_later⟩ := List.cons_subset.mp later
    have grown : putNew l x ⊆ all := by
      intro y member
      rcases mem_putNew.mp member with known | rfl
      · exact old known
      · exact here
    rw [List.foldl_cons, ih grown rest_later, List.map_cons, List.foldl_cons,
      map_putNew fun y member => injective y (old member) x here]

end

namespace Automaton
variable {kind other : Kind} [Ordered Q] [Ordered R] [Ordered S] {n : Automaton kind Q S}
  {m : Automaton other R S} {f : SortedSet Q → SortedSet R} {l : SortedSet Q} {k : Nat}
  {known : List (SortedSet Q)}

structure Renamed (f : Q → R) (a : Automaton kind Q S) (b : Automaton other R S) : Prop where
  states : b.states = a.states.map f
  inputs : b.inputs = a.inputs
  initial : b.initial = a.initial.map f
  finals : b.finals = a.finals.map f
  transitions : b.transitions = a.transitions.map (Transition.map f)

/-- `f` takes the labels of `n` to labels of `m` that read the same and lead to the same. -/
structure Mirrors (f : SortedSet Q → SortedSet R) (n : Automaton kind Q S)
    (m : Automaton other R S) : Prop where
  injective : ∀ l ∈ n.labels, ∀ k ∈ n.labels, f l = f k → l = k
  inputs : m.inputs = n.inputs
  first : m.firstLabel? = n.firstLabel?.map f
  outgoing : ∀ l ∈ n.labels, m.outgoing (f l) = n.outgoing l
  target : ∀ l ∈ n.labels, ∀ s ∈ n.outgoing l, m.target (f l) s = f (n.target l s)
  finals : ∀ l ∈ n.labels, (∃ r ∈ f l, r ∈ m.finals) ↔ ∃ q ∈ l, q ∈ n.finals

theorem Mirrors.targets (mirrors : Mirrors f n m) (found : l ∈ n.labels) :
    m.targets (f l) = (n.targets l).map f := by
  unfold Automaton.targets
  rw [mirrors.outgoing l found, List.map_map]
  exact List.map_congr_left (mirrors.target l found)

theorem Mirrors.scanned (mirrors : Mirrors f n m) (scanned : n.Scanned k known)
    (inside : known ⊆ n.labels) : m.Scanned k (known.map f) := by
  induction scanned with
  | start =>
    have first : n.firstLabel?.toList.map f = m.firstLabel?.toList := by
      rw [mirrors.first]
      cases n.firstLabel? <;> rfl
    rw [first]
    exact .start
  | @turn k known label before next ih =>
    have older : known ⊆ n.labels := fun l member =>
      inside (mem_foldl_putNew.mpr (.inl member))
    have leads : n.targets label ⊆ n.labels := fun l target =>
      inside (mem_foldl_putNew.mpr (.inr target))
    have found : label ∈ n.labels := older (List.mem_of_getElem? next)
    rw [map_foldl_putNew mirrors.injective older leads, ← mirrors.targets found]
    apply Scanned.turn (ih older)
    rw [List.getElem?_map, next, Option.map_some]

theorem Mirrors.labels (mirrors : Mirrors f n m) : m.labels = n.labels.map f := by
  have scanned := mirrors.scanned n.scanned_labels (List.Subset.refl _)
  apply m.scanned_labels.finished_unique
  rw [List.length_map]
  exact scanned

theorem Mirrors.transitions (mirrors : Mirrors f n m) (consistentN : n.Consistent)
    (consistentM : m.Consistent) :
    m.determinize.transitions = n.determinize.transitions.map (Transition.map f) := by
  rw [transitions_determinize_flatMap consistentM, transitions_determinize_flatMap consistentN,
    mirrors.labels, List.map_flatMap, List.flatMap_map]
  apply List.flatMap_congr
  intro l found
  rw [mirrors.outgoing l found, List.map_map]
  apply List.map_congr_left
  intro s reads
  rw [mirrors.target l found s reads]
  rfl

theorem Mirrors.mem_states (mirrors : Mirrors f n m) {k : SortedSet R} :
    k ∈ m.determinize.states ↔ ∃ l ∈ n.determinize.states, f l = k := by
  rw [mem_states_determinize, mirrors.labels, List.mem_map]
  simp only [mem_states_determinize]

theorem Mirrors.mem_finals (mirrors : Mirrors f n m) {k : SortedSet R} :
    k ∈ m.determinize.finals ↔ ∃ l ∈ n.determinize.finals, f l = k := by
  rw [mem_finals_determinize, mirrors.mem_states]
  constructor
  · intro final
    obtain ⟨⟨l, found, rfl⟩, meets⟩ := final
    have also := (mirrors.finals l (n.mem_states_determinize.mp found)).mp meets
    exact ⟨l, n.mem_finals_determinize.mpr ⟨found, also⟩, rfl⟩
  · intro final
    obtain ⟨l, member, rfl⟩ := final
    obtain ⟨found, meets⟩ := n.mem_finals_determinize.mp member
    exact ⟨⟨l, found, rfl⟩, (mirrors.finals l (n.mem_states_determinize.mp found)).mpr meets⟩

theorem Mirrors.renamed (mirrors : Mirrors f n m) (consistentN : n.Consistent)
    (consistentM : m.Consistent) : Renamed f n.determinize m.determinize where
  states := SortedSet.ext fun k => by rw [mirrors.mem_states, SortedSet.mem_map]
  inputs := by
    rw [inputs_determinize consistentM, inputs_determinize consistentN, mirrors.inputs]
  initial := by
    rw [initial_determinize consistentM, initial_determinize consistentN, mirrors.first]
  finals := SortedSet.ext fun k => by rw [mirrors.mem_finals, SortedSet.mem_map]
  transitions := mirrors.transitions consistentN consistentM

end Automaton
end FiniteAutomata

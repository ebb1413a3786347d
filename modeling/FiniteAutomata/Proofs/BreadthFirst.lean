import FiniteAutomata.Proofs.ReachableSubsets
import Mathlib.Order.Minimal

/-!
The order of a conversion. `Scanned` says how the list of labels grows: it begins with the first
label, and each label in turn has the closures its symbols lead to put last, unless the list has
them. A conversion finds its labels in the order of the finished list, its transitions are those of
the labels in that order, and no label comes before one that a shorter word leads to.
-/
namespace FiniteAutomata

theorem getElem?_of_begins {first whole : List α} {x : α} {i : Nat} (begins : first <+: whole)
    (stands : first[i]? = some x) : whole[i]? = some x := by
  obtain ⟨short, rfl⟩ := List.getElem?_eq_some_iff.mp stands
  exact List.prefix_iff_getElem?.mp begins i short

theorem eraseDups_filterMap_pairwise [DecidableEq β] (f : α → Option β) (l : List α) :
    ((l.filterMap f).eraseDups).Pairwise fun x y =>
      l.findIdx (f · = some x) < l.findIdx (f · = some y) := by
  -- what follows the first element is the list without it, so `f` changes from step to step
  induction l generalizing f with
  | nil => simp
  | cons a rest ih =>
    cases at_head : f a with
    | none =>
      rw [List.filterMap_cons_none at_head]
      exact (ih f).imp fun {x y} before => by simpa [List.findIdx_cons, at_head] using before
    | some z =>
      rw [List.filterMap_cons_some at_head, List.eraseDups_cons, List.filter_filterMap]
      have others : ∀ x ∈ (rest.filterMap fun b => (f b).filter (!· == z)).eraseDups, x ≠ z := by
        intro x member same
        simp [List.mem_eraseDups, List.mem_filterMap, same, Option.filter_eq_some_iff] at member
      have unchanged : ∀ x, x ≠ z → ∀ b, (f b).filter (!· == z) = some x ↔ f b = some x := by
        intro x differs b
        simp [Option.filter_eq_some_iff, differs]
      refine List.pairwise_cons.mpr ⟨?_, ?_⟩
      · intro x member
        simp [List.findIdx_cons, at_head, (others x member).symm]
      · refine (ih _).imp_of_mem ?_
        intro x y left right before
        simpa [List.findIdx_cons, at_head, unchanged x (others x left),
          unchanged y (others y right), (others x left).symm, (others y right).symm] using before

namespace Automaton
variable {kind : Kind} [Ordered Q] [Ordered S] {n : Automaton kind Q S} {label l m : SortedSet Q}
  {labels others : List (SortedSet Q)} {word : List S} {i j k : Nat}

def targets (n : Automaton kind Q S) (label : SortedSet Q) : List (SortedSet Q) :=
  (n.outgoing label).map (n.target label)

/-- The list of labels after so many of them, from the front, have had their turn. -/
inductive Scanned (n : Automaton kind Q S) : Nat → List (SortedSet Q) → Prop where
  | start : Scanned n 0 n.firstLabel?.toList
  | turn {k : Nat} {labels : List (SortedSet Q)} {label : SortedSet Q}
      (before : Scanned n k labels) (next : labels[k]? = some label) :
      Scanned n (k + 1) ((n.targets label).foldl putNew labels)

theorem Scanned.unique (one : n.Scanned k labels) (two : n.Scanned k others) : labels = others := by
  induction one generalizing others with
  | start =>
    cases two
    rfl
  | turn before next ih =>
    cases two with
    | turn also then_next =>
      cases ih also
      rw [next] at then_next
      cases then_next
      rfl

theorem Scanned.earlier (scanned : n.Scanned k labels) (le : j ≤ k) :
    ∃ before, n.Scanned j before ∧ before <+: labels := by
  induction scanned with
  | start =>
    obtain rfl := Nat.le_zero.mp le
    exact ⟨_, .start, List.prefix_rfl⟩
  | @turn k labels label before next ih =>
    rcases Nat.lt_or_eq_of_le le with less | rfl
    · obtain ⟨first, scanned, begins⟩ := ih (Nat.le_of_lt_succ less)
      exact ⟨first, scanned, begins.trans (prefix_foldl_putNew _ _)⟩
    · exact ⟨_, .turn before next, List.prefix_rfl⟩

/-- Only one list is finished: one that had all its turns has no label for a further one. -/
theorem Scanned.finished_unique (one : n.Scanned labels.length labels)
    (two : n.Scanned others.length others) : labels = others := by
  have never : ∀ {short long : List (SortedSet Q)}, n.Scanned short.length short →
      n.Scanned long.length long → ¬ short.length < long.length := by
    intro short long first second less
    obtain ⟨_, later, _⟩ := second.earlier less
    cases later with
    | turn before next =>
      rw [← first.unique before] at next
      simp at next
  have same : labels.length = others.length :=
    Nat.le_antisymm (Nat.le_of_not_lt (never two one)) (Nat.le_of_not_lt (never one two))
  exact one.unique (same ▸ two)

theorem Scanned.origin (scanned : n.Scanned k labels) (member : l ∈ labels) :
    n.firstLabel? = some l ∨ ∃ i < k, ∃ label, labels[i]? = some label ∧ l ∈ n.targets label := by
  induction scanned with
  | start => exact .inl (Option.mem_toList.mp member)
  | @turn k labels label before next ih =>
    have begins := prefix_foldl_putNew labels (n.targets label)
    rcases mem_foldl_putNew.mp member with old | new
    · rcases ih old with first | ⟨i, less, source, stands, leads⟩
      · exact .inl first
      · exact .inr ⟨i, Nat.lt_succ_of_lt less, source, getElem?_of_begins begins stands, leads⟩
    · exact .inr ⟨k, Nat.lt_succ_self k, label, getElem?_of_begins begins next, new⟩

theorem Scanned.targets_mem (scanned : n.Scanned (k + 1) labels) (begins : labels <+: others)
    (stands : others[k]? = some label) (leads : l ∈ n.targets label) : l ∈ labels := by
  cases scanned with
  | @turn _ before source _ next =>
    have grown := (prefix_foldl_putNew before (n.targets source)).trans begins
    have same := getElem?_of_begins grown next
    rw [stands] at same
    cases same
    exact mem_foldl_putNew.mpr (.inr leads)

theorem found_start (n : Automaton kind Q S) :
    (SubsetConstruction.start n).found = n.firstLabel?.toList := by
  cases first : n.firstLabel? with
  | none =>
    rw [SubsetConstruction.start_of_none first]
    rfl
  | some label => rw [SubsetConstruction.start_of_some first, Option.toList_some]

open SubsetConstruction in
theorem scanned_of_stepped {past : List (SortedSet Q)} {c : SubsetConstruction Q S}
    (stepped : Stepped n past c) : n.Scanned past.length c.found := by
  induction stepped with
  | begun =>
    rw [found_start]
    exact .start
  | @further past rest label c next before waiting advanced ih =>
    have queue : c.queue = label :: rest := waiting
    have turn : c.found[past.length]? = some label := by
      rw [(Stepped.tracked before).found_split, queue]
      simp
    rw [next_of_waiting waiting advanced, found_links, List.length_append, List.length_singleton]
    exact .turn ih turn

theorem scanned_labels (n : Automaton kind Q S) : n.Scanned n.labels.length n.labels :=
  scanned_of_stepped (SubsetConstruction.stepped_run n)

theorem first_label_stands (first : n.firstLabel? = some l) : n.labels[0]? = some l := by
  obtain ⟨_, unscanned, begins⟩ := n.scanned_labels.earlier (Nat.zero_le _)
  cases unscanned
  apply getElem?_of_begins begins
  simp [first]

theorem leads_to_target (consistent : n.Consistent) (found : l ∈ n.labels)
    (leads : m ∈ n.targets l) : ∃ s, n.determinize.successor? l s = some m := by
  obtain ⟨s, reads, rfl⟩ := List.mem_map.mp leads
  have declared := n.mem_states_determinize.mpr found
  exact ⟨s, (successor?_eq_some_iff (wellFormed_determinize consistent)).mpr
    ((mem_transitions_determinize consistent).mpr ⟨declared, reads, rfl⟩)⟩

theorem target_of_leads (consistent : n.Consistent)
    (next : n.determinize.successor? l s = some m) : l ∈ n.labels ∧ m ∈ n.targets l := by
  have listed := (successor?_eq_some_iff (wellFormed_determinize consistent)).mp next
  obtain ⟨declared, reads, rfl⟩ := (mem_transitions_determinize consistent).mp listed
  exact ⟨n.mem_states_determinize.mp declared, List.mem_map_of_mem reads⟩

/-- Labels that stand before a target of a label were put there no later than in its turn. -/
theorem origin_before_target (stands : n.labels[k]? = some label) (leads : m ∈ n.targets label)
    (later : n.labels[j]? = some m) (le : i ≤ j) (earlier : n.labels[i]? = some l) :
    n.firstLabel? = some l ∨
      ∃ p ≤ k, ∃ source, n.labels[p]? = some source ∧ l ∈ n.targets source := by
  obtain ⟨within, _⟩ := List.getElem?_eq_some_iff.mp stands
  obtain ⟨known, scanned, begins⟩ := n.scanned_labels.earlier (Nat.succ_le_of_lt within)
  obtain ⟨place, at_place⟩ := List.mem_iff_getElem?.mp (scanned.targets_mem begins stands leads)
  have known_later : known[j]? = some m := by
    obtain ⟨short, _⟩ := List.getElem?_eq_some_iff.mp (getElem?_of_begins begins at_place)
    have same := (getElem?_of_begins begins at_place).trans later.symm
    rwa [(List.getElem?_inj short n.labels_nodup).mp same] at at_place
  obtain ⟨short, _⟩ := List.getElem?_eq_some_iff.mp known_later
  have known_earlier : known[i]? = some known[i] := List.getElem?_eq_getElem (by omega)
  have same := getElem?_of_begins begins known_earlier
  rw [earlier, Option.some.injEq] at same
  rcases scanned.origin (same ▸ List.mem_of_getElem? known_earlier) with first | origin
  · exact .inl first
  · obtain ⟨p, less, source, at_source, put⟩ := origin
    exact .inr ⟨p, Nat.le_of_lt_succ less, source, getElem?_of_begins begins at_source, put⟩

theorem reached_no_later (consistent : n.Consistent) (le : i ≤ j)
    (earlier : n.labels[i]? = some l) (later : n.labels[j]? = some m)
    (reached : n.determinize.stateAfter? word = some m) :
    ∃ short, n.determinize.stateAfter? short = some l ∧ short.length ≤ word.length := by
  have at_first : n.determinize.stateAfter? [] = n.firstLabel? := by
    simp [stateAfter?, initial_determinize consistent]
  induction word using List.reverseRecOn generalizing i j l m with
  | nil =>
    rw [at_first] at reached
    have first := first_label_stands reached
    obtain ⟨within, _⟩ := List.getElem?_eq_some_iff.mp first
    obtain rfl := (List.getElem?_inj within n.labels_nodup).mp (first.trans later.symm)
    obtain rfl := Nat.le_zero.mp le
    rw [later] at earlier
    exact ⟨[], by rw [at_first, reached, earlier], Nat.le_refl _⟩
  | append_singleton word s ih =>
    rw [stateAfter?_append, Option.bind_eq_some_iff] at reached
    obtain ⟨label, before, next⟩ := reached
    obtain ⟨found, leads⟩ := target_of_leads consistent next
    obtain ⟨k, stands⟩ := List.mem_iff_getElem?.mp found
    rcases origin_before_target stands leads later le earlier with first | origin
    · exact ⟨[], at_first.trans first, Nat.zero_le _⟩
    · obtain ⟨p, no_later, source, at_source, put⟩ := origin
      obtain ⟨short, arrives, bounded⟩ := ih no_later at_source stands before
      obtain ⟨x, onward⟩ := leads_to_target consistent (List.mem_of_getElem? at_source) put
      refine ⟨short ++ [x], ?_, by simpa using bounded⟩
      rw [stateAfter?_append, arrives, Option.bind_some, onward]

def Shortest (d : DFA Q S) (q : Q) (word : List S) : Prop :=
  d.stateAfter? word = some q ∧ ∀ other, d.stateAfter? other = some q → word.length ≤ other.length

theorem exists_shortest {d : DFA Q S} {q : Q} (reached : d.stateAfter? word = some q) :
    ∃ short, d.Shortest q short := by
  obtain ⟨short, arrives, least⟩ := exists_minimalFor_of_wellFoundedLT
    (fun word => d.stateAfter? word = some q) List.length ⟨word, reached⟩
  refine ⟨short, arrives, ?_⟩
  intro other also
  rcases Nat.le_total short.length other.length with le | le
  · exact le
  · exact least also le

def readFrom (label : SortedSet Q) (t : Transition Q S) : Option S :=
  match t.condition with
  | .labeled q s => if q ∈ label then some s else none
  | .spontaneous _ => none

theorem outgoing_eq (n : Automaton kind Q S) (label : SortedSet Q) :
    n.outgoing label = (n.transitions.filterMap (readFrom label)).eraseDups := by
  unfold outgoing leaving
  rw [List.map_filterMap]
  congr 2
  funext t
  obtain ⟨c, q⟩ := t
  cases c with
  | spontaneous p => rfl
  | labeled p s => by_cases inside : p ∈ label <;> simp [readFrom, inside]

/-- What it is for a list of labels to be the breadth-first order of a DFA made from `n`. -/
structure BreadthFirst (n : Automaton kind Q S) (d : DFA (SortedSet Q) S)
    (labels : List (SortedSet Q)) : Prop where
  first : ∀ l, n.firstLabel? = some l ↔ ∃ q, n.initial = some q ∧ n.IsClosure (· = q) l
  symbols : ∀ l s, s ∈ n.outgoing l ↔ ∃ t ∈ n.transitions, readFrom l t = some s
  symbols_order : ∀ l, (n.outgoing l).Pairwise fun s x =>
    n.transitions.findIdx (readFrom l · = some s) < n.transitions.findIdx (readFrom l · = some x)
  targets : ∀ l s,
    n.IsClosure (fun r => ∃ p ∈ l, ⟨.labeled p s, r⟩ ∈ n.transitions) (n.target l s)
  scanned : n.Scanned labels.length labels
  only : ∀ others, n.Scanned others.length others → others = labels
  nodup : labels.Nodup
  states : ∀ l, l ∈ labels ↔ l ∈ d.states
  transitions : d.transitions =
    labels.flatMap fun l => (n.outgoing l).map fun s => ⟨.labeled l s, n.target l s⟩
  reached : ∀ l ∈ labels, ∃ word, d.Shortest l word
  nearest_first : labels.Pairwise fun l m =>
    ∀ v w, d.Shortest l v → d.Shortest m w → v.length ≤ w.length

theorem determinize_breadthFirst (built : n.Built) :
    ∃ labels, n.BreadthFirst n.determinize labels := by
  have consistent := built.wellFormed.toConsistent
  refine ⟨n.labels, ?_, ?_, ?_, target_isClosure n, n.scanned_labels, ?_, n.labels_nodup,
    ?_, ?_, ?_, ?_⟩
  · intro l
    rw [← initial_determinize consistent]
    exact initial_determinize_iff consistent
  · intro l s
    rw [outgoing_eq, List.mem_eraseDups, List.mem_filterMap]
  · intro l
    rw [outgoing_eq]
    exact eraseDups_filterMap_pairwise (readFrom l) n.transitions
  · intro others finished
    exact finished.finished_unique n.scanned_labels
  · intro l
    exact n.mem_states_determinize.symm
  · exact transitions_determinize_flatMap consistent
  · intro l found
    obtain ⟨word, _, reached⟩ := ((mem_labels consistent).mp found).reached consistent
    exact exists_shortest reached
  · rw [List.pairwise_iff_getElem]
    intro i j within bound less v w shortest reached
    obtain ⟨short, arrives, bounded⟩ := reached_no_later consistent (Nat.le_of_lt less)
      (List.getElem?_eq_getElem within) (List.getElem?_eq_getElem bound) reached.1
    exact (shortest.2 short arrives).trans bounded

open Demonstration in
/-- In the order of the labels themselves, `{2}` would stand first. -/
theorem exampleNfa_breadthFirst :
    exampleNfa.Built ∧ ∃ labels, exampleNfa.BreadthFirst exampleNfa.determinize labels ∧
      labels = [.ofList [0, 3], .ofList [1, 2], {2}, {3}] := by
  obtain ⟨labels, ordered⟩ := determinize_breadthFirst exampleNfa_built
  refine ⟨exampleNfa_built, labels, ordered, ?_⟩
  rw [← ordered.only _ exampleNfa.scanned_labels]
  decide +kernel

end Automaton
end FiniteAutomata

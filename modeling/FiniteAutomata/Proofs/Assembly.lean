import FiniteAutomata.Proofs.TableHistory

/-!
The two ways to an automaton: all its parts at once, or one addition after the other. Parts are
accepted exactly if whatever they refer to is among them; then none of the additions is refused, and
they lead to the same automaton, since the transitions that a table lists fill it again row by row.
-/
namespace FiniteAutomata

namespace Table
variable {kind : TableKind} [Ordered Q] [Ordered S] {c : Condition Q S} {rows : List (Row Q S)}
  {l : List (Transition Q S)}

theorem addRow_of_absent (absent : c ∉ rows.map Row.condition) (q : Q) :
    addRow c q rows = rows ++ [⟨c, SortedSet.insert ∅ q⟩] := by
  induction rows with
  | nil => rfl
  | cons row rest ih =>
    simp only [List.map_cons, List.mem_cons, not_or] at absent
    rw [addRow, if_neg (Ne.symm absent.1), ih absent.2, List.cons_append]

theorem addRow_last (absent : c ∉ rows.map Row.condition) (set : SortedSet Q) (q : Q) :
    addRow c q (rows ++ [⟨c, set⟩]) = rows ++ [⟨c, set.insert q⟩] := by
  induction rows with
  | nil => simp [addRow]
  | cons row rest ih =>
    simp only [List.map_cons, List.mem_cons, not_or] at absent
    rw [List.cons_append, addRow, if_neg (Ne.symm absent.1), ih absent.2, List.cons_append]

def addListed (rows : List (Row Q S)) (t : Transition Q S) : List (Row Q S) :=
  addRow t.condition t.destination rows

theorem foldl_addListed_last (absent : c ∉ rows.map Row.condition) (set : SortedSet Q)
    (more : List Q) :
    (more.map (⟨c, ·⟩)).foldl addListed (rows ++ [⟨c, set⟩]) =
      rows ++ [⟨c, set.insertAll more⟩] := by
  induction more generalizing set with
  | nil => rfl
  | cons q rest ih =>
    rw [List.map_cons, List.foldl_cons, addListed, addRow_last absent, ih]
    rfl

theorem foldl_addListed_groups {groups : List (Condition Q S × List Q)}
    (distinct : (rows.map Row.condition ++ groups.map Prod.fst).Nodup)
    (full : ∀ group ∈ groups, group.2 ≠ []) :
    (groups.flatMap fun group => group.2.map (⟨group.1, ·⟩)).foldl addListed rows =
      rows ++ groups.map fun group => ⟨group.1, .ofList group.2⟩ := by
  induction groups generalizing rows with
  | nil => simp
  | cons group rest ih =>
    obtain ⟨c, destinations⟩ := group
    obtain ⟨here, later⟩ := List.forall_mem_cons.mp full
    obtain ⟨first, more, rfl⟩ := List.exists_cons_of_ne_nil here
    have absent : c ∉ rows.map Row.condition := fun member =>
      (List.nodup_append.mp distinct).2.2 c member c (.head _) rfl
    have grouped : ((first :: more).map (⟨c, ·⟩)).foldl addListed rows =
        rows ++ [⟨c, .ofList (first :: more)⟩] := by
      rw [List.map_cons, List.foldl_cons, addListed, addRow_of_absent absent,
        foldl_addListed_last absent]
      rfl
    rw [List.flatMap_cons, List.foldl_append, grouped, ih (by simpa using distinct) later]
    simp

def additions (l : List (Transition Q S)) : List (Edit Q S) :=
  l.map fun t => .add t.condition t.destination

theorem filled_additions_append (l : List (Transition Q S)) (t : Transition Q S) :
    filled kind (additions (l ++ [t])) =
      ((filled kind (additions l)).add t.condition t.destination).1 := by
  rw [additions, List.map_append]
  exact filled_append kind _ _

theorem mem_transitions_additions {t : Transition Q S}
    (stored : ∀ t ∈ l, kind.stores t.condition = true) :
    t ∈ (filled kind (additions l)).transitions ↔ t ∈ l := by
  induction l using List.reverseRecOn with
  | nil => exact .rfl
  | append_singleton l last ih =>
    have storable := stored last (by simp)
    rw [filled_additions_append, mem_transitions_add,
      ih fun t among => stored t (List.mem_append_left _ among), List.mem_append,
      List.mem_singleton]
    simp [storable]

theorem rows_additions (stored : ∀ t ∈ l, kind.stores t.condition = true) :
    (filled kind (additions l)).rows = l.foldl addListed [] := by
  induction l using List.reverseRecOn with
  | nil => rfl
  | append_singleton l last ih =>
    have storable := stored last (by simp)
    rw [filled_additions_append, add_of_stores _ _ storable,
      ih fun t among => stored t (List.mem_append_left _ among), List.foldl_append]
    rfl

theorem rows_additions_groups {groups : List (Condition Q S × List Q)}
    (stored : ∀ group ∈ groups, kind.stores group.1 = true)
    (distinct : (groups.map Prod.fst).Nodup) (full : ∀ group ∈ groups, group.2 ≠ []) :
    (filled kind (additions (groups.flatMap fun group => group.2.map (⟨group.1, ·⟩)))).rows =
      groups.map fun group => ⟨group.1, .ofList group.2⟩ := by
  rw [rows_additions, foldl_addListed_groups (by simpa using distinct) full, List.nil_append]
  intro t listed
  obtain ⟨group, among, member⟩ := List.mem_flatMap.mp listed
  obtain ⟨q, _, rfl⟩ := List.mem_map.mp member
  exact stored group among

theorem filled_additions (t : Table kind Q S) : filled kind (additions t.transitions) = t := by
  let groups := t.rows.map fun row => (row.condition, row.destinations.toList)
  have listed : t.transitions = groups.flatMap fun group => group.2.map (⟨group.1, ·⟩) := by
    rw [List.flatMap_map]
    rfl
  have stored : ∀ group ∈ groups, kind.stores group.1 = true := by
    simpa [groups] using t.stored
  have distinct : (groups.map Prod.fst).Nodup := by
    simpa [groups, Function.comp_def] using t.distinct
  have full : ∀ group ∈ groups, group.2 ≠ [] := by
    intro group among
    obtain ⟨row, stands, rfl⟩ := List.mem_map.mp among
    exact fun empty => t.inhabited row stands (SortedSet.toList_inj.mp empty)
  apply Table.ext
  rw [listed, rows_additions_groups stored distinct full]
  simp [groups, Function.comp_def]

def Branches (t : Table kind Q S) : Prop :=
  ∃ c set, t.destinations? c = some set ∧ 2 ≤ set.size

theorem branches_iff {t : Table kind Q S} : t.Branches ↔ ¬ t.Deterministic := by
  simp only [Deterministic, not_forall, Nat.not_le]
  constructor
  · intro branches
    obtain ⟨c, set, found, several⟩ := branches
    exact ⟨_, destinations?_eq_some_iff.mp found, several⟩
  · intro branches
    obtain ⟨row, among, several⟩ := branches
    exact ⟨row.condition, row.destinations, destinations?_eq_some_iff.mpr among, several⟩

end Table

namespace Automaton
variable {kind : Kind} [Ordered Q] [Ordered S] {a : Automaton kind Q S} {c : Condition Q S} {q : Q}
  {edits others : List (Edit Q S)} {states finals : List Q} {inputs : List S}
  {table : Table kind.table Q S} {initial : Option Q} {before after : List (Transition Q S)}
  {t : Transition Q S}

/-- None of the edits is refused when its turn comes, and each takes effect that does not repeat an
earlier one. -/
def TakesEffect (a : Automaton kind Q S) (edits : List (Edit Q S)) : Prop :=
  ∀ before e after, edits = before ++ e :: after →
    ∃ edited, (a.afterAll before).edit e = .ok edited ∧ (e ∉ before → edited.done = true)

theorem afterAll_append (a : Automaton kind Q S) (edits others : List (Edit Q S)) :
    a.afterAll (edits ++ others) = (a.afterAll edits).afterAll others :=
  List.foldl_append

theorem TakesEffect.append (first : a.TakesEffect edits)
    (second : (a.afterAll edits).TakesEffect others) : a.TakesEffect (edits ++ others) := by
  intro before e after split
  -- the edit stands among the second edits or among the first; where they meet it is the second's
  rcases List.append_eq_append_iff.mp split with ⟨more, rfl, rest⟩ | ⟨more, rfl, rest⟩
  · obtain ⟨edited, given, done⟩ := second more e after rest
    rw [afterAll_append]
    refine ⟨edited, given, ?_⟩
    intro new
    exact done fun member => new (List.mem_append_right _ member)
  · cases more with
    | nil =>
      obtain ⟨edited, given, done⟩ := second [] e after rest.symm
      rw [List.append_nil] at given
      exact ⟨edited, given, fun _ => done List.not_mem_nil⟩
    | cons head more =>
      obtain ⟨rfl, _⟩ := List.cons.inj rest
      exact first before e more rfl

theorem takesEffect_map {f : α → Edit Q S} {l : List α}
    (step : ∀ before x after, l = before ++ x :: after →
      ∃ edited, (a.afterAll (before.map f)).edit (f x) = .ok edited ∧
        (f x ∉ before.map f → edited.done = true)) : a.TakesEffect (l.map f) := by
  intro before e after split
  obtain ⟨first, rest, rfl, rfl, mapped⟩ := List.map_eq_append_iff.mp split
  obtain ⟨x, last, rfl, rfl, _⟩ := List.map_eq_cons_iff.mp mapped
  exact step first x last rfl

theorem afterAll_addStates (a : Automaton kind Q S) (states : List Q) :
    a.afterAll (states.map .addState) = { a with states := a.states.insertAll states } := by
  induction states generalizing a with
  | nil => rfl
  | cons q rest ih => exact ih (a.after (.addState q))

theorem takesEffect_addStates (undeclared : a.states = ∅) (states : List Q) :
    a.TakesEffect (states.map .addState) := by
  apply takesEffect_map
  intro before q after _
  rw [afterAll_addStates, undeclared]
  refine ⟨_, rfl, ?_⟩
  intro new
  have fresh : q ∉ before := fun member => new (List.mem_map_of_mem member)
  simpa [addState] using fresh

def addition (t : Transition Q S) : Edit Q S := .addTransition t.condition t.destination

theorem edit_addTransition_of_new (declared : a.Declares c q)
    (stored : kind.table.stores c = true) (new : ⟨c, q⟩ ∉ a.transitions)
    (single : kind = .dfa → ∀ r, ⟨c, r⟩ ∉ a.transitions) :
    a.edit (.addTransition c q) = .ok ⟨{ a with table := (a.table.add c q).1 }, true, []⟩ := by
  have labeled : ¬ (kind = .dfa ∧ c.isSpontaneous = true) := by
    intro spontaneous
    have plain : kind ≠ .epsilonNfa := by simp [spontaneous.1]
    rw [labeled_of_stores plain stored] at spontaneous
    cases spontaneous.2
  have unbranched : ¬ (kind = .dfa ∧ (a.table.destinations? c).isSome = true) := by
    intro repeated
    rw [Table.destinations?_eq_none_iff.mpr (single repeated.1)] at repeated
    cases repeated.2
  have added : (a.table.add c q).2 = true := Table.added_iff.mpr ⟨stored, new⟩
  rw [edit_addTransition, addTransition, if_neg labeled, if_neg unbranched, if_pos declared]
  simp [Attempt.result, Except.map, added]

def holding (a : Automaton kind Q S) (l : List (Transition Q S)) : Automaton kind Q S :=
  { a with table := Table.filled kind.table (Table.additions l) }

theorem edit_addition (declared : ∀ t ∈ table.transitions, a.Declares t.condition t.destination)
    (single : kind = .dfa → table.Deterministic)
    (split : table.transitions = before ++ t :: after) :
    (a.holding before).edit (addition t) = .ok ⟨a.holding (before ++ [t]), true, []⟩ := by
  have earlier : ∀ u ∈ before, u ∈ table.transitions := fun u among => by simp [split, among]
  have held : ∀ u, u ∈ (a.holding before).transitions ↔ u ∈ before := fun u =>
    Table.mem_transitions_additions fun u among => Table.stores_of_mem (earlier u among)
  have listed : t ∈ table.transitions := by simp [split]
  have once : t ∉ before := by
    have nodup := table.transitions_nodup
    rw [split] at nodup
    intro member
    exact (List.nodup_append.mp nodup).2.2 t member t (.head _) rfl
  have unbranched : kind = .dfa → ∀ r, ⟨t.condition, r⟩ ∉ (a.holding before).transitions := by
    intro deterministic r repeated
    have also := (held _).mp repeated
    have same := Table.deterministic_iff.mp (single deterministic) _ _ _ (earlier _ also) listed
    rw [same] at also
    exact once also
  have added := edit_addTransition_of_new (a := a.holding before) (declared t listed)
    (Table.stores_of_mem listed) (fun member => once ((held t).mp member)) unbranched
  rw [addition, added, holding, holding, Table.filled_additions_append]

theorem afterAll_additions
    (declared : ∀ t ∈ table.transitions, a.Declares t.condition t.destination)
    (single : kind = .dfa → table.Deterministic) (blank : a.table = ∅)
    (split : table.transitions = before ++ after) :
    a.afterAll (before.map addition) = a.holding before := by
  induction before using List.reverseRecOn generalizing after with
  | nil =>
    rw [List.map_nil, holding]
    cases a
    cases blank
    rfl
  | append_singleton before t ih =>
    rw [List.append_assoc] at split
    rw [List.map_append, afterAll_append, ih split]
    exact after_of_ok (edit_addition declared single split)

theorem takesEffect_additions
    (declared : ∀ t ∈ table.transitions, a.Declares t.condition t.destination)
    (single : kind = .dfa → table.Deterministic) (blank : a.table = ∅) :
    a.TakesEffect (table.transitions.map addition) := by
  apply takesEffect_map
  intro before t after split
  rw [afterAll_additions declared single blank split]
  exact ⟨_, edit_addition declared single split, fun _ => rfl⟩

theorem edit_setInitial (declared : q ∈ a.states) :
    a.edit (.setInitial q) = .ok ⟨{ a with initial := some q }, true, []⟩ := by
  rw [edit, attempt, Edited.result_attempt, setInitial, if_pos declared]

theorem afterAll_setInitial (unset : a.initial = none)
    (declared : ∀ q ∈ initial, q ∈ a.states) :
    a.afterAll (initial.toList.map .setInitial) = { a with initial } := by
  cases initial with
  | none =>
    cases a
    cases unset
    rfl
  | some q => exact after_of_ok (edit_setInitial (declared q rfl))

theorem takesEffect_setInitial (declared : ∀ q ∈ initial, q ∈ a.states) :
    a.TakesEffect (initial.toList.map .setInitial) := by
  apply takesEffect_map
  intro before q after split
  cases initial with
  | none => simp at split
  | some p =>
    rcases List.singleton_eq_append_iff.mp split with ⟨rfl, same⟩ | ⟨_, empty⟩
    · cases same
      exact ⟨_, edit_setInitial (declared q rfl), fun _ => rfl⟩
    · cases empty

theorem edit_addFinal (declared : q ∈ a.states) : a.edit (.addFinal q) =
    .ok ⟨{ a with finals := a.finals.insert q }, q ∉ a.finals, []⟩ := by
  rw [edit, attempt, Edited.result_attempt, addFinal, if_pos declared]

theorem afterAll_addFinals (declared : ∀ q ∈ finals, q ∈ a.states) :
    a.afterAll (finals.map .addFinal) = { a with finals := a.finals.insertAll finals } := by
  induction finals generalizing a with
  | nil => rfl
  | cons q rest ih =>
    obtain ⟨here, later⟩ := List.forall_mem_cons.mp declared
    have first := after_of_ok (edit_addFinal here)
    have others := ih (a := a.after (.addFinal q)) (by rw [first]; exact later)
    rw [first] at others
    exact (congrArg (afterAll · (rest.map .addFinal)) first).trans others

theorem takesEffect_addFinals (unmarked : a.finals = ∅) (declared : ∀ q ∈ finals, q ∈ a.states) :
    a.TakesEffect (finals.map .addFinal) := by
  apply takesEffect_map
  intro before q after split
  have earlier : ∀ q ∈ before, q ∈ a.states := fun q among => declared q (by simp [split, among])
  rw [afterAll_addFinals earlier, unmarked]
  refine ⟨_, edit_addFinal (declared q (by simp [split])), ?_⟩
  intro new
  have fresh : q ∉ before := fun member => new (List.mem_map_of_mem member)
  simpa using fresh

/-- The additions that lead from the inputs alone to the automaton of these parts. -/
def assembly (states : List Q) (table : Table kind.table Q S) (initial : Option Q)
    (finals : List Q) : List (Edit Q S) :=
  states.map .addState ++ (table.transitions.map addition ++
    (initial.toList.map .setInitial ++ finals.map .addFinal))

structure PartsFit (states : List Q) (inputs : List S) (table : Table kind.table Q S)
    (initial : Option Q) (finals : List Q) : Prop where
  initial_declared : ∀ q ∈ initial, q ∈ states
  finals_declared : ∀ q ∈ finals, q ∈ states
  transitions_declared : ∀ t ∈ table.transitions, t.condition.state ∈ states ∧
    (∀ s ∈ t.condition.label?, s ∈ inputs) ∧ t.destination ∈ states

def ofParts (states : List Q) (inputs : List S) (table : Table kind.table Q S)
    (initial : Option Q) (finals : List Q) : Automaton kind Q S :=
  ⟨.ofList states, .ofList inputs, table, initial, .ofList finals⟩

theorem partsFit_iff : PartsFit states inputs table initial finals ↔
    (ofParts states inputs table initial finals).Consistent := by
  constructor
  · intro fit
    refine ⟨?_, ?_, ?_⟩
    · intro q h
      exact SortedSet.mem_ofList.mpr (fit.initial_declared q h)
    · intro q h
      exact SortedSet.mem_ofList.mpr (fit.finals_declared q (SortedSet.mem_ofList.mp h))
    · intro t h
      obtain ⟨source, symbol, destination⟩ := fit.transitions_declared t h
      exact ⟨SortedSet.mem_ofList.mpr source,
        fun s label => SortedSet.mem_ofList.mpr (symbol s label),
        SortedSet.mem_ofList.mpr destination⟩
  · intro consistent
    refine ⟨?_, ?_, ?_⟩
    · intro q h
      exact SortedSet.mem_ofList.mp (consistent.initial_declared q h)
    · intro q h
      exact SortedSet.mem_ofList.mp (consistent.finals_declared q (SortedSet.mem_ofList.mpr h))
    · intro t h
      obtain ⟨source, symbol, destination⟩ := consistent.transitions_declared t h
      exact ⟨SortedSet.mem_ofList.mp source,
        fun s label => SortedSet.mem_ofList.mp (symbol s label),
        SortedSet.mem_ofList.mp destination⟩

theorem ofParts?_cases (states : List Q) (inputs : List S) (table : Table kind.table Q S)
    (initial : Option Q) (finals : List Q) :
    (kind = .dfa ∧ table.Branches) ∧
        ofParts? states inputs table initial finals = .error .duplicateCondition ∨
      ¬ (kind = .dfa ∧ table.Branches) ∧ PartsFit states inputs table initial finals ∧
        ofParts? states inputs table initial finals =
          .ok (some (ofParts states inputs table initial finals)) ∨
      ¬ (kind = .dfa ∧ table.Branches) ∧ ¬ PartsFit states inputs table initial finals ∧
        ofParts? states inputs table initial finals = .ok none := by
  rw [partsFit_iff, Table.branches_iff]
  by_cases repeated : kind = .dfa ∧ ¬ table.Deterministic
  · exact .inl ⟨repeated, if_pos repeated⟩
  · have checked : ofParts? states inputs table initial finals =
        .ok (if (ofParts states inputs table initial finals).Consistent
          then some (ofParts states inputs table initial finals) else none) := if_neg repeated
    by_cases consistent : (ofParts states inputs table initial finals).Consistent
    · rw [if_pos consistent] at checked
      exact .inr (.inl ⟨repeated, consistent, checked⟩)
    · rw [if_neg consistent] at checked
      exact .inr (.inr ⟨repeated, consistent, checked⟩)

theorem afterAll_assembly (fit : PartsFit states inputs table initial finals)
    (single : kind = .dfa → table.Deterministic) :
    (withInputs inputs : Automaton kind Q S).afterAll (assembly states table initial finals) =
        ofParts states inputs table initial finals ∧
      (withInputs inputs : Automaton kind Q S).TakesEffect
        (assembly states table initial finals) := by
  let declared : Automaton kind Q S := { withInputs inputs with states := .ofList states }
  let connected : Automaton kind Q S := { declared with table }
  let started : Automaton kind Q S := { connected with initial }
  have consistent := partsFit_iff.mp fit
  have transitions_declared :
      ∀ t ∈ table.transitions, declared.Declares t.condition t.destination :=
    consistent.transitions_declared
  have initial_declared : ∀ q ∈ initial, q ∈ connected.states := consistent.initial_declared
  have finals_declared : ∀ q ∈ finals, q ∈ started.states := fun q among =>
    SortedSet.mem_ofList.mpr (fit.finals_declared q among)
  have states_added : (withInputs inputs).afterAll (states.map .addState) = declared :=
    afterAll_addStates _ states
  have transitions_added : declared.afterAll (table.transitions.map addition) = connected := by
    have whole := afterAll_additions transitions_declared single rfl (List.append_nil _).symm
    rw [holding, Table.filled_additions] at whole
    exact whole
  have initial_set : connected.afterAll (initial.toList.map .setInitial) = started :=
    afterAll_setInitial rfl initial_declared
  have finals_added : started.afterAll (finals.map .addFinal) =
      ofParts states inputs table initial finals := afterAll_addFinals finals_declared
  constructor
  · rw [assembly, afterAll_append, states_added, afterAll_append, transitions_added,
      afterAll_append, initial_set, finals_added]
  · apply (takesEffect_addStates rfl states).append
    rw [states_added]
    apply (takesEffect_additions transitions_declared single rfl).append
    rw [transitions_added]
    apply (takesEffect_setInitial initial_declared).append
    rw [initial_set]
    exact takesEffect_addFinals rfl finals_declared

/-- What the check of the parts says, and how the automaton it gives is built by additions. -/
structure Assembled (states : List Q) (inputs : List S) (table : Table kind.table Q S)
    (initial : Option Q) (finals : List Q) : Prop where
  accepted : (∃ a, ofParts? states inputs table initial finals = .ok (some a)) ↔
    ¬ (kind = .dfa ∧ table.Branches) ∧ PartsFit states inputs table initial finals
  incomplete : ofParts? states inputs table initial finals = .ok none ↔
    ¬ (kind = .dfa ∧ table.Branches) ∧ ¬ PartsFit states inputs table initial finals
  branching : ∀ failure, ofParts? states inputs table initial finals = .error failure ↔
    (kind = .dfa ∧ table.Branches) ∧ failure = .duplicateCondition
  assembled : ∀ a, ofParts? states inputs table initial finals = .ok (some a) →
    (withInputs inputs).afterAll (assembly states table initial finals) = a ∧
      (withInputs inputs : Automaton kind Q S).TakesEffect (assembly states table initial finals)

theorem assembled_parts (states : List Q) (inputs : List S) (table : Table kind.table Q S)
    (initial : Option Q) (finals : List Q) : Assembled states inputs table initial finals := by
  rcases ofParts?_cases states inputs table initial finals with
    ⟨branches, made⟩ | ⟨single, fit, made⟩ | ⟨single, unfit, made⟩
  · constructor <;> simp [made, branches, eq_comm]
  · constructor
    · simp [made, single, fit]
    · simp [made, fit]
    · simp [made, single]
    · intro a given
      rw [made] at given
      cases given
      apply afterAll_assembly fit
      intro deterministic
      rw [Table.branches_iff] at single
      simpa [deterministic] using single
  · constructor <;> simp [made, single, unfit]

theorem ofParts?_parts (valid : a.WellFormed) :
    ofParts? a.states.toList a.inputs.toList a.table a.initial a.finals.toList = .ok (some a) := by
  have parts : ofParts a.states.toList a.inputs.toList a.table a.initial a.finals.toList = a := by
    simp only [ofParts, SortedSet.ofList_toList]
  have fit : PartsFit a.states.toList a.inputs.toList a.table a.initial a.finals.toList := by
    rw [partsFit_iff, parts]
    exact valid.toConsistent
  have single : ¬ (kind = .dfa ∧ a.table.Branches) := by
    rw [Table.branches_iff]
    intro branches
    exact branches.2 (valid.deterministic branches.1)
  rcases ofParts?_cases a.states.toList a.inputs.toList a.table a.initial a.finals.toList with
    ⟨branches, _⟩ | ⟨_, _, made⟩ | ⟨_, unfit, _⟩
  · exact absurd branches single
  · rw [made, parts]
  · exact absurd fit unfit

/-- All parts at once and one addition after the other make the same automata, and the parts of any
automaton that was built make it again. -/
theorem ofParts?_iff_assembly (kind : Kind) (Q S : Type) [Ordered Q] [Ordered S] :
    (∀ (states : List Q) (inputs : List S) (table : Table kind.table Q S) (initial : Option Q)
        (finals : List Q), Assembled states inputs table initial finals) ∧
      ∀ a : Automaton kind Q S, a.Built →
        ofParts? a.states.toList a.inputs.toList a.table a.initial a.finals.toList =
          .ok (some a) := by
  constructor
  · exact assembled_parts
  · intro a built
    exact ofParts?_parts built.wellFormed

open Demonstration in
theorem exampleNfa_reassembled : exampleNfa.Built ∧
    ofParts? exampleNfa.states.toList exampleNfa.inputs.toList exampleNfa.table
      exampleNfa.initial exampleNfa.finals.toList = .ok (some exampleNfa) ∧
    (withInputs exampleNfa.inputs.toList).afterAll (assembly exampleNfa.states.toList
      exampleNfa.table exampleNfa.initial exampleNfa.finals.toList) = exampleNfa := by
  obtain ⟨assembled, parts⟩ := ofParts?_iff_assembly .epsilonNfa Nat Char
  have made := parts exampleNfa exampleNfa_built
  exact ⟨exampleNfa_built, made, ((assembled _ _ _ _ _).assembled _ made).1⟩

end Automaton
end FiniteAutomata

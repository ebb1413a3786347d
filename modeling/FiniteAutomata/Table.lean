import FiniteAutomata.Condition

/-!
Transition tables: for each condition the nonempty set of its destinations, the conditions in the
order in which they came in. A condition that loses its last destination is forgotten and comes in
last if it returns. The lemmas keep the two promises of the type, that no condition has two rows and
no row is empty, through an addition and a removal.
-/
namespace FiniteAutomata

inductive TableKind where
  | plain
  | spontaneous
deriving DecidableEq, Repr

def TableKind.allowsSpontaneous : TableKind → Bool
  | .plain => false
  | .spontaneous => true

def TableKind.stores (kind : TableKind) (c : Condition Q S) : Bool :=
  kind.allowsSpontaneous || !c.isSpontaneous

structure Transition (Q S : Type) where
  condition : Condition Q S
  destination : Q
deriving DecidableEq, Repr

structure Row (Q S : Type) [Ordered Q] where
  condition : Condition Q S
  destinations : SortedSet Q
deriving DecidableEq

structure Table (kind : TableKind) (Q S : Type) [Ordered Q] [Ordered S] where
  rows : List (Row Q S)
  distinct : (rows.map Row.condition).Nodup
  inhabited : ∀ row ∈ rows, row.destinations ≠ ∅
  stored : ∀ row ∈ rows, kind.stores row.condition = true
deriving DecidableEq

namespace Table
variable {kind : TableKind} [Ordered Q] [Ordered S] {c d : Condition Q S} {q r : Q}
  {rows : List (Row Q S)}

theorem ext {t u : Table kind Q S} (same : t.rows = u.rows) : t = u := by
  cases t
  cases u
  cases same
  rfl

def empty : Table kind Q S := ⟨[], .nil, nofun, nofun⟩

instance : EmptyCollection (Table kind Q S) := ⟨empty⟩

instance : Inhabited (Table kind Q S) := ⟨∅⟩

def destinations? (t : Table kind Q S) (c : Condition Q S) : Option (SortedSet Q) :=
  (t.rows.find? (·.condition = c)).map Row.destinations

def has (t : Table kind Q S) (c : Condition Q S) (q : Q) : Bool :=
  (t.destinations? c).any (q ∈ ·)

/-- The states reached from `q` by reading `s`; spontaneous moves play no part. -/
def successors (t : Table kind Q S) (q : Q) (s : S) : SortedSet Q :=
  (t.destinations? (.labeled q s)).getD ∅

/-- One transition per destination, those of one condition ascending. -/
def transitions (t : Table kind Q S) : List (Transition Q S) :=
  t.rows.flatMap fun row => row.destinations.toList.map (⟨row.condition, ·⟩)

def size (t : Table kind Q S) : Nat := t.rows.foldr (fun row sum => row.destinations.size + sum) 0

def isEmpty (t : Table kind Q S) : Bool := t.size == 0

def addRow (c : Condition Q S) (q : Q) : List (Row Q S) → List (Row Q S)
  | [] => [⟨c, SortedSet.insert ∅ q⟩]
  | row :: rest =>
    if row.condition = c then ⟨c, row.destinations.insert q⟩ :: rest else row :: addRow c q rest

def removeRow (c : Condition Q S) (q : Q) : List (Row Q S) → List (Row Q S)
  | [] => []
  | row :: rest =>
    if row.condition = c then
      let left := row.destinations.erase q
      if left = ∅ then rest else ⟨c, left⟩ :: rest
    else row :: removeRow c q rest

theorem conditions_addRow :
    (addRow c q rows).map Row.condition =
      if c ∈ rows.map Row.condition then rows.map Row.condition
      else rows.map Row.condition ++ [c] := by
  induction rows with
  | nil => simp [addRow]
  | cons row rest ih =>
    by_cases here : row.condition = c
    · simp [addRow, here]
    · simp only [addRow, here, if_false, List.map_cons, ih, List.mem_cons, Ne.symm here, false_or]
      split <;> simp

theorem conditions_removeRow :
    ((removeRow c q rows).map Row.condition).Sublist (rows.map Row.condition) := by
  induction rows with
  | nil => simp [removeRow]
  | cons row rest ih =>
    by_cases here : row.condition = c
    · by_cases gone : row.destinations.erase q = ∅ <;> simp [removeRow, here, gone]
    · simpa [removeRow, here] using ih

theorem mem_addRow {row : Row Q S} (member : row ∈ addRow c q rows) :
    row ∈ rows ∨ row.condition = c ∧ q ∈ row.destinations := by
  induction rows with
  | nil => simp_all [addRow]
  | cons first rest ih =>
    by_cases here : first.condition = c
    · simp only [addRow, here, if_true, List.mem_cons] at member
      rcases member with rfl | later
      · exact .inr ⟨rfl, by simp⟩
      · exact .inl (.tail _ later)
    · simp only [addRow, here, if_false, List.mem_cons] at member
      rcases member with rfl | later
      · exact .inl (.head _)
      · exact (ih later).imp_left (.tail _)

theorem mem_removeRow {row : Row Q S} (member : row ∈ removeRow c q rows) :
    row ∈ rows ∨ (∃ old ∈ rows, old.condition = row.condition) ∧ row.destinations ≠ ∅ := by
  induction rows with
  | nil => simp_all [removeRow]
  | cons first rest ih =>
    by_cases here : first.condition = c
    · by_cases gone : first.destinations.erase q = ∅
      · simp only [removeRow, here, gone, if_true] at member
        exact .inl (.tail _ member)
      · simp only [removeRow, here, gone, if_true, if_false, List.mem_cons] at member
        rcases member with rfl | later
        · exact .inr ⟨⟨first, .head _, here⟩, gone⟩
        · exact .inl (.tail _ later)
    · simp only [removeRow, here, if_false, List.mem_cons] at member
      rcases member with rfl | later
      · exact .inl (.head _)
      · exact (ih later).imp (.tail _) fun ⟨⟨old, among, same⟩, full⟩ =>
          ⟨⟨old, .tail _ among, same⟩, full⟩

/-- The table with the transition, and whether it was missing and can be stored. -/
def add (t : Table kind Q S) (c : Condition Q S) (q : Q) : Table kind Q S × Bool :=
  if storable : kind.stores c = true then
    ({ rows := addRow c q t.rows
       distinct := by
         rw [conditions_addRow]
         split
         · exact t.distinct
         · rename_i new
           exact List.nodup_append.mpr ⟨t.distinct, by simp, by grind⟩
       inhabited := fun row member => by
         rcases mem_addRow member with old | ⟨_, has⟩
         · exact t.inhabited row old
         · exact fun none => by simp [none] at has
       stored := fun row member => by
         rcases mem_addRow member with old | ⟨same, _⟩
         · exact t.stored row old
         · rw [same, storable] },
      !t.has c q)
  else (t, false)

def remove (t : Table kind Q S) (c : Condition Q S) (q : Q) : Table kind Q S × Bool :=
  ({ rows := removeRow c q t.rows
     distinct := conditions_removeRow.nodup t.distinct
     inhabited := fun row member => by
       rcases mem_removeRow member with old | ⟨_, full⟩
       · exact t.inhabited row old
       · exact full
     stored := fun row member => by
       rcases mem_removeRow member with old | ⟨⟨old, among, same⟩, _⟩
       · exact t.stored row old
       · exact same ▸ t.stored old among },
    t.has c q)

/-- Removes the transitions one after the other, also after one of them was missing; the truth value
says that none was. -/
def removeAll (t : Table kind Q S) (gone : List (Transition Q S)) : Table kind Q S × Bool :=
  gone.foldl (fun (u, all) tr =>
    let (v, removed) := u.remove tr.condition tr.destination
    (v, all && removed)) (t, true)

inductive Edit (Q S : Type) where
  | add (condition : Condition Q S) (destination : Q)
  | remove (condition : Condition Q S) (destination : Q)
deriving DecidableEq, Repr

def edit (t : Table kind Q S) : Edit Q S → Table kind Q S × Bool
  | .add c q => t.add c q
  | .remove c q => t.remove c q

end Table
end FiniteAutomata

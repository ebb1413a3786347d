import FiniteAutomata.Ordered

/-!
Finite sets as strictly ascending lists. A set has one representation, so equality of sets is
plain equality, and the sets of an ordered type are ordered themselves: by size, and at equal
size by the first difference. The main statements are extensionality (`SortedSet.ext`), one
membership law per operation, and that the order of sets is total and lawful (`instOrdered`).
-/
namespace FiniteAutomata

structure SortedSet (α : Type) [Ordered α] where
  toList : List α
  ascending : toList.Pairwise fun a b => compare a b = .lt
deriving DecidableEq

namespace SortedSet
variable [Ordered α] {s t : SortedSet α} {x y : α}

instance : Membership α (SortedSet α) := ⟨fun s x => x ∈ s.toList⟩

theorem mem_def : x ∈ s ↔ x ∈ s.toList := .rfl

instance : Decidable (x ∈ s) := inferInstanceAs (Decidable (x ∈ s.toList))

instance : HasSubset (SortedSet α) := ⟨fun s t => ∀ x ∈ s.toList, x ∈ t⟩

instance : Decidable (s ⊆ t) := inferInstanceAs (Decidable (∀ x ∈ s.toList, x ∈ t))

theorem nodup (s : SortedSet α) : s.toList.Nodup :=
  s.ascending.imp fun {a b} (less : compare a b = .lt) (same : a = b) =>
    Ordered.lt_irrefl b (same ▸ less)

theorem toList_inj : s.toList = t.toList ↔ s = t := by
  cases s
  cases t
  simp

theorem ext (h : ∀ x, x ∈ s ↔ x ∈ t) : s = t :=
  toList_inj.mp <| ((List.perm_ext_iff_of_nodup s.nodup t.nodup).mpr h).eq_of_pairwise
    (fun a _ _ _ less greater => absurd (Ordered.lt_trans less greater) (Ordered.lt_irrefl a))
    s.ascending t.ascending

instance : EmptyCollection (SortedSet α) := ⟨⟨[], .nil⟩⟩

instance : Inhabited (SortedSet α) := ⟨∅⟩

@[simp] theorem toList_empty : (∅ : SortedSet α).toList = [] := rfl

@[simp] theorem not_mem_empty : x ∉ (∅ : SortedSet α) := List.not_mem_nil

instance : Singleton α (SortedSet α) := ⟨fun x => ⟨[x], List.pairwise_singleton _ x⟩⟩

@[simp] theorem mem_singleton : y ∈ ({x} : SortedSet α) ↔ y = x := List.mem_singleton

theorem mem_singleton_self (x : α) : x ∈ ({x} : SortedSet α) := mem_singleton.mpr rfl

def size (s : SortedSet α) : Nat := s.toList.length

theorem size_eq_length_of_nodup {l : List α} (nodup : l.Nodup) (same : ∀ x, x ∈ s ↔ x ∈ l) :
    s.size = l.length :=
  ((List.perm_ext_iff_of_nodup s.nodup nodup).mpr same).length_eq

def isEmpty (s : SortedSet α) : Bool := s.toList.isEmpty

def min? (s : SortedSet α) : Option α := s.toList.head?

theorem mem_of_min? (least : s.min? = some x) : x ∈ s := List.mem_of_head? least

theorem min?_eq_some_iff : s.min? = some x ↔ x ∈ s ∧ ∀ y ∈ s, compare x y ≠ .gt := by
  obtain ⟨listed, ascending⟩ := s
  cases listed with
  | nil => simp [min?, mem_def]
  | cons z rest =>
    have above := (List.pairwise_cons.mp ascending).1
    simp only [min?, mem_def, List.head?_cons, Option.some.injEq, List.forall_mem_cons]
    constructor
    · rintro rfl
      refine ⟨.head _, by simp, fun y member => ?_⟩
      simp [above y member]
    · intro least
      obtain ⟨member, first, _⟩ := least
      rcases List.mem_cons.mp member with rfl | later
      · rfl
      · exact absurd (Std.OrientedCmp.gt_iff_lt.mpr (above x later)) first

def max? (s : SortedSet α) : Option α := s.toList.getLast?

theorem isEmpty_iff : s.isEmpty = true ↔ s = ∅ := by
  simp only [isEmpty, List.isEmpty_iff]
  exact ⟨fun h => ext fun x => by simp [mem_def, h], fun h => h ▸ rfl⟩

theorem eq_empty_iff : s = ∅ ↔ ∀ x, x ∉ s := by
  constructor
  · rintro rfl x
    exact not_mem_empty
  · intro none
    exact ext fun x => ⟨fun h => absurd h (none x), fun h => absurd h not_mem_empty⟩

theorem ne_empty_iff : s ≠ ∅ ↔ ∃ x, x ∈ s := by
  rw [ne_eq, eq_empty_iff]
  simp

theorem singleton_ne_empty (x : α) : ({x} : SortedSet α) ≠ ∅ :=
  ne_empty_iff.mpr ⟨x, mem_singleton_self x⟩

theorem size_le_one_iff : s.size ≤ 1 ↔ ∀ x ∈ s, ∀ y ∈ s, x = y := by
  have nodup := s.nodup
  simp only [size, mem_def]
  cases words : s.toList with
  | nil => simp
  | cons x rest =>
    cases rest with
    | nil => simp
    | cons y rest =>
      rw [words, List.nodup_cons] at nodup
      constructor
      · intro small
        simp at small
      · intro alike
        have same := alike x (by simp) y (by simp)
        exact absurd (by simp [same]) nodup.1

theorem eq_singleton_iff (small : s.size ≤ 1) : s = {x} ↔ x ∈ s := by
  constructor
  · rintro rfl
    exact mem_singleton_self x
  · intro member
    apply ext
    intro y
    rw [mem_singleton]
    constructor
    · intro also
      exact size_le_one_iff.mp small y also x member
    · rintro rfl
      exact member

theorem singleton_inj : ({x} : SortedSet α) = {y} ↔ x = y := by
  constructor
  · intro same
    have member : x ∈ ({y} : SortedSet α) := same ▸ mem_singleton_self x
    exact mem_singleton.mp member
  · rintro rfl
    rfl

def place (x : α) : List α → List α
  | [] => [x]
  | y :: rest =>
    match compare x y with
    | .lt => x :: y :: rest
    | .eq => y :: rest
    | .gt => y :: place x rest

theorem mem_place {l : List α} : y ∈ place x l ↔ y = x ∨ y ∈ l := by
  induction l with
  | nil => simp [place]
  | cons z rest ih =>
    rw [place]
    split
    · simp
    · rename_i same
      simp [Ordered.eq_of_eq same]
    · simp only [List.mem_cons, ih]
      grind

theorem place_ascending {l : List α} (h : l.Pairwise fun a b => compare a b = .lt) :
    (place x l).Pairwise fun a b => compare a b = .lt := by
  induction l with
  | nil => simp [place]
  | cons z rest ih =>
    obtain ⟨above, tail⟩ := List.pairwise_cons.mp h
    rw [place]
    split
    · rename_i less
      refine .cons (fun b hb => ?_) h
      rcases List.mem_cons.mp hb with rfl | hb
      · exact less
      · exact Ordered.lt_trans less (above b hb)
    · exact h
    · rename_i greater
      refine .cons (fun b hb => ?_) (ih tail)
      rcases mem_place.mp hb with rfl | hb
      · exact Ordered.lt_of_gt greater
      · exact above b hb

def insert (s : SortedSet α) (x : α) : SortedSet α :=
  ⟨place x s.toList, place_ascending s.ascending⟩

@[simp] theorem mem_insert : y ∈ s.insert x ↔ y = x ∨ y ∈ s := mem_place

theorem insert_eq_self_iff : s.insert x = s ↔ x ∈ s := by
  constructor
  · intro same
    rw [← same]
    exact mem_insert.mpr (.inl rfl)
  · intro member
    apply ext
    intro y
    rw [mem_insert]
    exact or_iff_right_of_imp fun same => same ▸ member

def filter (p : α → Bool) (s : SortedSet α) : SortedSet α :=
  ⟨s.toList.filter p, s.ascending.filter p⟩

@[simp] theorem mem_filter {p : α → Bool} : x ∈ s.filter p ↔ x ∈ s ∧ p x = true := List.mem_filter

@[simp] theorem filter_true : s.filter (fun _ => true) = s := ext fun x => by simp

theorem filter_filter {p q : α → Bool} : (s.filter p).filter q = s.filter fun x => p x && q x :=
  ext fun x => by simp [and_assoc]

theorem min?_filter {p : α → Bool} (kept : ∀ x ∈ s.min?, p x = true) :
    (s.filter p).min? = s.min? := by
  change (s.toList.filter p).head? = s.toList.head?
  change ∀ x ∈ s.toList.head?, p x = true at kept
  cases listed : s.toList with
  | nil => rfl
  | cons x rest =>
    rw [listed] at kept
    rw [List.filter_cons_of_pos (kept x rfl), List.head?_cons, List.head?_cons]

def erase (s : SortedSet α) (x : α) : SortedSet α := s.filter (· ≠ x)

@[simp] theorem mem_erase : y ∈ s.erase x ↔ y ∈ s ∧ y ≠ x := by simp [erase]

theorem erase_eq_self_iff : s.erase x = s ↔ x ∉ s := by
  constructor
  · intro same member
    rw [← same, mem_erase] at member
    exact member.2 rfl
  · intro absent
    apply ext
    intro y
    rw [mem_erase]
    exact and_iff_left_of_imp fun member same => absent (same ▸ member)

theorem erase_insert : (s.insert x).erase x = s.erase x := by
  apply ext
  intro y
  simp only [mem_erase, mem_insert]
  grind

theorem insert_erase (member : x ∈ s) : (s.erase x).insert x = s := by
  apply ext
  intro y
  simp only [mem_erase, mem_insert]
  grind

def insertNew (s : SortedSet α) (x : α) : SortedSet α × Bool := (s.insert x, x ∉ s)

def eraseOld (s : SortedSet α) (x : α) : SortedSet α × Bool := (s.erase x, x ∈ s)

theorem min?_eq_none_iff : s.min? = none ↔ s = ∅ := by
  rw [min?, List.head?_eq_none_iff, ← toList_inj, toList_empty]

def insertAll (s : SortedSet α) (l : List α) : SortedSet α := l.foldl insert s

@[simp] theorem mem_insertAll {l : List α} : y ∈ s.insertAll l ↔ y ∈ s ∨ y ∈ l := by
  induction l generalizing s with
  | nil => simp [insertAll]
  | cons x rest ih =>
    have := @ih (s.insert x)
    simp only [insertAll, List.foldl_cons] at this ⊢
    rw [this]
    grind [mem_insert]

def ofList (l : List α) : SortedSet α := insertAll ∅ l

@[simp] theorem mem_ofList {l : List α} : x ∈ ofList l ↔ x ∈ l := by simp [ofList]

@[simp] theorem ofList_toList (s : SortedSet α) : ofList s.toList = s := ext fun _ => mem_ofList

def union (s t : SortedSet α) : SortedSet α := s.insertAll t.toList

instance : Union (SortedSet α) := ⟨union⟩

@[simp] theorem mem_union : x ∈ s ∪ t ↔ x ∈ s ∨ x ∈ t := mem_insertAll

def meets (s t : SortedSet α) : Bool := s.toList.any (· ∈ t)

theorem meets_iff : s.meets t = true ↔ ∃ x, x ∈ s ∧ x ∈ t := by simp [meets, mem_def]

def map [Ordered β] (f : α → β) (s : SortedSet α) : SortedSet β := ofList (s.toList.map f)

@[simp] theorem mem_map [Ordered β] {f : α → β} {y : β} : y ∈ s.map f ↔ ∃ x ∈ s, f x = y := by
  rw [map, mem_ofList, List.mem_map]
  exact .rfl

theorem toList_map [Ordered β] {f : α → β}
    (monotone : ∀ x y, compare x y = .lt → compare (f x) (f y) = .lt) :
    (s.map f).toList = s.toList.map f := by
  have ascending : (s.toList.map f).Pairwise fun a b => compare a b = .lt :=
    List.pairwise_map.mpr (s.ascending.imp fun {x y} => monotone x y)
  have same : s.map f = ⟨s.toList.map f, ascending⟩ := by
    apply ext
    intro y
    rw [mem_map, mem_def, List.mem_map]
    exact .rfl
  rw [same]

/-- Smaller sets come first; of two of one size, the one that is less at the first difference. -/
instance : Ord (SortedSet α) := ⟨compareLex (compareOn size) (compareOn toList)⟩

theorem compare_def : compare s t = (compare s.size t.size).then (compare s.toList t.toList) := rfl

theorem compare_singleton : compare ({x} : SortedSet α) {y} = compare x y := by
  change (compare 1 1).then (compare [x] [y]) = compare x y
  simp

instance : Std.TransOrd (SortedSet α) :=
  inferInstanceAs (Std.TransCmp (compareLex (compareOn size) (compareOn toList)))

instance : Std.LawfulEqOrd (SortedSet α) where
  eq_of_compare {s t} h := by
    rw [compare_def, Ordering.then_eq_eq] at h
    exact toList_inj.mp (Std.compare_eq_iff_eq.mp h.2)

instance instOrdered : Ordered (SortedSet α) where
  decEq := inferInstance

end SortedSet
end FiniteAutomata

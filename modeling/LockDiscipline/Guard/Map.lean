import LockDiscipline.Guard.Location

/- Which lock guards which location. The entries are in the order of their
   locations, and a location keeps the first lock that claimed it. -/
namespace LockDiscipline

/-- The entry list `entries` is in strictly ascending order of locations. -/
abbrev GuardMap.Ordered (entries : List (Location × Guard)) : Prop :=
  entries.Pairwise fun a b => a.1.before b.1 = true

/-- Protected locations and their locks. -/
structure GuardMap where
  entries : List (Location × Guard)
  ordered : GuardMap.Ordered entries

namespace GuardMap

/-- No location is protected. -/
def empty : GuardMap := ⟨[], .nil⟩

/-- Puts an entry in its place, unless its location has one already. -/
def insertEntry (l : Location) (g : Guard) : List (Location × Guard) → List (Location × Guard)
  | [] => [(l, g)]
  | e :: rest =>
    if l.before e.1 then (l, g) :: e :: rest
    else if l = e.1 then e :: rest
    else e :: insertEntry l g rest

theorem mem_insertEntry {l : Location} {g : Guard} {entries : List (Location × Guard)}
    {x : Location × Guard} (h : x ∈ insertEntry l g entries) : x = (l, g) ∨ x ∈ entries := by
  induction entries with
  | nil => simpa [insertEntry] using h
  | cons e rest ih =>
    simp only [insertEntry] at h
    split at h
    · simpa using h
    · split at h
      · exact .inr h
      · rcases List.mem_cons.1 h with rfl | h
        · simp
        · rcases ih h with rfl | h
          · simp
          · simp [h]

theorem insertEntry_ordered (l : Location) (g : Guard) {entries : List (Location × Guard)}
    (h : Ordered entries) : Ordered (insertEntry l g entries) := by
  induction entries with
  | nil => simp [insertEntry, Ordered]
  | cons e rest ih =>
    obtain ⟨hhead, hrest⟩ := List.pairwise_cons.1 h
    simp only [insertEntry]
    split
    · next hb =>
      refine List.pairwise_cons.2 ⟨fun x hx => ?_, h⟩
      rcases List.mem_cons.1 hx with rfl | hx
      · exact hb
      · exact Location.before_trans hb (hhead x hx)
    · split
      · exact h
      · next hb hne =>
        refine List.pairwise_cons.2 ⟨fun x hx => ?_, ih hrest⟩
        rcases mem_insertEntry hx with rfl | hx
        · exact Location.before_of_not_before (by simpa using hb) hne
        · exact hhead x hx

/-- Lets `g` guard `l` if nothing does yet. -/
def insert (m : GuardMap) (l : Location) (g : Guard) : GuardMap :=
  ⟨insertEntry l g m.entries, insertEntry_ordered l g m.ordered⟩

/-- The lock that guards `l`. -/
def get? (m : GuardMap) (l : Location) : Option Guard := m.entries.lookup l

/-- Some lock guards `l`. -/
def contains (m : GuardMap) (l : Location) : Bool := (m.get? l).isSome

/-- The protected locations in order. -/
def locations (m : GuardMap) : List Location := m.entries.map Prod.fst

/-- How many locations are protected. -/
def size (m : GuardMap) : Nat := m.entries.length

end GuardMap
end LockDiscipline

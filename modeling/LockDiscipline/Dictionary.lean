/- Dictionaries: finite maps as lists of entries, in the order in which their keys were
   first entered. A lookup after `alter` is a lookup before it but for the key that
   was altered (`get?_alter`); nothing else needs to be known about dictionaries. -/
namespace LockDiscipline

theorem lookup_cons_eq {κ α : Type} [DecidableEq κ] (k : κ) (e : κ × α) (rest : List (κ × α)) :
    (e :: rest).lookup k = if k = e.1 then some e.2 else rest.lookup k := by
  obtain ⟨key, value⟩ := e
  by_cases hk : k = key
  · simp [hk]
  · rw [List.lookup_cons, beq_eq_false_iff_ne.mpr hk, if_neg hk]

/-- A finite map. No key has two entries. -/
structure Dictionary (κ α : Type) where
  entries : List (κ × α)
  distinct : (entries.map Prod.fst).Nodup

namespace Dictionary

variable {κ α : Type} [DecidableEq κ] {key : κ} {f : Option α → α} {entries : List (κ × α)}

/-- No key has an entry. -/
def empty : Dictionary κ α := ⟨[], .nil⟩

/-- Alters the entry of `key`, or makes one at the end. -/
def alterEntry (key : κ) (f : Option α → α) : List (κ × α) → List (κ × α)
  | [] => [(key, f none)]
  | e :: rest =>
    if e.1 = key then (key, f (some e.2)) :: rest
    else e :: alterEntry key f rest

theorem mem_keys_alterEntry {k : κ} (h : k ∈ (alterEntry key f entries).map Prod.fst) :
    k = key ∨ k ∈ entries.map Prod.fst := by
  induction entries with
  | nil => simpa [alterEntry] using h
  | cons e rest ih =>
    rw [alterEntry] at h
    split at h
    · next he => simpa [he] using h
    · rw [List.map_cons, List.mem_cons] at h ⊢
      rcases h with h | h
      · exact .inr (.inl h)
      · exact (ih h).imp id .inr

theorem nodup_keys_alterEntry (h : (entries.map Prod.fst).Nodup) :
    ((alterEntry key f entries).map Prod.fst).Nodup := by
  induction entries with
  | nil => simp [alterEntry]
  | cons e rest ih =>
    obtain ⟨hhead, hrest⟩ := List.nodup_cons.mp h
    rw [alterEntry]
    split
    · next he => exact List.nodup_cons.mpr ⟨he ▸ hhead, hrest⟩
    · next he =>
      refine List.nodup_cons.mpr ⟨fun hmem => ?_, ih hrest⟩
      rcases mem_keys_alterEntry hmem with hkey | hmem
      · exact he hkey
      · exact hhead hmem

/-- Gives `key` the value that `f` makes of the one it has. -/
def alter (m : Dictionary κ α) (key : κ) (f : Option α → α) : Dictionary κ α :=
  ⟨alterEntry key f m.entries, nodup_keys_alterEntry m.distinct⟩

/-- The value of a key. -/
def get? (m : Dictionary κ α) (key : κ) : Option α := m.entries.lookup key

/-- The keys that have a value. -/
def keys (m : Dictionary κ α) : List κ := m.entries.map Prod.fst

@[simp]
theorem get?_empty (k : κ) : (empty : Dictionary κ α).get? k = none := rfl

theorem lookup_alterEntry (key k : κ) (f : Option α → α) (entries : List (κ × α)) :
    (alterEntry key f entries).lookup k =
      if k = key then some (f (entries.lookup key)) else entries.lookup k := by
  induction entries with
  | nil => rw [alterEntry, lookup_cons_eq]; rfl
  | cons e rest ih =>
    rw [alterEntry, lookup_cons_eq key, lookup_cons_eq k]
    split
    · next he => rw [lookup_cons_eq, he, if_pos rfl]; split <;> rfl
    · next he =>
      rw [lookup_cons_eq, ih, if_neg (Ne.symm he)]
      by_cases hk : k = key
      · rw [if_pos hk, if_pos hk, if_neg (hk ▸ Ne.symm he)]
      · rw [if_neg hk, if_neg hk]

theorem get?_alter (m : Dictionary κ α) (key k : κ) (f : Option α → α) :
    (m.alter key f).get? k = if k = key then some (f (m.get? key)) else m.get? k :=
  lookup_alterEntry key k f m.entries

end Dictionary
end LockDiscipline

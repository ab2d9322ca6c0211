/-!
# Ordered maps

Finite maps that remember the order in which their keys were first put in.
Writing an existing key keeps its place.
-/

namespace CallBinding

/-- A finite map with its keys in the order of their first insertion. -/
structure OrderedMap (α β : Type) where
  /-- The entries, oldest key first. -/
  entries : List (α × β)
  /-- Each key occurs once. -/
  nodup_keys : (entries.map (·.1)).Nodup

namespace OrderedMap

variable {α β : Type} [DecidableEq α]

instance [DecidableEq β] : DecidableEq (OrderedMap α β) := fun m n =>
  decidable_of_iff (m.entries = n.entries) (by cases m; cases n; simp)

def empty : OrderedMap α β :=
  ⟨[], List.nodup_nil⟩

def get? (m : OrderedMap α β) (key : α) : Option β :=
  (m.entries.find? fun entry => entry.1 = key).map (·.2)

/-- Writes an entry into a list of entries, in place when the key is there. -/
def write (key : α) (value : β) : List (α × β) → List (α × β)
  | [] => [(key, value)]
  | entry :: rest =>
      if entry.1 = key then (key, value) :: rest else entry :: write key value rest

theorem map_fst_write (key : α) (value : β) (entries : List (α × β)) :
    (write key value entries).map (·.1) =
      if key ∈ entries.map (·.1) then entries.map (·.1) else entries.map (·.1) ++ [key] := by
  induction entries with
  | nil => rfl
  | cons entry rest ih =>
      by_cases h : entry.1 = key
      · simp [write, h]
      · have h' : ¬key = entry.1 := fun e => h e.symm
        simp only [write, h, if_false, List.map_cons, ih, List.mem_cons, h', false_or]
        split <;> simp

/-- Sets a key; an existing key keeps its place. -/
def insert (m : OrderedMap α β) (key : α) (value : β) : OrderedMap α β where
  entries := write key value m.entries
  nodup_keys := by
    rw [map_fst_write]
    split
    · exact m.nodup_keys
    · rename_i h
      refine List.nodup_append.mpr ⟨m.nodup_keys, by simp, ?_⟩
      intro a ha b hb e
      simp only [List.mem_singleton] at hb
      exact h (hb ▸ e ▸ ha)

/-- Builds a map by inserting entries from left to right. -/
def ofList (entries : List (α × β)) : OrderedMap α β :=
  entries.foldl (fun m entry => m.insert entry.1 entry.2) empty

theorem get?_insert (m : OrderedMap α β) (key : α) (value : β) (other : α) :
    (m.insert key value).get? other = if key = other then some value else m.get? other := by
  show ((write key value m.entries).find? fun entry => entry.1 = other).map (·.2) =
    if key = other then some value else (m.entries.find? fun entry => entry.1 = other).map (·.2)
  generalize m.entries = entries
  induction entries with
  | nil => by_cases h : key = other <;> simp [write, h]
  | cons entry rest ih =>
      by_cases hk : entry.1 = key
      · by_cases h : key = other <;> simp [write, hk, h]
      · by_cases ho : entry.1 = other
        · have h : ¬other = key := fun e => hk (ho.trans e)
          simp [write, ho, h, Ne.symm h]
        · simpa [write, hk, ho] using ih

end OrderedMap

end CallBinding

import CallBinding.OrderedMap
import Mathlib.Data.List.Nodup

/-!
# Writing into ordered maps

A new key is written behind those that are there.  So a map is rebuilt in its
own order by writing its entries one after the other.
-/

namespace CallBinding
namespace OrderedMap

variable {α β : Type}

theorem ext_entries {m n : OrderedMap α β} (h : m.entries = n.entries) : m = n := by
  cases m
  cases n
  cases h
  rfl

variable [DecidableEq α]

theorem mem_entries_of_get? {m : OrderedMap α β} {key : α} {value : β}
    (h : m.get? key = some value) : (key, value) ∈ m.entries := by
  obtain ⟨entry, hfind, rfl⟩ := Option.map_eq_some_iff.mp h
  have hkey : entry.1 = key := by simpa using List.find?_some hfind
  exact hkey ▸ List.mem_of_find?_eq_some hfind

theorem get?_eq_none_of_not_mem {m : OrderedMap α β} {key : α}
    (h : key ∉ m.entries.map (·.1)) : m.get? key = none := by
  rw [get?, Option.map_eq_none_iff, List.find?_eq_none]
  exact fun entry hentry hkey => h (of_decide_eq_true hkey ▸ List.mem_map_of_mem hentry)

/-- A new key is written at the end. -/
theorem entries_insert_of_get?_eq_none {m : OrderedMap α β} {key : α}
    (h : m.get? key = none) (value : β) :
    (m.insert key value).entries = m.entries ++ [(key, value)] := by
  have hnone : ∀ entry ∈ m.entries, entry.1 ≠ key := by
    simpa [get?] using h
  show write key value m.entries = m.entries ++ [(key, value)]
  generalize m.entries = entries at hnone
  induction entries with
  | nil => rfl
  | cons entry rest ih =>
      have hne : entry.1 ≠ key := hnone entry List.mem_cons_self
      have hrest : write key value rest = rest ++ [(key, value)] :=
        ih fun other hother => hnone other (List.mem_cons_of_mem entry hother)
      rw [write, if_neg hne, hrest, List.cons_append]

theorem entries_foldl_insert (m : OrderedMap α β) {entries : List (α × β)}
    (h : ((m.entries ++ entries).map (·.1)).Nodup) :
    (entries.foldl (fun m entry => m.insert entry.1 entry.2) m).entries = m.entries ++ entries := by
  induction entries generalizing m with
  | nil => exact (List.append_nil _).symm
  | cons entry rest ih =>
      have hnew : entry.1 ∉ m.entries.map (·.1) := fun hold => by
        rw [List.map_append, List.nodup_append] at h
        exact h.2.2 _ hold entry.1 List.mem_cons_self rfl
      have hinsert := entries_insert_of_get?_eq_none (get?_eq_none_of_not_mem hnew) entry.2
      rw [List.append_cons, ← hinsert] at h ⊢
      exact ih (m.insert entry.1 entry.2) h

theorem ofList_entries (m : OrderedMap α β) : ofList m.entries = m :=
  ext_entries (entries_foldl_insert empty m.nodup_keys)

end OrderedMap
end CallBinding

import CallBinding.Proofs.Json.Value
import Mathlib.Data.List.Nodup
import Mathlib.Data.List.Perm.Basic

/-!
# Records

A record is written as its values in order, or as an object.  In an object the
order of the keys does not matter, nor do members with other keys, whatever
their values are and wherever they stand.
-/

namespace CallBinding
namespace Json

/-- The forms of a record: its values in order, or its members in any order and any others
between them. -/
inductive IsRecord (entries : List (String × Json)) : Json → Prop
  | positional : IsRecord entries (.array (entries.map (·.2)))
  | keyed {members : List (String × Json)} :
      (members.filter fun member => member.1 ∈ entries.map (·.1)).Perm entries →
      IsRecord entries (.record members)

/-- The forms of a word: a string, or an object with that key alone and no value. -/
inductive IsWord (word : String) : Json → Prop
  | text : IsWord word (.string word)
  | keyed : IsWord word (.object [(some word, .null)])

variable {entries members : List (String × Json)} {keys : List String} {key word : String}
  {json : Json}

theorem isRecord_record (entries : List (String × Json)) : IsRecord entries (.record entries) := by
  refine .keyed (List.Perm.of_eq (List.filter_eq_self.mpr fun entry hentry => ?_))
  exact decide_eq_true (List.mem_map_of_mem hentry)

theorem word?_of_isWord (h : IsWord word json) : json.word? = some word := by
  cases h <;> rfl

theorem naturalBelow?_natural {limit number : Nat} (h : number < limit) :
    (natural number).naturalBelow? limit = some number :=
  if_pos h

/-! ## Members with one key -/

theorem length_filter_key_le (hdistinct : (entries.map (·.1)).Nodup) (key : String) :
    (entries.filter fun entry => entry.1 = key).length ≤ 1 := by
  have hkeys : ((entries.filter fun entry => entry.1 = key).map (·.1)).Nodup :=
    hdistinct.sublist (List.filter_sublist.map _)
  have hall : ∀ other ∈ (entries.filter fun entry => entry.1 = key).map (·.1), other = key := by
    intro other hother
    obtain ⟨entry, hentry, rfl⟩ := List.mem_map.mp hother
    exact of_decide_eq_true (List.mem_filter.mp hentry).2
  rw [List.eq_replicate_of_mem hall, List.nodup_replicate, List.length_map] at hkeys
  exact hkeys

/-- In whatever order members stand, those with a key of the record are the record's. -/
theorem filter_key_eq (hdistinct : (entries.map (·.1)).Nodup)
    (hmembers : (members.filter fun member => member.1 ∈ keys).Perm entries) (hkey : key ∈ keys) :
    (members.filter fun member => member.1 = key) = entries.filter fun entry => entry.1 = key := by
  have hperm : (members.filter fun member => member.1 = key).Perm
      (entries.filter fun entry => entry.1 = key) := by
    have hsame := hmembers.filter fun member => decide (member.1 = key)
    rw [List.filter_filter] at hsame
    refine (List.Perm.of_eq (List.filter_congr fun member _ => ?_)).trans hsame
    by_cases hmember : member.1 = key <;> simp [hmember, hkey]
  -- What has at most one member has only one order.
  have hlength := length_filter_key_le hdistinct key
  generalize (entries.filter fun entry => entry.1 = key) = found at hperm hlength ⊢
  match found, hlength with
  | [], _ => exact List.perm_nil.mp hperm
  | [_], _ => exact List.perm_singleton.mp hperm

theorem lookup_eq_map_find? {α : Type} (entries : List (String × α)) (key : String) :
    entries.lookup key = (entries.find? fun entry => entry.1 = key).map (·.2) := by
  induction entries with
  | nil => rfl
  | cons entry rest ih =>
      rw [List.lookup_cons, ih]
      by_cases hkey : entry.1 = key
      · simp [hkey]
      · simp [hkey, beq_false_of_ne (Ne.symm hkey)]

theorem lookup_eq_of_perm (hdistinct : (entries.map (·.1)).Nodup)
    (hmembers : (members.filter fun member => member.1 ∈ keys).Perm entries) (hkey : key ∈ keys) :
    members.lookup key = entries.lookup key := by
  rw [lookup_eq_map_find?, lookup_eq_map_find?, ← List.head?_filter,
    filter_key_eq hdistinct hmembers hkey, List.head?_filter]

theorem lookup_of_mem (hdistinct : (entries.map (·.1)).Nodup) {entry : String × Json}
    (hentry : entry ∈ entries) : entries.lookup entry.1 = some entry.2 := by
  rw [lookup_eq_map_find?]
  cases hfind : entries.find? fun other => other.1 = entry.1 with
  | none =>
      have hnone := List.find?_eq_none.mp hfind entry hentry
      exact absurd (decide_eq_true rfl) hnone
  | some other =>
      have hkey : other.1 = entry.1 := by simpa using List.find?_some hfind
      have hother := List.mem_of_find?_eq_some hfind
      rw [List.inj_on_of_nodup_map hdistinct hother hentry hkey, Option.map_some]

/-! ## Reading a record -/

/-- The keys of an object are looked up in the record that it is a form of. -/
theorem valuesByKey?_of_perm (hdistinct : (entries.map (·.1)).Nodup)
    (hmembers : (members.filter fun member => member.1 ∈ keys).Perm entries) :
    valuesByKey? keys (members.map fun member => (some member.1, member.2)) =
      some (keys.map fun key => entries.lookup key) := by
  have htexts : (members.map fun member => (some member.1, member.2)).all
      (fun member => member.1.isSome) = true := by simp
  have honce : keys.all (fun key => ((members.map fun member => (some member.1, member.2)).filter
      fun member => member.1 = some key).length ≤ 1) = true := by
    refine List.all_eq_true.mpr fun key hkey => decide_eq_true ?_
    have hlength := length_filter_key_le hdistinct key
    rw [← filter_key_eq hdistinct hmembers hkey] at hlength
    simpa [List.filter_map, Function.comp_def] using hlength
  rw [valuesByKey?, htexts, honce, Bool.and_self, if_pos rfl]
  refine congrArg some (List.map_congr_left fun key hkey => ?_)
  rw [← lookup_eq_of_perm hdistinct hmembers hkey, lookup_eq_map_find?]
  simp [List.find?_map, Function.comp_def]

/-- Every form of a record is read as its values in order. -/
theorem IsRecord.recordValues?_eq (h : IsRecord entries json) (hkeys : entries.map (·.1) = keys)
    (hdistinct : keys.Nodup) :
    json.recordValues? keys = some (entries.map fun entry => some entry.2) := by
  subst hkeys
  cases h with
  | positional => simp [recordValues?, Function.comp_def]
  | keyed hmembers =>
      rw [record, recordValues?, valuesByKey?_of_perm hdistinct hmembers, List.map_map]
      exact congrArg some (List.map_congr_left fun _ => lookup_of_mem hdistinct)

end Json
end CallBinding

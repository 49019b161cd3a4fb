/-!
Association lists with one entry per key, in no particular order. Writing a key drops its former
entry, so a later reading finds the value written last.
-/
namespace LexicalScope

structure Slots (κ α : Type) where
  entries : List (κ × α) := []
  distinct : (entries.map (·.1)).Nodup := by exact List.nodup_nil

namespace Slots

variable {κ α : Type}

def keys (s : Slots κ α) : List κ :=
  s.entries.map (·.1)

theorem mem_keys_empty (k : κ) : k ∈ (#[] : Array κ) ↔ k ∈ ({} : Slots κ α).keys :=
  iff_of_false (Array.not_mem_empty k) List.not_mem_nil

def filter (s : Slots κ α) (keep : κ → α → Bool) : Slots κ α where
  entries := s.entries.filter fun e => keep e.1 e.2
  distinct := s.distinct.sublist (List.filter_sublist.map _)

def size (s : Slots κ α) : Nat :=
  s.entries.length

variable [DecidableEq κ]

def get? (s : Slots κ α) (k : κ) : Option α :=
  (s.entries.find? (·.1 = k)).map (·.2)

def erase (s : Slots κ α) (k : κ) : Slots κ α :=
  s.filter fun k' _ => k' ≠ k

def set (s : Slots κ α) (k : κ) (v : α) : Slots κ α where
  entries := (k, v) :: (s.erase k).entries
  distinct := List.nodup_cons.2 ⟨by simp [erase, filter], (s.erase k).distinct⟩

theorem get?_eq_some_iff (s : Slots κ α) (k : κ) (v : α) :
    s.get? k = some v ↔ (k, v) ∈ s.entries := by
  obtain ⟨l, hl⟩ := s
  simp only [get?]
  induction l with
  | nil => simp
  | cons e l ih =>
    simp only [List.map_cons, List.nodup_cons] at hl
    by_cases he : e.1 = k
    · have hk : (k, v) ∉ l := fun h => hl.1 (List.mem_map.2 ⟨_, h, he.symm⟩)
      simp [he, hk, Prod.ext_iff, eq_comm]
    · have hne : (k, v) ≠ e := fun h => he (h ▸ rfl)
      simp [he, hne, ih hl.2]

theorem isSome_get?_iff (s : Slots κ α) (k : κ) : (s.get? k).isSome ↔ k ∈ s.keys := by
  simp only [Option.isSome_iff_exists, get?_eq_some_iff, keys, List.mem_map, Prod.exists,
    exists_and_right, exists_eq_right]

theorem get?_filter (s : Slots κ α) (keep : κ → α → Bool) (k : κ) :
    (s.filter keep).get? k = (s.get? k).filter (keep k) := by
  ext v
  simp only [get?_eq_some_iff, filter, List.mem_filter, Option.filter_eq_some_iff]

theorem get?_erase (s : Slots κ α) (k k' : κ) :
    (s.erase k).get? k' = if k' = k then none else s.get? k' := by
  rw [erase, get?_filter]
  by_cases hk : k' = k <;> cases s.get? k' <;> simp [hk, Option.filter]

theorem get?_set (s : Slots κ α) (k k' : κ) (v : α) :
    (s.set k v).get? k' = if k' = k then some v else s.get? k' := by
  by_cases hk : k' = k
  · subst hk
    simp [get?, set]
  · rw [if_neg hk, ← (get?_erase s k k').trans (if_neg hk)]
    simp [get?, set, Ne.symm hk]

end Slots

end LexicalScope

import LexicalScope.Table.Slots

/-!
Several values per key. Each key has a list without duplicates, in the order of insertion.
-/
namespace LexicalScope

structure MultiMap (κ α : Type) where
  lists : Slots κ (Array α) := {}

namespace MultiMap

variable {κ α : Type} [DecidableEq κ] [DecidableEq α]

def get? (m : MultiMap κ α) (k : κ) : Option (Array α) :=
  m.lists.get? k

def valuesAt (m : MultiMap κ α) (k : κ) : List α :=
  ((m.get? k).getD #[]).toList

/-- Appends `v` under `k` unless it is listed there, and says whether it was appended. -/
def insertNew (m : MultiMap κ α) (k : κ) (v : α) : Bool × MultiMap κ α :=
  let listed := (m.get? k).getD #[]
  if v ∈ listed then (false, m)
  else (true, { lists := m.lists.set k (listed.push v) })

def insert (m : MultiMap κ α) (k : κ) (v : α) : MultiMap κ α :=
  (m.insertNew k v).2

def size (m : MultiMap κ α) : Nat :=
  m.lists.size

def isEmpty (m : MultiMap κ α) : Bool :=
  m.size == 0

theorem valuesAt_insert (m : MultiMap κ α) (k k' : κ) (v : α) :
    (m.insert k v).valuesAt k' =
      if k' = k ∧ v ∉ m.valuesAt k then m.valuesAt k' ++ [v] else m.valuesAt k' := by
  unfold insert insertNew valuesAt get?
  by_cases hv : v ∈ (m.lists.get? k).getD #[]
  · simp [hv]
  · by_cases hk : k' = k <;> simp [hv, hk, Slots.get?_set]

theorem mem_valuesAt_insert (m : MultiMap κ α) (k k' : κ) (v x : α) :
    x ∈ (m.insert k v).valuesAt k' ↔ x ∈ m.valuesAt k' ∨ k' = k ∧ x = v := by
  rw [valuesAt_insert]
  by_cases hv : v ∈ m.valuesAt k
  · rw [if_neg fun h => h.2 hv]
    exact ⟨.inl, fun h => h.elim id fun ⟨hk, hx⟩ => hk ▸ hx ▸ hv⟩
  · by_cases hk : k' = k <;> simp [hv, hk]

theorem nodup_valuesAt_insert {m : MultiMap κ α} (h : ∀ k, (m.valuesAt k).Nodup) (k : κ) (v : α)
    (k' : κ) : ((m.insert k v).valuesAt k').Nodup := by
  rw [valuesAt_insert]
  split
  · next hnew =>
    obtain ⟨rfl, hv⟩ := hnew
    rw [List.nodup_append]
    refine ⟨h k', by simp, fun a ha b hb hab => ?_⟩
    rw [List.mem_singleton.1 hb] at hab
    exact hv (hab ▸ ha)
  · exact h k'

end MultiMap

end LexicalScope

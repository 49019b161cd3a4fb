import LexicalScope.Table.Slots

/-!
Maps that remember the order in which their keys first came in. The order and the entries are
kept apart: a look-up goes to the entries, a listing follows the order. Both hold the same keys.
Scope tables, configured globals and directive entries are such maps.
-/
namespace LexicalScope

structure OrderedMap (κ α : Type) where
  order : Array κ := #[]
  slots : Slots κ α := {}
  distinct : order.toList.Nodup := by exact List.nodup_nil
  mem_order : ∀ k, k ∈ order ↔ k ∈ slots.keys := by exact Slots.mem_keys_empty

namespace OrderedMap

variable {κ α : Type} [DecidableEq κ]

def get? (m : OrderedMap κ α) (k : κ) : Option α :=
  m.slots.get? k

def contains (m : OrderedMap κ α) (k : κ) : Bool :=
  (m.get? k).isSome

def size (m : OrderedMap κ α) : Nat :=
  m.order.size

def isEmpty (m : OrderedMap κ α) : Bool :=
  m.order.isEmpty

theorem contains_iff_mem_order (m : OrderedMap κ α) (k : κ) : m.contains k ↔ k ∈ m.order := by
  rw [m.mem_order, ← Slots.isSome_get?_iff, contains, get?]

/-- Writes `v` under `k` and gives the value it replaces. A key that is present keeps its
place, a new one goes to the end. -/
def exchange (m : OrderedMap κ α) (k : κ) (v : α) : Option α × OrderedMap κ α :=
  match h : m.get? k with
  | some old =>
    (some old,
      { m with
        slots := m.slots.set k v
        mem_order := fun k' => by
          have hk : k ∈ m.order := (m.contains_iff_mem_order k).1 (by simp [contains, h])
          rw [← Slots.isSome_get?_iff, Slots.get?_set]
          split
          · next he => simp [he, hk]
          · rw [m.mem_order, Slots.isSome_get?_iff] })
  | none =>
    (none,
      { order := m.order.push k
        slots := m.slots.set k v
        distinct := by
          have hk : k ∉ m.order := fun hk => by
            simpa [contains, h] using (m.contains_iff_mem_order k).2 hk
          simp only [Array.toList_push, List.nodup_append, List.mem_singleton]
          exact ⟨m.distinct, by simp, fun a ha b hb hab => hk (by simpa [← hb, ← hab] using ha)⟩
        mem_order := fun k' => by
          rw [← Slots.isSome_get?_iff, Slots.get?_set]
          split
          · next he => simp [he]
          · next hne => simp [hne, m.mem_order, Slots.isSome_get?_iff] })

def insert (m : OrderedMap κ α) (k : κ) (v : α) : OrderedMap κ α :=
  (m.exchange k v).2

def retain (m : OrderedMap κ α) (keep : κ → α → Bool) : OrderedMap κ α where
  order := m.order.filter fun k => (m.get? k).any (keep k)
  slots := m.slots.filter keep
  distinct := by
    rw [Array.toList_filter]
    exact m.distinct.sublist List.filter_sublist
  mem_order k := by
    rw [← Slots.isSome_get?_iff, Slots.get?_filter, Array.mem_filter, ← contains_iff_mem_order]
    cases h : m.slots.get? k <;> simp [contains, get?, h, Option.filter]

def keys (m : OrderedMap κ α) : List κ :=
  m.order.toList

def values (m : OrderedMap κ α) : List α :=
  m.keys.filterMap m.get?

def toList (m : OrderedMap κ α) : List (κ × α) :=
  m.keys.filterMap fun k => (m.get? k).map (k, ·)

def ofList (entries : List (κ × α)) : OrderedMap κ α :=
  entries.foldl (fun m e => m.insert e.1 e.2) {}

/-- Renames every key; the names given to distinct keys have to be distinct. -/
def mapKeys {μ : Type} [DecidableEq μ] (m : OrderedMap κ α) (f : κ → μ) : OrderedMap μ α :=
  ofList (m.toList.map fun e => (f e.1, e.2))

theorem get?_empty (k : κ) : ({} : OrderedMap κ α).get? k = none := rfl

theorem get?_exchange (m : OrderedMap κ α) (k k' : κ) (v : α) :
    (m.exchange k v).2.get? k' = if k' = k then some v else m.get? k' := by
  unfold exchange
  split <;> exact Slots.get?_set m.slots k k' v

theorem get?_insert (m : OrderedMap κ α) (k k' : κ) (v : α) :
    (m.insert k v).get? k' = if k' = k then some v else m.get? k' :=
  get?_exchange m k k' v

omit [DecidableEq κ] in
theorem nodup_keys (m : OrderedMap κ α) : m.keys.Nodup := m.distinct

theorem mem_keys_iff (m : OrderedMap κ α) (k : κ) : k ∈ m.keys ↔ m.contains k := by
  rw [contains_iff_mem_order, keys, Array.mem_toList_iff]

theorem keys_insert (m : OrderedMap κ α) (k : κ) (v : α) :
    (m.insert k v).keys = if k ∈ m.keys then m.keys else m.keys ++ [k] := by
  simp only [mem_keys_iff, insert, exchange]
  split
  · next h => simp [keys, contains, h]
  · next h => simp [keys, contains, h]

theorem get?_retain (m : OrderedMap κ α) (keep : κ → α → Bool) (k : κ) :
    (m.retain keep).get? k = (m.get? k).filter (keep k) :=
  Slots.get?_filter m.slots keep k

theorem keys_retain (m : OrderedMap κ α) (keep : κ → α → Bool) :
    (m.retain keep).keys = m.keys.filter fun k => (m.get? k).any (keep k) :=
  Array.toList_filter

theorem mem_toList_iff (m : OrderedMap κ α) (k : κ) (v : α) :
    (k, v) ∈ m.toList ↔ m.get? k = some v := by
  simp only [toList, List.mem_filterMap, Option.map_eq_some_iff, Prod.mk.injEq, mem_keys_iff]
  constructor
  · rintro ⟨k', _, v', hv, rfl, rfl⟩
    exact hv
  · exact fun h => ⟨k, by simp [contains, h], v, h, rfl, rfl⟩

theorem map_fst_toList (m : OrderedMap κ α) : m.toList.map (·.1) = m.keys := by
  have h (l : List κ) (hl : ∀ k ∈ l, m.contains k) :
      (l.filterMap fun k => (m.get? k).map (k, ·)).map (·.1) = l := by
    induction l with
    | nil => rfl
    | cons k l ih =>
      obtain ⟨v, hv⟩ := Option.isSome_iff_exists.1 (hl k (List.mem_cons_self ..))
      simp [hv, ih fun k' hk' => hl k' (List.mem_cons_of_mem _ hk')]
  exact h m.keys fun k hk => (m.mem_keys_iff k).1 hk

end OrderedMap

end LexicalScope

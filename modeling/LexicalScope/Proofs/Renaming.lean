import LexicalScope.Names
import LexicalScope.Scope.Globals
import Mathlib.Data.List.Induction
import Mathlib.Data.List.Nodup

/-!
Renaming maps. A file has its settings by text and its graph by handle. Handles of texts in the
name table are distinct, so every entry stays what it is, and in its place. A renamed map is filled
anew, entry by entry; inserting and dropping entries come to the same before and after.
-/
namespace LexicalScope

namespace Slots

variable {κ α : Type}

theorem eq_of_entries {s s' : Slots κ α} (h : s.entries = s'.entries) : s = s' := by
  cases s
  cases s'
  cases h
  rfl

variable [DecidableEq κ]

theorem erase_eq_self {s : Slots κ α} {k : κ} (hk : s.get? k = none) : s.erase k = s := by
  apply eq_of_entries
  refine List.filter_eq_self.2 fun e he => decide_eq_true fun heq => ?_
  have hsome := (s.get?_eq_some_iff e.1 e.2).2 he
  rw [heq, hk] at hsome
  cases hsome

/-- Dropping entries after a new one came in. -/
theorem filter_set {s : Slots κ α} {k : κ} (hk : s.get? k = none) (keep : κ → α → Bool) (v : α) :
    (s.set k v).filter keep = if keep k v then (s.filter keep).set k v else s.filter keep := by
  have hk' : (s.filter keep).get? k = none := by rw [get?_filter, hk, Option.filter_none]
  apply eq_of_entries
  show ((k, v) :: (s.erase k).entries).filter (fun e => keep e.1 e.2) = _
  rw [erase_eq_self hk, List.filter_cons]
  split
  · show _ = (k, v) :: ((s.filter keep).erase k).entries
    rw [erase_eq_self hk']
    rfl
  · rfl

end Slots

namespace OrderedMap

variable {κ α : Type} [DecidableEq κ]

section Change

variable {m : OrderedMap κ α} {k : κ}

omit [DecidableEq κ] in
theorem eq_of_keys {m' : OrderedMap κ α} (hkeys : m.keys = m'.keys) (hslots : m.slots = m'.slots) :
    m = m' := by
  cases m
  cases m'
  cases Array.toList_inj.1 hkeys
  cases hslots
  rfl

theorem not_mem_keys (hk : m.get? k = none) : k ∉ m.keys := by
  rw [mem_keys_iff, contains, hk]
  exact Bool.false_ne_true

theorem slots_insert (m : OrderedMap κ α) (k : κ) (v : α) :
    (m.insert k v).slots = m.slots.set k v := by
  unfold insert exchange
  split <;> rfl

theorem toList_insert (hk : m.get? k = none) (v : α) :
    (m.insert k v).toList = m.toList ++ [(k, v)] := by
  rw [toList, keys_insert, if_neg (not_mem_keys hk), List.filterMap_append, toList]
  congr 1
  · apply List.filterMap_congr
    intro k' hk'
    have hne : k' ≠ k := fun heq => not_mem_keys hk (heq ▸ hk')
    rw [get?_insert, if_neg hne]
  · rw [List.filterMap_cons, get?_insert, if_pos rfl]
    rfl

/-- Dropping entries after a new one came in. -/
theorem retain_insert (hk : m.get? k = none) (keep : κ → α → Bool) (v : α) :
    (m.insert k v).retain keep =
      if keep k v then (m.retain keep).insert k v else m.retain keep := by
  have hk' : (m.retain keep).get? k = none := by rw [get?_retain, hk, Option.filter_none]
  have hold : m.keys.filter (fun k' => ((m.insert k v).get? k').any (keep k')) =
      (m.retain keep).keys := by
    rw [keys_retain]
    apply List.filter_congr
    intro k' hmem
    have hne : k' ≠ k := fun heq => not_mem_keys hk (heq ▸ hmem)
    rw [get?_insert, if_neg hne]
  have hkeys : ((m.insert k v).retain keep).keys =
      (m.retain keep).keys ++ if keep k v then [k] else [] := by
    rw [keys_retain, keys_insert, if_neg (not_mem_keys hk), List.filter_append, hold,
      List.filter_singleton, get?_insert, if_pos rfl]
    cases hkeep : keep k v <;> simp [hkeep]
  have hslots : ((m.insert k v).retain keep).slots =
      if keep k v then (m.slots.filter keep).set k v else m.slots.filter keep := by
    show (m.insert k v).slots.filter keep = _
    rw [slots_insert, Slots.filter_set hk]
  split
  · next hkeep =>
    rw [if_pos hkeep] at hkeys hslots
    refine eq_of_keys ?_ ?_
    · rw [hkeys, keys_insert, if_neg (not_mem_keys hk')]
    · rw [hslots, slots_insert]
      rfl
  · next hkeep =>
    rw [if_neg hkeep] at hkeys hslots
    exact eq_of_keys (hkeys.trans (List.append_nil _)) hslots

/-- Removal leaves the other entries in their order. -/
theorem toList_retain (m : OrderedMap κ α) (keep : κ → α → Bool) :
    (m.retain keep).toList = m.toList.filter fun e => keep e.1 e.2 := by
  rw [toList, keys_retain, List.filterMap_filter, toList, List.filter_filterMap]
  apply List.filterMap_congr
  intro k _
  rw [get?_retain]
  cases m.get? k with
  | none => rfl
  | some v => cases hkeep : keep k v <;> simp [hkeep, Option.filter]

end Change

section Entries

variable {entries : List (κ × α)} {m : OrderedMap κ α}

/-- New keys go to the end, one after the other. -/
theorem keys_foldl_insert (h : (m.keys ++ entries.map (·.1)).Nodup) :
    (entries.foldl (fun m e => m.insert e.1 e.2) m).keys = m.keys ++ entries.map (·.1) := by
  induction entries generalizing m with
  | nil => simp
  | cons e entries ih =>
    rw [List.map_cons, List.append_cons] at h
    have hnew : e.1 ∉ m.keys := by
      intro hmem
      exact (List.nodup_append.1 (List.nodup_append.1 h).1).2.2 _ hmem _ (by simp) rfl
    have hkeys : (m.insert e.1 e.2).keys = m.keys ++ [e.1] := by rw [keys_insert, if_neg hnew]
    rw [List.foldl_cons, ih (by rwa [hkeys]), hkeys, List.map_cons, ← List.append_cons]

theorem get?_foldl_insert_of_not_mem {k : κ} (h : k ∉ entries.map (·.1)) :
    (entries.foldl (fun m e => m.insert e.1 e.2) m).get? k = m.get? k := by
  induction entries generalizing m with
  | nil => rfl
  | cons e entries ih =>
    simp only [List.map_cons, List.mem_cons, not_or] at h
    rw [List.foldl_cons, ih h.2, get?_insert, if_neg h.1]

theorem get?_foldl_insert_of_mem (hnodup : (entries.map (·.1)).Nodup) {k : κ} {v : α}
    (h : (k, v) ∈ entries) :
    (entries.foldl (fun m e => m.insert e.1 e.2) m).get? k = some v := by
  induction entries generalizing m with
  | nil => cases h
  | cons e entries ih =>
    rw [List.map_cons, List.nodup_cons] at hnodup
    rw [List.foldl_cons]
    rcases List.mem_cons.1 h with rfl | h
    · rw [get?_foldl_insert_of_not_mem hnodup.1, get?_insert, if_pos rfl]
    · exact ih hnodup.2 h

end Entries

theorem ofList_concat (entries : List (κ × α)) (e : κ × α) :
    ofList (entries ++ [e]) = (ofList entries).insert e.1 e.2 := by
  rw [ofList, List.foldl_append]
  rfl

/-- Removal from a map made of entries is removal from the entries. -/
theorem retain_ofList {entries : List (κ × α)} (h : (entries.map (·.1)).Nodup)
    (keep : κ → α → Bool) :
    (ofList entries).retain keep = ofList (entries.filter fun e => keep e.1 e.2) := by
  induction entries using List.reverseRecOn with
  | nil => rfl
  | append_singleton entries e ih =>
    rw [List.map_append, List.nodup_append] at h
    have hnew : (ofList entries).get? e.1 = none := by
      refine get?_foldl_insert_of_not_mem fun hmem => ?_
      exact h.2.2 _ hmem _ (List.mem_singleton_self _) rfl
    rw [ofList_concat, retain_insert hnew, ih h.1, List.filter_append, List.filter_singleton]
    cases hkeep : keep e.1 e.2 with
    | false => simp
    | true => simp [ofList_concat]

section MapKeys

variable {μ : Type} [DecidableEq μ] {m : OrderedMap κ α} {f : κ → μ}
  (hf : ∀ k ∈ m.keys, ∀ k', f k = f k' → k = k')
include hf

omit [DecidableEq μ] in
theorem nodup_map_keys : ((m.toList.map fun e => (f e.1, e.2)).map (·.1)).Nodup := by
  have hkeys : (m.toList.map fun e => (f e.1, e.2)).map (·.1) = m.keys.map f := by
    rw [List.map_map, ← m.map_fst_toList, List.map_map]
    rfl
  rw [hkeys]
  exact m.nodup_keys.map_on fun k hk k' _ => hf k hk k'

theorem keys_mapKeys : (m.mapKeys f).keys = m.keys.map f := by
  rw [mapKeys, ofList, keys_foldl_insert (by exact nodup_map_keys hf), List.map_map,
    ← m.map_fst_toList, List.map_map]
  rfl

/-- A renamed key has the value of the key. -/
theorem get?_mapKeys (k : κ) : (m.mapKeys f).get? (f k) = m.get? k := by
  cases hk : m.get? k with
  | some v =>
    refine get?_foldl_insert_of_mem (nodup_map_keys hf) ?_
    exact List.mem_map.2 ⟨(k, v), (m.mem_toList_iff k v).2 hk, rfl⟩
  | none =>
    apply get?_foldl_insert_of_not_mem
    intro hmem
    rw [List.map_map] at hmem
    obtain ⟨⟨k', v⟩, hmem, heq⟩ := List.mem_map.1 hmem
    have hv := (m.mem_toList_iff k' v).1 hmem
    have hk' : k' ∈ m.keys := (m.mem_keys_iff k').2 (by rw [contains, hv]; rfl)
    rw [hf k' hk' k heq, hk] at hv
    cases hv

theorem contains_mapKeys (k : κ) : (m.mapKeys f).contains (f k) = m.contains k := by
  rw [contains, get?_mapKeys hf, contains]

theorem toList_mapKeys : (m.mapKeys f).toList = m.toList.map fun e => (f e.1, e.2) := by
  rw [toList, keys_mapKeys hf, List.filterMap_map, toList, List.map_filterMap]
  apply List.filterMap_congr
  intro k _
  rw [Function.comp_apply, get?_mapKeys hf, Option.map_map]
  rfl

theorem mapKeys_mapKeys {ρ : Type} [DecidableEq ρ] (f' : μ → ρ) :
    (m.mapKeys f).mapKeys f' = m.mapKeys (f' ∘ f) := by
  rw [mapKeys, toList_mapKeys hf, List.map_map]
  rfl

theorem mapKeys_retain {keep : κ → α → Bool} {keep' : μ → α → Bool}
    (hkeep : ∀ k v, keep' (f k) v = keep k v) :
    (m.retain keep).mapKeys f = (m.mapKeys f).retain keep' := by
  rw [mapKeys, toList_retain, mapKeys, retain_ofList (nodup_map_keys hf), List.filter_map]
  congr 3
  exact funext fun e => (hkeep e.1 e.2).symm

omit hf in
theorem mapKeys_empty (f : κ → μ) : ({} : OrderedMap κ α).mapKeys f = {} :=
  rfl

omit hf in
theorem mapKeys_congr {f' : κ → μ} (h : ∀ k ∈ m.keys, f k = f' k) : m.mapKeys f = m.mapKeys f' := by
  rw [mapKeys, mapKeys]
  congr 1
  apply List.map_congr_left
  intro e he
  have hmem : e.1 ∈ m.keys := m.map_fst_toList ▸ List.mem_map_of_mem he
  rw [h e.1 hmem]

omit hf in
theorem mapKeys_insert {k : κ} (hk : m.get? k = none) (f : κ → μ) (v : α) :
    (m.insert k v).mapKeys f = (m.mapKeys f).insert (f k) v := by
  rw [mapKeys, toList_insert hk, List.map_append, List.map_singleton, ofList_concat]
  rfl

end MapKeys

end OrderedMap

namespace NameTable

variable {names : NameTable}

theorem mem_texts_addAll (names : NameTable) (texts : List String) (x : String) :
    x ∈ (names.addAll texts).texts ↔ x ∈ names.texts ∨ x ∈ texts := by
  induction texts generalizing names with
  | nil => simp [addAll]
  | cons text texts ih =>
    show x ∈ ((names.add text).addAll texts).texts ↔ _
    rw [ih, mem_texts_add, List.mem_cons, or_assoc]

/-- Looking up a handle finds the text that it was given to, if anything. -/
theorem eq_of_resolve?_handle {a b : String} (h : names.resolve? (names.handle b) = some a) :
    a = b := by
  obtain ⟨hlt, hget⟩ := Array.getElem?_eq_some_iff.1 h
  rw [← hget]
  exact eq_of_beq (Array.findIdx_getElem (w := hlt))

theorem resolve?_handle {a : String} (ha : a ∈ names.texts) :
    names.resolve? (names.handle a) = some a := by
  have hlt : names.texts.idxOf a < names.texts.size := Array.idxOf_lt_size_iff.2 ha
  have hget : names.resolve? (names.handle a) = some names.texts[names.texts.idxOf a] :=
    Array.getElem?_eq_getElem hlt
  exact hget.trans (congrArg some (eq_of_resolve?_handle hget))

/-- A text of the table does not share its handle. -/
theorem eq_of_handle_eq {a b : String} (ha : a ∈ names.texts)
    (h : names.handle a = names.handle b) : a = b :=
  eq_of_resolve?_handle (h ▸ resolve?_handle ha)

end NameTable

end LexicalScope

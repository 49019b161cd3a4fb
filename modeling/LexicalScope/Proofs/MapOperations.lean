import LexicalScope.Proofs.MapContainers

/-!
Insertions and removals one after the other, of any number and in any order. What they do to an
association list they do to an ordered map: each gives the same answer, the predicates are called
about the same entries in the same states, and whatever is read afterwards is read off the list.
-/
namespace LexicalScope

variable {σ κ α : Type}

/-- What is done to a map. The predicates of all removals share one state. -/
inductive MapOperation (σ κ α : Type) where
  | insert (k : κ) (v : α)
  | retain (keep : κ → α → StateM σ Bool)

/-- How a container takes the operations. -/
structure MapChanges (σ κ α γ : Type) where
  exchange : γ → κ → α → Option α × γ
  retain : γ → (κ → α → StateM σ Bool) → StateM σ γ

namespace MapChanges

variable {γ δ : Type}

/-- Gives the value that an insertion replaces, and the container as it is afterwards. -/
def apply (c : MapChanges σ κ α γ) (m : γ) : MapOperation σ κ α → StateM σ (Option α × γ)
  | .insert k v => pure (c.exchange m k v)
  | .retain keep => do return (none, ← c.retain m keep)

def run (c : MapChanges σ κ α γ) : List (MapOperation σ κ α) → γ → StateM σ (List (Option α) × γ)
  | [], m => pure ([], m)
  | op :: ops, m => do
    let (answer, m) ← c.apply m op
    let (answers, m) ← c.run ops m
    return (answer :: answers, m)

/-- Each operation does to the view of a container what it does to the container. -/
structure HasView (c : MapChanges σ κ α γ) (view : γ → δ) (c' : MapChanges σ κ α δ) : Prop where
  exchange : ∀ m k v, c'.exchange (view m) k v =
    ((c.exchange m k v).1, view (c.exchange m k v).2)
  retain : ∀ m keep, c'.retain (view m) keep = view <$> c.retain m keep

namespace HasView

variable {c : MapChanges σ κ α γ} {c' : MapChanges σ κ α δ} {view : γ → δ}

theorem apply (h : c.HasView view c') (m : γ) (op : MapOperation σ κ α) :
    c'.apply (view m) op = (fun r => (r.1, view r.2)) <$> c.apply m op := by
  cases op with
  | insert k v => simp [MapChanges.apply, h.exchange]
  | retain keep => simp [MapChanges.apply, h.retain]

theorem run (h : c.HasView view c') (ops : List (MapOperation σ κ α)) (m : γ) :
    c'.run ops (view m) = (fun r => (r.1, view r.2)) <$> c.run ops m := by
  induction ops generalizing m with
  | nil => simp [MapChanges.run]
  | cons op ops ih => simp [MapChanges.run, h.apply, ih]

end HasView

end MapChanges

def AssociationList.changes [DecidableEq κ] : MapChanges σ κ α (List (κ × α)) where
  exchange := exchange
  retain l keep := retain keep l

namespace OrderedMap

variable [DecidableEq κ]

def Raw.changes : MapChanges σ κ α (Raw κ α) where
  exchange := Raw.exchange
  retain := Raw.retainM

def changes : MapChanges σ κ α (OrderedMap κ α) where
  exchange := exchange
  retain := retainM

theorem hasView_toRaw : (changes (σ := σ) (κ := κ) (α := α)).HasView toRaw Raw.changes where
  exchange := exchange_toRaw
  retain m keep := (m.toRaw_retainM keep).symm

/-- What a map answers is what is read off the list of its entries. -/
structure AnswersAs (m : OrderedMap κ α) (l : List (κ × α)) : Prop where
  get? : ∀ k, m.get? k = l.lookup k
  contains : ∀ k, m.contains k ↔ k ∈ l.map (·.1)
  size : m.size = l.length
  isEmpty : m.isEmpty = l.isEmpty
  keys : m.keys = l.map (·.1)
  values : m.values = l.map (·.2)
  toList : m.toList = l

theorem get?_of_not_mem {m : OrderedMap κ α} {k : κ} (hk : k ∉ m.keys) : m.get? k = none := by
  rwa [mem_keys_iff, contains, Bool.not_eq_true, Option.isSome_eq_false_iff,
    Option.isNone_iff_eq_none] at hk

/-- The first entry of a key holds its value. -/
theorem lookup_entriesAt (slots : Slots κ α) (keys : List κ) (k : κ) :
    (Raw.entriesAt slots keys).lookup k = if k ∈ keys then slots.get? k else none := by
  induction keys with
  | nil => rfl
  | cons k' keys ih =>
    rw [Raw.entriesAt] at ih ⊢
    by_cases hk : k = k'
    · subst hk
      cases hv : slots.get? k <;> simp [hv, ih]
    · have hne : (k == k') = false := beq_eq_false_iff_ne.2 hk
      cases hv : slots.get? k' <;> simp [hk, hne, hv, ih, List.lookup_cons]

theorem lookup_toList (m : OrderedMap κ α) (k : κ) : m.toList.lookup k = m.get? k := by
  refine (lookup_entriesAt m.slots m.keys k).trans ?_
  split
  · rfl
  · next hk => exact (get?_of_not_mem hk).symm

theorem answersAs_toList (m : OrderedMap κ α) : m.AnswersAs m.toList where
  get? k := (m.lookup_toList k).symm
  contains k := by rw [map_fst_toList, mem_keys_iff]
  size := by
    rw [← List.length_map (·.1), map_fst_toList]
    rfl
  isEmpty := by
    rw [← List.isEmpty_map (f := (·.1)), map_fst_toList, keys, Array.isEmpty_toList]
    rfl
  keys := m.map_fst_toList.symm
  values := by
    rw [toList, List.map_filterMap, values]
    refine List.filterMap_congr fun k _ => ?_
    cases m.get? k <;> rfl
  toList := rfl

theorem fst_exchange (m : OrderedMap κ α) (k : κ) (v : α) : (m.exchange k v).1 = m.get? k := by
  unfold exchange
  split
  · next h => exact h.symm
  · next h => exact h.symm

/-- A new value of a key that is present takes the place of the old one. -/
theorem toList_insert_of_mem {m : OrderedMap κ α} {k : κ} (hk : k ∈ m.keys) (v : α) :
    (m.insert k v).toList = m.toList.map fun e => if e.1 = k then (k, v) else e := by
  rw [toList, keys_insert, if_pos hk, toList, List.map_filterMap]
  refine List.filterMap_congr fun k' _ => ?_
  rw [get?_insert]
  split
  · next heq =>
    subst heq
    obtain ⟨old, hold⟩ := Option.isSome_iff_exists.1 ((m.mem_keys_iff k').1 hk)
    simp [hold]
  · next hne => cases m.get? k' <;> simp [hne]

theorem hasView_toList :
    (changes (σ := σ) (κ := κ) (α := α)).HasView toList AssociationList.changes where
  exchange m k v := by
    show AssociationList.exchange m.toList k v = ((m.exchange k v).1, (m.insert k v).toList)
    rw [AssociationList.exchange, lookup_toList, fst_exchange]
    cases hk : m.get? k with
    | some old =>
      have hmem : k ∈ m.keys := (m.mem_keys_iff k).2 (Option.isSome_of_eq_some hk)
      rw [toList_insert_of_mem hmem]
    | none => rw [toList_insert hk]
  retain m keep := (m.toList_retainM keep).symm

/-- A key that is not there goes to the end, whether or not it was there before. -/
theorem exchange_of_not_mem {m : OrderedMap κ α} {k : κ} (hk : k ∉ m.keys) (v : α) :
    (m.exchange k v).1 = none ∧ (m.exchange k v).2.toList = m.toList ++ [(k, v)] := by
  have hnone := get?_of_not_mem hk
  exact ⟨(m.fst_exchange k v).trans hnone, toList_insert hnone v⟩

/-- The predicate is called about each entry in turn, and what it approves of is left. -/
theorem exists_run_retainM (m : OrderedMap κ α) (keep : κ → α → StateM σ Bool) (s : σ) :
    ∃ m' s' asked, (m.retainM keep).run s = (m', s') ∧
      (m.retainM (AssociationList.recorded keep)).run (s, []) = (m', s', asked) ∧
      asked.map (·.1) = m.toList ∧ m'.toList = (asked.filter (·.2)).map (·.1) := by
  obtain ⟨kept, s', asked, hrun, hrecorded, hasked, hkept⟩ :=
    AssociationList.exists_run_recorded keep m.toList s []
  refine ⟨_, s', asked, run_retainM hrun, run_retainM hrecorded, hasked, ?_⟩
  rw [toList_retain_mem (AssociationList.sublist_of_run_retain hrun), hkept]

/-- Run over an ordered map, operations give what they give over its two containers changed each
by itself, and what they give over an association list. The containers are left with the same
keys, none of them twice in the order, and the map answers as the list. A removal calls its
predicate about each entry once, in their order, and leaves those it approves of; a key that it
took out goes to the end when it is inserted again. -/
theorem refines_associationList (ops : List (MapOperation σ κ α)) (s : σ) :
    ∃ answers m s', (changes.run ops ({} : OrderedMap κ α)).run s = ((answers, m), s') ∧
      (Raw.changes.run ops {}).run s = ((answers, m.toRaw), s') ∧ m.toRaw.WF ∧
      (AssociationList.changes.run ops []).run s = ((answers, m.toList), s') ∧
      m.AnswersAs m.toList ∧
      (∀ keep : κ → α → Bool,
        m.retainM (σ := σ) (fun k v => pure (keep k v)) = pure (m.retain keep)) ∧
      ∀ (keep : κ → α → StateM σ Bool) (s₁ : σ), ∃ m' s₂ asked,
        (m.retainM keep).run s₁ = (m', s₂) ∧
        (m.retainM (AssociationList.recorded keep)).run (s₁, []) = (m', s₂, asked) ∧
        asked.map (·.1) = m.toList ∧ m'.toList = (asked.filter (·.2)).map (·.1) ∧
        ∀ k ∈ m.keys, k ∉ m'.keys → ∀ v,
          (m'.exchange k v).1 = none ∧ (m'.exchange k v).2.toList = m'.toList ++ [(k, v)] := by
  rcases h : (changes.run ops ({} : OrderedMap κ α)).run s with ⟨⟨answers, m⟩, s'⟩
  have hview {δ : Type} {view : OrderedMap κ α → δ} {c' : MapChanges σ κ α δ}
      (hc : changes.HasView view c') :
      (c'.run ops (view {})).run s = ((answers, view m), s') := by
    rw [hc.run, StateT.run_map, h]
    rfl
  refine ⟨answers, m, s', rfl, hview hasView_toRaw, m.wf_toRaw, hview hasView_toList,
    m.answersAs_toList, m.retainM_pure, fun keep s₁ => ?_⟩
  obtain ⟨m', s₂, asked, hrun, hrecorded, hasked, hkept⟩ := m.exists_run_retainM keep s₁
  exact ⟨m', s₂, asked, hrun, hrecorded, hasked, hkept, fun k _ hk v => exchange_of_not_mem hk v⟩

/-- Approves of every second entry that it is asked about. -/
def everySecond (_ : String) (_ : Nat) : StateM Bool Bool := fun kept => (kept, !kept)

def threeLetters : List (MapOperation Bool String Nat) :=
  [.insert "a" 1, .insert "b" 2, .insert "c" 3, .insert "a" 4]

theorem refines_everySecond : ∃ m m' : OrderedMap String Nat,
    (changes.run threeLetters {}).run true = (([none, none, none, some 1], m), true) ∧
    m.toList = [("a", 4), ("b", 2), ("c", 3)] ∧ (m.retainM everySecond).run true = (m', false) ∧
    "b" ∈ m.keys ∧ "b" ∉ m'.keys ∧
    (m'.exchange "b" 5).2.toList = [("a", 4), ("c", 3), ("b", 5)] := by
  obtain ⟨answers, m, s', hrun, -, -, hlist, -, -, hretain⟩ :=
    refines_associationList threeLetters true
  have hentries : (AssociationList.changes.run threeLetters []).run true =
      (([none, none, none, some 1], [("a", 4), ("b", 2), ("c", 3)]), true) := rfl
  obtain ⟨hresult, rfl⟩ := Prod.mk.inj (hlist.symm.trans hentries)
  obtain ⟨rfl, hm⟩ := Prod.mk.inj hresult
  obtain ⟨m', s₂, asked, hkept, -, -, -, hend⟩ := hretain everySecond true
  have hview : (AssociationList.retain everySecond m.toList).run true = (m'.toList, s₂) := by
    rw [← toList_retainM, StateT.run_map, hkept]
    rfl
  obtain ⟨hm', rfl⟩ : [("a", 4), ("c", 3)] = m'.toList ∧ false = s₂ := by
    rw [hm] at hview
    exact Prod.mk.inj hview
  have hold : "b" ∈ m.keys := by simp [← map_fst_toList, hm]
  have hgone : "b" ∉ m'.keys := by simp [← map_fst_toList, ← hm']
  refine ⟨m, m', hrun, hm, hkept, hold, hgone, ?_⟩
  rw [(hend "b" hold hgone 5).2, ← hm']
  rfl

end OrderedMap

end LexicalScope

import LexicalScope.Proofs.AssociationList
import LexicalScope.Proofs.Renaming

/-!
The order of an ordered map and its slots as two containers, each changed by itself. A new key is
put into the slots and then into the order. Dropping entries goes along the order, and a key that
is refused leaves the slots before the next one is looked at. Nothing but these steps keeps the two
in agreement; they do, so they are the changes of an ordered map. A predicate may have a state.
-/
namespace LexicalScope

section Filter

variable {μ : Type → Type} [Monad μ] [LawfulMonad μ] {β : Type}

theorem filterAuxM_eq_map (p : β → μ Bool) (l acc : List β) :
    l.filterAuxM p acc = (· ++ acc) <$> l.filterAuxM p [] := by
  induction l generalizing acc with
  | nil => simp [List.filterAuxM]
  | cons b l ih =>
    simp only [List.filterAuxM, map_bind]
    refine bind_congr fun kept => ?_
    rw [ih (cond kept (b :: acc) acc), ih (cond kept [b] [])]
    cases kept <;> simp

/-- The monadic filter decides on the first element before the others. -/
theorem filterM_cons (p : β → μ Bool) (b : β) (l : List β) :
    (b :: l).filterM p = do
      let kept ← p b
      let rest ← l.filterM p
      return if kept then b :: rest else rest := by
  simp only [List.filterM, List.filterAuxM, bind_assoc, pure_bind]
  refine bind_congr fun kept => ?_
  rw [filterAuxM_eq_map, bind_map_left]
  refine bind_congr fun rest => ?_
  cases kept <;> simp

end Filter

namespace Slots

variable {κ α : Type} [DecidableEq κ]

theorem filter_congr {s : Slots κ α} {keep keep' : κ → α → Bool}
    (h : ∀ k v, s.get? k = some v → keep k v = keep' k v) : s.filter keep = s.filter keep' :=
  eq_of_entries (List.filter_congr fun e he => h e.1 e.2 ((s.get?_eq_some_iff e.1 e.2).2 he))

theorem filter_erase (s : Slots κ α) (k : κ) (keep : κ → α → Bool) :
    (s.erase k).filter keep = s.filter fun k' v => k' ≠ k && keep k' v := by
  apply eq_of_entries
  show (s.entries.filter _).filter _ = _
  rw [List.filter_filter]
  exact List.filter_congr fun e _ => Bool.and_comm ..

def restrict (s : Slots κ α) (keys kept : List κ) : Slots κ α :=
  s.filter fun k _ => k ∈ keys → k ∈ kept

theorem restrict_nil (s : Slots κ α) : s.restrict [] [] = s :=
  eq_of_entries (List.filter_eq_self.2 fun e _ => by simp)

theorem restrict_cons (s : Slots κ α) {k : κ} {keys : List κ} (hk : k ∉ keys) (kept : List κ) :
    s.restrict (k :: keys) (k :: kept) = s.restrict keys kept := by
  refine filter_congr fun k' _ _ => ?_
  by_cases heq : k' = k
  · simp [heq, hk]
  · simp [heq]

theorem restrict_erase (s : Slots κ α) {k : κ} {kept : List κ} (hk : k ∉ kept) (keys : List κ) :
    (s.erase k).restrict keys kept = s.restrict (k :: keys) kept := by
  rw [restrict, filter_erase]
  refine filter_congr fun k' _ _ => ?_
  by_cases heq : k' = k
  · simp [heq, hk]
  · simp [heq]

end Slots

namespace OrderedMap

variable {σ κ α : Type} [DecidableEq κ]

/-- Two containers, with no word on how they go together. -/
structure Raw (κ α : Type) where
  order : Array κ := #[]
  slots : Slots κ α := {}

namespace Raw

def exchange (c : Raw κ α) (k : κ) (v : α) : Option α × Raw κ α :=
  match c.slots.get? k with
  | some old => (some old, { c with slots := c.slots.set k v })
  | none => (none, { order := c.order.push k, slots := c.slots.set k v })

/-- Looks `k` up and asks about its entry; a key that is refused or has none leaves the slots. -/
def ask (keep : κ → α → StateM σ Bool) (k : κ) : StateT (Slots κ α) (StateM σ) Bool := do
  let slots ← get
  let kept ← match slots.get? k with
    | some v => keep k v
    | none => pure false
  unless kept do
    set (slots.erase k)
  return kept

def retainM (c : Raw κ α) (keep : κ → α → StateM σ Bool) : StateM σ (Raw κ α) := do
  let (order, slots) ← (c.order.filterM (ask keep)).run c.slots
  return { order, slots }

theorem run_ask {slots : Slots κ α} {k : κ} {v : α} (hv : slots.get? k = some v)
    (keep : κ → α → StateM σ Bool) (s : σ) :
    ((ask keep k).run slots).run s =
      let asked := (keep k v).run s
      ((asked.1, if asked.1 then slots else slots.erase k), asked.2) := by
  rcases hasked : (keep k v).run s with ⟨kept, s'⟩
  cases kept <;> simp [ask, hv, hasked] <;> rfl

omit [DecidableEq κ] in
theorem run_filterM_cons (p : κ → StateT (Slots κ α) (StateM σ) Bool) (k : κ) (keys : List κ)
    (slots : Slots κ α) (s : σ) :
    (((k :: keys).filterM p).run slots).run s =
      let asked := ((p k).run slots).run s
      let rest := ((keys.filterM p).run asked.1.2).run asked.2
      ((if asked.1.1 then k :: rest.1.1 else rest.1.1, rest.1.2), rest.2) := by
  rw [filterM_cons]
  rfl

def entriesAt (slots : Slots κ α) (keys : List κ) : List (κ × α) :=
  keys.filterMap fun k => (slots.get? k).map (k, ·)

theorem entriesAt_erase (slots : Slots κ α) {k : κ} {keys : List κ} (hk : k ∉ keys) :
    entriesAt (slots.erase k) keys = entriesAt slots keys := by
  apply List.filterMap_congr
  intro k' hk'
  have hne : k' ≠ k := fun heq => hk (heq ▸ hk')
  rw [Slots.get?_erase, if_neg hne]

theorem mem_of_mem_entriesAt {slots : Slots κ α} {keys : List κ} {e : κ × α}
    (h : e ∈ entriesAt slots keys) : e.1 ∈ keys := by
  obtain ⟨k, hk, he⟩ := List.mem_filterMap.1 h
  obtain ⟨v, -, rfl⟩ := Option.map_eq_some_iff.1 he
  exact hk

/-- Along keys that the slots have, the walk asks about the entries in turn. No key comes again, so
what becomes of one in the slots shows in no later look-up. -/
theorem run_filterM_ask {keep : κ → α → StateM σ Bool} {keys : List κ} (hkeys : keys.Nodup)
    {slots : Slots κ α} (hslots : ∀ k ∈ keys, (slots.get? k).isSome) {s s' : σ}
    {kept : List (κ × α)}
    (h : (AssociationList.retain keep (entriesAt slots keys)).run s = (kept, s')) :
    ((keys.filterM (ask keep)).run slots).run s =
      ((kept.map (·.1), slots.restrict keys (kept.map (·.1))), s') := by
  induction keys generalizing slots s kept with
  | nil =>
    cases h
    exact congrArg (fun slots => (([], slots), s')) slots.restrict_nil.symm
  | cons k keys ih =>
    obtain ⟨hk, hkeys⟩ := List.nodup_cons.1 hkeys
    obtain ⟨hsome, hslots⟩ := List.forall_mem_cons.1 hslots
    obtain ⟨v, hv⟩ := Option.isSome_iff_exists.1 hsome
    have hentries : entriesAt slots (k :: keys) = (k, v) :: entriesAt slots keys := by
      rw [entriesAt, List.filterMap_cons, hv]
      rfl
    rcases hasked : (keep k v).run s with ⟨b, s₁⟩
    rcases hrest : (AssociationList.retain keep (entriesAt slots keys)).run s₁ with ⟨rest, s₂⟩
    rw [hentries, AssociationList.run_retain_cons, hasked] at h
    simp only [hrest] at h
    rw [run_filterM_cons, run_ask hv, hasked]
    cases b with
    | true =>
      cases h
      simp [ih hkeys hslots hrest, Slots.restrict_cons _ hk]
    | false =>
      cases h
      have hne : ∀ k' ∈ keys, k' ≠ k := fun k' hk' heq => hk (heq ▸ hk')
      have hslots' : ∀ k' ∈ keys, ((slots.erase k).get? k').isSome := fun k' hk' => by
        rw [Slots.get?_erase, if_neg (hne k' hk')]
        exact hslots k' hk'
      have hdropped : k ∉ rest.map (·.1) := fun hmem => by
        obtain ⟨e, he, heq⟩ := List.mem_map.1 hmem
        have he := (AssociationList.sublist_of_run_retain hrest).mem he
        exact hk (heq ▸ mem_of_mem_entriesAt he)
      rw [← entriesAt_erase slots hk] at hrest
      simp [ih hkeys hslots' hrest, Slots.restrict_erase _ hdropped]

/-- The two containers hold the same keys, and the order none of them twice. -/
structure WF (c : Raw κ α) : Prop where
  distinct : c.order.toList.Nodup
  mem_order : ∀ k, k ∈ c.order ↔ k ∈ c.slots.keys

def toMap (c : Raw κ α) (h : c.WF) : OrderedMap κ α where
  order := c.order
  slots := c.slots
  distinct := h.distinct
  mem_order := h.mem_order

end Raw

def toRaw (m : OrderedMap κ α) : Raw κ α where
  order := m.order
  slots := m.slots

omit [DecidableEq κ] in
theorem wf_toRaw (m : OrderedMap κ α) : m.toRaw.WF :=
  ⟨m.distinct, m.mem_order⟩

omit [DecidableEq κ] in
theorem toRaw_eq {m : OrderedMap κ α} {c : Raw κ α} (horder : c.order.toList = m.keys)
    (hslots : c.slots = m.slots) : c = m.toRaw := by
  obtain ⟨order, slots⟩ := c
  cases Array.toList_inj.1 horder
  cases hslots
  rfl

/-- An insertion into the map is one into its two containers. -/
theorem exchange_toRaw (m : OrderedMap κ α) (k : κ) (v : α) :
    m.toRaw.exchange k v = ((m.exchange k v).1, (m.exchange k v).2.toRaw) := by
  unfold exchange
  split
  · next old h =>
    rw [Raw.exchange, show m.toRaw.slots.get? k = some old from h]
    rfl
  · next h =>
    rw [Raw.exchange, show m.toRaw.slots.get? k = none from h]
    rfl

theorem retain_congr {m : OrderedMap κ α} {keep keep' : κ → α → Bool}
    (h : ∀ k v, m.get? k = some v → keep k v = keep' k v) : m.retain keep = m.retain keep' := by
  refine eq_of_keys ?_ (Slots.filter_congr h)
  rw [← map_fst_toList, ← map_fst_toList, toList_retain, toList_retain]
  congr 1
  exact List.filter_congr fun e he => h e.1 e.2 ((m.mem_toList_iff e.1 e.2).1 he)

theorem toList_retain_mem {m : OrderedMap κ α} {kept : List (κ × α)} (h : kept.Sublist m.toList) :
    (m.retain fun k _ => k ∈ kept.map (·.1)).toList = kept := by
  rw [toList_retain]
  exact AssociationList.filter_mem_keys h (m.map_fst_toList ▸ m.nodup_keys)

theorem keys_retain_mem {m : OrderedMap κ α} {kept : List (κ × α)} (h : kept.Sublist m.toList) :
    (m.retain fun k _ => k ∈ kept.map (·.1)).keys = kept.map (·.1) := by
  rw [← map_fst_toList, toList_retain_mem h]

/-- The slots have no keys but those of the order. -/
theorem restrict_keys (m : OrderedMap κ α) (kept : List κ) :
    m.slots.restrict m.keys kept = m.slots.filter fun k _ => k ∈ kept := by
  refine Slots.filter_congr fun k v hv => ?_
  have hk : k ∈ m.keys := (m.mem_keys_iff k).2 (Option.isSome_of_eq_some hv)
  simp [hk]

section Stateful

variable {m : OrderedMap κ α} {keep : κ → α → StateM σ Bool} {s s' : σ} {kept : List (κ × α)}

/-- What a predicate with a state leaves is what it leaves key by key, in both containers. -/
theorem run_retainM_toRaw (h : (AssociationList.retain keep m.toList).run s = (kept, s')) :
    (m.toRaw.retainM keep).run s = ((m.retain fun k _ => k ∈ kept.map (·.1)).toRaw, s') := by
  have hsome : ∀ k ∈ m.keys, (m.slots.get? k).isSome := fun k hk => (m.mem_keys_iff k).1 hk
  have hwalk := Raw.run_filterM_ask m.nodup_keys hsome h
  have horder : m.order.filterM (Raw.ask keep) =
      List.toArray <$> m.keys.filterM (Raw.ask keep) := by
    rw [← List.filterM_toArray, keys, Array.toArray_toList]
  rw [Raw.retainM, show m.toRaw.order = m.order from rfl, horder]
  show (fun r : (List κ × Slots κ α) × σ => (Raw.mk r.1.1.toArray r.1.2, r.2))
    (((m.keys.filterM (Raw.ask keep)).run m.slots).run s) = _
  rw [hwalk]
  refine Prod.ext (toRaw_eq ?_ ?_) rfl
  · exact (keys_retain_mem (AssociationList.sublist_of_run_retain h)).symm
  · exact m.restrict_keys (kept.map (·.1))

theorem wf_retainM (m : OrderedMap κ α) (keep : κ → α → StateM σ Bool) (s : σ) :
    ((m.toRaw.retainM keep).run s).1.WF := by
  rw [run_retainM_toRaw rfl]
  exact wf_toRaw _

/-- Drops the entries that a predicate with a state refuses. -/
def retainM (m : OrderedMap κ α) (keep : κ → α → StateM σ Bool) : StateM σ (OrderedMap κ α) :=
  fun s => (((m.toRaw.retainM keep).run s).1.toMap (m.wf_retainM keep s),
    ((m.toRaw.retainM keep).run s).2)

theorem run_retainM (h : (AssociationList.retain keep m.toList).run s = (kept, s')) :
    (m.retainM keep).run s = (m.retain fun k _ => k ∈ kept.map (·.1), s') := by
  have hraw := run_retainM_toRaw h
  refine Prod.ext (eq_of_keys ?_ ?_) ?_
  · exact congrArg (fun r => r.1.order.toList) hraw
  · exact congrArg (fun r => r.1.slots) hraw
  · exact congrArg (fun r => r.2) hraw

theorem toRaw_retainM (m : OrderedMap κ α) (keep : κ → α → StateM σ Bool) :
    toRaw <$> m.retainM keep = m.toRaw.retainM keep :=
  rfl

/-- A removal leaves in the map what it leaves in the list of its entries. -/
theorem toList_retainM (m : OrderedMap κ α) (keep : κ → α → StateM σ Bool) :
    toList <$> m.retainM keep = AssociationList.retain keep m.toList := by
  funext s
  rcases h : (AssociationList.retain keep m.toList).run s with ⟨kept, s'⟩
  have hlist := toList_retain_mem (AssociationList.sublist_of_run_retain h)
  calc
    _ = (fun r => (r.1.toList, r.2)) ((m.retainM keep).run s) := rfl
    _ = (kept, s') := by rw [run_retainM h]; exact Prod.ext hlist rfl
    _ = _ := h.symm

/-- A predicate without effects drops the entries that it does not hold of. -/
theorem retainM_pure (m : OrderedMap κ α) (keep : κ → α → Bool) :
    m.retainM (σ := σ) (fun k v => pure (keep k v)) = pure (m.retain keep) := by
  funext s
  have hkept := congrArg (StateT.run · s) (AssociationList.retain_pure (σ := σ) keep m.toList)
  refine (run_retainM hkept).trans (Prod.ext (retain_congr fun k v hv => ?_) rfl)
  rw [Bool.eq_iff_iff, decide_eq_true_iff, List.mem_map]
  constructor
  · rintro ⟨⟨k', v'⟩, hmem, rfl⟩
    obtain ⟨hmem, hkeep⟩ := List.mem_filter.1 hmem
    obtain rfl := Option.some.inj (((m.mem_toList_iff k' v').1 hmem).symm.trans hv)
    exact hkeep
  · intro hkeep
    exact ⟨(k, v), List.mem_filter.2 ⟨(m.mem_toList_iff k v).2 hv, hkeep⟩, rfl⟩

end Stateful

end OrderedMap

end LexicalScope

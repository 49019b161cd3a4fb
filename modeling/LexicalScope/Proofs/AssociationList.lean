import Mathlib.Data.List.Nodup

/-!
Association lists with one entry per key, in the order in which the keys first came in. Writing a
key that is there changes its entry in place, and a new key goes to the end. Dropping entries asks
a predicate about each of them, from the first to the last. The predicate may have a state, which
it finds as its former call left it.
-/
namespace LexicalScope.AssociationList

variable {σ κ α : Type}

def exchange [DecidableEq κ] (l : List (κ × α)) (k : κ) (v : α) : Option α × List (κ × α) :=
  match l.lookup k with
  | some old => (some old, l.map fun e => if e.1 = k then (k, v) else e)
  | none => (none, l ++ [(k, v)])

def retain (keep : κ → α → StateM σ Bool) : List (κ × α) → StateM σ (List (κ × α))
  | [] => pure []
  | e :: l => do
    let kept ← keep e.1 e.2
    let rest ← retain keep l
    return if kept then e :: rest else rest

/-- The predicate is asked about the first entry before the others, with the state passed on. -/
theorem run_retain_cons (keep : κ → α → StateM σ Bool) (e : κ × α) (l : List (κ × α)) (s : σ) :
    (retain keep (e :: l)).run s =
      let asked := (keep e.1 e.2).run s
      let rest := (retain keep l).run asked.2
      (if asked.1 then e :: rest.1 else rest.1, rest.2) :=
  rfl

/-- What a predicate leaves stands in the order of the list. -/
theorem sublist_of_run_retain {keep : κ → α → StateM σ Bool} {l kept : List (κ × α)} {s s' : σ}
    (h : (retain keep l).run s = (kept, s')) : kept.Sublist l := by
  induction l generalizing s kept with
  | nil =>
    cases h
    exact .slnil
  | cons e l ih =>
    rw [run_retain_cons] at h
    cases h
    split
    · exact (ih rfl).cons_cons e
    · exact (ih rfl).cons e

/-- What is left of `l` are its entries with the keys that are left. -/
theorem filter_mem_keys [DecidableEq κ] {kept : List (κ × α)} (h : kept.Sublist l)
    (hl : (l.map (·.1)).Nodup) : l.filter (fun e => e.1 ∈ kept.map (·.1)) = kept := by
  induction h with
  | slnil => rfl
  | @cons kept l e h ih =>
    obtain ⟨he, hl⟩ : e.1 ∉ l.map (·.1) ∧ (l.map (·.1)).Nodup := List.nodup_cons.1 hl
    have hnot : e.1 ∉ kept.map (·.1) := fun hmem => he ((h.map _).mem hmem)
    rw [List.filter_cons_of_neg (by simpa using hnot), ih hl]
  | @cons_cons kept l e h ih =>
    obtain ⟨he, hl⟩ : e.1 ∉ l.map (·.1) ∧ (l.map (·.1)).Nodup := List.nodup_cons.1 hl
    have hrest : l.filter (fun e' => e'.1 ∈ (e :: kept).map (·.1)) =
        l.filter fun e' => e'.1 ∈ kept.map (·.1) := by
      refine List.filter_congr fun e' he' => ?_
      have hne : e'.1 ≠ e.1 := fun heq => he (heq ▸ List.mem_map_of_mem he')
      simp [hne]
    rw [List.filter_cons_of_pos (by simp), hrest, ih hl]

/-- A predicate without effects leaves the entries that it holds of. -/
theorem retain_pure (keep : κ → α → Bool) (l : List (κ × α)) :
    retain (σ := σ) (fun k v => pure (keep k v)) l = pure (l.filter fun e => keep e.1 e.2) := by
  induction l with
  | nil => rfl
  | cons e l ih =>
    rw [retain, ih, pure_bind, pure_bind, List.filter_cons]

/-- The predicate, with its calls and answers written down in their order. -/
def recorded (keep : κ → α → StateM σ Bool) (k : κ) (v : α) :
    StateM (σ × List ((κ × α) × Bool)) Bool := fun (s, calls) =>
  let (kept, s) := (keep k v).run s
  (kept, s, calls ++ [((k, v), kept)])

/-- The predicate is called about each entry in turn, and what it approves of is left. -/
theorem exists_run_recorded (keep : κ → α → StateM σ Bool) (l : List (κ × α)) (s : σ)
    (calls : List ((κ × α) × Bool)) :
    ∃ kept s' asked, (retain keep l).run s = (kept, s') ∧
      (retain (recorded keep) l).run (s, calls) = (kept, s', calls ++ asked) ∧
      asked.map (·.1) = l ∧ kept = (asked.filter (·.2)).map (·.1) := by
  induction l generalizing s calls with
  | nil => exact ⟨[], s, [], rfl, by rw [List.append_nil]; rfl, rfl, rfl⟩
  | cons e l ih =>
    rcases hb : (keep e.1 e.2).run s with ⟨b, s₁⟩
    obtain ⟨kept, s', asked, hrun, hrecorded, hasked, hkept⟩ := ih s₁ (calls ++ [(e, b)])
    have hcall : (recorded keep e.1 e.2).run (s, calls) = (b, s₁, calls ++ [(e, b)]) := by
      show (fun r => (r.1, r.2, calls ++ [(e, r.1)])) ((keep e.1 e.2).run s) = _
      rw [hb]
    refine ⟨if b then e :: kept else kept, s', (e, b) :: asked, ?_, ?_, ?_, ?_⟩
    · rw [run_retain_cons, hb]
      dsimp only
      rw [hrun]
    · rw [run_retain_cons, hcall]
      dsimp only
      rw [hrecorded, List.append_assoc, List.singleton_append]
    · rw [List.map_cons, hasked]
    · rw [List.filter_cons, hkept]
      cases b <;> rfl

end LexicalScope.AssociationList

import Mathlib.Data.List.Induction
import Mathlib.Data.List.Nodup
import RepoAtlas.Table

/-!
Tables as lists of entries with distinct keys: what a key leads to is its entry, and writing to a
key touches that entry only.
-/
namespace RepoAtlas.Table
variable {α β κ : Type} [DecidableEq κ] {t : Table α κ} {k : κ} {v : α}

theorem mem_of_get? (h : t.get? k = some v) : (k, v) ∈ t.entries := by
  obtain ⟨before, after, he, _⟩ := List.lookup_eq_some_iff.mp h
  rw [he]
  simp

omit [DecidableEq κ] in
theorem mem_keys_of_mem (h : (k, v) ∈ t.entries) : k ∈ t.keys := List.mem_map.mpr ⟨(k, v), h, rfl⟩

theorem contains_iff : t.contains k = true ↔ k ∈ t.keys := by
  simp only [contains, get?, List.lookup_isSome_iff, beq_iff_eq, keys, List.mem_map]
  constructor
  · rintro ⟨e, he, rfl⟩
    exact ⟨e, he, rfl⟩
  · rintro ⟨e, he, rfl⟩
    exact ⟨e, he, rfl⟩

theorem get?_eq_none_iff : t.get? k = none ↔ k ∉ t.keys := by
  rw [← contains_iff, contains, Bool.not_eq_true, Option.isSome_eq_false_iff,
    Option.isNone_iff_eq_none]

theorem get?_eq_some_iff (h : t.keys.Nodup) : t.get? k = some v ↔ (k, v) ∈ t.entries := by
  refine ⟨mem_of_get?, fun hm => ?_⟩
  cases hg : t.get? k with
  | none =>
    have hc := contains_iff.mpr (mem_keys_of_mem hm)
    simp [contains, hg] at hc
  | some w =>
    have heq := List.inj_on_of_nodup_map h (mem_of_get? hg) hm rfl
    rw [(Prod.mk.inj heq).2]

/-- The entries around the one that a key leads to; the key occurs nowhere else. -/
theorem split_of_get? (hn : t.keys.Nodup) (h : t.get? k = some v) :
    ∃ before after, t.entries = before ++ (k, v) :: after ∧ (∀ e ∈ before, e.1 ≠ k) ∧
      ∀ e ∈ after, e.1 ≠ k := by
  obtain ⟨before, after, he, hb⟩ := List.lookup_eq_some_iff.mp h
  refine ⟨before, after, he, fun e hm => ?_, fun e hm heq => ?_⟩
  · exact fun heq => by simpa [heq] using hb e hm
  · rw [keys, he, List.map_append, List.map_cons] at hn
    have hk := (List.nodup_cons.mp (List.nodup_append.mp hn).2.1).1
    exact hk (List.mem_map.mpr ⟨e, hm, heq⟩)

theorem modify_of_split {before after : List (κ × α)} (he : t.entries = before ++ (k, v) :: after)
    (hb : ∀ e ∈ before, e.1 ≠ k) (ha : ∀ e ∈ after, e.1 ≠ k) (f : α → α) :
    (t.modify k f).entries = before ++ (k, f v) :: after := by
  have same : ∀ es : List (κ × α), (∀ e ∈ es, e.1 ≠ k) →
      (es.map fun e => if e.1 = k then (e.1, f e.2) else e) = es := by
    intro es hes
    refine (List.map_congr_left fun e hm => ?_).trans (List.map_id es)
    exact if_neg (hes e hm)
  simp only [modify, he, List.map_append, List.map_cons, same before hb, same after ha, ↓reduceIte]

theorem lookup_cons_if (k k' : κ) (v : α) (es : List (κ × α)) :
    ((k', v) :: es).lookup k = if k = k' then some v else es.lookup k := by
  by_cases h : k = k'
  · simp [h]
  · simp [List.lookup_cons, h, beq_false_of_ne h]

theorem get?_map_entries (es : List (κ × α)) (f : κ → α → β) (k : κ) :
    get? ⟨es.map fun e => (e.1, f e.1 e.2)⟩ k = (get? ⟨es⟩ k).map (f k) := by
  induction es with
  | nil => rfl
  | cons e es ih =>
    simp only [get?] at ih ⊢
    rw [List.map_cons, lookup_cons_if, lookup_cons_if, ih]
    by_cases h : k = e.1
    · simp [h]
    · simp [h]

theorem modify_entries (t : Table α κ) (k : κ) (f : α → α) :
    t.modify k f = ⟨t.entries.map fun e => (e.1, if e.1 = k then f e.2 else e.2)⟩ := by
  have step : (fun e : κ × α => if e.1 = k then (e.1, f e.2) else e) =
      fun e => (e.1, if e.1 = k then f e.2 else e.2) := by
    funext e
    split <;> rfl
  rw [modify, step]

theorem get?_modify (t : Table α κ) (k : κ) (f : α → α) (k' : κ) :
    (t.modify k f).get? k' = (t.get? k').map fun v => if k' = k then f v else v := by
  rw [modify_entries]
  exact get?_map_entries t.entries (fun k' v => if k' = k then f v else v) k'

theorem keys_modify (t : Table α κ) (k : κ) (f : α → α) : (t.modify k f).keys = t.keys := by
  rw [modify_entries, keys, keys, List.map_map]
  rfl

theorem get?_insert (t : Table α κ) (k k' : κ) (v : α) :
    (t.insert k v).get? k' = if k' = k then some v else t.get? k' := by
  obtain ⟨es⟩ := t
  simp only [get?, insert]
  induction es with
  | nil => rw [insertEntry, lookup_cons_if]
  | cons e es ih =>
    rw [insertEntry]
    by_cases he : k = e.1
    · rw [if_pos he, lookup_cons_if, lookup_cons_if, he]
      by_cases h : k' = e.1 <;> simp [h]
    · rw [if_neg he, lookup_cons_if, lookup_cons_if, ih]
      by_cases h : k' = e.1
      · rw [if_pos h, if_neg (h ▸ Ne.symm he), if_pos h]
      · rw [if_neg h, if_neg h]

theorem mem_insertEntry {es : List (κ × α)} {e : κ × α}
    (h : e ∈ insertEntry k v es) : e = (k, v) ∨ e ∈ es := by
  induction es with
  | nil => simpa [insertEntry] using h
  | cons e' es ih =>
    rw [insertEntry] at h
    split at h
    · rcases List.mem_cons.mp h with rfl | h
      · exact Or.inl rfl
      · exact Or.inr (List.mem_cons_of_mem _ h)
    · rcases List.mem_cons.mp h with rfl | h
      · exact Or.inr (List.mem_cons_self ..)
      · exact (ih h).imp_right (List.mem_cons_of_mem _)

/-- A new key comes last, and a key that is there keeps its place. -/
theorem keys_insertEntry (es : List (κ × α)) (k : κ) (v : α) :
    (insertEntry k v es).map (·.1) =
      if k ∈ es.map (·.1) then es.map (·.1) else es.map (·.1) ++ [k] := by
  induction es with
  | nil => simp [insertEntry]
  | cons e es ih =>
    rw [insertEntry]
    by_cases h : k = e.1
    · simp [h]
    · rw [if_neg h, List.map_cons, ih]
      by_cases hm : k ∈ es.map (·.1)
      · simp [hm]
      · simp [hm, h]

theorem insert_keys_nodup (h : t.keys.Nodup) (k : κ) (v : α) : (t.insert k v).keys.Nodup := by
  rw [keys, insert, keys_insertEntry]
  split
  case isTrue => exact h
  case isFalse hk =>
    simpa using List.Nodup.concat hk h

theorem ofList_concat (entries : List (κ × α)) (e : κ × α) :
    ofList (entries ++ [e]) = (ofList entries).insert e.1 e.2 := by
  rw [ofList, List.foldl_append]
  rfl

theorem ofList_keys_nodup (entries : List (κ × α)) : (ofList entries).keys.Nodup := by
  induction entries using List.reverseRecOn with
  | nil => exact List.nodup_nil
  | append_singleton entries e ih =>
    rw [ofList_concat]
    exact insert_keys_nodup ih e.1 e.2

/-- Of several entries for a key the last one counts. -/
theorem get?_ofList (entries : List (κ × α)) (k : κ) :
    (ofList entries).get? k = entries.reverse.lookup k := by
  induction entries using List.reverseRecOn with
  | nil => rfl
  | append_singleton entries e ih =>
    rw [ofList_concat, get?_insert, ih, List.reverse_append, List.reverse_singleton,
      List.singleton_append, lookup_cons_if]

end RepoAtlas.Table

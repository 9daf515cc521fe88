import ImplicitInference.Table
import Mathlib.Data.List.Nodup

/-!
What a table answers, and what it answers after an insertion. The order of its rows does not matter
to that, unless a name has several of them.
-/

namespace ImplicitInference.Table

variable {α : Type} {t u : Table α} {name other : String} {a b : α}

theorem mem_toList_of_get? (h : t.get? name = some a) : (name, a) ∈ t.toList := by
  obtain ⟨row, hrow, rfl⟩ := Option.map_eq_some_iff.mp h
  have hname : row.1 = name := by simpa using List.find?_some hrow
  exact hname ▸ List.mem_of_find?_eq_some hrow

theorem mem_keys_of_get? (h : t.get? name = some a) : name ∈ t.keys :=
  List.mem_map_of_mem (mem_toList_of_get? h)

theorem exists_get?_of_mem_keys (h : name ∈ t.keys) : ∃ a, t.get? name = some a := by
  obtain ⟨row, hrow, rfl⟩ := List.mem_map.mp h
  rw [← Option.isSome_iff_exists, get?, Option.isSome_map, List.find?_isSome]
  exact ⟨row, hrow, beq_self_eq_true _⟩

theorem get?_eq_none (h : name ∉ t.keys) : t.get? name = none := by
  cases hget : t.get? name with
  | none => rfl
  | some a => exact absurd (mem_keys_of_get? hget) h

theorem not_mem_keys (h : t.get? name = none) : name ∉ t.keys := by
  intro hmem
  obtain ⟨a, ha⟩ := exists_get?_of_mem_keys hmem
  rw [h] at ha
  cases ha

theorem mem_values_of_get? (h : t.get? name = some a) : a ∈ t.values :=
  List.mem_map_of_mem (mem_toList_of_get? h)

theorem get?_map_keys {keys : List String} (f : String → α) (h : name ∈ keys) :
    (Table.mk (keys.map fun key => (key, f key))).get? name = some (f name) := by
  have hkey : name ∈ (Table.mk (keys.map fun key => (key, f key))).keys := by
    simpa [Table.keys, Function.comp_def] using h
  obtain ⟨a, ha⟩ := exists_get?_of_mem_keys hkey
  obtain ⟨key, -, hrow⟩ := List.mem_map.mp (mem_toList_of_get? ha)
  obtain ⟨rfl, rfl⟩ := Prod.mk.inj hrow
  exact ha

theorem get?_eq_some_iff (hnodup : t.keys.Nodup) : t.get? name = some a ↔ (name, a) ∈ t.toList := by
  refine ⟨mem_toList_of_get?, fun hrow => ?_⟩
  obtain ⟨b, hb⟩ := exists_get?_of_mem_keys (List.mem_map_of_mem hrow)
  have hsame := List.inj_on_of_nodup_map hnodup hrow (mem_toList_of_get? hb) rfl
  rw [(Prod.mk.inj hsame).2]
  exact hb

/-- If no name has several rows, the order of the rows does not matter to what a table answers. -/
theorem get?_perm (hnodup : t.keys.Nodup) (hperm : u.toList.Perm t.toList) :
    u.get? name = t.get? name := by
  have hkeys : u.keys.Nodup := (hperm.map Prod.fst).nodup_iff.mpr hnodup
  apply Option.ext
  intro a
  rw [get?_eq_some_iff hkeys, get?_eq_some_iff hnodup, hperm.mem_iff]

theorem contains_iff : t.contains name ↔ name ∈ t.keys := by
  simp [contains, keys]

theorem find?_map_replace (rows : List (String × α)) (h : name ∈ rows.map Prod.fst) :
    (rows.map fun row => if row.1 == name then (name, a) else row).find? (·.1 == name) =
      some (name, a) := by
  induction rows with
  | nil => simp at h
  | cons row rest ih =>
    by_cases hrow : row.1 = name
    · simp [hrow]
    · have hrest : name ∈ rest.map Prod.fst := by
        rcases List.mem_cons.mp h with heq | hmem
        · exact absurd heq.symm hrow
        · exact hmem
      simpa [hrow] using ih hrest

theorem find?_map_replace_of_ne (rows : List (String × α)) (h : other ≠ name) :
    (rows.map fun row => if row.1 == name then (name, a) else row).find? (·.1 == other) =
      rows.find? (·.1 == other) := by
  induction rows with
  | nil => rfl
  | cons row rest ih =>
    by_cases hrow : row.1 = name
    · simpa [hrow, h.symm] using ih
    · by_cases hother : row.1 = other
      · simp [hother, h]
      · simpa [hrow, hother] using ih

@[simp] theorem get?_insert_self : (t.insert name a).get? name = some a := by
  unfold insert
  split
  · rename_i h
    rw [get?, find?_map_replace t.toList (contains_iff.mp h)]
    rfl
  · rename_i h
    have hnone : t.toList.find? (·.1 == name) = none := by
      rw [List.find?_eq_none]
      exact fun row hrow heq => h (contains_iff.mpr (beq_iff_eq.mp heq ▸ List.mem_map_of_mem hrow))
    simp [get?, List.find?_append, hnone]

theorem get?_insert_of_ne (h : other ≠ name) : (t.insert name a).get? other = t.get? other := by
  unfold insert
  split
  · rw [get?, find?_map_replace_of_ne t.toList h]
    rfl
  · simp [get?, List.find?_append, h.symm]

/-- The name keeps its place, or is the last. -/
theorem keys_insert :
    (t.insert name a).keys = if name ∈ t.keys then t.keys else t.keys ++ [name] := by
  unfold insert
  by_cases hname : name ∈ t.keys
  · rw [if_pos (contains_iff.mpr hname), if_pos hname, keys, List.map_map]
    apply List.map_congr_left
    intro row _
    by_cases hrow : row.1 = name <;> simp [hrow]
  · rw [if_neg (mt contains_iff.mp hname), if_neg hname]
    simp [keys]

theorem keys_prefix_insert : t.keys <+: (t.insert name a).keys := by
  rw [keys_insert]
  split
  · exact List.prefix_rfl
  · exact List.prefix_append _ _

theorem nodup_keys_insert (h : t.keys.Nodup) : (t.insert name a).keys.Nodup := by
  rw [keys_insert]
  by_cases hname : name ∈ t.keys
  · rwa [if_pos hname]
  · rw [if_neg hname, ← List.concat_eq_append]
    exact h.concat hname

theorem keys_append : (t.append name a).keys = t.keys.filter (· != name) ++ [name] := by
  simp [append, erase, keys, List.filter_map, Function.comp_def]

theorem get?_append_self : (t.append name a).get? name = some a := by
  have hnone : (t.erase name).toList.find? (·.1 == name) = none := by
    simp [erase, List.find?_eq_none]
  simp [append, get?, List.find?_append, hnone]

theorem get?_append_of_ne (h : other ≠ name) : (t.append name a).get? other = t.get? other := by
  have hsame : (t.erase name).toList.find? (·.1 == other) = t.toList.find? (·.1 == other) := by
    rw [erase, List.find?_filter]
    congr 1
    ext row
    by_cases hrow : row.1 = other <;> simp [hrow, h]
  simp [append, get?, List.find?_append, hsame, h.symm]

theorem nodup_keys_append (h : t.keys.Nodup) : (t.append name a).keys.Nodup := by
  rw [keys_append, ← List.concat_eq_append]
  exact (h.filter _).concat (by simp)

/-- What holds of all that a table answers still holds after an insertion. -/
theorem forall_get?_insert {P : String → α → Prop} (h : ∀ other b, t.get? other = some b → P other b)
    (ha : P name a) : ∀ other b, (t.insert name a).get? other = some b → P other b := by
  intro other b hb
  by_cases hother : other = name
  · subst hother
    rw [get?_insert_self] at hb
    exact Option.some.inj hb ▸ ha
  · rw [get?_insert_of_ne hother] at hb
    exact h other b hb

theorem mem_values_insert (h : b ∈ (t.insert name a).values) : b = a ∨ b ∈ t.values := by
  unfold insert at h
  split at h
  · obtain ⟨row, hrow, rfl⟩ := List.mem_map.mp h
    obtain ⟨old, hold, rfl⟩ := List.mem_map.mp hrow
    by_cases hname : old.1 = name
    · exact .inl (by simp [hname])
    · rw [if_neg (by simpa using hname)]
      exact .inr (List.mem_map_of_mem hold)
  · rw [values, List.map_append, List.mem_append] at h
    exact h.symm.imp (by simp) id

end ImplicitInference.Table

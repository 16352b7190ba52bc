import Concordance.Table
import Mathlib.Data.List.Nodup

/-!
# The entries of tables

What is stored in a table is among its values, and its keys are distinct if it was made by storing.
-/

namespace Concordance.Table

variable {κ β : Type} [DecidableEq κ] {t : Table κ β} {k : κ}

theorem mem_entries_of_get? (hg : t.get? k = some v) : (k, v) ∈ t.entries := by
  obtain ⟨e, he, rfl⟩ := Option.map_eq_some_iff.1 hg
  have hk : e.1 = k := by simpa using List.find?_some he
  exact hk ▸ List.mem_of_find?_eq_some he

theorem contains_eq_false_iff : t.contains k = false ↔ t.get? k = none := by
  simp [get?, contains]

theorem mem_keys_iff : k ∈ t.keys ↔ t.get? k ≠ none := by
  simp [get?, keys]

theorem get?_ne_none_of_contains (hk : t.contains k = true) : t.get? k ≠ none := by
  simpa [get?, contains] using hk

theorem mem_values_of_get? (hg : t.get? k = some v) : v ∈ t.values :=
  List.mem_map.2 ⟨(k, v), mem_entries_of_get? hg, rfl⟩

theorem mem_insertEntry (he : e ∈ insertEntry k v es) : e = (k, v) ∨ e ∈ es := by
  induction es with
  | nil => exact .inl (List.mem_singleton.1 he)
  | cons d es ih =>
    rw [insertEntry] at he
    split at he
    · rename_i hk
      exact (List.mem_cons.1 he).imp (fun h => by rw [h, hk]) (List.mem_cons_of_mem _)
    · rcases List.mem_cons.1 he with rfl | he
      · exact .inr (.head _)
      · exact (ih he).imp_right (List.mem_cons_of_mem _)

theorem mem_values_insert (hw : w ∈ (t.insert k v).values) : w = v ∨ w ∈ t.values := by
  obtain ⟨e, he, rfl⟩ := List.mem_map.1 hw
  rcases mem_insertEntry he with rfl | he
  · exact .inl rfl
  · exact .inr (List.mem_map.2 ⟨e, he, rfl⟩)

theorem mem_values_insert_self : v ∈ (t.insert k v).values := mem_values_of_get? (get?_insert_self t k v)

theorem get?_insert_ne_none (hl : t.get? l ≠ none) : (t.insert k v).get? l ≠ none := by
  by_cases heq : l = k
  · simp [heq]
  · rwa [get?_insert_of_ne heq]

theorem get?_insert_cases (hg : (t.insert k v).get? l = some w) : l = k ∧ w = v ∨ t.get? l = some w := by
  by_cases hl : l = k
  · rw [hl, get?_insert_self, Option.some.injEq] at hg
    exact .inl ⟨hl, hg.symm⟩
  · rw [get?_insert_of_ne hl] at hg
    exact .inr hg

theorem get?_insert_of_new (hk : t.get? k = none) (hl : t.get? l = some w) : (t.insert k v).get? l = some w := by
  rw [get?_insert_of_ne]
  · exact hl
  · rintro rfl
    rw [hk] at hl
    cases hl

theorem mem_values_of_erase (hv : v ∈ (t.erase k).values) : v ∈ t.values := by
  obtain ⟨e, he, rfl⟩ := List.mem_map.1 hv
  exact List.mem_map.2 ⟨e, List.mem_of_mem_filter he, rfl⟩

theorem get?_erase_of_ne (hl : l ≠ k) : (t.erase k).get? l = t.get? l := by
  rw [get?, get?, erase, List.find?_filter]
  congr 2
  funext e
  by_cases he : e.1 = l
  · simp [he, hl]
  · simp [he]

theorem get?_erase_self : (t.erase k).get? k = none := by
  rw [get?, erase, List.find?_filter, Option.map_eq_none_iff, List.find?_eq_none]
  intro e _
  by_cases he : e.1 = k
  · simp [he]
  · simp [he]

theorem mem_keys_insert (hl : l ∈ (t.insert k v).keys) : l = k ∨ l ∈ t.keys := by
  obtain ⟨e, he, rfl⟩ := List.mem_map.1 hl
  rcases mem_insertEntry he with rfl | he
  · exact .inl rfl
  · exact .inr (List.mem_map.2 ⟨e, he, rfl⟩)

theorem insertEntry_of_not_mem {es : List (κ × β)} (hk : k ∉ es.map Prod.fst) :
    insertEntry k v es = es ++ [(k, v)] := by
  induction es with
  | nil => rfl
  | cons e es ih =>
    rw [List.map_cons, List.mem_cons, not_or] at hk
    rw [insertEntry, if_neg (Ne.symm hk.1), ih hk.2, List.cons_append]

theorem values_insert_of_not_mem (hk : k ∉ t.keys) : (t.insert k v).values = t.values ++ [v] := by
  show (insertEntry k v t.entries).map Prod.snd = _
  rw [insertEntry_of_not_mem hk, List.map_append]
  rfl

end Concordance.Table

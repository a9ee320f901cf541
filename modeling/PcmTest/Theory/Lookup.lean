import Mathlib.Data.List.Nodup
import Mathlib.Tactic.Common

/-!
# Lookup by a key

A table is searched from its first row on for a key. When no two rows share a
key, the search finds a row by its own key, and so does a search that returns the
row's index.
-/

namespace PcmTest.Theory

variable {α κ : Type} [DecidableEq κ] {key : α → κ} {table : List α}

theorem find?_key (hdistinct : (table.map key).Nodup) {row : α} (hrow : row ∈ table) :
    table.find? (fun x => key x = key row) = some row := by
  induction table with
  | nil => cases hrow
  | cons x table ih =>
    obtain ⟨hx, hdistinct⟩ := List.nodup_cons.mp hdistinct
    rcases List.mem_cons.mp hrow with rfl | hrow
    · simp
    · have hne : key x ≠ key row := by
        intro he
        exact hx (List.mem_map.mpr ⟨row, hrow, he.symm⟩)
      rw [List.find?_cons_of_neg (by simpa using hne)]
      exact ih hdistinct hrow

theorem find?_key_iff (hdistinct : (table.map key).Nodup) {k : κ} {row : α} :
    table.find? (fun x => key x = k) = some row ↔ row ∈ table ∧ key row = k := by
  constructor
  · intro h
    exact ⟨List.mem_of_find?_eq_some h, by simpa using List.find?_some h⟩
  · rintro ⟨hrow, rfl⟩
    exact find?_key hdistinct hrow

/-- The row at the index that a search returns. -/
theorem findIdx?_key (hdistinct : (table.map key).Nodup) {row : α} (hrow : row ∈ table) :
    (table.findIdx? fun x => key x = key row).bind (table[·]?) = some row := by
  have hfind := find?_key hdistinct hrow
  rw [List.find?_eq_bind_findIdx?_getElem?] at hfind
  exact hfind

end PcmTest.Theory

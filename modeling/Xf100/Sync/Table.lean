/-
  File:      Xf100/Sync/Table.lean
  Subject:   Decoding by a table: each entry has a key, and a word is looked up by its key.

  * `lookup_eq_some_iff` -- with distinct keys, looking up finds exactly the entry of the key.
-/
import Mathlib.Data.List.Basic

namespace Sync

section Table

variable {ι κ : Type*} [DecidableEq κ] {table : List ι} {key : ι → κ} {k : κ} {i : ι}

/-- The first entry of the table with the key `k`. -/
def lookup (table : List ι) (key : ι → κ) (k : κ) : Option ι := table.find? fun i => key i = k

/-- **A table without two entries of one key** finds the entry of the key. -/
theorem lookup_eq_some_iff (hkey : ∀ i ∈ table, ∀ j ∈ table, key i = key j → i = j)
    (hi : i ∈ table) : lookup table key k = some i ↔ key i = k := by
  unfold lookup
  constructor
  · intro h
    simpa using List.find?_some h
  · intro h
    cases hf : table.find? fun i => decide (key i = k) with
    | none => exact absurd h (by simpa using List.find?_eq_none.mp hf i hi)
    | some j =>
        have hj : key j = k := by simpa using List.find?_some hf
        rw [hkey j (List.mem_of_find?_eq_some hf) i hi (hj.trans h.symm)]

end Table

end Sync

import BlockFlow.FreshId
import Mathlib.Data.List.Dedup
import Mathlib.Data.List.Perm.Subperm

/-!
Ids for new nodes are new: among one number more than there are ids taken, one is free.
-/

namespace BlockFlow

variable {stem : String} {taken : List String}

theorem idOf_injective (stem : String) : Function.Injective (idOf stem) := by
  intro m n h
  have hchars := congrArg String.toList h
  simp only [idOf, String.toList_append, String.toList_ofList, List.append_cancel_left_eq,
    Text.decimalDigits] at hchars
  have hvalues := congrArg (Nat.ofDigitChars 10 · 0) hchars
  simpa [Nat.ofDigitChars_toDigits] using hvalues

/-- A search that ends at an id that is taken met only such ids. -/
theorem idOf_mem_of_freeNumber (fuel n : Nat) (h : idOf stem (freeNumber stem taken fuel n) ∈ taken)
    (k : Nat) (hk : k ≤ fuel) : idOf stem (n + k) ∈ taken := by
  induction fuel generalizing n k with
  | zero =>
    obtain rfl : k = 0 := by omega
    exact h
  | succ fuel ih =>
    rw [freeNumber] at h
    split at h
    · rename_i hn
      cases k with
      | zero => simpa using hn
      | succ k =>
        rw [Nat.add_comm k 1, ← Nat.add_assoc]
        exact ih (n + 1) h k (by omega)
    · rename_i hn
      exact absurd (by simpa using h) hn

theorem freeId_not_mem (taken : List String) (name : String) : freeId taken name ∉ taken := by
  intro h
  have hall := idOf_mem_of_freeNumber taken.length 1 h
  let ids := (List.range (taken.length + 1)).map fun k => idOf (idStem name) (1 + k)
  have hnodup : ids.Nodup := by
    refine List.nodup_range.map fun a b hab => ?_
    have hsum := idOf_injective _ hab
    omega
  have hsub : ids ⊆ taken := by
    intro id hid
    obtain ⟨k, hk, rfl⟩ := List.mem_map.mp hid
    exact hall k (by simpa [Nat.lt_succ_iff] using hk)
  have hlen := (List.subperm_of_subset hnodup hsub).length_le
  simp only [ids, List.length_map, List.length_range] at hlen
  omega

/-- An id that is made from a name is no start id: it has an underscore. -/
theorem freeId_ne_startId (taken : List String) (name : String) : freeId taken name ≠ startId := by
  intro h
  have hmem : '_' ∈ (freeId taken name).toList := by simp [freeId, idOf]
  rw [h] at hmem
  exact absurd hmem (by decide)

namespace IdSource

variable {s : IdSource} {d : Document} {name : String}

theorem given_take : (s.take d name).2.given = (s.take d name).1 :: s.given := rfl

/-- What a source hands out is neither in use nor handed out before. -/
theorem take_new (s : IdSource) (d : Document) (name : String) :
    (s.take d name).1 ∉ d.allIds ∧ (s.take d name).1 ∉ s.given := by
  have h := freeId_not_mem (d.allIds ++ s.given) name
  rw [List.mem_append, not_or] at h
  exact h

end IdSource

theorem Document.mem_allIds {d : Document} {w : Workflow} {n : NodeDef} (hw : w ∈ d.workflows)
    (hn : n ∈ w.nodes) : n.id ∈ d.allIds := by
  simp only [allIds, List.mem_flatMap]
  exact ⟨w, hw, n, hn, List.mem_cons_self ..⟩

end BlockFlow

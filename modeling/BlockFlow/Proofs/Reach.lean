import BlockFlow.Reach
import Mathlib.Data.Finset.Card
import Mathlib.Logic.Relation

/-!
The search in rounds finds exactly what a chain of steps leads to, as long as it may take as many
rounds as there are names.
-/

namespace BlockFlow.Reach

open Relation

variable {next : String → List String}

theorem mem_fresh {seen frontier : List String} {x : String} :
    x ∈ fresh next seen frontier ↔ (∃ a ∈ frontier, x ∈ next a) ∧ x ∉ seen := by
  simp [fresh, List.mem_eraseDups]

theorem subset_rounds (fuel : Nat) (seen frontier : List String) :
    seen ⊆ rounds next fuel seen frontier := by
  induction fuel generalizing seen frontier with
  | zero => exact fun _ h => h
  | succ fuel ih =>
    intro x hx
    simp only [rounds]
    split
    · exact hx
    · exact ih _ _ (List.mem_append_left _ hx)

/-- What the search adds is reached from the frontier. -/
theorem rounds_sound (fuel : Nat) (seen frontier : List String) (x : String)
    (hx : x ∈ rounds next fuel seen frontier) :
    x ∈ seen ∨ ∃ a ∈ frontier, ReflTransGen (fun a b => b ∈ next a) a x := by
  induction fuel generalizing seen frontier with
  | zero => exact .inl hx
  | succ fuel ih =>
    simp only [rounds] at hx
    split at hx
    · exact .inl hx
    · rcases ih _ _ hx with h | ⟨b, hb, hs⟩
      · rcases List.mem_append.mp h with h | h
        · exact .inl h
        · obtain ⟨⟨a, ha, hs⟩, -⟩ := mem_fresh.mp h
          exact .inr ⟨a, ha, .single hs⟩
      · obtain ⟨⟨a, ha, hab⟩, -⟩ := mem_fresh.mp hb
        exact .inr ⟨a, ha, .head hab hs⟩

/-- Finding a name that was not seen leaves fewer to be found. -/
theorem unseen_lt {names seen new : List String} {x : String} (hx : x ∈ new) (hn : x ∈ names)
    (hs : x ∉ seen) :
    (names.toFinset \ (seen ++ new).toFinset).card < (names.toFinset \ seen.toFinset).card := by
  apply Finset.card_lt_card
  refine Finset.ssubset_iff_of_subset ?_ |>.mpr ⟨x, by simp [hn, hs], by simp [hx]⟩
  intro y hy
  simp only [Finset.mem_sdiff, List.mem_toFinset, List.mem_append, not_or] at hy ⊢
  exact ⟨hy.1, hy.2.1⟩

/-- The search ends with a set that no step leaves. Each round finds a name, and what was seen before
the frontier has been searched already. -/
theorem rounds_closed {names : List String} (hn : ∀ a, ∀ b ∈ next a, b ∈ names) (fuel : Nat)
    (seen frontier : List String)
    (hfuel : (names.toFinset \ seen.toFinset).card < fuel)
    (hdone : ∀ a ∈ seen, a ∉ frontier → ∀ b ∈ next a, b ∈ seen) :
    ∀ a ∈ rounds next fuel seen frontier, ∀ b ∈ next a, b ∈ rounds next fuel seen frontier := by
  induction fuel generalizing seen frontier with
  | zero => omega
  | succ fuel ih =>
    have hnext : ∀ a ∈ seen, ∀ b ∈ next a, b ∈ seen ∨ b ∈ fresh next seen frontier := by
      intro a ha b hb
      by_cases hf : a ∈ frontier
      · by_cases hs : b ∈ seen
        · exact .inl hs
        · exact .inr (mem_fresh.mpr ⟨⟨a, hf, hb⟩, hs⟩)
      · exact .inl (hdone a ha hf b hb)
    simp only [rounds]
    split
    · rename_i hempty
      intro a ha b hb
      rcases hnext a ha b hb with h | h
      · exact h
      · rw [List.isEmpty_iff.mp hempty] at h
        exact absurd h List.not_mem_nil
    · rename_i hsome
      obtain ⟨x, hx⟩ := List.exists_mem_of_ne_nil _ (mt List.isEmpty_iff.mpr hsome)
      obtain ⟨⟨a, -, hax⟩, hxs⟩ := mem_fresh.mp hx
      apply ih
      · have h := unseen_lt hx (hn a x hax) hxs
        omega
      · intro a ha hnew b hb
        have hseen : a ∈ seen := (List.mem_append.mp ha).resolve_right hnew
        exact List.mem_append.mpr (hnext a hseen b hb)

/-- The closure holds exactly what steps lead to from the start. -/
theorem mem_closure {names : List String} (hn : ∀ a, ∀ b ∈ next a, b ∈ names) {size : Nat}
    (hsize : names.length ≤ size) (start : List String) (x : String) :
    x ∈ closure next size start ↔ ∃ a ∈ start, ReflTransGen (fun a b => b ∈ next a) a x := by
  have hcard : (names.toFinset \ start.eraseDups.toFinset).card < size + 1 := by
    have hsub : names.toFinset \ start.eraseDups.toFinset ⊆ names.toFinset := Finset.sdiff_subset
    have hle := (Finset.card_le_card hsub).trans (List.toFinset_card_le names)
    omega
  constructor
  · intro hx
    rcases rounds_sound _ _ _ x hx with h | ⟨a, ha, hs⟩
    · exact ⟨x, List.mem_eraseDups.mp h, .refl⟩
    · exact ⟨a, List.mem_eraseDups.mp ha, hs⟩
  · intro hex
    obtain ⟨a, ha, hs⟩ := hex
    induction hs with
    | refl => exact subset_rounds _ _ _ (List.mem_eraseDups.mpr ha)
    | tail _ hbc ih =>
      exact rounds_closed hn _ _ _ hcard (fun a ha hna => absurd ha hna) _ ih _ hbc

end BlockFlow.Reach

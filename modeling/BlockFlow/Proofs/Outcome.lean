import Mathlib.Data.List.Forall2

/-!
When computations that may fail succeed, with and without a state, and how a list corresponds to the
list of its results.
-/

namespace BlockFlow

/-- What corresponds to an element of the first of two lists. -/
theorem exists_mem_of_forall₂ {α β : Type} {R : α → β → Prop} {xs : List α} {ys : List β} {x : α}
    (h : List.Forall₂ R xs ys) (hx : x ∈ xs) : ∃ y ∈ ys, R x y := by
  induction h with
  | nil => cases hx
  | cons hxy _ ih =>
    rcases List.mem_cons.mp hx with rfl | hx
    · exact ⟨_, List.mem_cons_self, hxy⟩
    · obtain ⟨y, hy, hr⟩ := ih hx
      exact ⟨y, List.mem_cons_of_mem _ hy, hr⟩

/-- What corresponds to the parts of the first of two lists. -/
theorem exists_append_of_forall₂ {α β : Type} {R : α → β → Prop} {xs xs' : List α} {ys : List β}
    (h : List.Forall₂ R (xs ++ xs') ys) :
    ∃ zs zs', ys = zs ++ zs' ∧ List.Forall₂ R xs zs ∧ List.Forall₂ R xs' zs' := by
  induction xs generalizing ys with
  | nil => exact ⟨[], ys, rfl, .nil, h⟩
  | cons x xs ih =>
    cases h with
    | cons hxy h =>
      obtain ⟨zs, zs', rfl, hzs, hzs'⟩ := ih h
      exact ⟨_ :: zs, zs', rfl, .cons hxy hzs, hzs'⟩

/-- Where a function tells the elements of a list apart, no other element has the value of one. -/
theorem ne_of_nodup {α β : Type} {f : α → β} {xs ys : List α} {x : α}
    (h : ((xs ++ x :: ys).map f).Nodup) : (∀ y ∈ xs, f y ≠ f x) ∧ ∀ y ∈ ys, f y ≠ f x := by
  rw [List.map_append, List.map_cons] at h
  obtain ⟨-, hrest, hfront⟩ := List.nodup_append.mp h
  refine ⟨fun y hy => hfront _ (List.mem_map_of_mem hy) _ List.mem_cons_self, fun y hy heq => ?_⟩
  exact (List.nodup_cons.mp hrest).1 (heq ▸ List.mem_map_of_mem hy)

theorem fresh_of_nodup {α β : Type} {f : α → β} {xs ys : List α} {x : α}
    (h : ((xs ++ x :: ys).map f).Nodup) : f x ∉ xs.map f ∧ f x ∉ ys.map f := by
  simpa [List.mem_map] using ne_of_nodup h

/-- Where a function tells the elements of a list apart, each is the first with its value. -/
theorem find?_of_nodup {α β : Type} [DecidableEq β] {f : α → β} {xs : List α} {x : α}
    (h : (xs.map f).Nodup) (hx : x ∈ xs) : xs.find? (f · = f x) = some x := by
  obtain ⟨before, after, rfl⟩ := List.append_of_mem hx
  refine List.find?_eq_some_iff_append.mpr ⟨by simp, before, after, rfl, fun y hy => ?_⟩
  simpa using (ne_of_nodup h).1 y hy

section Change

variable {α β : Type} [DecidableEq β] {f : α → β} {xs ys : List α} {x : α} {y : β} {g : α → α}

theorem map_ite_of_not_mem (h : y ∉ xs.map f) :
    (xs.map fun x => if f x = y then g x else x) = xs := by
  refine (List.map_congr_left fun x hx => if_neg ?_).trans (List.map_id xs)
  rintro rfl
  exact h (List.mem_map_of_mem hx)

/-- Changing the one element that a function gives a value, among others. -/
theorem map_ite_middle (hx : f x = y) (h : y ∉ xs.map f ∧ y ∉ ys.map f) :
    ((xs ++ x :: ys).map fun x => if f x = y then g x else x) = xs ++ g x :: ys := by
  rw [List.map_append, List.map_cons, if_pos hx, map_ite_of_not_mem h.1, map_ite_of_not_mem h.2]

end Change

/-- Lists whose elements correspond have corresponding first matches. -/
theorem exists_find?_of_forall₂ {α β : Type} {R : α → β → Prop} {p : α → Bool} {q : β → Bool}
    {xs : List α} {ys : List β} {x : α} (h : List.Forall₂ R xs ys)
    (hpq : ∀ x y, R x y → p x = q y) (hx : xs.find? p = some x) :
    ∃ y, ys.find? q = some y ∧ R x y := by
  induction h with
  | nil => cases hx
  | @cons a b _ _ hab _ ih =>
    rw [List.find?_cons] at hx ⊢
    rw [← hpq a b hab]
    cases ha : p a with
    | true =>
      rw [ha] at hx
      cases hx
      exact ⟨b, rfl, hab⟩
    | false =>
      rw [ha] at hx
      exact ih hx

namespace Outcome

universe u

variable {ε σ : Type u} {α β : Type u}

theorem bind_eq_ok {x : Except ε α} {f : α → Except ε β} {b : β} :
    (x >>= f) = .ok b ↔ ∃ a, x = .ok a ∧ f a = .ok b := by
  cases x <;> simp [Bind.bind, Except.bind]

theorem error_bind_ne_ok {e : ε} {f : α → Except ε β} {b : β} :
    ((Except.error e : Except ε α) >>= f) ≠ .ok b := nofun

theorem isOk_iff {x : Except ε α} : x.isOk ↔ ∃ a, x = .ok a := by
  cases x <;> simp [Except.isOk, Except.toBool]

theorem toOption_eq_some {x : Except ε α} {a : α} : x.toOption = some a ↔ x = .ok a := by
  cases x <;> simp [Except.toOption]

theorem mapM_eq_ok {f : α → Except ε β} {xs : List α} {ys : List β} :
    xs.mapM f = .ok ys ↔ List.Forall₂ (fun x y => f x = .ok y) xs ys := by
  induction xs generalizing ys with
  | nil => cases ys <;> simp [pure, Except.pure]
  | cons x xs ih =>
    simp only [List.mapM_cons, bind_eq_ok, ih, pure, Except.pure, Except.ok.injEq]
    constructor
    · intro hex
      obtain ⟨y, hy, rest, hrest, rfl⟩ := hex
      exact .cons hy hrest
    · intro h
      cases h with
      | cons hy hrest => exact ⟨_, hy, _, hrest, rfl⟩

/-- All of a list is computed exactly when each of it is. -/
theorem exists_mapM_eq_ok {f : α → Except ε β} {xs : List α} :
    (∃ ys, xs.mapM f = .ok ys) ↔ ∀ x ∈ xs, ∃ y, f x = .ok y := by
  simp only [mapM_eq_ok]
  induction xs with
  | nil => simp
  | cons x xs ih =>
    rw [List.forall_mem_cons, ← ih]
    constructor
    · intro hex
      obtain ⟨ys, h⟩ := hex
      cases h with
      | cons hy hrest => exact ⟨⟨_, hy⟩, _, hrest⟩
    · intro hex
      obtain ⟨⟨y, hy⟩, ys, hys⟩ := hex
      exact ⟨y :: ys, .cons hy hys⟩

/-- A list of checked values: all pass their check, and each is given by `g`. -/
theorem mapM_check_eq_ok {f : α → Except ε β} {P : α → Prop} {g : α → β}
    (hf : ∀ x y, f x = .ok y ↔ P x ∧ y = g x) {xs : List α} {ys : List β} :
    xs.mapM f = .ok ys ↔ (∀ x ∈ xs, P x) ∧ ys = xs.map g := by
  simp only [mapM_eq_ok, hf]
  induction xs generalizing ys with
  | nil => cases ys <;> simp
  | cons x xs ih =>
    cases ys with
    | nil => simp
    | cons y ys =>
      rw [List.forall₂_cons, ih, List.forall_mem_cons, List.map_cons, List.cons.injEq]
      tauto

/-- A fold of folds goes over all elements. -/
theorem foldlM_flatMap {f : β → α → Except ε β} {g : γ → List α} {xs : List γ} {b : β} :
    (xs.flatMap g).foldlM f b = xs.foldlM (fun b x => (g x).foldlM f b) b := by
  induction xs generalizing b with
  | nil => rfl
  | cons x xs ih =>
    rw [List.flatMap_cons, List.foldlM_append, List.foldlM_cons]
    exact bind_congr fun _ => ih

/-- What each step of a fold preserves, the fold preserves. -/
theorem foldlM_preserves {f : β → α → Except ε β} {P : β → Prop} {xs : List α} {b b' : β}
    (hf : ∀ b x b', P b → f b x = .ok b' → P b') (hb : P b) (h : xs.foldlM f b = .ok b') :
    P b' := by
  induction xs generalizing b with
  | nil =>
    cases h
    exact hb
  | cons x xs ih =>
    rw [List.foldlM_cons, bind_eq_ok] at h
    obtain ⟨m, hm, hrest⟩ := h
    exact ih (hf b x m hb hm) hrest

/-- What a fold carries from the elements before each to those with it holds of all in the end. -/
theorem foldlM_carries {f : β → α → Except ε β} {P : List α → β → Prop} {xs : List α} {b b' : β}
    (hf : ∀ done x rest b b', xs = done ++ x :: rest → P done b → f b x = .ok b' →
      P (done ++ [x]) b') (hb : P [] b) (h : xs.foldlM f b = .ok b') : P xs b' := by
  have hall (rest done : List α) (b : β) (hxs : xs = done ++ rest) (hb : P done b)
      (h : rest.foldlM f b = .ok b') : P xs b' := by
    induction rest generalizing done b with
    | nil =>
      cases h
      rwa [hxs, List.append_nil]
    | cons x rest ih =>
      rw [List.foldlM_cons, bind_eq_ok] at h
      obtain ⟨m, hm, hrest⟩ := h
      exact ih (done ++ [x]) m (by simpa using hxs) (hf done x rest b m hxs hb hm) hrest
  exact hall xs [] b rfl hb h

theorem run_bind_eq_ok {m : StateT σ (Except ε) α} {f : α → StateT σ (Except ε) β} {s s' : σ}
    {b : β} :
    (m >>= f).run s = .ok (b, s') ↔
      ∃ a t, m.run s = .ok (a, t) ∧ (f a).run t = .ok (b, s') := by
  rw [StateT.run_bind, bind_eq_ok]
  exact ⟨fun ⟨p, hp, hf⟩ => ⟨p.1, p.2, hp, hf⟩, fun ⟨a, t, hm, hf⟩ => ⟨(a, t), hm, hf⟩⟩

theorem run_pure_eq_ok {a b : α} {s s' : σ} :
    (pure a : StateT σ (Except ε) α).run s = .ok (b, s') ↔ b = a ∧ s' = s := by
  change (Except.ok (a, s) : Except ε (α × σ)) = .ok (b, s') ↔ _
  simp only [Except.ok.injEq, Prod.mk.injEq, eq_comm]

theorem run_get_bind {f : σ → StateT σ (Except ε) β} {s : σ} :
    ((get : StateT σ (Except ε) σ) >>= f).run s = (f s).run s := rfl

theorem run_throw_eq_ok {e : ε} {r : α × σ} {s : σ} :
    (throw e : StateT σ (Except ε) α).run s = .ok r ↔ False := by
  simp only [iff_false]
  intro h
  cases h

end Outcome

end BlockFlow

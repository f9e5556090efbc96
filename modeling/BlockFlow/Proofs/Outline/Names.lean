import BlockFlow.Proofs.Outline.Blocks
import Mathlib.Data.List.Pairwise

/-!
Finding the items of workflows by name. Main statement: a workflow is found at the first item of the
list of workflows that has its name.
-/

namespace BlockFlow.Outline

variable {o p : Outline} {i j root : Nat} {key name : String}

theorem find?_entriesAt (column : Nat) (key : Line) (ls : List (Line × Nat)) :
    (entriesAt column ls).find? (·.2 = key) = (ls.find? fun q =>
      q.1.indent? = some column && !q.1.isItem && q.1.key? = some key).map fun q => (q.2, key) := by
  induction ls with
  | nil => rfl
  | cons q ls ih =>
    unfold entriesAt at ih ⊢
    rw [List.filterMap_cons, List.find?_cons]
    by_cases hentry : (q.1.indent? = some column && !q.1.isItem) = true
    · simp only [hentry, if_true, Bool.true_and]
      cases hkey : q.1.key? with
      | none => simpa using ih
      | some k =>
        rw [Option.map_some]
        simp only [List.find?_cons, Option.some.injEq]
        by_cases hk : k = key
        · simp [hk]
        · simpa [hk] using ih
    · rw [Bool.not_eq_true] at hentry
      simpa [hentry] using ih

theorem find?_body (i : Nat) (p : Line → Bool) :
    (o.body i).find? p = ((o.numberedBody i).find? fun q => p q.1).map (·.1) := by
  have hbody : o.body i = (o.numberedBody i).map (·.1) := by
    rw [numberedBody, List.zipIdx_map_fst]
  rw [hbody, List.find?_map]
  rfl

theorem find?_of_itemKey? (hitem : (o.line i).isItem = true)
    (h : (o.line i).itemKey? = some key.toList) : o.find? i key = some i := by
  simp [find?, entries, hitem, h]

/-- Of an item, the first line in its block that has the key holds an entry that is not on the line
of the item. -/
theorem find?_of_isItem (hitem : (o.line i).isItem = true)
    (h : (o.line i).itemKey? ≠ some key.toList) :
    o.find? i key = ((o.numberedBody i).find? fun q => q.1.indent? = some (o.depth i + 2) &&
      !q.1.isItem && q.1.key? = some key.toList).map (·.2) := by
  have hown : (((o.line i).itemKey?.map fun key => (i, key)).toList.find?
      (·.2 = key.toList)) = none := by
    cases hkey : (o.line i).itemKey? with
    | none => rfl
    | some k =>
      have hne : k ≠ key.toList := fun heq => h (by rw [hkey, heq])
      simp [hne]
  simp only [find?, entries]
  rw [if_pos hitem, List.find?_append, hown, Option.none_or, find?_entriesAt, Option.map_map]
  rfl

/-- What the item at a line is called by its entry `name`. -/
def workflowName? (o : Outline) (item : Nat) : Option String :=
  (o.find? item "name").bind o.scalar?

theorem workflowName?_of_itemKey? (hitem : (o.line i).isItem = true)
    (h : (o.line i).itemKey? = some "name".toList) : o.workflowName? i = o.scalar? i := by
  rw [workflowName?, find?_of_itemKey? hitem h, Option.bind_some]

theorem workflowName?_of_isItem (hitem : (o.line i).isItem = true)
    (h : (o.line i).itemKey? ≠ some "name".toList) :
    o.workflowName? i = ((o.body i).find? (Line.isTitle (o.depth i))).bind fun l =>
      l.scalar?.map String.ofList := by
  rw [workflowName?, find?_of_isItem hitem h, find?_body]
  unfold Line.isTitle
  cases hfind : (o.numberedBody i).find? fun q => q.1.indent? = some (o.depth i + 2) &&
      !q.1.isItem && q.1.key? = some "name".toList with
  | none => rfl
  | some q =>
    obtain ⟨-, -, hline⟩ := mem_numberedBody (List.mem_of_find?_eq_some hfind)
    rw [Option.map_some, Option.bind_some, scalar?, hline]
    rfl

/-- An item is called the same where its block is the same. -/
theorem workflowName?_congr (hline : p.line i = o.line i) (hbody : p.body i = o.body i)
    (hitem : (o.line i).isItem = true) : p.workflowName? i = o.workflowName? i := by
  by_cases hkey : (o.line i).itemKey? = some "name".toList
  · rw [workflowName?_of_itemKey? hitem hkey, workflowName?_of_itemKey? (by rwa [hline])
      (by rwa [hline]), scalar?, scalar?, hline]
  · have hdepth : p.depth i = o.depth i := by rw [depth, depth, hline]
    rw [workflowName?_of_isItem hitem hkey, workflowName?_of_isItem (by rwa [hline])
      (by rwa [hline]), hbody, hdepth]

theorem pairwise_items (i : Nat) : (o.items i).Pairwise (· < ·) := by
  unfold items
  split
  · exact List.Pairwise.nil
  · have hindices : (o.numberedBody i).Pairwise (·.2 < ·.2) := by
      rw [← List.pairwise_map, numberedBody, List.zipIdx_map_snd]
      exact List.pairwise_lt_range'
    refine List.Pairwise.filterMap _ (fun q q' hlt j hj j' hj' => ?_) hindices
    obtain ⟨-, hj⟩ := Option.ite_none_right_eq_some.mp hj
    obtain ⟨-, hj'⟩ := Option.ite_none_right_eq_some.mp hj'
    cases hj
    cases hj'
    exact hlt

/-- In an ascending list, what is found first is the least. -/
theorem find?_eq_some_of_pairwise {ns : List Nat} {p : Nat → Bool} (h : ns.Pairwise (· < ·)) :
    ns.find? p = some i ↔ i ∈ ns ∧ p i ∧ ∀ j ∈ ns, j < i → p j = false := by
  rw [List.find?_eq_some_iff_append]
  constructor
  · rintro ⟨hp, above, below, rfl, hnot⟩
    refine ⟨by simp, hp, fun j hj hlt => ?_⟩
    rcases List.mem_append.mp hj with habove | hbelow
    · simpa using hnot j habove
    · rw [List.pairwise_append, List.pairwise_cons] at h
      rcases List.mem_cons.mp hbelow with rfl | hbelow
      · omega
      · have := h.2.1.1 j hbelow
        omega
  · rintro ⟨hmem, hp, hleast⟩
    obtain ⟨above, below, rfl⟩ := List.append_of_mem hmem
    rw [List.pairwise_append] at h
    refine ⟨hp, above, below, rfl, fun j hj => ?_⟩
    rw [hleast j (List.mem_append_left _ hj) (h.2.2 j hj i (by simp))]
    rfl

theorem workflowItems_eq (h : o.workflowsLine? = some root) : o.workflowItems =
    (o.items root).filterMap fun i => (o.workflowName? i).map fun name => (i, name) := by
  simp only [workflowItems, h]
  congr 1
  funext i
  rw [workflowName?]
  cases o.find? i "name" with
  | none => rfl
  | some line => cases hs : o.scalar? line <;> simp [hs]

theorem find?_named (f : Nat → Option String) (name : String) (ns : List Nat) :
    ((ns.filterMap fun i => (f i).map fun n => (i, n)).find? (·.2 = name)).map (·.1) =
      ns.find? fun i => f i = some name := by
  induction ns with
  | nil => rfl
  | cons i ns ih =>
    rw [List.filterMap_cons, List.find?_cons]
    cases hi : f i with
    | none => simpa using ih
    | some n =>
      by_cases hn : n = name
      · simp [hn]
      · simpa [hn] using ih

theorem workflowLine?_eq_find? (h : o.workflowsLine? = some root) :
    o.workflowLine? name = (o.items root).find? fun i => o.workflowName? i = some name := by
  rw [workflowLine?, workflowItems_eq h, find?_named]

/-- A workflow is found at the first item with its name. -/
theorem workflowLine?_eq_some : o.workflowLine? name = some i ↔ ∃ root,
    o.workflowsLine? = some root ∧ i ∈ o.items root ∧ o.workflowName? i = some name ∧
      ∀ j ∈ o.items root, j < i → o.workflowName? j ≠ some name := by
  constructor
  · intro h
    cases hroot : o.workflowsLine? with
    | none => simp [workflowLine?, workflowItems, hroot] at h
    | some root =>
      rw [workflowLine?_eq_find? hroot, find?_eq_some_of_pairwise (pairwise_items root)] at h
      simpa using h
  · rintro ⟨root, hroot, h⟩
    rw [workflowLine?_eq_find? hroot, find?_eq_some_of_pairwise (pairwise_items root)]
    simpa using h

end BlockFlow.Outline

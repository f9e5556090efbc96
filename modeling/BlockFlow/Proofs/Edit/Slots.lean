import BlockFlow.Proofs.Edit.Pruning

/-!
How many numbered branches a node has once one is added or removed. Main statement: as long as all
branches of a node are slots of its opcode, the one behind the last number is free and makes one more,
and without a number, those above it moved down, there are fewer and all of them are slots.
-/

namespace BlockFlow

open Form (numberedName_injective ordinal?_numberedName ordinal?_bounds)

/-- How many numbered slots branches with some numbers ask for. -/
def slotCount (least : Nat) (ns : List Nat) : Nat :=
  max (max least ns.length) (min (largest ns) (ns.length + least))

/-- A number once the number `k` is gone. -/
def lowerAbove (k j : Nat) : Nat := if k < j then j - 1 else j

/-- The names of numbered branches once the one with number `k` is gone. -/
def withoutNumber (stem : String) (k : Nat) (names : List String) : List String :=
  (names.filter (· ≠ numberedName stem k)).map (movedDown stem k)

/-- The numbers once `k` is gone. -/
def numbersWithout (k : Nat) (ns : List Nat) : List Nat := (ns.filter (· ≠ k)).map (lowerAbove k)

namespace BranchSlots

/-- The slots with a number behind a stem. -/
def numberedSlots (slots : BranchSlots) (stem : String) (names : List String) : List String :=
  (slots.names names).filter fun name => (ordinal? name stem).isSome

/-- Branches that a node can have: they differ, and each is one of the slots that they ask for. -/
structure Allows (slots : BranchSlots) (names : List String) : Prop where
  nodup : names.Nodup
  slot : ∀ name ∈ names, name ∈ slots.names names

instance (slots : BranchSlots) (names : List String) : Decidable (slots.Allows names) :=
  decidable_of_iff (names.Nodup ∧ ∀ name ∈ names, name ∈ slots.names names)
    ⟨fun h => ⟨h.1, h.2⟩, fun h => ⟨h.nodup, h.slot⟩⟩

end BranchSlots

section Count

variable {least k n m : Nat} {ns : List Nat}

theorem numberedCount_eq (stem : String) (least : Nat) (names : List String) :
    numberedCount stem least names = slotCount least (numbers stem names) := rfl

theorem foldl_max_le (start : Nat) :
    ns.foldl max start ≤ m ↔ start ≤ m ∧ ∀ n ∈ ns, n ≤ m := by
  induction ns generalizing start with
  | nil => simp
  | cons n ns ih =>
    rw [List.foldl_cons, ih]
    simp only [List.forall_mem_cons, max_le_iff, and_assoc]

theorem largest_le : largest ns ≤ m ↔ ∀ n ∈ ns, n ≤ m :=
  (foldl_max_le 0).trans (and_iff_right m.zero_le)

theorem le_largest (h : n ∈ ns) : n ≤ largest ns := largest_le.mp le_rfl n h

theorem least_le_slotCount (least : Nat) (ns : List Nat) : least ≤ slotCount least ns :=
  (le_max_left _ _).trans (le_max_left _ _)

theorem slotCount_le_length_add (least : Nat) (ns : List Nat) :
    slotCount least ns ≤ ns.length + least := by
  rw [slotCount]
  omega

/-- Numbers that differ ask for no more than the highest of them and the least number of slots. -/
theorem slotCount_le (hnodup : ns.Nodup) (hleast : least ≤ m) (h : ∀ n ∈ ns, 1 ≤ n ∧ n ≤ m) :
    slotCount least ns ≤ m := by
  have hsubset : ns ⊆ List.range' 1 m := by
    intro n hn
    have hbounds := h n hn
    rw [List.mem_range'_1]
    omega
  have hlength := hnodup.length_le_of_subset hsubset
  have hlargest : largest ns ≤ m := largest_le.mpr fun n hn => (h n hn).2
  rw [List.length_range'] at hlength
  rw [slotCount]
  omega

/-- They ask for a slot with each number that is not too high for how many they are. -/
theorem le_slotCount (h : n ∈ ns) (hle : n ≤ ns.length + least) : n ≤ slotCount least ns := by
  have hlargest := le_largest h
  rw [slotCount]
  omega

theorem lowerAbove_injective {i j : Nat} (hi : i ≠ k) (hj : j ≠ k)
    (h : lowerAbove k i = lowerAbove k j) : i = j := by
  rw [lowerAbove, lowerAbove] at h
  split at h <;> split at h <;> omega

theorem mem_numbersWithout :
    n ∈ numbersWithout k ns ↔ ∃ j ∈ ns, j ≠ k ∧ lowerAbove k j = n := by
  simp [numbersWithout, and_assoc]

theorem nodup_numbersWithout (h : ns.Nodup) : (numbersWithout k ns).Nodup := by
  refine (h.filter _).map_on fun i hi j hj heq => ?_
  have hne {j : Nat} (hj : j ∈ ns.filter (· ≠ k)) : j ≠ k := by
    simpa using (List.mem_filter.mp hj).2
  exact lowerAbove_injective (hne hi) (hne hj) heq

/-- No more than one number goes, and none when `k` is not among them. -/
theorem length_numbersWithout (h : ns.Nodup) :
    (numbersWithout k ns).length = if k ∈ ns then ns.length - 1 else ns.length := by
  have herase : ns.filter (· ≠ k) = ns.erase k := by
    rw [h.erase_eq_filter]
    exact List.filter_congr fun n _ => by simp only [ne_eq, decide_not, bne, beq_eq_decide]
  rw [numbersWithout, List.length_map, herase, List.length_erase]

/-- Without a number there are fewer slots, as long as there were more than the least number of
them. -/
theorem slotCount_numbersWithout (hnodup : ns.Nodup) (h : ∀ n ∈ ns, 1 ≤ n ∧ n ≤ slotCount least ns)
    (hone : 1 ≤ k) (hk : k ≤ slotCount least ns) (hleast : least < slotCount least ns) :
    slotCount least (numbersWithout k ns) < slotCount least ns := by
  have hle : slotCount least (numbersWithout k ns) ≤ slotCount least ns - 1 := by
    apply slotCount_le (nodup_numbersWithout hnodup) (by omega)
    intro n hn
    obtain ⟨j, hj, hne, rfl⟩ := mem_numbersWithout.mp hn
    have hbounds := h j hj
    rw [lowerAbove]
    split <;> omega
  omega

/-- With the number behind the last slot there is one slot more. -/
theorem slotCount_append (h : ∀ n ∈ ns, n ≤ slotCount least ns) :
    slotCount least (ns ++ [slotCount least ns + 1]) = slotCount least ns + 1 := by
  have hcount := slotCount_le_length_add least ns
  have hleast := least_le_slotCount least ns
  have hlargest : largest (ns ++ [slotCount least ns + 1]) = slotCount least ns + 1 := by
    apply le_antisymm
    · apply largest_le.mpr
      intro n hn
      rcases List.mem_append.mp hn with hn | hn
      · exact (h n hn).trans (Nat.le_succ _)
      · exact (List.mem_singleton.mp hn).le
    · exact le_largest (List.mem_append_right _ List.mem_cons_self)
  have hlength : ns.length ≤ slotCount least ns := by
    rw [slotCount]
    omega
  rw [slotCount, hlargest, List.length_append, List.length_singleton]
  omega

/-- Each of the lower numbers has a slot. -/
theorem le_slotCount_numbersWithout (hnodup : ns.Nodup) (h : ∀ n ∈ ns, n ≤ slotCount least ns)
    (hk : k ≤ slotCount least ns) (hn : n ∈ numbersWithout k ns) :
    n ≤ slotCount least (numbersWithout k ns) := by
  apply le_slotCount hn
  have hcount := slotCount_le_length_add least ns
  obtain ⟨j, hj, hne, rfl⟩ := mem_numbersWithout.mp hn
  have hhigh := h j hj
  rw [length_numbersWithout hnodup, lowerAbove]
  by_cases hmem : k ∈ ns
  · have hpos := List.length_pos_of_mem hmem
    rw [if_pos hmem]
    split <;> omega
  · rw [if_neg hmem]
    split <;> omega

end Count

section Names

variable {stem name : String} {k j : Nat} {names : List String}

theorem movedDown_of_none (h : ordinal? name stem = none) : movedDown stem k name = name := by
  rw [movedDown, h]

theorem movedDown_of_some (h : ordinal? name stem = some j) (hname : name = numberedName stem j) :
    movedDown stem k name = numberedName stem (lowerAbove k j) := by
  rw [movedDown, h, lowerAbove]
  dsimp only
  split
  · rfl
  · exact hname

theorem ordinal?_lowerAbove (h : ordinal? name stem = some j) (hone : 1 ≤ k) :
    ordinal? (numberedName stem (lowerAbove k j)) stem = some (lowerAbove k j) := by
  have hbounds := ordinal?_bounds h
  apply ordinal?_numberedName <;>
  · rw [lowerAbove]
    split <;> omega

theorem ordinal?_movedDown (hone : 1 ≤ k) (h : ∀ j ∈ ordinal? name stem, name = numberedName stem j) :
    ordinal? (movedDown stem k name) stem = (ordinal? name stem).map (lowerAbove k) := by
  cases hj : ordinal? name stem with
  | none => rw [movedDown_of_none hj, hj, Option.map_none]
  | some j => rw [movedDown_of_some hj (h j hj), ordinal?_lowerAbove hj hone, Option.map_some]

/-- The numbers of the names that are left. -/
theorem numbers_withoutNumber (hcanonical : Canonical stem names) (hone : 1 ≤ k)
    (hlt : k < 2 ^ 64) :
    numbers stem (withoutNumber stem k names) = numbersWithout k (numbers stem names) := by
  rw [numbers, withoutNumber, List.filterMap_map, List.filterMap_filter, numbersWithout, numbers,
    List.filter_filterMap, List.map_filterMap]
  refine List.filterMap_congr fun name hname => ?_
  have hordinal := ordinal?_movedDown hone (hcanonical name hname)
  rw [Function.comp_apply, hordinal]
  cases hj : ordinal? name stem with
  | none =>
    have hne : name ≠ numberedName stem k := by
      rintro rfl
      rw [ordinal?_numberedName stem hone hlt] at hj
      cases hj
    simp [hne]
  | some j =>
    have heq : name = numberedName stem k ↔ j = k := by
      rw [hcanonical name hname j hj]
      exact (numberedName_injective stem).eq_iff
    by_cases hjk : j = k <;> simp [heq, hjk]

/-- Names that differ still do once those with higher numbers are moved down. -/
theorem nodup_withoutNumber (hnodup : names.Nodup) (hcanonical : Canonical stem names)
    (hone : 1 ≤ k) : (withoutNumber stem k names).Nodup := by
  refine (hnodup.filter _).map_on fun x hx y hy heq => ?_
  obtain ⟨hx, hxk⟩ := List.mem_filter.mp hx
  obtain ⟨hy, hyk⟩ := List.mem_filter.mp hy
  have hordinals : (ordinal? x stem).map (lowerAbove k) = (ordinal? y stem).map (lowerAbove k) := by
    rw [← ordinal?_movedDown hone (hcanonical x hx), heq, ordinal?_movedDown hone (hcanonical y hy)]
  cases hi : ordinal? x stem with
  | none =>
    rw [hi, Option.map_none, eq_comm, Option.map_eq_none_iff] at hordinals
    rwa [movedDown_of_none hi, movedDown_of_none hordinals] at heq
  | some i =>
    rw [hi, Option.map_some, eq_comm, Option.map_eq_some_iff] at hordinals
    obtain ⟨j, hj, hlower⟩ := hordinals
    have hxi := hcanonical x hx i hi
    have hyj := hcanonical y hy j hj
    have hik : i ≠ k := fun h => of_decide_eq_true hxk (h ▸ hxi)
    have hjk : j ≠ k := fun h => of_decide_eq_true hyk (h ▸ hyj)
    rw [hxi, hyj, lowerAbove_injective hjk hik hlower]

theorem mem_withoutNumber_of_none (hmem : name ∈ withoutNumber stem k names)
    (hcanonical : Canonical stem names) (hone : 1 ≤ k) (h : ordinal? name stem = none) :
    name ∈ names := by
  obtain ⟨old, hold, rfl⟩ := List.mem_map.mp hmem
  have hold := List.mem_of_mem_filter hold
  rw [ordinal?_movedDown hone (hcanonical old hold), Option.map_eq_none_iff] at h
  rwa [movedDown_of_none h]

theorem canonical_withoutNumber (hcanonical : Canonical stem names) (hone : 1 ≤ k) :
    Canonical stem (withoutNumber stem k names) := by
  intro name hname j hj
  obtain ⟨old, hold, rfl⟩ := List.mem_map.mp hname
  have hold := List.mem_of_mem_filter hold
  rw [ordinal?_movedDown hone (hcanonical old hold), Option.mem_def, Option.map_eq_some_iff] at hj
  obtain ⟨i, hi, rfl⟩ := hj
  exact movedDown_of_some hi (hcanonical old hold i hi)

end Names

/-- The branches that a node has once one is dropped and the others move down. -/
theorem NodeDef.branchNames_withoutNumber (n : NodeDef) (stem : String) (k : Nat) :
    ((n.dropBranch (numberedName stem k)).renameBranches (movedDown stem k)).branchNames =
      withoutNumber stem k n.branchNames := by
  rw [branchNames_renameBranches, branchNames_dropBranch, withoutNumber]

/-- What an edit takes for the number of branches of a node is that of its numbered slots. -/
theorem Draft.numberedBranches_eq {d : Draft} {n : NodeDef} {leading trailing : List String}
    {stem : String} {least : Nat}
    (h : d.catalog.branches? n.opcode = some (.numbered leading stem least trailing)) :
    d.numberedBranches n = .ok (stem, least,
      ((BranchSlots.numbered leading stem least trailing).numberedSlots stem n.branchNames).length) := by
  simp only [numberedBranches, Catalog.numberedBranches?, Catalog.branchSlots, h]
  rfl

namespace BranchSlots

variable {leading trailing names : List String} {stem name : String} {least j k : Nat}

/-- Where no slot around the numbered ones has a number, those with a number are the numbered ones. -/
theorem numberedSlots_eq (hfixed : ∀ name ∈ leading ++ trailing, ordinal? name stem = none)
    (hlt : slotCount least (numbers stem names) < 2 ^ 64) :
    (numbered leading stem least trailing).numberedSlots stem names =
      (List.range (slotCount least (numbers stem names))).map fun i => numberedName stem (i + 1) := by
  have hnone (fixed : List String) (hsub : fixed ⊆ leading ++ trailing) :
      fixed.filter (fun name => (ordinal? name stem).isSome) = [] := by
    apply List.filter_eq_nil_iff.mpr
    intro name hname
    rw [hfixed name (hsub hname)]
    exact Bool.false_ne_true
  rw [numberedSlots, BranchSlots.names, numberedCount_eq, List.filter_append, List.filter_append,
    hnone leading (List.subset_append_left _ _), hnone trailing (List.subset_append_right _ _),
    List.nil_append, List.append_nil, List.filter_eq_self]
  intro name hname
  obtain ⟨i, hi, rfl⟩ := List.mem_map.mp hname
  rw [List.mem_range] at hi
  rw [ordinal?_numberedName stem (by omega) (by omega)]
  rfl

theorem length_numberedSlots (hfixed : ∀ name ∈ leading ++ trailing, ordinal? name stem = none)
    (hlt : slotCount least (numbers stem names) < 2 ^ 64) :
    ((numbered leading stem least trailing).numberedSlots stem names).length =
      slotCount least (numbers stem names) := by
  rw [numberedSlots_eq hfixed hlt, List.length_map, List.length_range]

theorem mem_names_numbered : name ∈ (numbered leading stem least trailing).names names ↔
    name ∈ leading ++ trailing ∨
      ∃ j, 1 ≤ j ∧ j ≤ slotCount least (numbers stem names) ∧ name = numberedName stem j := by
  have hrange : (∃ i < slotCount least (numbers stem names), numberedName stem (i + 1) = name) ↔
      ∃ j, 1 ≤ j ∧ j ≤ slotCount least (numbers stem names) ∧ name = numberedName stem j := by
    constructor
    · rintro ⟨i, hi, rfl⟩
      exact ⟨i + 1, by omega, hi, rfl⟩
    · rintro ⟨j, hone, hle, rfl⟩
      exact ⟨j - 1, by omega, by rw [Nat.sub_add_cancel hone]⟩
  rw [BranchSlots.names, numberedCount_eq]
  simp only [List.mem_append, List.mem_map, List.mem_range, hrange]
  exact or_right_comm

/-- Where no slot around the numbered ones has a number, branches are allowed that differ, of which
those without a number are around the numbered ones and the others have a number with a slot. -/
theorem allows_iff (hfixed : ∀ name ∈ leading ++ trailing, ordinal? name stem = none)
    (hlt : slotCount least (numbers stem names) < 2 ^ 64) :
    (numbered leading stem least trailing).Allows names ↔ names.Nodup ∧ Canonical stem names ∧
      (∀ name ∈ names, ordinal? name stem = none → name ∈ leading ++ trailing) ∧
        ∀ j ∈ numbers stem names, j ≤ slotCount least (numbers stem names) := by
  constructor
  · intro h
    have hcases (name : String) (hname : name ∈ names) := mem_names_numbered.mp (h.slot name hname)
    have hnumber (name : String) (hname : name ∈ names) (j : Nat) (hj : ordinal? name stem = some j) :
        name = numberedName stem j ∧ j ≤ slotCount least (numbers stem names) := by
      rcases hcases name hname with hmem | ⟨i, hone, hle, rfl⟩
      · rw [hfixed name hmem] at hj
        cases hj
      · rw [ordinal?_numberedName stem hone (by omega), Option.some.injEq] at hj
        exact hj ▸ ⟨rfl, hle⟩
    refine ⟨h.nodup, fun name hname j hj => (hnumber name hname j hj).1, fun name hname hnone => ?_,
      fun j hj => ?_⟩
    · rcases hcases name hname with hmem | ⟨i, hone, hle, rfl⟩
      · exact hmem
      · rw [ordinal?_numberedName stem hone (by omega)] at hnone
        cases hnone
    · obtain ⟨name, hname, hj⟩ := mem_numbers.mp hj
      exact (hnumber name hname j hj).2
  · rintro ⟨hnodup, hcanonical, hnone, hle⟩
    refine ⟨hnodup, fun name hname => mem_names_numbered.mpr ?_⟩
    cases hj : ordinal? name stem with
    | none => exact .inl (hnone name hname hj)
    | some j =>
      exact .inr ⟨j, (ordinal?_bounds hj).1, hle j (mem_numbers.mpr ⟨name, hname, hj⟩),
        hcanonical name hname j hj⟩

theorem slotCount_le_length_names (least : Nat) (stem : String) (names : List String) :
    slotCount least (numbers stem names) ≤ least + names.length := by
  have hcount := slotCount_le_length_add least (numbers stem names)
  have hlength : (numbers stem names).length ≤ names.length := List.length_filterMap_le _ _
  omega

theorem numbers_append (stem : String) (names : List String) (hone : 1 ≤ j) (hlt : j < 2 ^ 64) :
    numbers stem (names ++ [numberedName stem j]) = numbers stem names ++ [j] := by
  rw [numbers, List.filterMap_append, List.filterMap_cons, ordinal?_numberedName stem hone hlt]
  rfl

section Allowed

variable (hfixed : ∀ name ∈ leading ++ trailing, ordinal? name stem = none)
  (hlt : least + names.length + 1 < 2 ^ 64)
  (h : (numbered leading stem least trailing).Allows names)

include hfixed hlt h

/-- The branch behind the last numbered slot is new. -/
theorem Allows.next_not_mem :
    numberedName stem (slotCount least (numbers stem names) + 1) ∉ names := by
  have hcount := slotCount_le_length_names least stem names
  obtain ⟨-, -, -, hle⟩ := (allows_iff hfixed (by omega)).mp h
  intro hmem
  have hordinal := ordinal?_numberedName stem
    (show 1 ≤ slotCount least (numbers stem names) + 1 by omega) (by omega)
  have hhigh := hle _ (mem_numbers.mpr ⟨_, hmem, hordinal⟩)
  omega

/-- It has the slot that is added for it. -/
theorem Allows.append : (numbered leading stem least trailing).Allows
    (names ++ [numberedName stem (slotCount least (numbers stem names) + 1)]) := by
  have hcount := slotCount_le_length_names least stem names
  have hnew := h.next_not_mem hfixed hlt
  obtain ⟨hnodup, hcanonical, hnone, hle⟩ := (allows_iff hfixed (by omega)).mp h
  have hordinal := ordinal?_numberedName stem
    (show 1 ≤ slotCount least (numbers stem names) + 1 by omega) (by omega)
  have hnumbers := numbers_append stem names
    (show 1 ≤ slotCount least (numbers stem names) + 1 by omega) (by omega)
  have hsucc := slotCount_append hle
  have hcases {name : String} (hname : name ∈ names ++
      [numberedName stem (slotCount least (numbers stem names) + 1)]) :
      name ∈ names ∨ name = numberedName stem (slotCount least (numbers stem names) + 1) := by
    rwa [List.mem_append, List.mem_singleton] at hname
  refine (allows_iff hfixed (by rw [hnumbers, hsucc]; omega)).mpr
    ⟨hnodup.append (List.nodup_singleton _) (by simpa using hnew), fun name hname j hj => ?_,
      fun name hname hj => ?_, fun j hj => ?_⟩
  · rcases hcases hname with hname | rfl
    · exact hcanonical name hname j hj
    · rw [hordinal, Option.mem_some_iff] at hj
      rw [hj]
  · rcases hcases hname with hname | rfl
    · exact hnone name hname hj
    · rw [hordinal] at hj
      cases hj
  · rw [hnumbers] at hj ⊢
    rw [hsucc]
    rcases List.mem_append.mp hj with hj | hj
    · exact (hle j hj).trans (Nat.le_succ _)
    · exact (List.mem_singleton.mp hj).le

/-- The branches that are left have slots, and there are fewer of these. -/
theorem Allows.withoutNumber (hone : 1 ≤ k) (hk : k ≤ slotCount least (numbers stem names))
    (hleast : least < slotCount least (numbers stem names)) :
    (numbered leading stem least trailing).Allows (withoutNumber stem k names) ∧
      slotCount least (numbers stem (BlockFlow.withoutNumber stem k names)) <
        slotCount least (numbers stem names) := by
  have hcount := slotCount_le_length_names least stem names
  obtain ⟨hnodup, hcanonical, hnone, hle⟩ := (allows_iff hfixed (by omega)).mp h
  have hdistinct := nodup_numbers hnodup hcanonical
  have hnumbers := numbers_withoutNumber hcanonical hone (by omega)
  have hbounds (j : Nat) (hj : j ∈ numbers stem names) :
      1 ≤ j ∧ j ≤ slotCount least (numbers stem names) := by
    obtain ⟨name, -, hordinal⟩ := mem_numbers.mp hj
    exact ⟨(ordinal?_bounds hordinal).1, hle j hj⟩
  have hfewer := slotCount_numbersWithout hdistinct hbounds hone hk hleast
  rw [← hnumbers] at hfewer
  refine ⟨(allows_iff hfixed (by omega)).mpr ⟨nodup_withoutNumber hnodup hcanonical hone,
    canonical_withoutNumber hcanonical hone, fun name hname hj => ?_, fun j hj => ?_⟩, hfewer⟩
  · exact hnone name (mem_withoutNumber_of_none hname hcanonical hone hj) hj
  · rw [hnumbers] at hj ⊢
    exact le_slotCount_numbersWithout hdistinct hle hk hj

end Allowed

end BranchSlots

end BlockFlow

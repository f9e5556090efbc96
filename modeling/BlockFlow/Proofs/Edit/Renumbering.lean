import BlockFlow.Proofs.Edit.Bridging
import BlockFlow.Proofs.Form.Numbered

/-!
Removing a numbered input of a node in a scene. Main statement: the inputs with higher numbers move
down by one, lowest first, and keep their values.
-/

namespace BlockFlow

open Outcome InputExpr

open Form (numberedName_injective ordinal?_numberedName ordinal?_bounds isStem)

section Ascending

variable {n : Nat} {ns : List Nat}

theorem insertAscending_perm (n : Nat) (ns : List Nat) : (insertAscending n ns).Perm (n :: ns) := by
  induction ns with
  | nil => exact .refl _
  | cons m ns ih =>
    rw [insertAscending]
    split
    · exact .refl _
    · exact (ih.cons m).trans (.swap n m ns)

theorem pairwise_insertAscending (h : ns.Pairwise (· ≤ ·)) :
    (insertAscending n ns).Pairwise (· ≤ ·) := by
  induction ns with
  | nil => exact List.pairwise_singleton _ _
  | cons m ns ih =>
    obtain ⟨hm, hns⟩ := List.pairwise_cons.mp h
    rw [insertAscending]
    split
    · rename_i hle
      refine List.pairwise_cons.mpr ⟨fun k hk => ?_, h⟩
      rcases List.mem_cons.mp hk with rfl | hk
      · exact hle
      · exact hle.trans (hm k hk)
    · rename_i hlt
      refine List.pairwise_cons.mpr ⟨fun k hk => ?_, ih hns⟩
      rcases List.mem_cons.mp ((insertAscending_perm n ns).mem_iff.mp hk) with rfl | hk
      · omega
      · exact hm k hk

theorem ascending_perm (ns : List Nat) : (ascending ns).Perm ns := by
  induction ns with
  | nil => exact .refl _
  | cons n ns ih => exact (insertAscending_perm n _).trans (ih.cons n)

theorem pairwise_ascending (ns : List Nat) : (ascending ns).Pairwise (· ≤ ·) := by
  induction ns with
  | nil => exact .nil
  | cons n ns ih => exact pairwise_insertAscending ih

end Ascending

/-- A name with the next lower number, when its number is one of some. -/
def lowered (stem : String) (ks : List Nat) (name : String) : String :=
  match ordinal? name stem with
  | some k => if k ∈ ks then numberedName stem (k - 1) else name
  | none => name

/-- Inputs whose numbers are lowered. -/
def lowerInputs (stem : String) (ks : List Nat) (ins : Inputs) : Inputs :=
  ins.map fun i => (lowered stem ks i.1, i.2)

/-- Whether all names with a number behind a stem are written as numbered names are, without leading
zeros. -/
def Canonical (stem : String) (names : List String) : Prop :=
  ∀ name ∈ names, ∀ k ∈ ordinal? name stem, name = numberedName stem k

instance (stem : String) (names : List String) : Decidable (Canonical stem names) :=
  inferInstanceAs (Decidable (∀ name ∈ names, ∀ k ∈ ordinal? name stem, name = numberedName stem k))

/-- The numbers behind a stem among names. -/
def numbers (stem : String) (names : List String) : List Nat :=
  names.filterMap fun name => ordinal? name stem

theorem mem_numbers {stem : String} {j : Nat} {names : List String} :
    j ∈ numbers stem names ↔ ∃ name ∈ names, ordinal? name stem = some j :=
  List.mem_filterMap

theorem nodup_numbers {stem : String} {names : List String} (hnodup : names.Nodup)
    (hcanonical : Canonical stem names) : (numbers stem names).Nodup := by
  refine List.pairwise_filterMap.mpr (hnodup.imp_of_mem ?_)
  rintro name other hname hother hne _ hj j hj' rfl
  exact hne ((hcanonical name hname _ hj).trans (hcanonical other hother _ hj').symm)

/-- Numbers of names that can be lowered one after the other: below each there is a gap, or a number
that is lowered before. -/
structure MovesDown (stem : String) (ks : List Nat) (names : List String) : Prop where
  nodup : names.Nodup
  canonical : Canonical stem names
  sorted : ks.Pairwise (· < ·)
  bounds : ∀ k ∈ ks, 2 ≤ k ∧ k < 2 ^ 64
  mem : ∀ k ∈ ks, numberedName stem k ∈ names
  free : ∀ k ∈ ks, numberedName stem (k - 1) ∈ names → k - 1 ∈ ks

namespace MovesDown

variable {stem : String} {k : Nat} {ks : List Nat} {names : List String} {ins : Inputs}

/-- The name below the lowest number is free. -/
theorem fresh (h : MovesDown stem (k :: ks) names) : numberedName stem (k - 1) ∉ names := by
  intro hmem
  obtain ⟨hlow, -⟩ := h.bounds k List.mem_cons_self
  rcases List.mem_cons.mp (h.free k List.mem_cons_self hmem) with heq | hin
  · omega
  · have hlt := (List.pairwise_cons.mp h.sorted).1 _ hin
    omega

/-- Once the lowest number is lowered, the others can be. -/
theorem step (h : MovesDown stem (k :: ks) names) : MovesDown stem ks
    (names.map fun name =>
      if name = numberedName stem k then numberedName stem (k - 1) else name) := by
  obtain ⟨hlow, hhigh⟩ := h.bounds k List.mem_cons_self
  obtain ⟨habove, hsorted⟩ := List.pairwise_cons.mp h.sorted
  have hother (name : String) (hmem : name ∈ names.map fun name =>
      if name = numberedName stem k then numberedName stem (k - 1) else name) :
      name = numberedName stem (k - 1) ∨ name ∈ names ∧ name ≠ numberedName stem k := by
    obtain ⟨old, hold, rfl⟩ := List.mem_map.mp hmem
    split
    · exact .inl rfl
    · rename_i hne
      exact .inr ⟨hold, hne⟩
  refine ⟨?_, fun name hmem j hj => ?_, hsorted, fun j hj => h.bounds j (List.mem_cons_of_mem _ hj),
    fun j hj => ?_, fun j hj hmem => ?_⟩
  · refine h.nodup.map_on fun x hx y hy heq => ?_
    split at heq <;> split at heq
    · simp_all
    · exact absurd (heq ▸ hy) h.fresh
    · exact absurd (heq ▸ hx) h.fresh
    · exact heq
  · rcases hother name hmem with rfl | ⟨hmem, -⟩
    · rw [ordinal?_numberedName stem (by omega) (by omega), Option.mem_some_iff] at hj
      rw [hj]
    · exact h.canonical name hmem j hj
  · have hlt := habove j hj
    have hne : numberedName stem j ≠ numberedName stem k := fun heq => by
      have heq := numberedName_injective stem heq
      omega
    exact List.mem_map.mpr ⟨_, h.mem j (List.mem_cons_of_mem _ hj), if_neg hne⟩
  · have hlt := habove j hj
    rcases hother _ hmem with heq | ⟨hmem, hne⟩
    · have heq := numberedName_injective stem heq
      omega
    · refine (List.mem_cons.mp (h.free j (List.mem_cons_of_mem _ hj) hmem)).resolve_left fun heq => ?_
      rw [heq] at hne
      exact hne rfl

/-- Lowering the lowest number first, and the others then, is lowering all. -/
theorem lowered_rename {name : String} (h : MovesDown stem (k :: ks) names) (hname : name ∈ names) :
    lowered stem ks (if name = numberedName stem k then numberedName stem (k - 1) else name) =
      lowered stem (k :: ks) name := by
  obtain ⟨hlow, hhigh⟩ := h.bounds k List.mem_cons_self
  by_cases hk : name = numberedName stem k
  · have hbelow : k - 1 ∉ ks := fun hin => by
      have hlt := (List.pairwise_cons.mp h.sorted).1 _ hin
      omega
    simp only [hk, if_true, lowered,
      ordinal?_numberedName stem (show 1 ≤ k by omega) hhigh,
      ordinal?_numberedName stem (show 1 ≤ k - 1 by omega) (by omega), if_neg hbelow,
      List.mem_cons, true_or]
  · simp only [hk, if_false, lowered]
    cases hj : ordinal? name stem with
    | none => rfl
    | some j =>
      have hne : j ≠ k := fun heq => hk (heq ▸ h.canonical name hname j hj)
      simp only [List.mem_cons, hne, false_or]

theorem lowerInputs_rename (h : MovesDown stem (k :: ks) (ins.map (·.1))) :
    lowerInputs stem ks (renameInput (numberedName stem k) (numberedName stem (k - 1)) ins) =
      lowerInputs stem (k :: ks) ins := by
  rw [lowerInputs, lowerInputs, renameInput, List.map_map]
  refine List.map_congr_left fun i hi => ?_
  rw [← h.lowered_rename (List.mem_map_of_mem hi), Function.comp_apply]
  split <;> rfl

/-- The numbers above that of a name that is left out can be lowered. -/
theorem of_filter {key : String} (hnodup : names.Nodup) (hcanonical : Canonical stem names)
    (hk : ordinal? key stem = some k) (hkey : key = numberedName stem k) :
    MovesDown stem (numbersAbove stem k names) (names.filter (· ≠ key)) := by
  have hks (j : Nat) : j ∈ numbersAbove stem k names ↔
      (∃ name ∈ names, ordinal? name stem = some j) ∧ k < j := by
    rw [numbersAbove, (ascending_perm _).mem_iff, List.mem_filter, List.mem_filterMap,
      decide_eq_true_eq]
  obtain ⟨hone, -⟩ := ordinal?_bounds hk
  refine ⟨hnodup.filter _, fun name hname => hcanonical name (List.mem_of_mem_filter hname), ?_,
    fun j hj => ?_, fun j hj => ?_, fun j hj hbelow => ?_⟩
  · have hdistinct : (numbersAbove stem k names).Nodup :=
      (ascending_perm _).nodup_iff.mpr ((nodup_numbers hnodup hcanonical).filter _)
    exact (pairwise_ascending _).imp₂ (fun _ _ hle hne => lt_of_le_of_ne hle hne) hdistinct
  · obtain ⟨⟨name, -, hj⟩, hlt⟩ := (hks j).mp hj
    obtain ⟨-, hhigh⟩ := ordinal?_bounds hj
    exact ⟨by omega, hhigh⟩
  · obtain ⟨⟨name, hname, hj⟩, hlt⟩ := (hks j).mp hj
    refine List.mem_filter.mpr ⟨hcanonical name hname j hj ▸ hname, ?_⟩
    simp only [decide_eq_true_eq]
    rintro rfl
    rw [← hcanonical name hname j hj, hj, Option.some.injEq] at hk
    omega
  · obtain ⟨⟨name, hname, hj⟩, hlt⟩ := (hks j).mp hj
    obtain ⟨hbelow, hne⟩ := List.mem_filter.mp hbelow
    obtain ⟨-, hhigh⟩ := ordinal?_bounds hj
    have hordinal :=
      ordinal?_numberedName stem (show 1 ≤ j - 1 by omega) (show j - 1 < 2 ^ 64 by omega)
    refine (hks (j - 1)).mpr ⟨⟨_, hbelow, hordinal⟩, ?_⟩
    by_contra hnot
    have heq : j - 1 = k := by omega
    rw [heq, ← hkey] at hne
    simp at hne

theorem of_drop {key : String} (hnodup : (ins.map (·.1)).Nodup)
    (hcanonical : Canonical stem (ins.map (·.1))) (hk : ordinal? key stem = some k)
    (hmem : key ∈ ins.map (·.1)) : MovesDown stem (numbersAbove stem k (ins.map (·.1)))
      ((dropInput key ins).map (·.1)) := by
  have hkeys : (dropInput key ins).map (·.1) = (ins.map (·.1)).filter (· ≠ key) := by
    rw [dropInput, List.filter_map]
    rfl
  rw [hkeys]
  exact of_filter hnodup hcanonical hk (hcanonical key hmem k hk)

/-- Names without a number do not matter. -/
theorem sublist {names' : List String} (h : MovesDown stem ks names) (hsub : names'.Sublist names)
    (hmem : ∀ k ∈ ks, numberedName stem k ∈ names') : MovesDown stem ks names' where
  nodup := h.nodup.sublist hsub
  canonical := fun name hname => h.canonical name (hsub.subset hname)
  sorted := h.sorted
  bounds := h.bounds
  mem := hmem
  free := fun k hk hbelow => h.free k hk (hsub.subset hbelow)

end MovesDown

namespace Scene

variable {S : Scene} {ws₁ ws₂ : List Workflow} {w : Workflow} {ns : List NodeDef} {n : NodeDef}
  {id key stem : String} {d d' : Draft} {ins : Inputs} {ks : List Nat}

/-- The block of a node of which the inputs are known. -/
theorem Hosts.exists_inputs_block {span : Span} (h : S.Hosts ws₁ w ws₂)
    (hd : S.Holds d (setInputs id ins ns)) (hspan : d.nodeSpan w.name id = .ok span) :
    ∃ (s : Slot) (fs : List (String × Form)) (n : NodeDef), n.inputs = ins ∧ span.start = s.line ∧
      d.outline = s.fill (.map fs) ∧ Form.Loads fs n ∧ Form.PlainInputs fs ∧
        ∀ (fs' : List (String × Form)) (ins' : Inputs), Form.Loads fs' { n with inputs := ins' } →
          Form.PlainInputs fs' →
            S.Holds (d.withOutline (s.fill (.map fs'))) (setInputs id ins' ns) := by
  obtain ⟨s, fs, n, hn, hid, hstart, houtline, hload, hplain, hreplace⟩ :=
    h.exists_block (holds_iff.mp hd) hspan
  refine ⟨s, fs, n, ?_, hstart, houtline, hload, hplain trivial, fun fs' ins' hload' hplain' => ?_⟩
  · obtain ⟨m, -, rfl⟩ := List.mem_map.mp hn
    by_cases hm : m.id = id
    · rw [if_pos hm]
    · rw [if_neg hm] at hid
      exact absurd hid hm
  · have hnew := hreplace fs' (fun n => { n with inputs := ins' }) hload' hid fun _ => hplain'
    rwa [← setInputs, setInputs_setInputs, ← holds_iff] at hnew

/-- Leaving out an input. -/
theorem Hosts.removeFrom (h : S.Hosts ws₁ w ws₂) (hd : S.Holds d (setInputs id ins ns))
    (hkey : key ∈ ins.map (·.1)) (hok : d.removeFrom w.name id "inputs" key = .ok d') :
    S.Holds d' (setInputs id (dropInput key ins) ns) := by
  obtain ⟨line, hline, hok⟩ := bind_eq_ok.mp hok
  obtain ⟨span, hspan, hline⟩ := bind_eq_ok.mp hline
  cases hline
  obtain ⟨s, fs, n, rfl, hstart, houtline, hload, hplain, hreplace⟩ :=
    h.exists_inputs_block hd hspan
  obtain ⟨block, fs', hblock, hremove, hload', hplain'⟩ :=
    Slot.dropInput_fill (s := s) hload hplain hkey
  rw [hstart, houtline, hblock] at hok
  cases hok
  rw [hremove]
  exact hreplace fs' _ hload' hplain'

/-- Lowering numbers of inputs, one after the other. -/
theorem Hosts.renumber (h : S.Hosts ws₁ w ws₂) (hd : S.Holds d (setInputs id ins ns))
    (hstem : isStem stem) (hmoves : MovesDown stem ks (ins.map (·.1)))
    (hok : d.renumber w.name id "inputs" stem ks = .ok d') :
    S.Holds d' (setInputs id (lowerInputs stem ks ins) ns) := by
  induction ks generalizing d ins with
  | nil =>
    cases hok
    have hself : lowerInputs stem [] ins = ins := by
      refine (List.map_congr_left fun i _ => ?_).trans (List.map_id ins)
      rw [lowered]
      split <;> simp
    rwa [hself]
  | cons k ks ih =>
    obtain ⟨line, hline, hok⟩ := bind_eq_ok.mp hok
    obtain ⟨span, hspan, hline⟩ := bind_eq_ok.mp hline
    cases hline
    obtain ⟨s, fs, n, rfl, hstart, houtline, hload, hplain, hreplace⟩ :=
      h.exists_inputs_block hd hspan
    obtain ⟨hlow, hhigh⟩ := hmoves.bounds k List.mem_cons_self
    obtain ⟨block, entry, fs', hblock, hentry, hrename, hload', hplain'⟩ :=
      Slot.renameInput_fill (s := s) hload hplain (hmoves.mem k List.mem_cons_self)
        (Form.isKey_numberedName (Form.mem_stems hstem) (show k - 1 < 2 ^ 64 by omega)) hmoves.fresh
        (Form.numberedName_ne (Form.mem_stems hstem) (by decide))
        (Form.numberedName_ne (Form.mem_stems hstem) (by decide))
    have hnew := hreplace fs' _ hload' hplain'
    simp only [hstart, houtline, hblock, hentry, hrename] at hok
    rw [← hmoves.lowerInputs_rename]
    refine ih hnew ?_ hok
    have hkeys : (renameInput (numberedName stem k) (numberedName stem (k - 1)) n.inputs).map (·.1) =
        (n.inputs.map (·.1)).map fun name =>
          if name = numberedName stem k then numberedName stem (k - 1) else name := by
      rw [renameInput, List.map_map, List.map_map]
      refine List.map_congr_left fun i _ => ?_
      by_cases hi : i.1 = numberedName stem k <;> simp [hi]
    rw [hkeys]
    exact hmoves.step

end Scene

end BlockFlow

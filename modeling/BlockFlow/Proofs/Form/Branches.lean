import BlockFlow.Proofs.Form.Numbered

/-!
Numbered branches in the outline of a form. Main statements: when a branch is left out or gets another
name, the node is read with its branches changed likewise.
-/

namespace BlockFlow

open Form (branches Loads SameInputs)

namespace Form

variable {es bs : List (String × Form)} {n : NodeDef} {name : String}

/-- Other branches in a node. Without any, nothing stands behind the key. -/
theorem Loads.block_branches (h : Loads es n) (hsound : entriesSound bs)
    (hnodup : (bs.map (·.1)).Nodup) (hbs : ∀ b ∈ bs, b.2.IsPointer) :
    Loads (put "branches" (Scene.block bs) es)
      { n with branches := bs.map fun b => (b.1, b.2.target?) } := by
  unfold Scene.block
  split
  · rename_i hnil
    subst hnil
    refine h.of_parts (entriesSound_put h.sound isKey_branches rfl) (nodup_put h.nodup) ?_ ?_ ?_ ?_
    · rw [firstOf?_put, if_neg (by decide)]
    · rw [firstOf?_put, if_neg (by decide)]
    · rw [firstOf?_put, if_neg (by decide), h.next]
    · rw [Document.loadHeads, Document.field?, lookup_entryValues, firstOf?_put, if_pos rfl]
      rfl
  · rename_i hne
    exact h.put_branches hne hsound hnodup hbs

theorem Loads.branchNames (h : Loads es n) : n.branchNames = (branches es).map (·.1) := by
  rw [NodeDef.branchNames, h.pointers.2.2, List.map_map]
  rfl

/-- A node with branches has a block of them. -/
theorem Loads.exists_branches (h : Loads es n) (hname : name ∈ n.branchNames) :
    ∃ es₁ bs₁ f bs₂ es₂, es = es₁ ++ ("branches", .map (bs₁ ++ (name, f) :: bs₂)) :: es₂ ∧
      "branches" ∉ es₁.map (·.1) ∧ name ∉ bs₁.map (·.1) ∧ name ∉ bs₂.map (·.1) := by
  obtain ⟨-, hnodup⟩ := h.branches_sound
  rw [h.branchNames] at hname
  obtain ⟨bs₁, f, bs₂, hsplit, h₁, h₂⟩ := exists_split hname hnodup
  cases hfirst : firstOf? "branches" es with
  | none => simp [branches, hfirst] at hsplit
  | some g =>
    obtain ⟨es₁, es₂, rfl, hfront⟩ := exists_split_of_firstOf? hfirst
    rw [branches_append hfront] at hsplit
    cases g with
    | map bs => exact ⟨es₁, bs₁, f, bs₂, es₂, by rw [← hsplit]; rfl, hfront, h₁, h₂⟩
    | _ => simp [inside] at hsplit

end Form

namespace Slot

variable {s : Slot} {es : List (String × Form)} {n : NodeDef} {name name' : String}

/-- The node that is read once a branch is left out. -/
theorem dropBranch_fill (h : Loads es n) (name : String) :
    ((s.fill (.map es)).find? s.line "branches" = none ∧ n.branches = []) ∨
      ∃ block es', (s.fill (.map es)).find? s.line "branches" = some block ∧
        (s.fill (.map es)).removeEntry block name = s.fill (.map es') ∧ SameInputs es es' ∧
          Loads es' { n with branches := n.branches.filter (·.1 ≠ name) } := by
  obtain ⟨hsound, hnodup⟩ := h.branches_sound
  obtain ⟨-, hbs, hbranches⟩ := h.pointers
  by_cases hmem : "branches" ∈ es.map (·.1)
  · obtain ⟨es₁, g, es₂, rfl, h₁, -⟩ := Form.exists_split hmem h.nodup
    have hinside : branches (es₁ ++ ("branches", g) :: es₂) = g.inside := Form.branches_append h₁
    right
    by_cases hleaf : ∃ l, g = .leaf l
    · obtain ⟨l, rfl⟩ := hleaf
      have hnone : n.branches = [] := by rw [hbranches, hinside]; rfl
      obtain ⟨-, hk, -, h₂⟩ := sound_entry h.sound
      have hentries := entries_leaf (s := s.inner es₁ es₂ "branches" hk h₂) (l := l)
      rw [fill_inner, line_inner] at hentries
      have hself : { n with branches := n.branches.filter (·.1 ≠ name) } = n := by
        rw [hnone, List.filter_nil, ← hnone]
      refine ⟨_, _, find?_fill_append h.sound h₁, ?_, rfl, by rwa [hself]⟩
      simp [Outline.removeEntry, Outline.findBelow?, Outline.find?, hentries]
    · have hopen : opened g = g := by
        cases g with
        | leaf l => exact absurd ⟨l, rfl⟩ hleaf
        | _ => rfl
      have hremove := removeEntry_block (s := s) name h.sound hopen (h.not_seq h₁)
      obtain ⟨-, hk, -, h₂⟩ := sound_entry h.sound
      have hfill : (s.inner es₁ es₂ "branches" hk h₂).fill (Scene.block (Form.erase name g.inside)) =
          (s.inner es₁ es₂ "branches" hk h₂).fill (.map (Form.erase name g.inside)) :=
        Scene.fill_block
      have hload := h.block_branches (Form.entriesSound_erase name hsound)
        (Form.nodup_erase name hnodup) fun b hb => hbs b (List.mem_of_mem_filter hb)
      have hdropped : n.branches.filter (·.1 ≠ name) = Form.targets (Form.erase name g.inside) := by
        rw [Form.targets_erase, ← hinside]
        exact congrArg (List.filter _) hbranches
      rw [fill_inner, fill_inner] at hfill
      rw [hinside, Form.put_append h₁] at hload
      rw [hdropped]
      exact ⟨_, _, find?_fill_append h.sound h₁, hremove.trans hfill.symm,
        firstOf?_replace (by decide), hload⟩
  · refine .inl ⟨find?_fill_none h.sound hmem, ?_⟩
    rw [hbranches, Form.branches_none hmem]
    rfl

/-- The node that is read once a branch has another name. -/
theorem renameBranch_fill (h : Loads es n) (hname : name ∈ n.branchNames) (hkey : Form.isKey name')
    (hnew : name' ∉ n.branchNames) : ∃ block entry es',
      (s.fill (.map es)).find? s.line "branches" = some block ∧
      (s.fill (.map es)).find? block name = some entry ∧
      (s.fill (.map es)).renameKey entry name' = s.fill (.map es') ∧ SameInputs es es' ∧
        Loads es' { n with
          branches := n.branches.map fun b => if b.1 = name then (name', b.2) else b } := by
  obtain ⟨-, hbs, hbranches⟩ := h.pointers
  obtain ⟨hsound, hnodup⟩ := h.branches_sound
  obtain ⟨es₁, bs₁, f, bs₂, es₂, rfl, h₁, hb₁, hb₂⟩ := h.exists_branches hname
  have hinside : branches (es₁ ++ ("branches", .map (bs₁ ++ (name, f) :: bs₂)) :: es₂) =
      bs₁ ++ (name, f) :: bs₂ := Form.branches_append h₁
  rw [h.branchNames, hinside] at hnew
  rw [hinside] at hsound hnodup hbs hbranches
  obtain ⟨-, hk, -, h₂⟩ := sound_entry h.sound
  obtain ⟨hs₁, -, hf, hs₂⟩ := sound_entry hsound
  let t := s.inner es₁ es₂ "branches" hk h₂
  have hfind := find?_fill_append (s := t) hsound hb₁
  have hrename := renameKey_fill (s := t) hsound hkey
  rw [fill_inner] at hfind
  rw [fill_inner, fill_inner] at hrename
  have hrenamed : (n.branches.map fun b => if b.1 = name then (name', b.2) else b) =
      Form.targets (bs₁ ++ (name', f) :: bs₂) := by
    rw [Form.targets_append]
    exact (congrArg (List.map _) hbranches).trans (Form.targets_middle ⟨hb₁, hb₂⟩)
  have hsound' : Form.entriesSound (bs₁ ++ (name', f) :: bs₂) :=
    Form.entriesSound_append.mpr ⟨hs₁, Form.entriesSound_cons.mpr ⟨hkey, hf, hs₂⟩⟩
  have hnodup' : ((bs₁ ++ (name', f) :: bs₂).map (·.1)).Nodup := by
    simp only [List.map_append, List.map_cons, List.mem_append, List.mem_cons, not_or] at hnew
    rw [List.map_append, List.map_cons, List.nodup_middle, List.nodup_cons] at hnodup ⊢
    rw [List.mem_append, not_or]
    exact ⟨⟨hnew.1, hnew.2.2⟩, hnodup.2⟩
  have hbs' : ∀ b ∈ bs₁ ++ (name', f) :: bs₂, b.2.IsPointer := by
    simp only [List.forall_mem_append, List.forall_mem_cons] at hbs ⊢
    exact hbs
  have hload := h.put_branches (by simp) hsound' hnodup' hbs'
  rw [Form.put_append h₁] at hload
  refine ⟨t.line, _, _, ?_, hfind, hrename, firstOf?_replace (by decide), hrenamed ▸ hload⟩
  rw [line_inner]
  exact find?_fill_append h.sound h₁

end Slot

end BlockFlow

import BlockFlow.Proofs.Edit.Scene
import BlockFlow.Proofs.Form.Written

/-!
Nodes that edits put behind others. Main statement: the node is there, behind the one it was put behind,
and all others are as they were.
-/

namespace BlockFlow

open Form (entriesSound mappingLines)
open Outcome

namespace Slot

variable {s : Slot} {f g : Form} {es₁ es₂ : List (String × Form)} {k : String} {ls : List Line}

/-- Lines behind a block. -/
theorem insert_after (hf : Form.Solid f.bodyLines) :
    (s.fill f).insert ((s.fill f).blockEnd s.line) ls =
      ⟨s.above ++ (Form.entryLines s.key f f.lines).map (·.deeper s.column) ++ (ls ++ s.rest),
        true⟩ := by
  let block := s.above ++ (Form.entryLines s.key f f.lines).map (·.deeper s.column)
  have hlines : (s.fill f).lines = block ++ s.rest := rfl
  have hend : (s.fill f).blockEnd s.line = block.length := by
    rw [blockEnd_fill hf]
    simp only [block, Form.entryLines_eq, line, List.length_append, List.length_map,
      List.length_cons]
    omega
  rw [Outline.insert, Outline.splice, hend, hlines, List.take_left, List.drop_left,
    List.append_assoc]
  rfl

/-- Entries behind the block of another one. -/
theorem insert_behind (hes : entriesSound (es₁ ++ (k, g) :: es₂)) (ds : List (String × Form)) {j : Nat}
    (hj : j = s.line + 1 + (mappingLines es₁).length) :
    (s.fill (.map (es₁ ++ (k, g) :: es₂))).insert
      ((s.fill (.map (es₁ ++ (k, g) :: es₂))).blockEnd j)
      ((mappingLines ds).map (·.deeper (s.column + 2))) =
        s.fill (.map (es₁ ++ (k, g) :: (ds ++ es₂))) := by
  obtain ⟨-, hk, hg, h₂⟩ := sound_entry hes
  rw [← fill_inner hk h₂, hj, ← line_inner hk h₂, insert_after (Form.solid_lines g hg)]
  refine congrArg (Outline.mk · true) ?_
  rw [Form.entryLines_eq s.key, bodyLines_map, Form.mappingLines_append, Form.mappingLines,
    Form.mappingLines_append]
  simp [inner, Form.headLine, Function.comp_def, deeper_deeper]

end Slot

namespace Scene

variable {S : Scene} {ws₁ ws₂ : List Workflow} {w : Workflow} {es gs : List (String × Form)}
  {ns : List NodeDef} {id : String} {d d' : Draft} {new : NodeDef} {block : List Line}

/-- Inserting the lines of a node behind another node. -/
theorem Hosts.insertNode (h : S.Hosts ws₁ w ws₂) (hes : Nodes es ns)
    (hd : d.outline = S.slot.fill (.map es)) (hkey : Form.isKey new.id) (hload : Form.Loads gs new)
    (hnew : new.id ∉ ns.map (·.id)) (hblock : mappingLines [(new.id, .map gs)] = block)
    (hok : d.insertNode w.name (some id) block = .ok d') : ∃ es' ns₁ n ns₂,
      ns = ns₁ ++ n :: ns₂ ∧ n.id = id ∧ d' = d.withOutline (S.slot.fill (.map es')) ∧
        Nodes es' (ns₁ ++ n :: new :: ns₂) := by
  obtain ⟨span, hspan, hok⟩ := bind_eq_ok.mp hok
  cases hok
  obtain ⟨es₁, fs, es₂, ns₁, n, ns₂, rfl, rfl, rfl, h₁, hn, h₂, rfl⟩ := h.exists_node hes hd hspan
  obtain ⟨hsound₁, hk, hfs, hsound₂⟩ := Slot.sound_entry hes.sound
  have hgs : entriesSound [(new.id, .map gs)] := Form.entriesSound_cons.mpr
    ⟨hkey, hload.sound_map, rfl⟩
  have hdepth : d.outline.depth (S.slot.line + 1 + (mappingLines es₁).length) = S.slot.column + 2 := by
    rw [hd, ← Slot.line_inner hk hsound₂]
    exact Slot.inner_depth _ _ hk hsound₂ _
  have hinsert := Slot.insert_behind (s := S.slot) hes.sound [(new.id, .map gs)] rfl
  refine ⟨es₁ ++ (n.id, .map fs) :: (new.id, .map gs) :: es₂, ns₁, n, ns₂, rfl, rfl, ?_, ?_, ?_, ?_⟩
  · rw [Outline.span]
    simp only [hdepth, ← hblock, Line.indentAll_eq_map (Form.solid_mappingLines _ hgs)]
    rw [hd, hinsert]
    rfl
  · exact Form.entriesSound_append.mpr ⟨hsound₁, Form.entriesSound_cons.mpr
      ⟨hk, hfs, Form.entriesSound_cons.mpr ⟨hkey, hload.sound_map, hsound₂⟩⟩⟩
  · have hperm : (es₁ ++ (n.id, .map fs) :: (new.id, .map gs) :: es₂).Perm
        ((new.id, .map gs) :: (es₁ ++ (n.id, .map fs) :: es₂)) :=
      ((List.Perm.swap _ _ es₂).append_left es₁).trans List.perm_middle
    refine (hperm.map _).nodup_iff.mpr (List.nodup_cons.mpr ⟨?_, hes.nodup⟩)
    rw [hes.ids]
    exact hnew
  · exact List.rel_append h₁ (.cons ⟨fs, rfl, hn⟩ (.cons ⟨gs, rfl, hload⟩ h₂))

end Scene

end BlockFlow

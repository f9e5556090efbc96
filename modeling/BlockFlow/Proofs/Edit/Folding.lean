import BlockFlow.Edit.Inlining
import BlockFlow.Proofs.Edit.MovingIn
import BlockFlow.Proofs.Form.Written

/-!
Writing an orphan into an input. Main statement: what is left in the text is the workflow without the
orphans that are moved, with the first of them in the input.
-/

namespace BlockFlow

open Form (isFaithful ofValue)
open InputExpr
open Outcome
open Workflow (node?_id node?_mem)

/-- An orphan that is written with others in place is a mapping and is read back, where the nodes are. -/
theorem Workflow.Folds.isFaithful {w : Workflow} {o : String} {e : InputExpr} {moved : List String}
    (h : w.Folds o e moved) (hkeys : ∀ n ∈ w.nodes, Form.isKey n.id ∧ Form.isKey n.opcode)
    (hwritable : ∀ n ∈ w.nodes, areWritable n.inputs)
    (hplaced : ∀ n ∈ w.nodes, ∀ i ∈ inlineIdsIn n.inputs, (Form.Leaf.string i).isSound)
    (hdistinct : ∀ n ∈ w.nodes, DistinctIn n.inputs) :
    Form.isFaithful e.toYaml ∧ e.Distinct ∧ ∀ l, ofValue e.toYaml ≠ .leaf l := by
  obtain ⟨n, inputs, hn, rfl, hinputs⟩ := h.written
  have hin : w.InPlace (.node o) (.inline (some o) n.opcode inputs) := .written hn hinputs
  have hstring {s : String} (hs : Form.isKey s) := Form.Leaf.isSound_string hs
  have ho : (Form.Leaf.string o).isSound := by
    rw [← node?_id hn]
    exact hstring (hkeys n (node?_mem hn)).1
  have hwrite := hin.keeps throughout_isWritable
    (fun m hm => ⟨hstring (hkeys m hm).2, hwritable m hm⟩) ho
  have hdist := hin.keeps throughout_distinct (fun m hm => ⟨trivial, hdistinct m hm⟩) trivial
  have hids := hin.keeps (throughout_inlineIds fun i => (Form.Leaf.string i).isSound)
    (fun m hm => ⟨fun i hi => by cases hi; exact hstring (hkeys m hm).1, hplaced m hm⟩)
    (by simp [inlineIds])
  exact ⟨isFaithful_toYaml _ hwrite hdist hids, hdist, nofun⟩

namespace Draft

variable {d d' : Draft} {w : Workflow} {name orphan target input : String}

/-- Resetting references changes nothing but the lines. -/
theorem exists_outline_of_resetReferences {gone : List String}
    (h : d.resetReferences w gone = .ok d') : ∃ o, d' = d.withOutline o := by
  have hreset (id : String) (path : List String) (b b' : Draft)
      (hb : ∃ o, b = d.withOutline o) (hok : b.resetInput w id path = .ok b') :
      ∃ o, b' = d.withOutline o := by
    obtain ⟨o, rfl⟩ := hb
    obtain ⟨p, -, hok⟩ := bind_eq_ok.mp hok
    cases hok
    exact ⟨_, rfl⟩
  refine foldlM_carries (P := fun _ b => ∃ o, b = d.withOutline o) ?_ ⟨d.outline, rfl⟩ h
  intro _ id _ b b' _ hb hok
  refine foldlM_carries (P := fun _ b => ∃ o, b = d.withOutline o) ?_ hb hok
  exact fun _ p _ b b' _ hb hok => hreset id p.1 b b' hb hok

/-- An orphan is moved in four steps: the references to what is moved are reset, the value is written
into the input, what leads to the moved nodes is cleared, and they are removed. -/
theorem steps_of_convertOrphan (h : d.convertOrphan name orphan target input = .ok d')
    (hw : d.document.workflow? name = some w) : ∃ g e moved d₁ i d₂, LinkGraph.build w = .ok g ∧
      orphan ∈ w.orphanIds g ∧ target ∈ w.nodeIds ∧ target ∉ moved ∧
      w.inlineOrphan (w.orphanIds g) (w.nodes.length + 1) orphan [] = (e, moved) ∧
      d.resetReferences w moved = .ok d₁ ∧ d₁.nodeLine name target = .ok i ∧
      (d₁.withOutline ((d₁.outline.ensureBlock i "inputs").1.setBlock
        (d₁.outline.ensureBlock i "inputs").2 input (Outline.valueLines e.toYaml))).clearInto g name
          moved (fun _ => false) = .ok d₂ ∧
      d₂.removeNodes name moved = .ok d' := by
  unfold convertOrphan at h
  simp only [bind_eq_ok, workflow_eq_ok, hw, Option.some.injEq, exists_eq_left', graph_eq_ok,
    node_eq_ok] at h
  obtain ⟨g, hg, n, -, h⟩ := h
  split at h
  · cases h
  · rename_i horphan
    simp only [bind_eq_ok, node_eq_ok] at h
    obtain ⟨t, ht, h⟩ := h
    split at h
    · cases h
    · split at h
      · cases h
      · rename_i hout
        simp only [bind_eq_ok] at h
        obtain ⟨d₁, hreset, i, hline, d₂, hclear, hremove⟩ := h
        exact ⟨g, _, _, d₁, i, d₂, hg, by simpa using horphan, Workflow.mem_nodeIds_of_node? ht,
          fun hin => hout (List.contains_iff_mem.mpr hin), rfl, hreset, hline, hclear, hremove⟩

end Draft

namespace Scene

variable {S : Scene} {ws₁ ws₂ : List Workflow} {w : Workflow} {ns : List NodeDef}
  {key orphan target input : String} {d d' : Draft} {e : InputExpr}

/-- Nodes that were reset, one of them with a value put into it, and cut, those that are left. -/
theorem movedIn_filter {c : Catalog} {moved : List String} {ns' : List NodeDef}
    (h : List.Forall₂ (fun n n' => ∃ inputs, n' = n.withInputs inputs ∧
      (n.id ∉ moved → ResetIn (fun _ r => r ∈ moved) [] n.inputs inputs)) ns ns') :
    List.Forall₂ (fun n n' => ∃ inputs, ResetIn (fun _ r => r ∈ moved) [] n.inputs inputs ∧
      n' = (n.cut c moved).withInputs (if n.id = target then put key e inputs else inputs))
      (ns.filter fun n => !moved.contains n.id)
      (((ns'.map fun n => if n.id = target then n.withInputs (put key e n.inputs) else n).map
        (NodeDef.cutBut c moved fun _ => false)).filter fun n => !moved.contains n.id) := by
  rw [List.map_map]
  refine kept_of_forall₂ (List.forall₂_map_right_iff.mpr (h.imp ?_))
  rintro n _ ⟨inputs, rfl, hinputs⟩
  have hput : (if (n.withInputs inputs).id = target then (n.withInputs inputs).withInputs
      (put key e (n.withInputs inputs).inputs) else n.withInputs inputs) =
        n.withInputs (if n.id = target then put key e inputs else inputs) := by
    by_cases hid : n.id = target
    · rw [if_pos hid, if_pos (by exact hid)]
      rfl
    · rw [if_neg hid, if_neg (by exact hid)]
  rw [Function.comp_apply, hput]
  refine ⟨rfl, fun hout => ⟨inputs, hinputs hout, ?_⟩⟩
  have hcut : ∀ m : NodeDef, m.id ∉ moved → m.cutBut c moved (fun _ => false) = m.cut c moved :=
    fun m hm => NodeDef.clearHits_congr fun s => by simp [hm]
  exact hcut (n.withInputs _) hout

/-- Moving an orphan leaves the workflow with the orphan in the input. -/
theorem Hosts.movedIn_of_convertOrphan {g : LinkGraph} {moved : List String} (h : S.Hosts ws₁ w ws₂)
    (hd : S.Holds d w.nodes) (hw : d.document.workflow? w.name = some w)
    (hg : LinkGraph.build w = .ok g)
    (hmoved : w.inlineOrphan (w.orphanIds g) (w.nodes.length + 1) orphan [] = (e, moved))
    (hkey : Form.isKey input)
    (hvalue : isFaithful e.toYaml ∧ e.Distinct ∧ ∀ l, ofValue e.toYaml ≠ .leaf l)
    (hok : d.convertOrphan w.name orphan target input = .ok d') : ∃ ns', S.Carries False d' ns' ∧
      w.MovedIn d.catalog moved target input e { w with nodes := ns' } := by
  obtain ⟨g', _, _, d₁, i, d₂, hg', -, -, -, hmoved', hresets, hline, hclear, hremove⟩ :=
    Draft.steps_of_convertOrphan hok hw
  obtain rfl := Except.ok.inj (hg.symm.trans hg')
  obtain ⟨rfl, rfl⟩ := Prod.mk.inj (hmoved.symm.trans hmoved')
  obtain ⟨hv, hdistinct, hleaf⟩ := hvalue
  obtain ⟨hsound, hread⟩ := Form.ofValue_faithful _ hv
  have hids := hd.nodup_ids
  have hbranches : ∀ n ∈ w.nodes, n.branchNames.Nodup := fun n => (holds_iff.mp hd).nodup_branchNames
  rw [← List.map_id w.nodes] at hd
  obtain ⟨ns₁, hd₁, hreset⟩ := h.resetGone hids hd (fun _ => ⟨rfl, rfl⟩) hresets
  obtain ⟨o, rfl⟩ := Draft.exists_outline_of_resetReferences hresets
  obtain ⟨es₁, houtline, hes₁, -⟩ := hd₁
  obtain ⟨es₂, hfill, hes₂⟩ := h.putInput hes₁ houtline hline hkey hsound hleaf
    fun owner => hread.symm ▸ loadValue_toYaml owner input e hdistinct
  rw [Form.lines_ofValue _ hv hleaf] at hfill
  have hd₂ : S.Carries False ((d.withOutline o).withOutline _) (ns₁.map fun n =>
      if n.id = target then n.withInputs (put input e n.inputs) else n) :=
    ⟨es₂, hfill, hes₂, False.elim⟩
  have hsame : List.Forall₂ (fun n n' => ∃ inputs, n' = n.withInputs inputs) w.nodes
      (ns₁.map fun n => if n.id = target then n.withInputs (put input e n.inputs) else n) := by
    refine List.forall₂_map_right_iff.mpr (hreset.imp ?_)
    rintro n _ ⟨inputs, rfl, -⟩
    split <;> exact ⟨_, rfl⟩
  have hd₃ := h.clearInto hd₂ hw hids hbranches hsame hg hclear
  exact ⟨_, h.removeNodes hd₃ hremove, rfl, rfl, rfl, movedIn_filter hreset⟩

end Scene

end BlockFlow

import BlockFlow.Proofs.Edit.Scene
import BlockFlow.Proofs.Edit.Start

/-!
Connecting nodes and clearing pointers. Main statement: in a text in block style the pointer is set and
those it replaces are cleared, and nothing else of the document changes.
-/

namespace BlockFlow

open Outcome

namespace Draft

variable {d d' : Draft} {name source target : String} {slot : LinkSlot}

/-- Connecting clears what leads to the target and then sets the pointer. -/
theorem exists_setPointers_of_connect (h : d.connect name source slot target = .ok d') :
    ∃ w t g m, d.document.workflow? name = some w ∧ w.node? target = some t ∧
      LinkGraph.build w = .ok g ∧
        d.setPointers name ((g.incoming target).filter (· ≠ (source, slot))) none = .ok m ∧
          m.setPointer name source slot (some target) = .ok d' := by
  unfold connect at h
  simp only [bind_eq_ok, workflow_eq_ok, node_eq_ok] at h
  obtain ⟨w, hw, s, -, t, ht, -, -, h⟩ := h
  split at h
  · cases h
  · simp only [bind_eq_ok, graph_eq_ok] at h
    obtain ⟨g, hg, h⟩ := h
    split at h
    · cases h
    · obtain ⟨m, hm, h⟩ := bind_eq_ok.mp h
      exact ⟨w, t, g, m, hw, ht, hg, hm, h⟩

/-- Disconnecting clears the pointer. -/
theorem exists_setPointer_of_disconnect (h : d.disconnect name source slot = .ok d') :
    ∃ w s, d.document.workflow? name = some w ∧ w.node? source = some s ∧
      d.setPointer name source slot none = .ok d' := by
  unfold disconnect at h
  simp only [bind_eq_ok, workflow_eq_ok, node_eq_ok] at h
  obtain ⟨w, hw, s, hs, h⟩ := h
  split at h
  · cases h
  · exact ⟨w, s, hw, hs, h⟩

end Draft

namespace Edit

open Scene

variable {w : Workflow} {source target : String} {slot : LinkSlot} {g : LinkGraph}

/-- Clearing what leads to a node, but for one pointer, and setting this one. -/
theorem linked_of_assigned (hg : LinkGraph.build w = .ok g) (hids : w.nodeIds.Nodup)
    (hbranches : ∀ n ∈ w.nodes, n.branchNames.Nodup) {n : NodeDef} (hn : n ∈ w.nodes)
    (s : LinkSlot) : assigned [(source, slot)] (some target) n.id s
      (assigned ((g.incoming target).filter (· ≠ (source, slot))) none n.id s (n.target? s)) =
        linked source slot target n.id s (n.target? s) := by
  unfold linked assigned
  by_cases hself : n.id = source ∧ s = slot
  · simp [hself]
  · have hne : (n.id, s) ≠ (source, slot) := fun heq => hself (Prod.mk.inj heq)
    have hmem : (n.id, s) ∈ (g.incoming target).filter (· ≠ (source, slot)) ↔
        n.target? s = some target := by
      rw [List.mem_filter, LinkGraph.mem_incoming_iff hg hids hbranches hn]
      exact and_iff_left (decide_eq_true hne)
    rw [if_neg (by simpa using hne), if_neg hself]
    simp only [hmem]

/-- The condition `a`, with `t` in a branch of it. -/
def branched : Form :=
  let word (s : String) : Form := .leaf (.plain s.toList)
  .map [("workflows", .seq [.map [("name", word "m"), ("nodes", .map [
    ("start", .map [("opcode", word "workflow_start"), ("next", word "a")]),
    ("a", .map [("opcode", word "control_if"), ("branches", .map [("THEN", word "t")])]),
    ("t", .map [("opcode", word "io_print")])])]])]

/-- In a text in block style, linking a pointer to a node sets it and clears what led to the node
before, and clearing a pointer clears it; nothing else of the document changes, and the text stays in
block style. -/
theorem repointed_of_apply (c : Catalog) (F : Form) (d : Document) (name source : String)
    (slot : LinkSlot) (r : Edited) (hF : F.isDocument)
    (hd : Document.load (String.ofList F.chars) = .ok d) :
    (∀ target, (∀ branch, slot = .branch branch → Form.isKey branch) →
      (Edit.connect name source slot target).apply c (String.ofList F.chars) = .ok r →
        ∃ (F' : Form) (d' : Document), F'.isDocument ∧ r.text = String.ofList F'.chars ∧
          Document.load r.text = .ok d' ∧
            Document.Repointed name (linked source slot target) d d') ∧
    ((Edit.disconnect name source slot).apply c (String.ofList F.chars) = .ok r →
      ∃ (F' : Form) (d' : Document), F'.isDocument ∧ r.text = String.ofList F'.chars ∧
        Document.load r.text = .ok d' ∧ Document.Repointed name (unlinked source slot) d d') := by
  constructor
  · intro target hbranch hr
    obtain ⟨d₀, after, id, d', hd₀, hrun, -, -⟩ := exists_run hr
    obtain rfl : d = d₀ := Except.ok.inj (hd.symm.trans hd₀)
    obtain ⟨w, t, g, -, hw, ht, hg, -, -⟩ :=
      Draft.exists_setPointers_of_connect (run_changed hrun)
    obtain rfl : w.name = name := by simpa using List.find?_some hw
    have hmem := Workflow.node?_mem ht
    refine exists_changed hF hd hw (List.ne_nil_of_mem hmem) hr
      fun S ws₁ ws₂ es after id hhosts hes _ hrun => ?_
    obtain ⟨w', _, g', m, hw', -, hg', hclear, hset⟩ :=
      Draft.exists_setPointers_of_connect (run_changed hrun)
    obtain rfl : w = w' := Option.some.inj (hw.symm.trans hw')
    obtain rfl : g = g' := Except.ok.inj (hg.symm.trans hg')
    obtain ⟨es₁, ns₁, rfl, hes₁, -, hpoint₁⟩ := hhosts.setPointers hes rfl (by simp) (by simp)
      hclear
    have htarget : Form.isKey target := Workflow.node?_id ht ▸ hes.isKey hmem
    obtain ⟨es₂, ns₂, rfl, hes₂, -, hpoint₂⟩ := hhosts.setPointer hes₁ rfl
      (by rintro _ ⟨⟩; exact htarget) (fun _ _ => hbranch) hset
    refine ⟨es₂, ns₂, rfl, hes₂, rfl, rfl, rfl, (hpoint₁.trans hpoint₂).congr fun n hn s => ?_⟩
    exact linked_of_assigned hg hes.nodup_ids (fun n => hes.nodup_branchNames) hn s
  · intro hr
    obtain ⟨d₀, after, id, d', hd₀, hrun, -, -⟩ := exists_run hr
    obtain rfl : d = d₀ := Except.ok.inj (hd.symm.trans hd₀)
    obtain ⟨w, s, hw, hs, -⟩ := Draft.exists_setPointer_of_disconnect (run_changed hrun)
    obtain rfl : w.name = name := by simpa using List.find?_some hw
    refine exists_changed hF hd hw (List.ne_nil_of_mem (Workflow.node?_mem hs)) hr
      fun S ws₁ ws₂ es after id hhosts hes _ hrun => ?_
    obtain ⟨-, -, -, -, hclear⟩ := Draft.exists_setPointer_of_disconnect (run_changed hrun)
    obtain ⟨es', ns', rfl, hes', -, hpoint⟩ := hhosts.setPointer hes rfl (by simp) (by simp) hclear
    refine ⟨es', ns', rfl, hes', rfl, rfl, rfl, hpoint.congr fun n _ s => ?_⟩
    rw [assigned, unlinked]
    simp only [List.mem_singleton, Prod.mk.injEq]

set_option maxRecDepth 2000 in
theorem branched_repointed : ∃ (d d₁ d₂ : Document) (r₁ r₂ : Edited),
    Document.load (String.ofList branched.chars) = .ok d ∧
    (Edit.connect "m" "a" .next "t").apply Catalog.builtin (String.ofList branched.chars) = .ok r₁ ∧
    (Edit.disconnect "m" "a" (.branch "THEN")).apply Catalog.builtin
      (String.ofList branched.chars) = .ok r₂ ∧
    Document.load r₁.text = .ok d₁ ∧ Document.Repointed "m" (linked "a" .next "t") d d₁ ∧
    Document.load r₂.text = .ok d₂ ∧
      Document.Repointed "m" (unlinked "a" (.branch "THEN")) d d₂ := by
  have hF : branched.isDocument := by decide +kernel
  have hconnect : (documents? Catalog.builtin (.connect "m" "a" .next "t") branched.chars).any
      fun _ => true := by decide +kernel
  have hdisconnect : (documents? Catalog.builtin (.disconnect "m" "a" (.branch "THEN"))
      branched.chars).any fun _ => true := by decide +kernel
  obtain ⟨d, r₁, _, hd, hr₁, -, -⟩ := exists_apply rfl hconnect
  obtain ⟨_, r₂, _, -, hr₂, -, -⟩ := exists_apply rfl hdisconnect
  obtain ⟨-, d₁, -, -, hd₁, hlinked⟩ := (repointed_of_apply Catalog.builtin branched d "m" "a" .next
    r₁ hF hd).1 "t" nofun hr₁
  obtain ⟨-, d₂, -, -, hd₂, hunlinked⟩ := (repointed_of_apply Catalog.builtin branched d "m" "a"
    (.branch "THEN") r₂ hF hd).2 hr₂
  exact ⟨d, d₁, d₂, r₁, r₂, hd, hr₁, hr₂, hd₁, hlinked, hd₂, hunlinked⟩

end Edit

end BlockFlow

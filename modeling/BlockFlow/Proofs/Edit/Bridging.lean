import BlockFlow.Proofs.Edit.Scene
import BlockFlow.Proofs.Edit.Start

/-!
Taking nodes out of a scene: what led to them is bridged, what referenced them is reset, and their
blocks are removed.
-/

namespace BlockFlow

open Outcome InputExpr

/-- Targets once some nodes are gone: what led to `root` leads to its successor. -/
def bridge (gone : List String) (root : String) (next : Option String) :
    Option String → Option String
  | none => none
  | some t => if t ∈ gone then if t = root then next else none else some t

theorem bridge_of_not_mem {gone : List String} {root : String} {next old : Option String}
    (h : ∀ t ∈ old, t ∉ gone) : bridge gone root next old = old := by
  cases old with
  | none => rfl
  | some t => rw [bridge, if_neg (h t rfl)]

/-- The second node is the first without pointers and references into `gone`. -/
structure NodeDef.Bridged (gone : List String) (root : String) (next : Option String)
    (n n' : NodeDef) : Prop where
  id : n'.id = n.id
  opcode : n'.opcode = n.opcode
  target? : ∀ slot, n'.target? slot = bridge gone root next (n.target? slot)
  inputs : ResetIn (fun _ r => r ∈ gone) [] n.inputs n'.inputs

/-- The second workflow is the first without the nodes in `gone`. -/
structure Workflow.Bridged (gone : List String) (root : String) (next : Option String)
    (w w' : Workflow) : Prop where
  name : w'.name = w.name
  interface : w'.interface = w.interface
  vars : w'.vars = w.vars
  nodes : List.Forall₂ (NodeDef.Bridged gone root next)
    (w.nodes.filter fun n => !gone.contains n.id) w'.nodes

/-- Nodes that correspond one by one, when those in `gone` are left out. -/
theorem kept_of_forall₂ {R : NodeDef → NodeDef → Prop} {gone : List String} {ns ns' : List NodeDef}
    (h : List.Forall₂ (fun n n' => n'.id = n.id ∧ (n.id ∉ gone → R n n')) ns ns') :
    List.Forall₂ R (ns.filter fun n => !gone.contains n.id)
      (ns'.filter fun n => !gone.contains n.id) := by
  refine ((List.forall₂_and_left _ _).mpr ⟨fun n hn => (List.mem_filter.mp hn).2,
    List.rel_filter (fun n n' hn => by simp only [hn.1]) h⟩).imp ?_
  exact fun n n' hn => hn.2.2 (by simpa using hn.1)

section Kept

variable {R : NodeDef → NodeDef → Prop} {w w' : Workflow} {gone : List String} {a : String}
  (h : List.Forall₂ R (w.nodes.filter fun n => !gone.contains n.id) w'.nodes)

include h

/-- What is left of a node that was there. -/
theorem Workflow.exists_mem_of_kept {n' : NodeDef} (hn' : n' ∈ w'.nodes) :
    ∃ n ∈ w.nodes, n.id ∉ gone ∧ R n n' := by
  obtain ⟨n, hn, hnode⟩ := exists_mem_of_forall₂ h.flip hn'
  obtain ⟨hn, hgone⟩ := List.mem_filter.mp hn
  exact ⟨n, hn, by simpa using hgone, hnode⟩

variable (hR : ∀ n n', R n n' → n'.id = n.id)

include hR

theorem Workflow.nodeIds_of_kept :
    w'.nodeIds = (w.nodes.filter fun n => !gone.contains n.id).map (·.id) := by
  refine List.forall₂_eq_eq_eq ▸ (List.forall₂_map_left_iff.mpr (List.forall₂_map_right_iff.mpr
    (List.Forall₂.imp ?_ h.flip)))
  exact fun _ _ hn => hR _ _ hn

/-- The nodes that are left, when those in `gone` are not. -/
theorem Workflow.mem_nodeIds_of_kept : a ∈ w'.nodeIds ↔ a ∈ w.nodeIds ∧ a ∉ gone := by
  rw [nodeIds_of_kept h hR]
  simp only [List.mem_map, List.mem_filter, Bool.not_eq_true', List.contains_eq_mem,
    decide_eq_false_iff_not, Workflow.mem_nodeIds]
  constructor
  · rintro ⟨n, ⟨hn, hgone⟩, rfl⟩
    exact ⟨⟨n, hn, rfl⟩, hgone⟩
  · rintro ⟨⟨n, hn, rfl⟩, hgone⟩
    exact ⟨n, ⟨hn, hgone⟩, rfl⟩

/-- A node that is left is found as before. -/
theorem Workflow.exists_node?_of_kept {n : NodeDef} (ha : a ∉ gone) (hn : w.node? a = some n) :
    ∃ n', w'.node? a = some n' ∧ R n n' := by
  have hkept : (w.nodes.filter fun n => !gone.contains n.id).find? (fun n => n.id = a) =
      some n := by
    rw [List.find?_filter, ← hn, node?]
    congr 1
    funext m
    by_cases hm : m.id = a
    · simp [hm, ha]
    · simp [hm]
  exact exists_find?_of_forall₂ (q := fun n => n.id = a) h (fun m m' hm => by rw [hR m m' hm]) hkept

end Kept

/-- The second nodes are the first with literals for the references that are hit, told by the node
they stand in, their path and the node they name. -/
def Resets (hit : String → List String → String → Prop) (ns ns' : List NodeDef) : Prop :=
  List.Forall₂ (fun n n' => ∃ inputs, n' = { n with inputs := inputs } ∧
    ResetIn (hit n.id) [] n.inputs inputs) ns ns'

namespace Resets

variable {hit hit' : String → List String → String → Prop} {ns ns' : List NodeDef} {n : NodeDef}
  {path : List String} {r : String}

theorem refl (ns : List NodeDef) : Resets (fun _ _ _ => False) ns ns :=
  List.forall₂_same.mpr fun n _ => ⟨n.inputs, rfl, ResetIn.self _ _⟩

theorem congr (h : Resets hit ns ns') (hsame : ∀ n ∈ ns, ∀ p ∈ refPathsIn [] n.inputs,
    hit n.id p.1 p.2 ↔ hit' n.id p.1 p.2) : Resets hit' ns ns' := by
  refine ((List.forall₂_and_left _ _).mpr ⟨hsame, h⟩).imp ?_
  rintro n n' ⟨hsame, inputs, rfl, hreset⟩
  exact ⟨inputs, rfl, ResetIn.congr _ _ _ hreset hsame⟩

/-- References stay where they are while others are reset. -/
theorem along (h : Resets hit ns ns') (hids : (ns.map (·.id)).Nodup) (hn : n ∈ ns)
    (hpath : (path, r) ∈ refPathsIn [] n.inputs) :
    ∀ m ∈ ns', m.id = n.id → Along path m.inputs := by
  intro m hm hid
  obtain ⟨n₀, hn₀, inputs, rfl, hreset⟩ := exists_mem_of_forall₂ h.flip hm
  obtain rfl : n₀ = n := List.inj_on_of_nodup_map hids hn₀ hn hid
  exact ResetIn.along path _ _ [] hreset hpath

/-- One more reference is reset. -/
theorem setAt {v : Yaml.Value} (h : Resets hit ns ns') (hids : (ns.map (·.id)).Nodup) (hn : n ∈ ns)
    (hd : DistinctIn n.inputs) (hpath : (path, r) ∈ refPathsIn [] n.inputs) :
    Resets (fun i p s => (i = n.id ∧ p = path) ∨ hit i p s) ns (ns'.map fun m =>
      if m.id = n.id then { m with inputs := InputExpr.setAt (.literal v) path m.inputs } else m) := by
  refine List.forall₂_map_right_iff.mpr (((List.forall₂_and_left _ _).mpr
    ⟨fun _ hm => hm, h⟩).imp ?_)
  rintro m m' ⟨hm, inputs, rfl, hreset⟩
  by_cases hid : m.id = n.id
  · obtain rfl : m = n := List.inj_on_of_nodup_map hids hm hn hid
    refine ⟨_, if_pos rfl, ?_⟩
    simpa using ResetIn.setAt path _ _ [] hd hreset hpath
  · refine ⟨inputs, if_neg hid, ResetIn.congr _ _ _ hreset fun p _ => ?_⟩
    simp [hid]

end Resets

/-- A node is deleted in three steps: what led to it and what goes along with it is bridged, what
referenced these is reset, and their blocks are removed. -/
theorem Draft.steps_of_deleteNode {d d' : Draft} {w : Workflow} {name id : String}
    (h : d.deleteNode name id = .ok d') (hw : d.document.workflow? name = some w) :
    ∃ n g d₁ d₂, w.node? id = some n ∧ LinkGraph.build w = .ok g ∧
      (w.removalSet g [id]).foldlM (fun d target => d.setPointers name
        ((g.incoming target).filter fun p => !(w.removalSet g [id]).contains p.1)
        (if target = id then n.next else none)) d = .ok d₁ ∧
      d₁.resetReferences w (w.removalSet g [id]) = .ok d₂ ∧
      d₂.removeNodes name (w.removalSet g [id]) = .ok d' := by
  unfold deleteNode at h
  simp only [bind_eq_ok, workflow_eq_ok, hw, Option.some.injEq, exists_eq_left', node_eq_ok] at h
  obtain ⟨n, hn, h⟩ := h
  split at h
  · cases h
  · simp only [bind_eq_ok, graph_eq_ok] at h
    obtain ⟨g, hg, d₁, hbridges, d₂, hresets, hremove⟩ := h
    exact ⟨n, g, d₁, d₂, hn, hg, hbridges, hresets, hremove⟩

namespace Scene

variable {S : Scene} {ws₁ ws₂ : List Workflow} {w : Workflow} {es : List (String × Form)}
  {ns ns' : List NodeDef} {n : NodeDef} {id : String} {d d' : Draft}

theorem Nodes.isKey_branch {name : String} (h : Nodes es ns) (hn : n ∈ ns)
    (hname : name ∈ n.branchNames) : Form.isKey name := by
  obtain ⟨e, -, fs, -, hload⟩ := exists_mem_of_forall₂ h.loads.flip hn
  obtain ⟨-, -, hbranches⟩ := hload.pointers
  rw [NodeDef.branchNames, hbranches, List.map_map] at hname
  obtain ⟨b, hb, rfl⟩ := List.mem_map.mp hname
  exact (Form.entriesSound_iff.mp hload.branches_sound.1 b hb).1

/-- Resetting an input of a node that was found. -/
theorem Hosts.setLiteral {path : List String} {span : Span} {opcode node : String}
    {p : Draft.InputPlace} (h : S.Hosts ws₁ w ws₂) (hd : S.Holds d ns)
    (hspan : d.nodeSpan w.name id = .ok span)
    (halong : ∀ n ∈ ns, n.id = id → Along path n.inputs)
    (hplace : d.inputFrom w node span.start opcode path = .ok p) : ∃ v, S.Holds
      (d.withOutline (d.outline.setBlock p.container p.key [Outline.literalLine (d.defaultAt p)]))
      (ns.map fun n =>
        if n.id = id then { n with inputs := InputExpr.setAt (.literal v) path n.inputs } else n) := by
  obtain ⟨s, fs, n, hn, hid, hstart, houtline, hload, hplain, hreplace⟩ :=
    h.exists_block (holds_iff.mp hd) hspan
  rw [hstart] at hplace
  obtain ⟨fs', v, hset, hload', hplain'⟩ :=
    hload.reset (hplain trivial) (halong n hn hid) houtline hplace
  rw [hset]
  exact ⟨v, holds_iff.mpr (hreplace fs' (fun n =>
    { n with inputs := InputExpr.setAt (.literal v) path n.inputs }) hload' hid fun _ => hplain')⟩

/-- Resetting an input of a node. -/
theorem Hosts.resetInput {path : List String} (h : S.Hosts ws₁ w ws₂) (hd : S.Holds d ns)
    (halong : ∀ n ∈ ns, n.id = id → Along path n.inputs)
    (hok : d.resetInput w id path = .ok d') : ∃ v, S.Holds d' (ns.map fun n =>
      if n.id = id then { n with inputs := InputExpr.setAt (.literal v) path n.inputs } else n) := by
  obtain ⟨p, hp, hok⟩ := bind_eq_ok.mp hok
  cases hok
  unfold Draft.inputPlace at hp
  split at hp
  · cases hp
  · obtain ⟨line, hline, hp⟩ := bind_eq_ok.mp hp
    obtain ⟨span, hspan, hline⟩ := bind_eq_ok.mp hline
    cases hline
    obtain ⟨m, -, hp⟩ := bind_eq_ok.mp hp
    exact h.setLiteral hd hspan halong hp

/-- Resetting references of one node, one after the other. -/
theorem Hosts.resetPaths {hit : String → List String → String → Prop}
    {paths : List (List String × String)} (h : S.Hosts ws₁ w ws₂)
    (hids : (ns.map (·.id)).Nodup) (hn : n ∈ ns) (hdistinct : DistinctIn n.inputs)
    (hpaths : ∀ p ∈ paths, p ∈ refPathsIn [] n.inputs) (hd : S.Holds d ns')
    (hreset : Resets hit ns ns')
    (hok : paths.foldlM (fun d p => d.resetInput w n.id p.1) d = .ok d') : ∃ ns'', S.Holds d' ns'' ∧
      Resets (fun i p r => (i = n.id ∧ p ∈ paths.map (·.1)) ∨ hit i p r) ns ns'' := by
  induction paths generalizing d ns' hit with
  | nil =>
    cases hok
    exact ⟨ns', hd, hreset.congr fun _ _ _ _ => by simp⟩
  | cons p paths ih =>
    obtain ⟨hp, hpaths⟩ := List.forall_mem_cons.mp hpaths
    rw [List.foldlM_cons] at hok
    obtain ⟨m, hm, hok⟩ := bind_eq_ok.mp hok
    obtain ⟨v, hm⟩ := h.resetInput hd (hreset.along hids hn hp) hm
    obtain ⟨ns'', hd', hreset'⟩ := ih hpaths hm (hreset.setAt hids hn hdistinct hp) hok
    refine ⟨ns'', hd', hreset'.congr fun _ _ _ _ => ?_⟩
    simp only [List.map_cons, List.mem_cons, and_or_left]
    rw [← or_assoc, or_comm (a := _ ∧ _ = p.1)]

/-- Resetting the references of some nodes to those in `gone`. -/
theorem Hosts.resetNodes {ids gone : List String} (h : S.Hosts ws₁ w ws₂) (hd : S.Holds d ns)
    (hids : ∀ id ∈ ids, id ∈ ns.map (·.id))
    (hrefs : ∀ n ∈ ns, w.referencePaths n.id = refPathsIn [] n.inputs)
    (hok : ids.foldlM (fun d id => ((w.referencePaths id).filter fun p =>
      gone.contains p.2).foldlM (fun d p => d.resetInput w id p.1) d) d = .ok d') :
    ∃ ns', S.Holds d' ns' ∧ Resets (fun i _ r => i ∈ ids ∧ r ∈ gone) ns ns' := by
  have hnodup := hd.nodup_ids
  have hdistinct := hd.distinct
  have hstep (done : List String) (id : String) (rest : List String) (b b' : Draft)
      (hsplit : ids = done ++ id :: rest)
      (hb : ∃ ns', S.Holds b ns' ∧ Resets (fun i _ r => i ∈ done ∧ r ∈ gone) ns ns')
      (hok : ((w.referencePaths id).filter fun p => gone.contains p.2).foldlM
        (fun d p => d.resetInput w id p.1) b = .ok b') :
      ∃ ns', S.Holds b' ns' ∧ Resets (fun i _ r => i ∈ done ++ [id] ∧ r ∈ gone) ns ns' := by
    obtain ⟨ns₁, hb, hreset⟩ := hb
    obtain ⟨n, hn, rfl⟩ := List.mem_map.mp (hids id (by simp [hsplit]))
    obtain ⟨ns', hb', hreset'⟩ := h.resetPaths hnodup hn (hdistinct n hn)
      (fun p hp => hrefs n hn ▸ List.mem_of_mem_filter hp) hb hreset hok
    refine ⟨ns', hb', hreset'.congr fun m hm p hp => ?_⟩
    have hmine (hmn : m.id = n.id) : p.1 ∈ ((w.referencePaths n.id).filter fun p =>
        gone.contains p.2).map (·.1) ↔ p.2 ∈ gone := by
      obtain rfl : m = n := List.inj_on_of_nodup_map hnodup hm hn hmn
      rw [hrefs m hm, List.mem_map]
      constructor
      · rintro ⟨⟨path, r⟩, hq, rfl⟩
        obtain ⟨hq, hgone⟩ := List.mem_filter.mp hq
        rw [eq_of_mem_refPathsIn m.inputs [] (hdistinct m hm) hp hq]
        simpa using hgone
      · intro hgone
        exact ⟨p, List.mem_filter.mpr ⟨hp, by simpa using hgone⟩, rfl⟩
    by_cases hmn : m.id = n.id
    · rw [hmine hmn]
      simp only [hmn, List.mem_append, List.mem_singleton, or_true, true_and]
      exact or_iff_left_of_imp And.right
    · simp [hmn]
  exact foldlM_carries hstep ⟨ns, hd, (Resets.refl ns).congr fun _ _ _ _ => by simp⟩ hok

/-- Removing the block of a node. -/
theorem Hosts.removeNode {plain : Prop} {span : Span} (h : S.Hosts ws₁ w ws₂)
    (hd : S.Carries plain d ns) (hspan : d.nodeSpan w.name id = .ok span) :
    S.Carries plain (d.withOutline (d.outline.removeBlock span)) (ns.filter (·.id ≠ id)) := by
  obtain ⟨es, hd, hes, hplain⟩ := hd
  obtain ⟨es₁, fs, es₂, ns₁, n, ns₂, rfl, rfl, rfl, h₁, hload, h₂, rfl⟩ :=
    h.exists_node hes hd hspan
  obtain ⟨hne₁, hne₂⟩ := ne_of_nodup hes.nodup_ids
  have hself (ms : List NodeDef) (hne : ∀ m ∈ ms, m.id ≠ n.id) : ms.filter (·.id ≠ n.id) = ms :=
    List.filter_eq_self.mpr fun m hm => by simpa using hne m hm
  rw [List.filter_append, List.filter_cons_of_neg (by simp),
    hself ns₁ hne₁, hself ns₂ hne₂]
  refine ⟨es₁ ++ es₂, ?_, hes.remove h₁ h₂, fun hp => (hplain hp).remove⟩
  rw [hd]
  exact Slot.removeBlock_entry hes.sound rfl

/-- Removing the blocks of nodes, one after the other. -/
theorem Hosts.removeNodes {plain : Prop} {ids : List String} (h : S.Hosts ws₁ w ws₂)
    (hd : S.Carries plain d ns) (hok : d.removeNodes w.name ids = .ok d') :
    S.Carries plain d' (ns.filter fun n => !ids.contains n.id) := by
  have hstep (done : List String) (id : String) (rest : List String) (b b' : Draft)
      (_ : ids = done ++ id :: rest)
      (hb : S.Carries plain b (ns.filter fun n => !done.contains n.id))
      (hok : (do
        let s ← b.nodeSpan w.name id
        .ok (b.withOutline (b.outline.removeBlock s))) = .ok b') :
      S.Carries plain b' (ns.filter fun n => !(done ++ [id]).contains n.id) := by
    obtain ⟨span, hspan, hok⟩ := bind_eq_ok.mp hok
    cases hok
    have hremove := h.removeNode hb hspan
    rw [List.filter_filter] at hremove
    convert hremove using 3 with n
    by_cases hdone : n.id ∈ done <;> by_cases hid : n.id = id <;> simp [hdone, hid]
  exact foldlM_carries hstep (by simpa using hd) hok

section Bridge

variable {g : LinkGraph} {gone : List String} {root : String} {next : Option String}
  (h : S.Hosts ws₁ w ws₂) (hg : LinkGraph.build w = .ok g) (hes : Nodes es w.nodes)

include h hg hes

/-- Pointing what led to a node that goes to where the root of them led, or nowhere. -/
theorem Hosts.setBridge {done : List String} {x : String} (hnext : ∀ t ∈ next, Form.isKey t)
    (hd : S.Holds d ns)
    (hpoint : Repoints (fun a _ old => if a ∈ gone then old else bridge done root next old)
      w.nodes ns)
    (hok : d.setPointers w.name ((g.incoming x).filter fun p => !gone.contains p.1)
      (if x = root then next else none) = .ok d') : ∃ ns', S.Holds d' ns' ∧
        Repoints (fun a _ old => if a ∈ gone then old else bridge (done ++ [x]) root next old)
          w.nodes ns' := by
  obtain ⟨es₁, hd, hes₁, hplain⟩ := hd
  have hbranches : ∀ n ∈ w.nodes, n.branchNames.Nodup := fun n hn => hes.nodup_branchNames hn
  have htarget : ∀ t ∈ if x = root then next else none, Form.isKey t := by
    intro t ht
    split at ht
    · exact hnext t ht
    · cases ht
  have hslots : ∀ p ∈ (g.incoming x).filter fun p => !gone.contains p.1,
      ∀ name, p.2 = .branch name → Form.isKey name := by
    rintro ⟨a, s⟩ hp name rfl
    obtain ⟨n, hn, -, hpointer⟩ := (LinkGraph.mem_incoming hg).mp (List.mem_of_mem_filter hp)
    exact hes.isKey_branch hn (List.mem_map_of_mem (NodeDef.mem_pointers_branch.mp hpointer))
  obtain ⟨es', ns', rfl, hes', hplain', hset⟩ := h.setPointers hes₁ hd htarget
    (fun _ _ => hslots) hok
  refine ⟨ns', ⟨es', rfl, hes', hplain' hplain⟩, (hpoint.trans hset).congr fun n hn s => ?_⟩
  have hmem : (n.id, s) ∈ (g.incoming x).filter (fun p => !gone.contains p.1) ↔
      n.target? s = some x ∧ n.id ∉ gone := by
    rw [List.mem_filter, LinkGraph.mem_incoming_iff hg hes.nodup_ids hbranches hn]
    simp
  unfold Edit.assigned
  simp only [hmem]
  by_cases hgone : n.id ∈ gone
  · simp [hgone]
  · simp only [hgone, not_false_eq_true, and_true, if_false]
    by_cases htarget : n.target? s = some x
    · simp [htarget, bridge]
    · rw [if_neg htarget]
      cases hold : n.target? s with
      | none => rfl
      | some t =>
        have hne : t ≠ x := fun heq => htarget (heq ▸ hold)
        simp [bridge, hne]

/-- Bridging all nodes that go, one after the other. -/
theorem Hosts.setBridges (hnext : ∀ t ∈ next, Form.isKey t) (hplain : Plain es)
    (hd : d.outline = S.slot.fill (.map es))
    (hok : gone.foldlM (fun d target => d.setPointers w.name
      ((g.incoming target).filter fun p => !gone.contains p.1)
      (if target = root then next else none)) d = .ok d') : ∃ ns', S.Holds d' ns' ∧
        Repoints (fun a _ old => if a ∈ gone then old else bridge gone root next old)
          w.nodes ns' := by
  have hstep (done : List String) (x : String) (rest : List String) (b b' : Draft)
      (_ : gone = done ++ x :: rest) (hb : ∃ ns, S.Holds b ns ∧
        Repoints (fun a _ old => if a ∈ gone then old else bridge done root next old) w.nodes ns)
      (hok : b.setPointers w.name ((g.incoming x).filter fun p => !gone.contains p.1)
        (if x = root then next else none) = .ok b') : ∃ ns, S.Holds b' ns ∧
          Repoints (fun a _ old => if a ∈ gone then old else bridge (done ++ [x]) root next old)
            w.nodes ns := by
    obtain ⟨ns, hb, hpoint⟩ := hb
    exact h.setBridge hg hes hnext hb hpoint hok
  refine foldlM_carries hstep ⟨w.nodes, ⟨es, hd, hes, hplain⟩,
    (Repoints.refl _).congr fun n _ s => ?_⟩ hok
  rw [bridge_of_not_mem fun _ _ => List.not_mem_nil, ite_self]

end Bridge

/-- Nodes that were bridged and reset, those outside `gone`. -/
theorem bridged_filter {gone : List String} {root : String} {next : Option String}
    {ns₁ ns₂ : List NodeDef}
    (hpoint : Repoints (fun a _ old => if a ∈ gone then old else bridge gone root next old) ns ns₁)
    (hreset : Resets (fun a _ r => a ∉ gone ∧ r ∈ gone) ns₁ ns₂) :
    List.Forall₂ (NodeDef.Bridged gone root next) (ns.filter fun n => !gone.contains n.id)
      (ns₂.filter fun n => !gone.contains n.id) := by
  unfold Repoints at hpoint
  induction hpoint generalizing ns₂ with
  | nil =>
    cases hreset
    exact .nil
  | @cons n n₁ ns ns₁ hn _ ih =>
    obtain ⟨n₂, ns₂, ⟨inputs, rfl, hinputs⟩, hrest, rfl⟩ := List.forall₂_cons_left_iff.mp hreset
    by_cases hgone : n.id ∈ gone
    · rw [List.filter_cons_of_neg (by simpa using hgone),
        List.filter_cons_of_neg (by simpa [hn.id] using hgone)]
      exact ih hrest
    · rw [List.filter_cons_of_pos (by simpa using hgone),
        List.filter_cons_of_pos (by simpa [hn.id] using hgone)]
      refine .cons ⟨hn.id, hn.opcode, fun s => ?_, ?_⟩ (ih hrest)
      · have htarget := (hn.target? s).trans (if_neg hgone)
        rw [← htarget]
        cases s <;> rfl
      · rw [← hn.inputs]
        refine ResetIn.congr _ _ _ hinputs fun p _ => ?_
        rw [hn.id]
        exact and_iff_right hgone

/-- Deleting a node bridges it. -/
theorem Hosts.bridged_of_deleteNode (h : S.Hosts ws₁ w ws₂) (hes : Nodes es w.nodes)
    (hplain : Plain es) (hw : d.document.workflow? w.name = some w)
    (hd : d.outline = S.slot.fill (.map es)) (hok : d.deleteNode w.name id = .ok d') :
    ∃ n g es' ns', w.node? id = some n ∧ LinkGraph.build w = .ok g ∧
      d'.outline = S.slot.fill (.map es') ∧ Nodes es' ns' ∧
        w.Bridged (w.removalSet g [id]) id n.next { w with nodes := ns' } := by
  obtain ⟨n, g, d₁, d₂, hn, hg, hbridges, hresets, hremove⟩ := Draft.steps_of_deleteNode hok hw
  have hnext : ∀ t ∈ n.next, Form.isKey t := by
    intro t ht
    obtain ⟨m, hm, rfl⟩ := Workflow.mem_nodeIds.mp ((LinkGraph.build_eq_ok.mp hg).1 n
      (Workflow.node?_mem hn) _ (NodeDef.mem_pointers_next.mpr ht))
    exact hes.isKey hm
  obtain ⟨ns₁, hd₁, hpoint⟩ := h.setBridges hg hes hnext hplain hd hbridges
  have hids : ns₁.map (·.id) = w.nodeIds := hpoint.ids
  have hrefs (m : NodeDef) (hm : m ∈ ns₁) : w.referencePaths m.id = refPathsIn [] m.inputs := by
    obtain ⟨m₀, hm₀, hsame⟩ := exists_mem_of_forall₂ (List.Forall₂.flip hpoint) hm
    rw [Workflow.referencePaths, hsame.id, Workflow.node?_eq_some hes.nodup_ids hm₀]
    simp only [hsame.inputs]
  obtain ⟨ns₂, hd₂, hreset⟩ := h.resetNodes hd₁
    (fun i hi => hids ▸ List.mem_of_mem_filter hi) hrefs hresets
  have hreset : Resets (fun a _ r => a ∉ w.removalSet g [id] ∧ r ∈ w.removalSet g [id])
      ns₁ ns₂ := by
    refine hreset.congr fun m hm p _ => ?_
    have hmem : m.id ∈ w.nodeIds := hids ▸ List.mem_map_of_mem hm
    simp [hmem]
  obtain ⟨es', hd', hes', -⟩ := h.removeNodes (holds_iff.mp hd₂) hremove
  exact ⟨n, g, es', _, hn, hg, hd', hes', rfl, rfl, rfl, bridged_filter hpoint hreset⟩

end Scene

end BlockFlow

import BlockFlow.Proofs.Edit.Draft
import BlockFlow.Proofs.Form.Putting
import BlockFlow.Proofs.Form.Scene
import BlockFlow.Proofs.Pointers

/-!
Edits of the nodes of a scene. Each step of an edit leaves a scene with other nodes; what is read from
it is known from these.
-/

namespace BlockFlow

open Outcome InputExpr

open Form (entriesSound)

/-- The second nodes are the first with the targets of all pointers given by `f`. -/
def Repoints (f : String → LinkSlot → Option String → Option String) (ns ns' : List NodeDef) :
    Prop := List.Forall₂ (fun n n' => n.Repointed (f n.id) n') ns ns'

namespace Repoints

variable {f g : String → LinkSlot → Option String → Option String} {ns ns' ns'' : List NodeDef}

theorem refl (ns : List NodeDef) : Repoints (fun _ _ old => old) ns ns :=
  List.forall₂_same.mpr fun _ _ => ⟨rfl, rfl, rfl, fun _ => rfl⟩

theorem trans (h : Repoints f ns ns') (h' : Repoints g ns' ns'') :
    Repoints (fun id s old => g id s (f id s old)) ns ns'' := by
  unfold Repoints at h h' ⊢
  induction h generalizing ns'' with
  | nil =>
    cases h'
    exact .nil
  | cons hn _ ih =>
    cases h' with
    | cons hn' h' =>
      refine .cons ⟨hn'.id.trans hn.id, hn'.opcode.trans hn.opcode, hn'.inputs.trans hn.inputs,
        fun s => ?_⟩ (ih h')
      rw [hn'.target?, hn.target?, hn.id]

theorem congr (h : Repoints f ns ns')
    (hfg : ∀ n ∈ ns, ∀ s, f n.id s (n.target? s) = g n.id s (n.target? s)) :
    Repoints g ns ns' := by
  refine ((List.forall₂_and_left _ _).mpr ⟨hfg, h⟩).imp ?_
  rintro n n' ⟨hfg, hn⟩
  exact ⟨hn.id, hn.opcode, hn.inputs, fun s => by rw [hn.target?, hfg]⟩

theorem ids (h : Repoints f ns ns') : ns'.map (·.id) = ns.map (·.id) := by
  refine List.forall₂_eq_eq_eq ▸ (List.forall₂_map_left_iff.mpr (List.forall₂_map_right_iff.mpr
    (List.Forall₂.imp ?_ h.flip)))
  exact fun _ _ hn => hn.id

end Repoints

/-- Nodes of which one has other inputs. -/
def setInputs (id : String) (ins : Inputs) (ns : List NodeDef) : List NodeDef :=
  ns.map fun n => if n.id = id then { n with inputs := ins } else n

theorem setInputs_setInputs (id : String) (ins ins' : Inputs) (ns : List NodeDef) :
    setInputs id ins' (setInputs id ins ns) = setInputs id ins' ns := by
  rw [setInputs, setInputs, setInputs, List.map_map]
  refine List.map_congr_left fun n _ => ?_
  by_cases hid : n.id = id <;> simp [hid]

/-- Changing the inputs of the one node with an id. -/
theorem setInputs_eq {ns : List NodeDef} {n : NodeDef} (hids : (ns.map (·.id)).Nodup) (hn : n ∈ ns)
    (f : Inputs → Inputs) : (ns.map fun m =>
      if m.id = n.id then { m with inputs := f m.inputs } else m) = setInputs n.id (f n.inputs) ns := by
  refine List.map_congr_left fun m hm => ?_
  by_cases hid : m.id = n.id
  · obtain rfl : m = n := List.inj_on_of_nodup_map hids hm hn hid
    rfl
  · rw [if_neg hid, if_neg hid]

/-- Changing the one node with an id, among others. -/
theorem map_middle {ns₁ ns₂ : List NodeDef} {n : NodeDef}
    (hids : ((ns₁ ++ n :: ns₂).map (·.id)).Nodup) (f : NodeDef → NodeDef) :
    ((ns₁ ++ n :: ns₂).map fun m => if m.id = n.id then f m else m) = ns₁ ++ f n :: ns₂ :=
  map_ite_middle rfl (fresh_of_nodup hids)

theorem setInputs_self {ns : List NodeDef} {n : NodeDef} (hids : (ns.map (·.id)).Nodup)
    (hn : n ∈ ns) : setInputs n.id n.inputs ns = ns := by
  have hsame := setInputs_eq hids hn fun ins => ins
  rw [← hsame]
  exact (List.map_congr_left fun m _ => ite_self m).trans (List.map_id ns)

namespace Edit

/-- Targets once some pointers have been set. -/
def assigned (slots : List (String × LinkSlot)) (target : Option String) (id : String)
    (s : LinkSlot) (old : Option String) : Option String :=
  if (id, s) ∈ slots then target else old

theorem assigned_cons (p : String × LinkSlot) (slots : List (String × LinkSlot))
    (target : Option String) (id : String) (s : LinkSlot) (old : Option String) :
    assigned slots target id s (assigned [p] target id s old) =
      assigned (p :: slots) target id s old := by
  unfold assigned
  by_cases hslots : (id, s) ∈ slots
  · simp [hslots]
  · simp [hslots]

end Edit

namespace Scene

open Edit (assigned)

variable {S : Scene} {ws₁ ws₂ : List Workflow} {w : Workflow} {es es₁ es₂ fs : List (String × Form)}
  {ns : List NodeDef} {id : String} {d d' : Draft} {k : String} {fs' : List (String × Form)}

/-- Whether calls among the inputs of all nodes have no inputs beside their arguments. -/
def Plain (es : List (String × Form)) : Prop := ∀ e ∈ es, Form.PlainInputs e.2.inside

theorem Plain.replace (h : Plain (es₁ ++ (k, .map fs) :: es₂))
    (hfs : Form.PlainInputs fs → Form.PlainInputs fs') : Plain (es₁ ++ (k, .map fs') :: es₂) := by
  intro e he
  rcases List.mem_append.mp he with he | he
  · exact h e (List.mem_append_left _ he)
  · rcases List.mem_cons.mp he with rfl | he
    · exact hfs (h (k, .map fs) (List.mem_append_right _ List.mem_cons_self))
    · exact h e (List.mem_append_right _ (List.mem_cons_of_mem _ he))

theorem Plain.remove (h : Plain (es₁ ++ (k, .map fs) :: es₂)) : Plain (es₁ ++ es₂) :=
  fun e he => h e ((List.mem_append.mp he).elim (List.mem_append_left _)
    fun he => List.mem_append_right _ (List.mem_cons_of_mem _ he))

theorem Nodes.nodup_branchNames {n : NodeDef} (h : Nodes es ns) (hn : n ∈ ns) :
    n.branchNames.Nodup := by
  obtain ⟨e, he, fs, -, hload⟩ := exists_mem_of_forall₂ h.loads.flip hn
  obtain ⟨-, -, hbranches⟩ := hload.pointers
  rw [NodeDef.branchNames, hbranches, List.map_map]
  exact hload.branches_sound.2

theorem Nodes.isKey {n : NodeDef} (h : Nodes es ns) (hn : n ∈ ns) : Form.isKey n.id := by
  obtain ⟨e, he, fs, rfl, hload⟩ := exists_mem_of_forall₂ h.loads.flip hn
  exact (Form.entriesSound_iff.mp h.sound _ he).1

theorem Nodes.distinct {n : NodeDef} (h : Nodes es ns) (hn : n ∈ ns) : DistinctIn n.inputs := by
  obtain ⟨e, -, fs, -, hload⟩ := exists_mem_of_forall₂ h.loads.flip hn
  exact hload.distinct

theorem Nodes.isKey_input {n : NodeDef} {key : String} (h : Nodes es ns) (hn : n ∈ ns)
    (hkey : key ∈ n.inputs.map (·.1)) : Form.isKey key := by
  obtain ⟨e, -, fs, -, hload⟩ := exists_mem_of_forall₂ h.loads.flip hn
  exact hload.isKey_input hkey

/-- A node that is found is one of those that are loaded. -/
theorem Hosts.exists_node (h : S.Hosts ws₁ w ws₂) (hes : Nodes es ns)
    (hd : d.outline = S.slot.fill (.map es)) {span : Span} (hspan : d.nodeSpan w.name id = .ok span) :
    ∃ es₁ fs es₂ ns₁ n ns₂, es = es₁ ++ (n.id, .map fs) :: es₂ ∧ ns = ns₁ ++ n :: ns₂ ∧ n.id = id ∧
      List.Forall₂ IsNode es₁ ns₁ ∧ Form.Loads fs n ∧ List.Forall₂ IsNode es₂ ns₂ ∧
        span = d.outline.span (S.slot.line + 1 + (Form.mappingLines es₁).length) := by
  obtain ⟨i, hi, hspan⟩ := Draft.nodeSpan_eq_ok.mp hspan
  rw [hd, h.workflowLine? hes] at hi
  cases hi
  rw [hd, Outline.nodeSpan?, find?_nodes hes] at hspan
  simp only [Option.bind_eq_bind, Option.bind_some] at hspan
  have hmem : id ∈ es.map (·.1) := by
    by_contra hnot
    rw [Slot.find?_fill_none hes.sound hnot] at hspan
    cases hspan
  obtain ⟨es₁, fs, es₂, ns₁, n, ns₂, rfl, rfl, rfl, h₁, hload, h₂⟩ := hes.exists_split hmem
  have hfresh : n.id ∉ es₁.map (·.1) := (fresh_of_nodup hes.nodup).1
  rw [Slot.find?_fill_append hes.sound hfresh] at hspan
  cases hspan
  exact ⟨es₁, fs, es₂, ns₁, n, ns₂, rfl, rfl, rfl, h₁, hload, h₂, by rw [hd]⟩

/-- Whether the outline of a draft holds nodes. -/
def Holds (S : Scene) (d : Draft) (ns : List NodeDef) : Prop :=
  ∃ es, d.outline = S.slot.fill (.map es) ∧ Nodes es ns ∧ Plain es

theorem Holds.distinct (h : S.Holds d ns) : ∀ n ∈ ns, DistinctIn n.inputs := by
  obtain ⟨es, -, hes, -⟩ := h
  exact fun n hn => hes.distinct hn

/-- Whether the outline of a draft holds nodes, and calls among their inputs have no inputs beside their
arguments where this matters. -/
def Carries (S : Scene) (plain : Prop) (d : Draft) (ns : List NodeDef) : Prop :=
  ∃ es, d.outline = S.slot.fill (.map es) ∧ Nodes es ns ∧ (plain → Plain es)

theorem holds_iff : S.Holds d ns ↔ S.Carries True d ns := by
  simp only [Holds, Carries, true_imp_iff]

theorem Carries.nodup_ids {plain : Prop} (h : S.Carries plain d ns) : (ns.map (·.id)).Nodup := by
  obtain ⟨es, -, hes, -⟩ := h
  exact hes.nodup_ids

theorem Carries.nodup_branchNames {plain : Prop} {n : NodeDef} (h : S.Carries plain d ns)
    (hn : n ∈ ns) : n.branchNames.Nodup := by
  obtain ⟨es, -, hes, -⟩ := h
  exact hes.nodup_branchNames hn

theorem Holds.nodup_ids (h : S.Holds d ns) : (ns.map (·.id)).Nodup := (holds_iff.mp h).nodup_ids

/-- The block of a node that is found. With other entries in the block, the outline holds another node
in its place. -/
theorem Hosts.exists_block {plain : Prop} {span : Span} (h : S.Hosts ws₁ w ws₂)
    (hd : S.Carries plain d ns) (hspan : d.nodeSpan w.name id = .ok span) :
    ∃ (s : Slot) (fs : List (String × Form)) (n : NodeDef), n ∈ ns ∧ n.id = id ∧
      span.start = s.line ∧ d.outline = s.fill (.map fs) ∧ Form.Loads fs n ∧
        (plain → Form.PlainInputs fs) ∧ ∀ (fs' : List (String × Form)) (f : NodeDef → NodeDef),
          Form.Loads fs' (f n) → (f n).id = id → (plain → Form.PlainInputs fs') →
            S.Carries plain (d.withOutline (s.fill (.map fs')))
              (ns.map fun m => if m.id = id then f m else m) := by
  obtain ⟨es, hd, hes, hplain⟩ := hd
  obtain ⟨es₁, fs, es₂, ns₁, n, ns₂, rfl, rfl, rfl, h₁, hload, h₂, rfl⟩ :=
    h.exists_node hes hd hspan
  obtain ⟨-, hk, -, hsound₂⟩ := Slot.sound_entry hes.sound
  refine ⟨S.slot.inner es₁ es₂ n.id hk hsound₂, fs, n, by simp, rfl, ?_, ?_, hload, ?_, ?_⟩
  · rw [Outline.span, Slot.line_inner]
  · rw [hd, Slot.fill_inner]
  · exact fun hp => hplain hp (n.id, .map fs) (List.mem_append_right _ List.mem_cons_self)
  · intro fs' f hload' hid hplain'
    refine ⟨_, Slot.fill_inner hk hsound₂, ?_, fun hp => (hplain hp).replace fun _ => hplain' hp⟩
    rw [map_middle hes.nodup_ids f]
    exact hes.replace h₁ h₂ hload' hid

/-- Writing a value into an input of a node. Calls in the value may have inputs beside their
arguments. -/
theorem Hosts.putInput {i : Nat} {key : String} {f : Form} {e : InputExpr} (h : S.Hosts ws₁ w ws₂)
    (hes : Nodes es ns) (hd : d.outline = S.slot.fill (.map es)) (hline : d.nodeLine w.name id = .ok i)
    (hkey : Form.isKey key) (hf : f.isSound) (hleaf : ∀ l, f ≠ .leaf l)
    (hload : ∀ owner, Document.loadValue owner key f.value = .ok e) : ∃ es',
      (d.outline.ensureBlock i "inputs").1.setBlock (d.outline.ensureBlock i "inputs").2 key f.lines =
        S.slot.fill (.map es') ∧ Nodes es' (ns.map fun n =>
          if n.id = id then { n with inputs := InputExpr.put key e n.inputs } else n) := by
  obtain ⟨span, hspan, hline⟩ := bind_eq_ok.mp hline
  cases hline
  have hcarries : S.Carries False d ns := ⟨es, hd, hes, False.elim⟩
  obtain ⟨s, fs, n, -, hid, hstart, houtline, hblock, -, hreplace⟩ := h.exists_block hcarries hspan
  obtain ⟨o, block, fs', hensure, hset, hload'⟩ :=
    Slot.putInput_fill (s := s) hblock hkey hf hleaf (hload n.id)
  obtain ⟨es', hfill, hes', -⟩ := hreplace fs'
    (fun n => { n with inputs := InputExpr.put key e n.inputs }) hload' hid False.elim
  rw [hstart, houtline, hensure]
  exact ⟨es', hset.trans hfill, hes'⟩

/-- Setting a pointer in a scene. -/
theorem Hosts.setPointer {slot : LinkSlot} {target : Option String} (h : S.Hosts ws₁ w ws₂)
    (hes : Nodes es ns) (hd : d.outline = S.slot.fill (.map es))
    (htarget : ∀ t ∈ target, Form.isKey t)
    (hslot : ∀ t ∈ target, ∀ name, slot = .branch name → Form.isKey name)
    (hok : d.setPointer w.name id slot target = .ok d') : ∃ es' ns',
      d' = d.withOutline (S.slot.fill (.map es')) ∧ Nodes es' ns' ∧ (Plain es → Plain es') ∧
        Repoints (assigned [(id, slot)] target) ns ns' := by
  obtain ⟨i, hi, hok⟩ := bind_eq_ok.mp hok
  cases hok
  obtain ⟨span, hspan, hi⟩ := bind_eq_ok.mp hi
  cases hi
  obtain ⟨es₁, fs, es₂, ns₁, n, ns₂, rfl, rfl, rfl, h₁, hload, h₂, rfl⟩ :=
    h.exists_node hes hd hspan
  obtain ⟨-, hk, -, hsound₂⟩ := Slot.sound_entry hes.sound
  obtain ⟨fs', n', hset, hload', hinputs, hpoint⟩ := Slot.setPointer_fill
    (s := S.slot.inner es₁ es₂ n.id hk hsound₂) (d.isNumbered w.name n.id slot) hload htarget hslot
  rw [Slot.fill_inner, Slot.fill_inner, Slot.line_inner] at hset
  refine ⟨_, _, ?_, hes.replace h₁ h₂ hload' hpoint.id, fun hplain => hplain.replace ?_, ?_⟩
  · rw [hd, Outline.span, hset]
  · exact fun hfs g hg => hfs g (hinputs ▸ hg)
  · obtain ⟨hne₁, hne₂⟩ := ne_of_nodup hes.nodup_ids
    have hself (m : NodeDef) (hne : m.id ≠ n.id) :
        m.Repointed (assigned [(n.id, slot)] target m.id) m := by
      refine ⟨rfl, rfl, rfl, fun s => ?_⟩
      rw [assigned, if_neg (by simp [hne])]
    have hself₁ : Repoints (assigned [(n.id, slot)] target) ns₁ ns₁ :=
      List.forall₂_same.mpr fun m hm => hself m (hne₁ m hm)
    have hself₂ : Repoints (assigned [(n.id, slot)] target) ns₂ ns₂ :=
      List.forall₂_same.mpr fun m hm => hself m (hne₂ m hm)
    refine List.rel_append hself₁ (.cons ?_ hself₂)
    refine ⟨hpoint.id, hpoint.opcode, hpoint.inputs, fun s => ?_⟩
    rw [hpoint.target?, Form.pointed, assigned]
    simp only [List.mem_singleton, Prod.mk.injEq, true_and]

/-- Setting pointers in a scene, one after the other. -/
theorem Hosts.setPointers {slots : List (String × LinkSlot)} {target : Option String}
    (h : S.Hosts ws₁ w ws₂) (hes : Nodes es ns) (hd : d.outline = S.slot.fill (.map es))
    (htarget : ∀ t ∈ target, Form.isKey t)
    (hslots : ∀ t ∈ target, ∀ p ∈ slots, ∀ name, p.2 = .branch name → Form.isKey name)
    (hok : d.setPointers w.name slots target = .ok d') : ∃ es' ns',
      d' = d.withOutline (S.slot.fill (.map es')) ∧ Nodes es' ns' ∧ (Plain es → Plain es') ∧
        Repoints (assigned slots target) ns ns' := by
  induction slots generalizing d es ns with
  | nil =>
    cases hok
    exact ⟨es, ns, by rw [← hd]; rfl, hes, id, (Repoints.refl ns).congr fun n _ s => by simp [assigned]⟩
  | cons p slots ih =>
    obtain ⟨source, slot⟩ := p
    rw [Draft.setPointers, List.foldlM_cons] at hok
    obtain ⟨m, hm, hok⟩ := bind_eq_ok.mp hok
    obtain ⟨es', ns', rfl, hes', hplain, hfirst⟩ := h.setPointer hes hd htarget
      (fun t ht => hslots t ht _ List.mem_cons_self) hm
    obtain ⟨es'', ns'', rfl, hes'', hplain', hrest⟩ := ih hes' rfl
      (fun t ht p hp => hslots t ht p (List.mem_cons_of_mem _ hp)) hok
    refine ⟨es'', ns'', rfl, hes'', hplain' ∘ hplain, (hfirst.trans hrest).congr fun n _ s => ?_⟩
    exact Edit.assigned_cons _ _ _ _ _ _

/-- Nodes are changed in the document where they are changed in their workflow. -/
theorem Hosts.changed {R : Workflow → Workflow → Prop} (h : S.Hosts ws₁ w ws₂)
    (hR : R w { w with nodes := ns }) :
    Document.Changed w.name R ⟨ws₁ ++ w :: ws₂⟩ ⟨ws₁ ++ { w with nodes := ns } :: ws₂⟩ :=
  Document.changed_of_nodup h.names hR

/-- Calls in the nodes are told where they are in the whole text. -/
theorem plain_of_callsPlain (h : (S.form (.map es)).callsPlain) : Plain es := by
  have hitems := (Form.callsPlain_map.mp h).2 _ (List.mem_append_right _ List.mem_cons_self)
  have hitem := Form.callsPlain_seq.mp hitems _ (List.mem_append_right _ List.mem_cons_self)
  have hnodes := (Form.callsPlain_map.mp hitem).2 ("nodes", .map es) (by simp [entries])
  intro e he g hg
  have hnode := (Form.callsPlain_map.mp hnodes).2 e he
  obtain ⟨k, f⟩ := e
  cases f with
  | map fs => exact (Form.callsPlain_map.mp hnode).2 _ (mem_of_firstOf? hg)
  | _ => cases hg

/-- Nodes and branches in a text in block style are listed once. -/
theorem nodup_of_isDocument {F : Form} {d : Document} {name : String} (hF : F.isDocument)
    (hd : Document.load (String.ofList F.chars) = .ok d) (hw : d.workflow? name = some w) :
    w.nodeIds.Nodup ∧ ∀ n ∈ w.nodes, n.branchNames.Nodup := by
  by_cases hne : w.nodes = []
  · simp [Workflow.nodeIds, hne]
  · obtain ⟨S, es, ws₁, ws₂, -, hes, -⟩ := exists_scene hF hd hw hne
    exact ⟨hes.nodup_ids, fun n hn => hes.nodup_branchNames hn⟩

end Scene

namespace Edit

variable {c : Catalog} {e : Edit} {F : Form} {d : Document} {w : Workflow} {name : String}
  {r : Edited} {R : Workflow → Workflow → Prop}

/-- An edit of the nodes of one workflow leaves a text in block style, with other nodes. -/
theorem exists_changed (hF : F.isDocument) (hd : Document.load (String.ofList F.chars) = .ok d)
    (hw : d.workflow? name = some w) (hne : w.nodes ≠ [])
    (hr : e.apply c (String.ofList F.chars) = .ok r)
    (hrun : ∀ (S : Scene) (ws₁ ws₂ : List Workflow) (es : List (String × Form)) (after : Draft)
      (id : Option String), S.Hosts ws₁ w ws₂ → Scene.Nodes es w.nodes →
        (F.callsPlain → Scene.Plain es) →
          e.run ⟨c, d, S.slot.fill (.map es)⟩ = .ok (after, id) → ∃ es' ns',
            after.outline = S.slot.fill (.map es') ∧ Scene.Nodes es' ns' ∧
              R w { w with nodes := ns' }) :
    ∃ (F' : Form) (d' : Document), F'.isDocument ∧ r.text = String.ofList F'.chars ∧
      Document.load r.text = .ok d' ∧ Document.Changed name R d d' := by
  obtain ⟨d₀, after, id, d', hd₀, hafter, htext, hd'⟩ := exists_run hr
  obtain rfl : d = d₀ := Except.ok.inj (hd.symm.trans hd₀)
  obtain ⟨S, es, ws₁, ws₂, hhosts, hes, rfl, rfl, houtline⟩ := Scene.exists_scene hF hd hw hne
  rw [String.toList_ofList, houtline] at hafter
  obtain ⟨es', ns', hfill, hes', hR⟩ :=
    hrun S ws₁ ws₂ es after id hhosts hes Scene.plain_of_callsPlain hafter
  obtain rfl : w.name = name := by simpa using List.find?_some hw
  rw [htext, hfill] at hd'
  obtain ⟨rfl, F', hF', hchars⟩ := hhosts.exists_document hes' hF hd'
  exact ⟨F', _, hF', by rw [htext, hfill, hchars], by rw [htext, hfill, hd'], hhosts.changed hR⟩

end Edit

end BlockFlow

import BlockFlow.Proofs.Edit.MovingIn
import BlockFlow.Proofs.Tree.Added

/-!
Where an orphan fits into an input. Main statement: the workflow in which it was moved there has a tree
exactly when nothing in the orphan has the id of the target or of something that refers to it, and the
chain, if it uses the target, is not used by the orphan.
-/

namespace BlockFlow

open Relation InputExpr

namespace Workflow

variable {c : Catalog} {w w' : Workflow} {o target key a b x : String} {e : InputExpr}
  {moved : List String} {n n' t t' : NodeDef} {r r' s s' u' : Reporter} {owner : String}

/-- References in the inputs of a reporter lead to the node. -/
def Refers (w : Workflow) (r : Reporter) (b : String) : Prop :=
  ∃ a ∈ nodeRefsIn r.inputs, ReflTransGen w.Cites a b

theorem Refers.transGen_uses (h : w.Refers r b) (hn : w.node? b = some n) :
    TransGen w.Uses r n.reporter := by
  obtain ⟨a, ha, hway⟩ := h
  rcases reflTransGen_iff_eq_or_transGen.mp hway with rfl | hway
  · obtain ⟨s, hs, hdown⟩ := uses_of_nodeRefsIn hn r.id r.inputs ha
    exact .head' hs hdown
  · obtain ⟨_, hstep, -⟩ := TransGen.head'_iff.mp hway
    obtain ⟨m, hm⟩ := hstep.exists_node?
    obtain ⟨s, hs, hdown⟩ := uses_of_nodeRefsIn hm r.id r.inputs ha
    exact .trans_right (.head hs hdown) (uses_of_transGen_cites hm hn hway)

/-- What something in a reporter refers to the reporter does. -/
theorem Refers.of_uses (h : w.Refers s b) (hs : ReflTransGen w.Uses r s) : w.Refers r b := by
  obtain ⟨a, ha, hway⟩ := h
  have hall : AgreeOn w w fun x => ∃ y ∈ nodeRefsIn r.inputs, ReflTransGen w.Cites y x :=
    ⟨fun _ _ ⟨y, hy, hyx⟩ hstep => ⟨y, hy, hyx.tail hstep⟩, fun _ _ => rfl⟩
  obtain ⟨y, hy, hya⟩ := (hall.reflTransGen_uses (fun y hy => ⟨y, hy, .refl⟩) hs).1 a ha
  exact ⟨y, hy, hya.trans hway⟩

theorem refers_reporter (hn : w.node? a = some n) :
    w.Refers n.reporter b ↔ TransGen w.Cites a b := by
  rw [TransGen.head'_iff]
  refine exists_congr fun x => and_congr_left fun _ => ?_
  exact (cites_iff hn).symm

/-- The id is that of a node, or that of a reporter that refers to it: another node, or one written in
place at any depth. -/
def Over (w : Workflow) (target x : String) : Prop :=
  x = target ∨ ∃ n ∈ w.nodes, ∃ s, ReflTransGen w.Uses n.reporter s ∧ s.id = x ∧ w.Refers s target

/-- The id is that of a node, or that of a reporter on a way down from it. -/
def Under (w : Workflow) (o x : String) : Prop :=
  ∃ n, w.node? o = some n ∧ ∃ s, ReflTransGen w.Uses n.reporter s ∧ s.id = x

/-- Nothing in an orphan has the id of a node or of something that refers to the node. -/
def SharesNone (w : Workflow) (o target : String) : Prop := ∀ x, w.Over target x → ¬ w.Under o x

/-- An orphan can hang off a node: nothing in it has the id of the node or of something that refers to
the node, and where the chain uses the node, the orphan refers to no node of the chain. -/
structure FitsIn (w : Workflow) (o target : String) : Prop where
  shares : w.SharesNone o target
  apart : w.Used target → ∀ b, TransGen w.Cites o b → ¬ w.Linked b

/-- Such an orphan refers to the node neither directly nor through others. -/
theorem SharesNone.not_cites (h : w.SharesNone o target) (ht : target ∈ w.nodeIds) :
    ¬ TransGen w.Cites o target := by
  intro hway
  obtain ⟨t, ht⟩ := exists_node? ht
  obtain ⟨_, hstep, -⟩ := TransGen.head'_iff.mp hway
  obtain ⟨n, hn⟩ := hstep.exists_node?
  have hdown := ((refers_reporter hn).mpr hway).transGen_uses ht
  exact h target (.inl rfl) ⟨n, hn, t.reporter, hdown.to_reflTransGen, node?_id ht⟩

/-- The second reporter is the first with literals for references to what is moved. -/
structure Kept (moved : List String) (r r' : Reporter) : Prop where
  id : r'.id = r.id
  inputs : ∃ above, ResetIn (fun _ b => b ∈ moved) above r.inputs r'.inputs

namespace MovedIn

mutual

/-- Of what is left in a value everything was there, but for the target. -/
theorem of_reporters (h : w.MovedIn c moved target key e w') (ht : w'.node? target = some t')
    (owner key' : String) : (e₀ : InputExpr) → {e₁ : InputExpr} → {above : List String} →
      Reset (fun _ b => b ∈ moved) above e₀ e₁ → s' ∈ e₁.reporters w' owner key' →
        (∃ s ∈ e₀.reporters w owner key', Kept moved s s') ∨
          target ∈ e₀.nodeRefs ∧ s' = t'.reporter
  | .node id, e₁, above, hreset, hs => by
    by_cases hid : id ∈ moved
    · obtain ⟨v, rfl⟩ := hreset.1 hid
      cases hs
    · rw [hreset.2 hid] at hs
      obtain ⟨n', hn', rfl⟩ := List.mem_map.mp hs
      have hn' := Option.mem_toList.mp hn'
      obtain ⟨n, inputs, hn, -, hinputs, hnode⟩ := h.exists_node hn'
      by_cases htarget : id = target
      · subst htarget
        obtain rfl := Option.some.inj (ht.symm.trans hn')
        exact .inr ⟨by simp [nodeRefs], rfl⟩
      · rw [if_neg (node?_id hn ▸ htarget)] at hnode
        subst hnode
        exact .inl ⟨n.reporter, by simp [InputExpr.reporters, hn], rfl, [], hinputs⟩
  | .inline id opcode inputs, _, above, hreset, hs => by
    obtain ⟨inputs', rfl, hreset⟩ := hreset
    obtain rfl := List.mem_singleton.mp hs
    exact .inl ⟨_, List.mem_singleton_self _, rfl, above, hreset⟩
  | .call _ args, _, _, hreset, hs => by
    obtain ⟨args', rfl, hreset⟩ := hreset
    exact h.of_reportersIn ht owner args hreset hs
  | .literal _, _, _, hreset, hs => by
    rw [hreset] at hs
    cases hs
  | .variable _, _, _, hreset, hs => by
    rw [hreset] at hs
    cases hs

theorem of_reportersIn (h : w.MovedIn c moved target key e w') (ht : w'.node? target = some t')
    (owner : String) : (inputs : Inputs) → {inputs' : Inputs} → {above : List String} →
      ResetIn (fun _ b => b ∈ moved) above inputs inputs' → s' ∈ reportersIn w' owner inputs' →
        (∃ s ∈ reportersIn w owner inputs, Kept moved s s') ∨
          target ∈ nodeRefsIn inputs ∧ s' = t'.reporter
  | [], _, _, hreset, hs => by
    rw [hreset] at hs
    cases hs
  | (_, e₀) :: rest, _, _, hreset, hs => by
    obtain ⟨e₁, rest', rfl, he, hrest⟩ := hreset
    rcases List.mem_append.mp hs with hs | hs
    · rcases h.of_reporters ht owner _ e₀ he hs with ⟨s, hs, hkept⟩ | ⟨hrefs, hs⟩
      · exact .inl ⟨s, List.mem_append_left _ hs, hkept⟩
      · exact .inr ⟨List.mem_append_left _ hrefs, hs⟩
    · rcases h.of_reportersIn ht owner rest hrest hs with ⟨s, hs, hkept⟩ | ⟨hrefs, hs⟩
      · exact .inl ⟨s, List.mem_append_right _ hs, hkept⟩
      · exact .inr ⟨List.mem_append_right _ hrefs, hs⟩

end

mutual

/-- What was in a value is a node or left there. -/
theorem reporters (w w' : Workflow) (moved : List String) (owner key' : String) :
    (e₀ : InputExpr) → {e₁ : InputExpr} → {above : List String} →
      Reset (fun _ b => b ∈ moved) above e₀ e₁ → s ∈ e₀.reporters w owner key' →
        (∃ n ∈ w.nodes, s = n.reporter) ∨ ∃ s' ∈ e₁.reporters w' owner key', Kept moved s s'
  | .node id, _, _, _, hs => by
    obtain ⟨n, hn, rfl⟩ := List.mem_map.mp hs
    exact .inl ⟨n, node?_mem (Option.mem_toList.mp hn), rfl⟩
  | .inline id opcode inputs, _, above, hreset, hs => by
    obtain ⟨inputs', rfl, hreset⟩ := hreset
    obtain rfl := List.mem_singleton.mp hs
    exact .inr ⟨_, List.mem_singleton_self _, rfl, above, hreset⟩
  | .call _ args, _, _, hreset, hs => by
    obtain ⟨args', rfl, hreset⟩ := hreset
    exact reportersIn w w' moved owner args hreset hs
  | .literal _, _, _, _, hs => by cases hs
  | .variable _, _, _, _, hs => by cases hs

theorem reportersIn (w w' : Workflow) (moved : List String) (owner : String) :
    (inputs : Inputs) → {inputs' : Inputs} → {above : List String} →
      ResetIn (fun _ b => b ∈ moved) above inputs inputs' →
        s ∈ InputExpr.reportersIn w owner inputs → (∃ n ∈ w.nodes, s = n.reporter) ∨
          ∃ s' ∈ InputExpr.reportersIn w' owner inputs', Kept moved s s'
  | [], _, _, _, hs => by cases hs
  | (_, e₀) :: rest, _, _, hreset, hs => by
    obtain ⟨e₁, rest', rfl, he, hrest⟩ := hreset
    rcases List.mem_append.mp hs with hs | hs
    · refine (reporters w w' moved owner _ e₀ he hs).imp_right fun ⟨s', hs', hkept⟩ => ?_
      exact ⟨s', List.mem_append_left _ hs', hkept⟩
    · refine (reportersIn w w' moved owner rest hrest hs).imp_right fun ⟨s', hs', hkept⟩ => ?_
      exact ⟨s', List.mem_append_right _ hs', hkept⟩

end

section Ways

variable (h : w.MovedIn c moved target key e w') (ht' : w'.node? target = some t')

include h ht'

/-- Ways down come to what was there, or to the target. -/
theorem of_transGen_uses (hkept : Kept moved r r') (hway : TransGen w'.Uses r' s') :
    (∃ s, TransGen w.Uses r s ∧ Kept moved s s') ∨
      w.Refers r target ∧ ReflTransGen w'.Uses t'.reporter s' := by
  induction hway with
  | single hstep =>
    obtain ⟨above, hreset⟩ := hkept.inputs
    rw [Uses, hkept.id] at hstep
    rcases h.of_reportersIn ht' r.id r.inputs hreset hstep with ⟨s, hs, hkept⟩ | ⟨hrefs, rfl⟩
    · exact .inl ⟨s, .single hs, hkept⟩
    · exact .inr ⟨⟨target, hrefs, .refl⟩, .refl⟩
  | tail _ hstep ih =>
    rcases ih with ⟨s, hway, hkept⟩ | ⟨hrefers, hway⟩
    · obtain ⟨above, hreset⟩ := hkept.inputs
      rw [Uses, hkept.id] at hstep
      rcases h.of_reportersIn ht' s.id s.inputs hreset hstep with ⟨u, hu, hkept⟩ | ⟨hrefs, rfl⟩
      · exact .inl ⟨u, hway.tail hu, hkept⟩
      · have hrefers : w.Refers s target := ⟨target, hrefs, .refl⟩
        exact .inr ⟨hrefers.of_uses hway.to_reflTransGen, .refl⟩
    · exact .inr ⟨hrefers, hway.tail hstep⟩

/-- Ways down from the target come to what was there, or go through the value. -/
theorem of_target (ht : w.node? target = some t) (hacyclic : w.Acyclic t.reporter)
    (hway : TransGen w'.Uses t'.reporter s') : (∃ s, TransGen w.Uses t.reporter s ∧ Kept moved s s') ∨
      ∃ r ∈ e.reporters w' target key, ReflTransGen w'.Uses r s' := by
  obtain ⟨n, inputs, hn, -, hreset, hnode⟩ := h.exists_node ht'
  obtain rfl := Option.some.inj (ht.symm.trans hn)
  have hid := node?_id ht
  rw [if_pos hid] at hnode
  subst hnode
  obtain ⟨r, hr, hrest⟩ := TransGen.head'_iff.mp hway
  have hr : r ∈ InputExpr.reportersIn w' target (put key e inputs) := hid ▸ hr
  rcases reportersIn_put_subset hr with hr | hr
  · exact .inr ⟨r, hr, hrest⟩
  · -- The ways that begin in other inputs are those of the target without the value.
    have hkept : Kept moved t.reporter ⟨t.id, t.opcode, inputs⟩ := ⟨rfl, [], hreset⟩
    have hfirst : w'.Uses ⟨t.id, t.opcode, inputs⟩ r := by
      rw [Uses]
      exact hid.symm ▸ hr
    refine .inl ((h.of_transGen_uses ht' hkept (.head' hfirst hrest)).resolve_right ?_)
    rintro ⟨hrefers, -⟩
    exact hacyclic.id_ne (hrefers.transGen_uses ht) rfl

end Ways

end MovedIn

/-- What is written in place of the orphan: its id and opcode, and its inputs with others written in
place. -/
theorem Folds.exists_value (h : w.Folds o e moved) : ∃ n r, w.node? o = some n ∧
    (∀ v owner key, e.reporters v owner key = [r]) ∧ w.WrittenAs n.reporter r ∧
      nodeRefsIn r.inputs = e.nodeRefs := by
  obtain ⟨n, inputs, hn, rfl, hinputs⟩ := h.written
  refine ⟨n, ⟨o, n.opcode, inputs⟩, hn, fun _ _ _ => rfl, ⟨(node?_id hn).symm, hinputs⟩, rfl⟩

section Value

variable (hfolds : w.Folds o e moved) (hagree : AgreeOn w w' (Folds.Outside w o moved))
  (hr : r ∈ e.reporters w' owner key)

include hfolds hagree hr

/-- The ids below the value are those below the orphan. -/
theorem under_iff : w.Under o x ↔ ∃ s, ReflTransGen w'.Uses r s ∧ s.id = x := by
  obtain ⟨n, r', hn, hvalue, hwritten, hrefs⟩ := hfolds.exists_value
  rw [hvalue] at hr
  obtain rfl := List.mem_singleton.mp hr
  have hinside : ∀ b ∈ nodeRefsIn r.inputs, Folds.Outside w o moved b := by
    rw [hrefs]
    exact hfolds.outside_refs
  constructor
  · rintro ⟨m, hm, s, hway, rfl⟩
    obtain rfl := Option.some.inj (hn.symm.trans hm)
    obtain ⟨s', hway', hs⟩ := hwritten.exists_written hway
    exact ⟨s', (hagree.reflTransGen_uses hinside hway').2, hs.id⟩
  · rintro ⟨s', hway', rfl⟩
    obtain ⟨s, hway, hs⟩ :=
      hwritten.exists_original (hagree.symm.reflTransGen_uses hinside hway').2
    exact ⟨n, hn, s, hway, hs.id.symm⟩

theorem acyclic_value (hacyclic : ∀ n ∈ w.nodes, w.Acyclic n.reporter) : w'.Acyclic r := by
  obtain ⟨n, r', hn, hvalue, hwritten, hrefs⟩ := hfolds.exists_value
  rw [hvalue] at hr
  obtain rfl := List.mem_singleton.mp hr
  have hinside : ∀ b ∈ nodeRefsIn r.inputs, Folds.Outside w o moved b := by
    rw [hrefs]
    exact hfolds.outside_refs
  exact hagree.acyclic hinside (hwritten.acyclic (hacyclic n (node?_mem hn)))

end Value

/-- A reporter on a way down once the value is there: one that was on a way down from a node before, the
target itself, or one on a way down from the value. -/
inductive Remains (w w' : Workflow) (moved : List String) (t' : NodeDef) (r : Reporter) :
    Reporter → Prop where
  | kept {n : NodeDef} {s s' : Reporter} (hn : n ∈ w.nodes) (hs : ReflTransGen w.Uses n.reporter s)
    (h : Kept moved s s') : Remains w w' moved t' r s'
  | target : Remains w w' moved t' r t'.reporter
  | value {s' : Reporter} (h : ReflTransGen w'.Uses r s') : Remains w w' moved t' r s'

section Fits

variable (h : w.MovedIn c moved target key e w') (ht : w.node? target = some t)
  (ht' : w'.node? target = some t') (hacyclic : ∀ n ∈ w.nodes, w.Acyclic n.reporter)
  (hr : ∀ v owner key, e.reporters v owner key = [r])

include h ht ht' hacyclic hr

theorem remains_of_target (hway : ReflTransGen w'.Uses t'.reporter s') :
    Remains w w' moved t' r s' := by
  rcases reflTransGen_iff_eq_or_transGen.mp hway with rfl | hway
  · exact .target
  · have hself := hacyclic t (node?_mem ht)
    rcases h.of_target ht' ht hself hway with ⟨s, hs, hkept⟩ | ⟨r', hr', hway⟩
    · exact .kept (node?_mem ht) hs.to_reflTransGen hkept
    · rw [hr, List.mem_singleton] at hr'
      exact .value (hr' ▸ hway)

/-- Every reporter on a way down from a node is one of them. -/
theorem remains_of_uses (hids : w.nodeIds.Nodup) (hn' : n' ∈ w'.nodes)
    (hway : ReflTransGen w'.Uses n'.reporter s') : Remains w w' moved t' r s' := by
  obtain ⟨n, hn, -, inputs, hreset, hnode⟩ := h.exists_mem hn'
  by_cases htarget : n.id = target
  · have hid : n'.id = target := by
      rw [hnode]
      exact htarget
    have hfound := node?_eq_some (h.nodup_nodeIds hids) hn'
    obtain rfl := Option.some.inj (ht'.symm.trans (hid ▸ hfound))
    exact remains_of_target h ht ht' hacyclic hr hway
  · rw [if_neg htarget] at hnode
    have hkept : Kept moved n.reporter n'.reporter := by
      subst hnode
      exact ⟨rfl, [], hreset⟩
    rcases reflTransGen_iff_eq_or_transGen.mp hway with rfl | hway
    · exact .kept hn .refl hkept
    · rcases h.of_transGen_uses ht' hkept hway with ⟨s, hs, hkept⟩ | ⟨-, hway⟩
      · exact .kept hn hs.to_reflTransGen hkept
      · exact remains_of_target h ht ht' hacyclic hr hway

/-- No way down leads from there to the same id, where the orphan shares none. -/
theorem SharesNone.id_ne (hshares : w.SharesNone o target) (hvalue : w'.Acyclic r)
    (hunder : ∀ s', ReflTransGen w'.Uses r s' → w.Under o s'.id)
    (hs : Remains w w' moved t' r s') (hu : TransGen w'.Uses s' u') : u'.id ≠ s'.id := by
  have hself := hacyclic t (node?_mem ht)
  have hid : t'.id = t.id := (node?_id ht').trans (node?_id ht).symm
  cases hs with
  | @kept n s _ hn hs hkept =>
    rw [hkept.id]
    rcases h.of_transGen_uses ht' hkept hu with ⟨u, hsu, hu⟩ | ⟨hrefers, hway⟩
    · rw [hu.id]
      exact acyclic_iff.mp (hacyclic n hn) s u hs hsu
    · have hst := hrefers.transGen_uses ht
      rcases reflTransGen_iff_eq_or_transGen.mp hway with rfl | hway
      · change t'.id ≠ s.id
        rw [hid]
        exact acyclic_iff.mp (hacyclic n hn) s t.reporter hs hst
      rcases h.of_target ht' ht hself hway with ⟨u, htu, hu⟩ | ⟨r', hr', hway⟩
      · rw [hu.id]
        exact acyclic_iff.mp (hacyclic n hn) s u hs (hst.trans htu)
      · rw [hr, List.mem_singleton] at hr'
        intro heq
        exact hshares s.id (.inr ⟨n, hn, s, hs, rfl, hrefers⟩) (heq ▸ hunder u' (hr' ▸ hway))
  | target =>
    change u'.id ≠ t'.id
    rcases h.of_target ht' ht hself hu with ⟨u, htu, hu⟩ | ⟨r', hr', hway⟩
    · rw [hu.id, hid]
      exact hself.id_ne htu
    · rw [hr, List.mem_singleton] at hr'
      intro heq
      refine hshares target (.inl rfl) ?_
      rw [← node?_id ht', ← heq]
      exact hunder u' (hr' ▸ hway)
  | value hway => exact acyclic_iff.mp hvalue s' u' hway hu

end Fits

section Moved

variable (h : w.MovedIn c moved target key e w') (hfolds : w.Folds o e moved)
  (hacyclic : ∀ n ∈ w.nodes, w.Acyclic n.reporter) (ht : target ∈ w.nodeIds) (hout : target ∉ moved)

include h hfolds hacyclic ht hout

/-- Where an orphan shares no id with the target and what refers to it, no way down repeats an id once it
is there. -/
theorem SharesNone.acyclic_nodes (hids : w.nodeIds.Nodup) (hshares : w.SharesNone o target) :
    ∀ n ∈ w'.nodes, w'.Acyclic n.reporter := by
  obtain ⟨t, inputs, htarget, -, ht'⟩ := h.exists_target ht hout
  obtain ⟨k, r, hk, hvalue, -, -⟩ := hfolds.exists_value
  have hfree := not_cites_self hk (hacyclic k (node?_mem hk))
  have hagree := h.agreeOn hfolds hfree (hshares.not_cites ht)
  have hr : r ∈ e.reporters w' target key := by simp [hvalue]
  have hunder (s' : Reporter) (hway : ReflTransGen w'.Uses r s') : w.Under o s'.id :=
    (under_iff hfolds hagree hr).mpr ⟨s', hway, rfl⟩
  intro n' hn'
  refine acyclic_iff.mpr fun s' u' hs hu => ?_
  have hremains := remains_of_uses h htarget ht' hacyclic hvalue hids hn' hs
  exact hshares.id_ne h htarget ht' hacyclic hvalue (acyclic_value hfolds hagree hr hacyclic) hunder
    hremains hu

/-- An orphan that refers to the target refers to itself once it is there. -/
theorem not_cites_target (hacyclic' : ∀ n ∈ w'.nodes, w'.Acyclic n.reporter) :
    ¬ TransGen w.Cites o target := by
  obtain ⟨k, r, hk, -⟩ := hfolds.exists_value
  have hfree := not_cites_self hk (hacyclic k (node?_mem hk))
  obtain ⟨_, _, -, -, ht'⟩ := h.exists_target ht hout
  intro hway
  obtain ⟨y, hy, hyt⟩ := hfolds.exists_ref hout hway.to_reflTransGen
  have hstays (b : String) (hb : ReflTransGen w.Cites y b) : b ∉ moved :=
    (hfolds.outside_of_reflTransGen hfree (hfolds.outside_refs y hy) hb).2
  have hback := h.cites_to_target hyt (hstays y .refl) fun b hb _ => hstays b hb
  exact not_cites_self ht' (hacyclic' _ (node?_mem ht'))
    (.head' (h.cites_target ht hout hy) hback)

omit ht in
/-- What refers to the target is left, where the orphan does not. -/
theorem exists_kept (hnot : ¬ TransGen w.Cites o target) (hn : n ∈ w.nodes)
    (hids : w.nodeIds.Nodup) (hway : ReflTransGen w.Uses n.reporter s) (hrefers : w.Refers s target) :
    ∃ n' ∈ w'.nodes, ∃ s', ReflTransGen w'.Uses n'.reporter s' ∧ Kept moved s s' := by
  -- A node that refers to the target is neither moved nor the target itself.
  have hnode (n : NodeDef) (hn : n ∈ w.nodes) (hrefers : w.Refers n.reporter target) :
      ∃ n' ∈ w'.nodes, ∃ s', ReflTransGen w'.Uses n'.reporter s' ∧ Kept moved n.reporter s' := by
    have hfound := node?_eq_some hids hn
    have hcites := (refers_reporter hfound).mp hrefers
    have hkept : n.id ∉ moved := fun hm => hnot (.trans_right (hfolds.below n.id hm) hcites)
    obtain ⟨inputs, hreset, hn'⟩ := h.exists_node? hkept hfound
    have hne : n.id ≠ target := by
      rintro rfl
      exact (hacyclic n hn).id_ne (hrefers.transGen_uses hfound) rfl
    rw [if_neg hne] at hn'
    exact ⟨_, node?_mem hn', _, .refl, rfl, [], hreset⟩
  induction hway with
  | refl => exact hnode n hn hrefers
  | @tail p s _ hstep ih =>
    obtain ⟨n', hn', p', hway', hp⟩ := ih (hrefers.of_uses (.single hstep))
    obtain ⟨above, hreset⟩ := hp.inputs
    rcases MovedIn.reportersIn w w' moved p.id p.inputs hreset hstep with
      ⟨m, hm, rfl⟩ | ⟨s', hs', hkept⟩
    · exact hnode m hm hrefers
    · refine ⟨n', hn', s', hway'.tail ?_, hkept⟩
      rw [Uses, hp.id]
      exact hs'

/-- Where no way down repeats an id once the orphan is in the target, it shares none. -/
theorem sharesNone_of_acyclic (hids : w.nodeIds.Nodup)
    (hacyclic' : ∀ n ∈ w'.nodes, w'.Acyclic n.reporter) : w.SharesNone o target := by
  intro x hover
  obtain ⟨k, r, hk, hvalue, -, -⟩ := hfolds.exists_value
  have hfree := not_cites_self hk (hacyclic k (node?_mem hk))
  have hnot := not_cites_target h hfolds hacyclic ht hout hacyclic'
  have hagree := h.agreeOn hfolds hfree hnot
  have hr : r ∈ e.reporters w' target key := by simp [hvalue]
  obtain ⟨t', ht', huses⟩ := h.uses_value ht hout hr
  intro hunder
  obtain ⟨u, hu, rfl⟩ := (under_iff hfolds hagree hr).mp hunder
  have hdown : TransGen w'.Uses t'.reporter u := .head' huses hu
  rcases hover with heq | ⟨n, hn, s, hs, heq, hrefers⟩
  · exact (hacyclic' _ (node?_mem ht')).id_ne hdown (heq.trans (node?_id ht').symm)
  · obtain ⟨n', hn', s', hs', hkept⟩ := exists_kept h hfolds hacyclic hout hnot hn hids hs hrefers
    -- Nothing that is moved refers to the target, so what is left still does.
    have hstays (m : String) (hm : m ∈ moved) (hway : ReflTransGen w.Cites m target) : False := by
      rcases reflTransGen_iff_eq_or_transGen.mp ((hfolds.below m hm).trans hway) with rfl | hway
      · exact hout hfolds.root
      · exact hnot hway
    obtain ⟨a, ha, hway⟩ := hrefers
    obtain ⟨above, hreset⟩ := hkept.inputs
    have hleft : a ∈ nodeRefsIn s'.inputs := by
      rw [ResetIn.nodeRefsIn _ _ _ hreset]
      exact List.mem_filter.mpr ⟨ha, by simpa using fun hm => hstays a hm hway⟩
    have hrefers' : w'.Refers s' target := ⟨a, hleft, h.cites_to_target hway
      (fun hm => hstays a hm hway) fun b _ hb hm => hstays b hm hb⟩
    have hway' := (hrefers'.transGen_uses ht').trans hdown
    exact acyclic_iff.mp (hacyclic' n' hn') s' u hs' hway' (heq.symm.trans hkept.id.symm)

/-- Once the orphan is in the target, no way down repeats an id exactly where the orphan shares none with
the target and what refers to it. -/
theorem acyclic_nodes_iff (hids : w.nodeIds.Nodup) :
    (∀ n ∈ w'.nodes, w'.Acyclic n.reporter) ↔ w.SharesNone o target :=
  ⟨sharesNone_of_acyclic h hfolds hacyclic ht hout hids,
    fun hshares => hshares.acyclic_nodes h hfolds hacyclic ht hout hids⟩

end Moved

theorem Folds.inPlace (h : w.Folds o e moved) : w.InPlace (.node o) e := by
  obtain ⟨n, inputs, hn, rfl, hinputs⟩ := h.written
  exact .written hn hinputs

section Known

variable {d d' : Document}

/-- The nodes that are left need no other opcodes and workflows. -/
theorem MovedIn.known (h : w.MovedIn c moved target key e w') (hfolds : w.Folds o e moved)
    (hcalls : ∀ name, (d.workflow? name).isSome → (d'.workflow? name).isSome)
    (hknown : ∀ n ∈ w.nodes, n.Known d c) : ∀ n ∈ w'.nodes, n.Known d' c := by
  intro n' hn'
  obtain ⟨n, hn, -, inputs, hreset, rfl⟩ := h.exists_mem hn'
  have hopcodes := throughout_opcodes fun o => (c.get? o).isSome
  have hnames := throughout_calls fun name => (d'.workflow? name).isSome
  have hown := hknown n hn
  have hleft : ∀ o ∈ opcodesIn inputs, (c.get? o).isSome :=
    hopcodes.resetIn (by simp [opcodes]) n.inputs hreset hown.opcodes
  have hcalled : ∀ name ∈ callsIn inputs, (d'.workflow? name).isSome :=
    hnames.resetIn (by simp [calls]) n.inputs hreset fun name hname => hcalls name (hown.calls name hname)
  have hvalue : ∀ o ∈ e.opcodes, (c.get? o).isSome :=
    hfolds.inPlace.keeps hopcodes (fun m hm => ⟨(hknown m hm).opcode, (hknown m hm).opcodes⟩)
      (by simp [opcodes])
  have hvalueCalls : ∀ name ∈ e.calls, (d'.workflow? name).isSome :=
    hfolds.inPlace.keeps hnames (fun m hm => ⟨trivial, fun name hname =>
      hcalls name ((hknown m hm).calls name hname)⟩) (by simp [calls])
  refine ⟨hown.opcode, ?_, ?_⟩
  · by_cases htarget : n.id = target
    · rw [if_pos htarget]
      exact hopcodes.put hvalue hleft
    · rw [if_neg htarget]
      exact hleft
  · by_cases htarget : n.id = target
    · rw [if_pos htarget]
      exact hnames.put hvalueCalls hcalled
    · rw [if_neg htarget]
      exact hcalled

end Known

section WellFormed

variable {d d' : Document} (h : w.MovedIn c moved target key e w') (hfolds : w.Folds o e moved)
  (hwell : w.WellFormed d c (· ∈ w.nodes)) (hids : w.nodeIds.Nodup)
  (hbranches : ∀ n ∈ w.nodes, n.branchNames.Nodup) (ht : target ∈ w.nodeIds) (hout : target ∉ moved)

include h hfolds hwell hids hbranches ht hout

/-- Where the chain uses the target, it must not be used by the orphan. -/
theorem not_linked_of_used (hwell' : w'.WellFormed d' c (· ∈ w'.nodes)) (hused : w.Used target)
    (hb : TransGen w.Cites o b) : ¬ w.Linked b := by
  have hacyclic (n : NodeDef) (hn : n ∈ w.nodes) := (hwell.sound n hn).acyclic
  obtain ⟨k, r, hk, -⟩ := hfolds.exists_value
  have hfree := not_cites_self hk (hacyclic k (node?_mem hk))
  have hnot := not_cites_target h hfolds hacyclic ht hout fun n hn => (hwell'.sound n hn).acyclic
  obtain ⟨z, hz, -⟩ := id hused
  obtain ⟨start, hs, -⟩ := id hz
  have hlinked (x : String) : w'.Linked x ↔ w.Linked x := h.linked_iff hbranches hfolds hids hs
  have hreached (x : String) : w'.Reached x ↔ w.Reached x := h.reached_iff hbranches hfolds hids hs
  intro hl
  obtain ⟨y, hy, hyb⟩ := hfolds.exists_ref (hfolds.linked_not_mem hl) hb.to_reflTransGen
  have hway := ((h.agreeOn hfolds hfree hnot).reflTransGen_cites (hfolds.outside_refs y hy) hyb).2
  exact Tree.not_linked_of_cites hwell'.apart (h.used_target hfolds hreached hused)
    (h.cites_target ht hout hy) hway ((hlinked b).mpr hl)

/-- Once an orphan is in the target, the workflow has a tree exactly where it fits there. -/
theorem wellFormed_iff (hcalls : ∀ name, (d.workflow? name).isSome → (d'.workflow? name).isSome) :
    w'.WellFormed d' c (· ∈ w'.nodes) ↔ w.FitsIn o target := by
  have hacyclic (n : NodeDef) (hn : n ∈ w.nodes) := (hwell.sound n hn).acyclic
  constructor
  · intro hwell'
    refine ⟨?_, fun hused b => ?_⟩
    · exact sharesNone_of_acyclic h hfolds hacyclic ht hout hids fun n hn => (hwell'.sound n hn).acyclic
    · exact not_linked_of_used h hfolds hwell hids hbranches ht hout hwell' hused
  · intro hfits
    obtain ⟨k, r, hk, -⟩ := hfolds.exists_value
    have hfree := not_cites_self hk (hacyclic k (node?_mem hk))
    have hnot := hfits.shares.not_cites ht
    obtain ⟨start, hs⟩ : ∃ start, w.startId? = some start := by
      refine Option.ne_none_iff_exists'.mp fun hnone => ?_
      have hmem := node?_mem hk
      rw [hwell.start hnone] at hmem
      cases hmem
    have hlinked (x : String) : w'.Linked x ↔ w.Linked x := h.linked_iff hbranches hfolds hids hs
    have hreached (x : String) : w'.Reached x ↔ w.Reached x :=
      h.reached_iff hbranches hfolds hids hs
    have hs' := h.startId? hs (hfolds.linked_not_mem ⟨start, hs, .refl⟩)
    have hknown := h.known hfolds hcalls fun n hn => (hwell.sound n hn).known
    have hacyclic' := hfits.shares.acyclic_nodes h hfolds hacyclic ht hout hids
    refine ⟨h.pointers hbranches hwell.pointers, by simp [hs'], fun n hn => ?_, fun a b ha hab hl => ?_,
      fun n' hn' hr => ?_⟩
    · refine ⟨hknown n hn, fun b hb => ?_, hacyclic' n hn⟩
      have hcites := (cites_iff (node?_eq_some (h.nodup_nodeIds hids) hn)).mpr hb
      have href (m : NodeDef) (hm : m ∈ w.nodes) := (hwell.sound m hm).refs
      rcases h.of_cites hcites with ⟨hold, hkept⟩ | ⟨-, hb⟩
      · obtain ⟨m, hm⟩ := hold.exists_node?
        exact h.mem_nodeIds.mpr ⟨href m (node?_mem hm) b ((cites_iff hm).mp hold), hkept⟩
      · obtain ⟨hkept, a, -, hold⟩ := (hfolds.refs b).mp hb
        obtain ⟨m, hm⟩ := hold.exists_node?
        exact h.mem_nodeIds.mpr ⟨href m (node?_mem hm) b ((cites_iff hm).mp hold), hkept⟩
    · rw [hlinked] at hl
      rcases h.of_used hfolds hreached hfree hnot ha with hused | ⟨hused, hin⟩
      · rcases h.of_cites hab with ⟨hold, -⟩ | ⟨rfl, hb⟩
        · exact hwell.apart a b hused hold hl
        · exact hfits.apart hused b (hfolds.outside_refs b hb).1 hl
      · have hagree := h.agreeOn hfolds hfree hnot
        exact hfits.apart hused b (hin.1.tail ((hagree.cites_iff hin).mp hab)) hl
    · obtain ⟨n, inputs, hn, -, -, hnode⟩ := h.exists_node hn'
      have hid : n'.id = n.id := (node?_id hn).symm
      rw [hreached] at hr
      rw [hid] at hn hr
      have hcut : n.cut c moved = n := hfolds.cut_eq_self (node?_mem hn) hr.linked
      rw [hcut] at hnode
      exact Tree.fits_congr (n := n) (by rw [hnode]; rfl) (by rw [hnode]; rfl) (hwell.branches n hn hr)

end WellFormed

end Workflow

end BlockFlow

import BlockFlow.Proofs.Tree.Values

/-!
Workflows that have some nodes in common. Main statement: where these reference no others, ways down
from them and what their inputs resolve to are the same.
-/

namespace BlockFlow

open Relation InputExpr

namespace Workflow

variable {w w' : Workflow} {P : String → Prop} {r s : Reporter} {owner key a b : String}

/-- No way down meets an id twice exactly when no way down leads from where it has come to the same
id. -/
theorem acyclic_iff : w.Acyclic r ↔
    ∀ s u, ReflTransGen w.Uses r s → TransGen w.Uses s u → u.id ≠ s.id := by
  refine ⟨fun h s u hs hu => (h.of_uses hs).id_ne hu, fun h rs hrs => ?_⟩
  induction rs generalizing r with
  | nil => simp
  | cons s rs ih =>
    obtain ⟨hstep, hrest⟩ := List.isChain_cons_cons.mp hrs
    have hbelow := ih (fun t u ht hu => h t u (.head hstep ht) hu) hrest
    rw [List.map_cons, List.nodup_cons]
    refine ⟨fun hmem => ?_, hbelow⟩
    obtain ⟨u, hu, hid⟩ := List.mem_map.mp hmem
    have hway : TransGen w.Uses r u := by
      have hpairs := ((hrs.imp fun _ _ => TransGen.single).pairwise (R := TransGen w.Uses))
      exact List.rel_of_pairwise_cons hpairs hu
    exact h r u .refl hway hid

/-- The nodes under some ids are the same in both workflows, up to their pointers, and reference no
others. -/
structure AgreeOn (w w' : Workflow) (P : String → Prop) : Prop where
  closed : ∀ a b, P a → w.Cites a b → P b
  same : ∀ a, P a → (w'.node? a).map NodeDef.reporter = (w.node? a).map NodeDef.reporter

namespace AgreeOn

variable (h : AgreeOn w w' P)

include h

theorem cites_iff (ha : P a) : w'.Cites a b ↔ w.Cites a b := by
  have hrefs (v : Workflow) : v.reporterRefs a =
      ((v.node? a).map NodeDef.reporter).elim [] fun r => nodeRefsIn r.inputs := by
    rw [Workflow.reporterRefs]
    cases v.node? a <;> rfl
  rw [Cites, Cites, hrefs, hrefs, h.same a ha]

theorem symm : AgreeOn w' w P where
  closed a b ha hab := h.closed a b ha ((h.cites_iff ha).mp hab)
  same a ha := (h.same a ha).symm

/-- References lead on to nodes that agree. -/
theorem reflTransGen_cites (ha : P a) (hway : ReflTransGen w.Cites a b) :
    P b ∧ ReflTransGen w'.Cites a b := by
  induction hway with
  | refl => exact ⟨ha, .refl⟩
  | tail _ hstep ih =>
    obtain ⟨hb, hway⟩ := ih
    exact ⟨h.closed _ _ hb hstep, hway.tail ((h.cites_iff hb).mpr hstep)⟩

omit h

mutual

/-- A value that references nodes that agree consists of the same reporters. -/
theorem reporters (h : AgreeOn w w' P) (owner key : String) : (e : InputExpr) →
    (∀ b ∈ e.nodeRefs, P b) → e.reporters w' owner key = e.reporters w owner key
  | .literal _, _ | .variable _, _ | .inline _ _ _, _ => rfl
  | .node id, he => by
    have hid := h.same id (he id (by simp [nodeRefs]))
    rw [InputExpr.reporters, InputExpr.reporters, ← Option.toList_map, hid, Option.toList_map]
  | .call _ args, he => reportersIn h owner args he

theorem reportersIn (h : AgreeOn w w' P) (owner : String) : (inputs : Inputs) →
    (∀ b ∈ nodeRefsIn inputs, P b) →
      InputExpr.reportersIn w' owner inputs = InputExpr.reportersIn w owner inputs
  | [], _ => rfl
  | (key, e) :: rest, hinputs => by
    obtain ⟨he, hrest⟩ := List.forall_mem_append.mp hinputs
    rw [InputExpr.reportersIn, InputExpr.reportersIn, reporters h owner key e he,
      reportersIn h owner rest hrest]

end

mutual

/-- The reporters of such a value reference nodes that agree. -/
theorem refs_of_reporters (h : AgreeOn w w' P) (owner key : String) : (e : InputExpr) →
    (∀ b ∈ e.nodeRefs, P b) → ∀ s ∈ e.reporters w owner key, ∀ b ∈ nodeRefsIn s.inputs, P b
  | .literal _, _, _, hs | .variable _, _, _, hs => by cases hs
  | .node id, he, s, hs => by
    obtain ⟨n, hn, rfl⟩ := List.mem_map.mp hs
    have hcites (b : String) : b ∈ nodeRefsIn n.inputs ↔ w.Cites id b :=
      (Workflow.cites_iff (Option.mem_toList.mp hn)).symm
    exact fun b hb => h.closed id b (he id (by simp [nodeRefs])) ((hcites b).mp hb)
  | .inline _ _ inputs, he, s, hs => by
    obtain rfl := List.mem_singleton.mp hs
    exact he
  | .call _ args, he, s, hs => refs_of_reportersIn h owner args he s hs

theorem refs_of_reportersIn (h : AgreeOn w w' P) (owner : String) : (inputs : Inputs) →
    (∀ b ∈ nodeRefsIn inputs, P b) →
      ∀ s ∈ InputExpr.reportersIn w owner inputs, ∀ b ∈ nodeRefsIn s.inputs, P b
  | [], _, _, hs => by cases hs
  | (key, e) :: rest, hinputs, s, hs => by
    obtain ⟨he, hrest⟩ := List.forall_mem_append.mp hinputs
    rcases List.mem_append.mp hs with hs | hs
    · exact refs_of_reporters h owner key e he s hs
    · exact refs_of_reportersIn h owner rest hrest s hs

end

mutual

/-- A value that references nodes that agree resolves to the same. -/
theorem resolves (h : AgreeOn w w' P) {owner key : String} {e : InputExpr} {v : Resolved} :
    w.Resolves owner key e v → (∀ b ∈ e.nodeRefs, P b) → w'.Resolves owner key e v
  | .literal _ _ v, _ => .literal _ _ v
  | .variable _ _ name, _ => .variable _ _ name
  | @Resolves.node _ _ _ id n _ hn hin, he => by
    have hid : P id := he id (by simp [nodeRefs])
    have hsame := h.same id hid
    rw [hn] at hsame
    obtain ⟨n', hn', hreporter⟩ := Option.map_eq_some_iff.mp hsame
    obtain ⟨hown, hopcode, hinputs⟩ := Reporter.mk.inj hreporter
    have hslots := resolvesIn h hin fun b hb => h.closed id b hid ((Workflow.cites_iff hn).mpr hb)
    rw [← hopcode, ← hown]
    rw [← hown, ← hinputs] at hslots
    exact .node _ _ hn' hslots
  | .inline _ _ opcode hin, he => .inline _ _ opcode (resolvesIn h hin he)
  | .call _ _ name hin, he => .call _ _ name (resolvesIn h hin he)

theorem resolvesIn (h : AgreeOn w w' P) {owner : String} {inputs : Inputs} {slots : Slots} :
    w.ResolvesIn owner inputs slots → (∀ b ∈ nodeRefsIn inputs, P b) →
      w'.ResolvesIn owner inputs slots
  | .nil _, _ => .nil _
  | .cons he hin, hrefs => by
    obtain ⟨hvalue, hrest⟩ := List.forall_mem_append.mp hrefs
    exact .cons (resolves h he hvalue) (resolvesIn h hin hrest)

end

section Ways

variable (h : AgreeOn w w' P) (hr : ∀ b ∈ nodeRefsIn r.inputs, P b)

include h hr

theorem uses (hs : w.Uses r s) : (∀ b ∈ nodeRefsIn s.inputs, P b) ∧ w'.Uses r s := by
  refine ⟨refs_of_reportersIn h r.id r.inputs hr s hs, ?_⟩
  rw [Uses, reportersIn h r.id r.inputs hr]
  exact hs

/-- Ways down from a reporter that references nodes that agree are the same. -/
theorem reflTransGen_uses (hway : ReflTransGen w.Uses r s) :
    (∀ b ∈ nodeRefsIn s.inputs, P b) ∧ ReflTransGen w'.Uses r s := by
  induction hway with
  | refl => exact ⟨hr, .refl⟩
  | tail _ hstep ih =>
    obtain ⟨hs, hway⟩ := ih
    obtain ⟨ht, hstep⟩ := h.uses hs hstep
    exact ⟨ht, hway.tail hstep⟩

theorem transGen_uses (hway : TransGen w.Uses r s) : TransGen w'.Uses r s := by
  obtain ⟨t, hstep, hrest⟩ := TransGen.head'_iff.mp hway
  obtain ⟨ht, hstep⟩ := h.uses hr hstep
  exact .head' hstep (h.reflTransGen_uses ht hrest).2

theorem acyclic (hacyclic : w.Acyclic r) : w'.Acyclic r := by
  refine acyclic_iff.mpr fun s u hs hu => ?_
  obtain ⟨hrefs, hs⟩ := h.symm.reflTransGen_uses hr hs
  exact acyclic_iff.mp hacyclic s u hs (h.symm.transGen_uses hrefs hu)

end Ways

end AgreeOn

end Workflow

end BlockFlow

import Mathlib.Data.List.Flatten
import BlockFlow.Edit.Inlining
import BlockFlow.Proofs.Tree.Containers
import BlockFlow.Proofs.Tree.Orphans
import BlockFlow.Proofs.Tree.WellFormed

/-!
Writing an orphan in place. Main statement: the value that is written resolves to what the reference
resolves to, and the orphans taken in are gone from it and of use to nothing else.
-/

namespace BlockFlow

open Relation InputExpr

namespace Workflow

variable {w : Workflow} {orphans taken taken' refs refs' more more' : List String}
  {take : String → List String → InputExpr × List String} {id x : String}

/-- What taking in orphans makes of the references `refs`: those taken in, `new`, have left, and
their own references are there in their place. -/
structure TakesIn (w : Workflow) (orphans refs taken : List String) (refs' taken' : List String)
    (new : List String) : Prop where
  grown : taken' = taken ++ new
  counts : ∀ x, refs'.count x + new.count x =
    refs.count x + (new.flatMap w.reporterRefs).count x
  once : taken.Nodup → taken'.Nodup
  orphans : ∀ x ∈ new, x ∈ orphans ∧ w.useCount x = 1
  below : ∀ x ∈ new, ∃ r ∈ refs, ReflTransGen w.Cites r x

theorem takesIn_nil : TakesIn w orphans refs taken refs taken [] := by
  refine ⟨by simp, by simp, id, by simp, by simp⟩

theorem TakesIn.append {τ new new' : List String} (h : TakesIn w orphans refs taken refs' τ new)
    (k : TakesIn w orphans more τ more' taken' new') :
    TakesIn w orphans (refs ++ more) taken (refs' ++ more') taken' (new ++ new') := by
  constructor
  case grown => rw [k.grown, h.grown, List.append_assoc]
  case counts =>
    intro x
    have hfirst := h.counts x
    have hsecond := k.counts x
    simp only [List.flatMap_append, List.count_append]
    omega
  case once => exact fun hd => k.once (h.once hd)
  case orphans => exact List.forall_mem_append.mpr ⟨h.orphans, k.orphans⟩
  case below =>
    rw [List.forall_mem_append]
    constructor
    · intro x hx
      obtain ⟨r, hr, hway⟩ := h.below x hx
      exact ⟨r, List.mem_append_left _ hr, hway⟩
    · intro x hx
      obtain ⟨r, hr, hway⟩ := k.below x hx
      exact ⟨r, List.mem_append_right _ hr, hway⟩

/-- Takes in an orphan that only one reference leads to. -/
def Taking (w : Workflow) (orphans : List String)
    (take : String → List String → InputExpr × List String) : Prop :=
  ∀ id taken, id ∈ orphans → w.useCount id = 1 → id ∉ taken →
    ∃ new, TakesIn w orphans [id] taken (take id taken).1.nodeRefs (take id taken).2 new

mutual

/-- By recursion on the value; what is behind a reference is left to `take`. -/
theorem takesIn_inlineValue (ht : Taking w orphans take) : ∀ (e : InputExpr) (taken : List String),
    ∃ new, TakesIn w orphans e.nodeRefs taken (w.inlineValue orphans take e taken).1.nodeRefs
      (w.inlineValue orphans take e taken).2 new
  | .literal _, taken => by
    simp only [inlineValue]
    exact ⟨[], takesIn_nil⟩
  | .variable _, taken => by
    simp only [inlineValue]
    exact ⟨[], takesIn_nil⟩
  | .node id, taken => by
    rw [inlineValue]
    split
    case isTrue hfree =>
      simp only [Bool.and_eq_true, Bool.not_eq_true', List.contains_eq_mem, decide_eq_true_eq,
        decide_eq_false_iff_not] at hfree
      rw [nodeRefs]
      exact ht id taken hfree.1.1 hfree.2 hfree.1.2
    case isFalse => exact ⟨[], takesIn_nil⟩
  | .inline _ _ inputs, taken => by
    rw [inlineValue, nodeRefs]
    exact takesIn_inlineEntries ht inputs taken
  | .call _ args, taken => by
    rw [inlineValue, nodeRefs]
    exact takesIn_inlineEntries ht args taken

theorem takesIn_inlineEntries (ht : Taking w orphans take) :
    ∀ (inputs : Inputs) (taken : List String), ∃ new, TakesIn w orphans (nodeRefsIn inputs) taken
      (nodeRefsIn (w.inlineEntries orphans take inputs taken).1)
      (w.inlineEntries orphans take inputs taken).2 new
  | [], taken => by
    rw [inlineEntries]
    exact ⟨[], takesIn_nil⟩
  | (key, e) :: rest, taken => by
    obtain ⟨new, hvalue⟩ := takesIn_inlineValue ht e taken
    obtain ⟨new', hrest⟩ :=
      takesIn_inlineEntries ht rest (w.inlineValue orphans take e taken).2
    rw [inlineEntries, nodeRefsIn, nodeRefsIn]
    exact ⟨new ++ new', hvalue.append hrest⟩

end

/-- What a node takes in with its inputs. -/
theorem exists_inlineOrphan {n : NodeDef} {jumps : Nat} (hn : w.node? id = some n)
    (ht : Taking w orphans (w.inlineOrphan orphans jumps)) (taken : List String) :
    ∃ new, TakesIn w orphans (w.reporterRefs id) (taken ++ [id])
      (w.inlineOrphan orphans (jumps + 1) id taken).1.nodeRefs
      (w.inlineOrphan orphans (jumps + 1) id taken).2 new := by
  have hrefs : w.reporterRefs id = nodeRefsIn n.inputs := by rw [reporterRefs, hn]
  rw [hrefs, inlineOrphan, hn]
  exact takesIn_inlineEntries ht n.inputs (taken ++ [id])

/-- An orphan is taken in with the orphans that only it uses. -/
theorem taking_inlineOrphan (ho : orphans ⊆ w.nodeIds) (jumps : Nat) :
    Taking w orphans (w.inlineOrphan orphans jumps) := by
  induction jumps with
  | zero =>
    intro id taken _ _ _
    exact ⟨[], takesIn_nil⟩
  | succ jumps ih =>
    intro id taken hid huse hnew
    obtain ⟨n, hn⟩ := exists_node? (ho hid)
    obtain ⟨new, h⟩ := exists_inlineOrphan hn ih taken
    refine ⟨id :: new, ?_, ?_, ?_, ?_, ?_⟩
    · rw [h.grown, List.append_assoc, List.singleton_append]
    · intro x
      have hcount := h.counts x
      simp only [List.flatMap_cons, List.count_append, List.count_cons, List.count_nil]
      omega
    · intro hd
      apply h.once
      exact List.nodup_append.mpr ⟨hd, List.nodup_singleton id, by
        intro a ha b hb hab
        rw [List.mem_singleton] at hb
        exact hnew (hb ▸ hab ▸ ha)⟩
    · exact List.forall_mem_cons.mpr ⟨⟨hid, huse⟩, h.orphans⟩
    · rw [List.forall_mem_cons]
      refine ⟨⟨id, List.mem_singleton_self id, .refl⟩, ?_⟩
      intro x hx
      obtain ⟨r, hr, hway⟩ := h.below x hx
      exact ⟨id, List.mem_singleton_self id, .head hr hway⟩

section Jumps

variable {take' : String → List String → InputExpr × List String}

mutual

/-- Only what can still be taken in matters. -/
theorem inlineValue_congr (ht : Taking w orphans take)
    (hsame : ∀ id more, taken ⊆ more → id ∈ orphans → id ∉ more → take id more = take' id more) :
    ∀ (e : InputExpr) (more : List String), taken ⊆ more →
      w.inlineValue orphans take e more = w.inlineValue orphans take' e more
  | .literal _, _, _ => by simp only [inlineValue]
  | .variable _, _, _ => by simp only [inlineValue]
  | .node id, more, hsub => by
    rw [inlineValue, inlineValue]
    split
    case isTrue hfree =>
      simp only [Bool.and_eq_true, Bool.not_eq_true', List.contains_eq_mem, decide_eq_true_eq,
        decide_eq_false_iff_not] at hfree
      exact hsame id more hsub hfree.1.1 hfree.1.2
    case isFalse => rfl
  | .inline _ _ inputs, more, hsub => by
    rw [inlineValue, inlineValue, inlineEntries_congr ht hsame inputs more hsub]
  | .call _ args, more, hsub => by
    rw [inlineValue, inlineValue, inlineEntries_congr ht hsame args more hsub]

theorem inlineEntries_congr (ht : Taking w orphans take)
    (hsame : ∀ id more, taken ⊆ more → id ∈ orphans → id ∉ more → take id more = take' id more) :
    ∀ (inputs : Inputs) (more : List String), taken ⊆ more →
      w.inlineEntries orphans take inputs more = w.inlineEntries orphans take' inputs more
  | [], _, _ => by rw [inlineEntries, inlineEntries]
  | (key, e) :: rest, more, hsub => by
    obtain ⟨new, hvalue⟩ := takesIn_inlineValue ht e more
    have hgrown : taken ⊆ (w.inlineValue orphans take e more).2 := by
      rw [hvalue.grown]
      exact List.Subset.trans hsub (List.subset_append_left more new)
    have hhead := inlineValue_congr ht hsame e more hsub
    have htail := inlineEntries_congr ht hsame rest _ hgrown
    simp only [inlineEntries, ← hhead, htail]

end

/-- More jumps than there are nodes left to take in make no difference. -/
theorem inlineOrphan_jumps (ho : orphans ⊆ w.nodeIds) {j k : Nat}
    (hj : (w.nodeIds.toFinset \ taken.toFinset).card < j)
    (hk : (w.nodeIds.toFinset \ taken.toFinset).card < k) (hid : id ∈ w.nodeIds)
    (hnew : id ∉ taken) :
    w.inlineOrphan orphans j id taken = w.inlineOrphan orphans k id taken := by
  induction j generalizing id taken k with
  | zero => exact absurd hj (Nat.not_lt_zero _)
  | succ j ih =>
    obtain ⟨k, rfl⟩ : ∃ i, k = i + 1 := Nat.exists_eq_succ_of_ne_zero (by omega)
    have hless := Reach.unseen_lt (List.mem_singleton_self id) hid hnew
    rw [inlineOrphan, inlineOrphan]
    cases w.node? id with
    | none => rfl
    | some n =>
      have hsame : ∀ x more, taken ++ [id] ⊆ more → x ∈ orphans → x ∉ more →
          w.inlineOrphan orphans j x more = w.inlineOrphan orphans k x more := by
        intro x more hsub hx hout
        have hleft : (w.nodeIds.toFinset \ more.toFinset).card ≤
            (w.nodeIds.toFinset \ (taken ++ [id]).toFinset).card := by
          apply Finset.card_le_card
          apply Finset.sdiff_subset_sdiff (Finset.Subset.refl _)
          intro y hy
          exact List.mem_toFinset.mpr (hsub (List.mem_toFinset.mp hy))
        exact ih (by omega) (by omega) (ho hx) hout
      have hentries := inlineEntries_congr (taking_inlineOrphan ho j) hsame n.inputs (taken ++ [id])
        (List.Subset.refl _)
      simp only [hentries]

end Jumps

theorem count_refs_le {nodes : List String} (hd : nodes.Nodup) (hsub : nodes ⊆ w.nodeIds)
    (x : String) : (nodes.flatMap w.reporterRefs).count x ≤ w.useCount x := by
  have hall : w.allRefs = w.nodeIds.flatMap w.reporterRefs := by
    rw [nodeIds, List.flatMap_map, allRefs]
  obtain ⟨some, hperm, hsublist⟩ := hd.subperm hsub
  rw [useCount, hall, ← (hperm.flatMap_right w.reporterRefs).count_eq x]
  exact (hsublist.flatMap w.reporterRefs).count_le x

/-- References that lead from one node to another are a way down. -/
theorem uses_of_transGen_cites {a b : String} {m n : NodeDef} (hm : w.node? a = some m)
    (hn : w.node? b = some n) (h : TransGen w.Cites a b) :
    TransGen w.Uses m.reporter n.reporter := by
  induction h using TransGen.head_induction_on generalizing m with
  | single hcites => exact uses_of_mem_nodeRefs ((cites_iff hm).mp hcites) hn
  | head hcites hway ih =>
    obtain ⟨c, hnext, -⟩ := TransGen.head'_iff.mp hway
    obtain ⟨k, hk⟩ := hnext.exists_node?
    exact .trans (uses_of_mem_nodeRefs ((cites_iff hm).mp hcites) hk) (ih hk)

/-- No references lead back to a node that is sound. -/
theorem not_cites_self {o : String} {n : NodeDef} (hn : w.node? o = some n)
    (h : w.Acyclic n.reporter) : ¬ TransGen w.Cites o o := by
  intro hway
  exact h.id_ne (uses_of_transGen_cites hn hn hway) rfl

/-- The value `e` is that of the orphan `o` written in place, and the orphans in `moved` go into it:
each once, none of them left as a reference, and none but `o` used by what stays. -/
structure WrittenOut (w : Workflow) (orphans : List String) (o : String) (e : InputExpr)
    (moved : List String) : Prop where
  once : moved.Nodup
  orphans : ∀ m ∈ moved, m = o ∨ m ∈ orphans
  gone : ∀ m ∈ moved, m ∉ e.nodeRefs
  unshared : ∀ m ∈ moved, m ≠ o → ∀ a, w.Cites a m → a ∈ moved

theorem writtenOut_inlineOrphan {o : String} (hsub : orphans ⊆ w.nodeIds) (ho : o ∈ w.nodeIds)
    (hfree : ¬ TransGen w.Cites o o) (jumps : Nat) :
    w.WrittenOut orphans o (w.inlineOrphan orphans (jumps + 1) o []).1
      (w.inlineOrphan orphans (jumps + 1) o []).2 := by
  obtain ⟨n, hn⟩ := exists_node? ho
  obtain ⟨new, h⟩ := exists_inlineOrphan hn (taking_inlineOrphan hsub jumps) []
  rw [List.nil_append] at h
  have hmoved := h.grown
  rw [List.singleton_append] at hmoved
  have hd := h.once (List.nodup_singleton o)
  rw [hmoved] at hd ⊢
  have hin : o :: new ⊆ w.nodeIds := by
    intro x hx
    rcases List.mem_cons.mp hx with rfl | hx
    · exact ho
    · exact hsub (h.orphans x hx).1
  have hcounts (x : String) : (w.inlineOrphan orphans (jumps + 1) o []).1.nodeRefs.count x +
      new.count x = ((o :: new).flatMap w.reporterRefs).count x := by
    rw [h.counts x, List.flatMap_cons, List.count_append]
  refine ⟨hd, ?_, ?_, ?_⟩
  · intro m hm
    exact (List.mem_cons.mp hm).imp_right fun hx => (h.orphans m hx).1
  · intro m hm hleft
    have hused := List.count_pos_iff.mpr hleft
    rcases List.mem_cons.mp hm with rfl | hm
    · -- A reference to the orphan itself is left in what it leads to, and closes a cycle.
      have hpos : 0 < ((m :: new).flatMap w.reporterRefs).count m := by
        rw [← hcounts m]
        omega
      obtain ⟨a, ha, hcites⟩ := List.mem_flatMap.mp (List.count_pos_iff.mp hpos)
      rcases List.mem_cons.mp ha with rfl | ha
      · exact hfree (.single hcites)
      · obtain ⟨r, hr, hway⟩ := h.below a ha
        exact hfree (.trans (.head' hr hway) (.single hcites))
    · have hle := count_refs_le hd hin m
      rw [(h.orphans m hm).2, ← hcounts m] at hle
      have hnew := List.count_pos_iff.mpr hm
      omega
  · intro m hm hne a hcites
    have hm := (List.mem_cons.mp hm).resolve_left hne
    by_contra hout
    have hmore : a :: o :: new ⊆ w.nodeIds := List.cons_subset.mpr ⟨hcites.mem_nodeIds, hin⟩
    have hle := count_refs_le (List.nodup_cons.mpr ⟨hout, hd⟩) hmore m
    rw [(h.orphans m hm).2, List.flatMap_cons, List.count_append, ← hcounts m] at hle
    have hnew := List.count_pos_iff.mpr hm
    have hciting := List.count_pos_iff.mpr hcites
    omega

end Workflow

namespace Tree

section Resolving

variable {s : Scope} {inChain : Bool} {follow : List String → NodeDef → Placing Slots}
  {above : List String}

/-- A reporter written in place under the id of a node resolves outside the chain to what a
reference to that node resolves to. -/
theorem resolve_inline_eq_node {id : String} {n : NodeDef} {inputs : Inputs} (owner key : String)
    (hn : s.workflow.node? id = some n)
    (hinputs : follow (id :: above) n = resolveAll s false follow (id :: above) id inputs) :
    resolve s false follow above owner key (.inline (some id) n.opcode inputs) =
      resolve s false follow above owner key (.node id) := by
  have hid := Workflow.node?_id hn
  rw [resolve, resolve]
  by_cases ha : id ∈ above
  · simp only [Option.getD_some, List.contains_iff_mem, ha, if_true]
    rfl
  · simp only [Option.getD_some, List.contains_iff_mem, ha, if_false, hn, hid, hinputs,
      Bool.false_and, Bool.false_eq_true]

end Resolving

section Orphans

variable {s : Scope} {orphans : List String} {take : String → List String → InputExpr × List String}

/-- Resolves the value of an input outside the chain, as the tree does for the inputs of orphans. -/
def resolveFree (s : Scope) (above : List String) (owner key : String) (e : InputExpr) :
    Placing Resolved :=
  resolve s false (following s false s.workflow.nodes.length) above owner key e

/-- What is written in place resolves to what the reference resolves to. -/
def Keeping (s : Scope) (take : String → List String → InputExpr × List String) : Prop :=
  ∀ id taken above owner key,
    resolveFree s above owner key (take id taken).1 = resolveFree s above owner key (.node id)

mutual

theorem resolve_inlineValue (ht : Keeping s take) (above : List String) (owner key : String) :
    ∀ (e : InputExpr) (taken : List String),
    resolveFree s above owner key (s.workflow.inlineValue orphans take e taken).1 =
      resolveFree s above owner key e
  | .literal _, _ => by simp only [Workflow.inlineValue]
  | .variable _, _ => by simp only [Workflow.inlineValue]
  | .node id, taken => by
    rw [Workflow.inlineValue]
    split
    case isTrue => exact ht id taken above owner key
    case isFalse => rfl
  | .inline _ _ inputs, taken => by
    rw [Workflow.inlineValue, resolveFree, resolveFree, resolve, resolve,
      resolve_inlineEntries ht _ _ inputs taken]
  | .call _ args, taken => by
    rw [Workflow.inlineValue, resolveFree, resolveFree, resolve, resolve,
      resolve_inlineEntries ht _ _ args taken]

theorem resolve_inlineEntries (ht : Keeping s take) (above : List String) (owner : String) :
    ∀ (inputs : Inputs) (taken : List String),
    resolveAll s false (following s false s.workflow.nodes.length) above owner
        (s.workflow.inlineEntries orphans take inputs taken).1 =
      resolveAll s false (following s false s.workflow.nodes.length) above owner inputs
  | [], _ => by rw [Workflow.inlineEntries]
  | (key, e) :: rest, taken => by
    have hvalue : resolveFree s above owner key (s.workflow.inlineValue orphans take e taken).1 =
        resolveFree s above owner key e := resolve_inlineValue ht above owner key e taken
    rw [resolveFree, resolveFree] at hvalue
    rw [Workflow.inlineEntries, resolveAll, resolveAll, hvalue,
      resolve_inlineEntries ht above owner rest]

end

/-- An orphan written in place resolves to what a reference to it resolves to. -/
theorem keeping_inlineOrphan (jumps : Nat) :
    Keeping s (s.workflow.inlineOrphan orphans jumps) := by
  induction jumps with
  | zero =>
    intro id taken above owner key
    rfl
  | succ jumps ih =>
    intro id taken above owner key
    rw [Workflow.inlineOrphan]
    cases hn : s.workflow.node? id with
    | none => rfl
    | some n =>
      by_cases ha : id ∈ above
      · simp only [resolveFree, resolve, Option.getD_some, List.contains_iff_mem, ha, if_true]
        rfl
      · apply resolve_inline_eq_node owner key hn
        have hid := Workflow.node?_id hn
        rw [resolve_inlineEntries ih, following_all ha hn, hid]

end Orphans

section Document

variable {d : Document} {c : Catalog} {w : Workflow} {t : WorkflowTree} {g : LinkGraph} {o : String}

theorem exists_resolveFree {s : Scope} {n : NodeDef} (hn : s.workflow.node? o = some n)
    (h : Placeable s false n) (owner key : String) (σ : List String) :
    ∃ v σ', (resolveFree s [] owner key (.node o)).run σ = .ok (v, σ') := by
  have hid := Workflow.node?_id hn
  have hdown : s.workflow.Unrepeated [o] n.reporter := by
    rw [← hid]
    exact h.unrepeated
  have hdecides : Decides s false s.workflow.nodes.length (following s false _) :=
    decides_following s.workflow.nodes.length
  obtain ⟨slots, σ', hslots⟩ :=
    (hdecides [] o n σ (room_all []) List.not_mem_nil hn).mpr ⟨h.supplied, hdown⟩
  refine ⟨_, σ', run_resolve_node.mpr ⟨List.not_mem_nil, by simp, n, hn, h.opcode, slots, ?_, rfl⟩⟩
  simpa using hslots

/-- The value `e` means what a reference to the orphan `o` means, outside the chain, and the orphans
in `moved` go into it. -/
structure Inlined (s : Scope) (t : WorkflowTree) (orphans : List String) (o : String)
    (e : InputExpr) (moved : List String) : Prop where
  same : ∀ above owner key,
    resolveFree s above owner key e = resolveFree s above owner key (.node o)
  resolves : ∀ owner key σ, ∃ v σ', (resolveFree s [] owner key e).run σ = .ok (v, σ')
  shown : moved ⊆ t.orphanIds
  written : s.workflow.WrittenOut orphans o e moved

theorem inlined_ofWorkflow (hd : w.nodeIds.Nodup) (h : ofWorkflow d c w = .ok t)
    (hg : LinkGraph.build w = .ok g) (ho : o ∈ t.orphanIds) : ∃ e moved,
    (∀ jumps, w.nodes.length < jumps → w.inlineOrphan (w.orphanIds g) jumps o [] = (e, moved)) ∧
      Inlined (scopeOf d c w) t (w.orphanIds g) o e moved := by
  have hwell := wellFormed_of_ofWorkflow h
  have hsound (b : String) (m : NodeDef) (hm : w.node? b = some m) : m.Sound d c w :=
    hwell.sound m (Workflow.shown_of_node? hm)
  have hparts := partitions_ofWorkflow hd h
  have hmem : o ∈ w.nodeIds := ((hparts.orphans o).mp ho).1
  obtain ⟨n, hn⟩ := Workflow.exists_node? hmem
  have hplace : Placeable (scopeOf d c w) false n :=
    placeable_of_sound (hsound o n hn) hsound (by simp)
  have hsub : w.orphanIds g ⊆ w.nodeIds := fun x hx => ((Workflow.mem_orphanIds hg).mp hx).1
  have hfree := Workflow.not_cites_self hn (hsound o n hn).acyclic
  have hwritten := Workflow.writtenOut_inlineOrphan hsub hmem hfree w.nodes.length
  have hsame (above : List String) (owner key : String) :
      resolveFree (scopeOf d c w) above owner key
        (w.inlineOrphan (w.orphanIds g) (w.nodes.length + 1) o []).1 =
      resolveFree (scopeOf d c w) above owner key (.node o) :=
    keeping_inlineOrphan (w.nodes.length + 1) o [] above owner key
  have hroom (jumps : Nat) (hjumps : w.nodes.length < jumps) :
      (w.nodeIds.toFinset \ ([] : List String).toFinset).card < jumps :=
    Nat.lt_of_le_of_lt (room_all (s := scopeOf d c w) []) hjumps
  refine ⟨_, _, ?_, hsame, ?_, ?_, hwritten⟩
  · intro jumps hjumps
    exact Workflow.inlineOrphan_jumps hsub (hroom jumps hjumps) (hroom _ (Nat.lt_succ_self _)) hmem
      List.not_mem_nil
  · intro owner key σ
    rw [hsame]
    exact exists_resolveFree hn hplace owner key σ
  · intro m hm
    rcases hwritten.orphans m hm with rfl | hm
    · exact ho
    · exact (orphansAgree_of_partitions hd hg hparts).shown hm

end Document

/-- Writing an orphan in place, with the orphans that only it uses, keeps what it resolves to. -/
theorem inlined_ofDocument (d : Document) (c : Catalog) (t : Tree)
    (hd : ∀ w ∈ d.workflows, w.nodeIds.Nodup) (h : Tree.ofDocument d c = .ok t) :
    List.Forall₂ (fun w t => ∃ g, LinkGraph.build w = .ok g ∧ ∀ o ∈ t.orphanIds, ∃ e moved,
      (∀ jumps, w.nodes.length < jumps → w.inlineOrphan (w.orphanIds g) jumps o [] = (e, moved)) ∧
        Inlined (scopeOf d c w) t (w.orphanIds g) o e moved)
      d.workflows t.workflows := by
  have hall := (List.forall₂_and_left _ _).mpr ⟨hd, trees_ofDocument h⟩
  refine hall.imp ?_
  intro w t hw
  obtain ⟨hids, ht⟩ := hw
  obtain ⟨g, hg⟩ := exists_build_of_ofWorkflow ht
  exact ⟨g, hg, fun o ho => inlined_ofWorkflow hids ht hg ho⟩

/-- The orphan `a` uses `b` and `c`, and `b` uses `c` as well. -/
def nestedOrphans : Workflow :=
  ⟨"m", {}, [],
    [⟨"start", startOpcode, [], none, []⟩,
      ⟨"a", "pick", [("IN", .inline none "pick" [("IN", .node "b")]), ("BY", .node "c")], none, []⟩,
      ⟨"b", "pick", [("IN", .node "c")], none, []⟩,
      ⟨"c", "pick", [], none, []⟩]⟩

example : (nestedOrphans.inlineOrphan ["a", "b", "c"] 5 "a" []).2 = ["a", "b"] := by decide

theorem nestedOrphans_inlined : ∃ t, Tree.ofDocument ⟨[nestedOrphans]⟩ pickCatalog = .ok t ∧
    t.workflows.map (·.orphanIds) = [["a", "b", "c"]] ∧
    List.Forall₂ (fun w t => ∃ g, LinkGraph.build w = .ok g ∧ ∀ o ∈ t.orphanIds, ∃ e moved,
      (∀ jumps, w.nodes.length < jumps → w.inlineOrphan (w.orphanIds g) jumps o [] = (e, moved)) ∧
        Inlined (scopeOf ⟨[nestedOrphans]⟩ pickCatalog w) t (w.orphanIds g) o e moved)
      [nestedOrphans] t.workflows :=
  ⟨_, rfl, rfl, inlined_ofDocument ⟨[nestedOrphans]⟩ pickCatalog _ (by decide) rfl⟩

end Tree

end BlockFlow

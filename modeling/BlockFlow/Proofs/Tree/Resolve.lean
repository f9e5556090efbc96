import BlockFlow.Proofs.Reporters
import BlockFlow.Tree.Build

/-!
When the inputs of a node can be resolved, and which nodes count as placed then. Main statement: it
takes known opcodes and workflows, references to nodes that may be used as reporters, and no way
down that repeats an id; the jumps allowed are never too few.
-/

namespace BlockFlow

open Relation InputExpr Outcome

/-- The opcodes of a node and of the reporters in its inputs are in the catalog, and what it calls
are workflows of the document. -/
structure NodeDef.Known (d : Document) (c : Catalog) (n : NodeDef) : Prop where
  opcode : (c.get? n.opcode).isSome
  opcodes : ∀ o ∈ opcodesIn n.inputs, (c.get? o).isSome
  calls : ∀ name ∈ callsIn n.inputs, (d.workflow? name).isSome

namespace Tree

variable {s : Scope} {inChain : Bool} {follow : List String → NodeDef → Placing Slots}
  {above σ σ' : List String} {owner key id : String}

theorem run_category {opcode : String} {k : Category} :
    (category s id opcode).run σ = .ok (k, σ') ↔
      (∃ spec, s.catalog.get? opcode = some spec ∧ k = spec.category) ∧ σ' = σ := by
  unfold category
  cases s.catalog.get? opcode with
  | some spec => simp only [run_pure_eq_ok, Option.some.injEq, exists_eq_left']
  | none => simp only [run_throw_eq_ok, reduceCtorEq, false_and, exists_false]

theorem run_place {u : Unit} : (place id).run σ = .ok (u, σ') ↔ σ' = id :: σ := by
  simp [place, pure, Except.pure, eq_comm]

/-- A reporter has a known opcode and inputs that can be resolved. -/
theorem run_reporter {opcode : String} {inputs : Placing Slots} {v : Resolved} :
    (do
      let _ ← category s id opcode
      let slots ← inputs
      pure (.reporter opcode id slots) : Placing Resolved).run σ = .ok (v, σ') ↔
    (s.catalog.get? opcode).isSome ∧
      ∃ slots, inputs.run σ = .ok (slots, σ') ∧ v = .reporter opcode id slots := by
  simp only [run_bind_eq_ok, run_category, run_pure_eq_ok, Option.isSome_iff_exists]
  constructor
  · intro h
    obtain ⟨_, _, ⟨⟨spec, hspec, -⟩, rfl⟩, slots, _, hslots, rfl, rfl⟩ := h
    exact ⟨⟨spec, hspec⟩, slots, hslots, rfl⟩
  · intro h
    obtain ⟨⟨spec, hspec⟩, slots, hslots, rfl⟩ := h
    exact ⟨_, σ, ⟨⟨spec, hspec, rfl⟩, rfl⟩, slots, σ', hslots, rfl, rfl⟩

/-- A reference is resolved when it closes no cycle and names a node that may be used and can be
resolved. -/
theorem run_resolve_node {v : Resolved} :
    (resolve s inChain follow above owner key (.node id)).run σ = .ok (v, σ') ↔
      id ∉ above ∧ (inChain = true → id ∉ s.chain) ∧ ∃ n, s.workflow.node? id = some n ∧
        (s.catalog.get? n.opcode).isSome ∧ ∃ slots,
          (follow (id :: above) n).run (if inChain then id :: σ else σ) = .ok (slots, σ') ∧
          v = .reporter n.opcode n.id slots := by
  rw [resolve]
  by_cases ha : id ∈ above
  · simp only [List.contains_iff_mem, ha, if_true, run_bind_eq_ok, run_throw_eq_ok]
    simp
  by_cases hc : inChain = true ∧ id ∈ s.chain
  · simp only [List.contains_iff_mem, Bool.and_eq_true, ha, hc, if_true, if_false, and_self,
      run_bind_eq_ok, run_throw_eq_ok]
    simp
  simp only [List.contains_iff_mem, Bool.and_eq_true, ha, hc, if_false]
  cases hn : s.workflow.node? id with
  | none =>
    simp only [run_throw_eq_ok]
    simp
  | some n =>
    have hfree : inChain = true → id ∉ s.chain := fun hin hmem => hc ⟨hin, hmem⟩
    cases inChain with
    | false =>
      simp only [Bool.false_eq_true, if_false, run_reporter]
      simp
    | true =>
      simp only [if_true]
      rw [run_bind_eq_ok]
      simp only [run_place, run_reporter]
      simp [hfree rfl]

theorem run_resolve_inline {opcode : String} {inputs : Inputs} {v : Resolved} {i : Option String} :
    (resolve s inChain follow above owner key (.inline i opcode inputs)).run σ = .ok (v, σ') ↔
      i.getD (owner ++ "__" ++ key) ∉ above ∧ (s.catalog.get? opcode).isSome ∧ ∃ slots,
        (resolveAll s inChain follow (i.getD (owner ++ "__" ++ key) :: above)
          (i.getD (owner ++ "__" ++ key)) inputs).run σ = .ok (slots, σ') ∧
        v = .reporter opcode (i.getD (owner ++ "__" ++ key)) slots := by
  rw [resolve]
  by_cases ha : i.getD (owner ++ "__" ++ key) ∈ above
  · simp only [List.contains_iff_mem, ha, if_true, run_bind_eq_ok, run_throw_eq_ok]
    simp
  · simp only [List.contains_iff_mem, ha, if_false, run_reporter]
    simp

theorem run_resolve_call {name : String} {args : Inputs} {v : Resolved} :
    (resolve s inChain follow above owner key (.call name args)).run σ = .ok (v, σ') ↔
      (s.document.workflow? name).isSome ∧ ∃ slots,
        (resolveAll s inChain follow above owner args).run σ = .ok (slots, σ') ∧
        v = .call name slots := by
  rw [resolve]
  cases s.document.workflow? name with
  | none =>
    simp only [Option.isNone_none, if_true, run_bind_eq_ok, run_throw_eq_ok]
    simp
  | some w =>
    simp only [Option.isNone_some, Bool.false_eq_true, if_false, run_bind_eq_ok, run_pure_eq_ok]
    simp

theorem run_resolveAll_cons {e : InputExpr} {rest : Inputs} {slots : Slots} :
    (resolveAll s inChain follow above owner ((key, e) :: rest)).run σ = .ok (slots, σ') ↔
      ∃ v τ more, (resolve s inChain follow above owner key e).run σ = .ok (v, τ) ∧
        (resolveAll s inChain follow above owner rest).run τ = .ok (more, σ') ∧
        slots = (key, v) :: more := by
  rw [resolveAll]
  simp only [run_bind_eq_ok, run_pure_eq_ok]
  constructor
  · intro h
    obtain ⟨v, τ, hv, more, _, hmore, rfl, rfl⟩ := h
    exact ⟨v, τ, more, hv, hmore, rfl⟩
  · intro h
    obtain ⟨v, τ, more, hv, hmore, rfl⟩ := h
    exact ⟨v, τ, hv, more, σ', hmore, rfl, rfl⟩

/-- A node may be used as a reporter: it and all that references lead to from it are known nodes, and
none of them is in the chain that uses it. -/
def Usable (s : Scope) (inChain : Bool) (id : String) : Prop :=
  ∀ x, ReflTransGen s.workflow.Cites id x → (inChain = true → x ∉ s.chain) ∧
    ∃ n, s.workflow.node? x = some n ∧ n.Known s.document s.catalog

theorem usable_iff : Usable s inChain id ↔ (inChain = true → id ∉ s.chain) ∧
    ∃ n, s.workflow.node? id = some n ∧ n.Known s.document s.catalog ∧
      ∀ r ∈ nodeRefsIn n.inputs, Usable s inChain r := by
  constructor
  · intro h
    obtain ⟨hfree, n, hn, hknown⟩ := h id .refl
    refine ⟨hfree, n, hn, hknown, fun r hr x hx => h x (.head ?_ hx)⟩
    exact (Workflow.cites_iff hn).mpr hr
  · intro hex x hx
    obtain ⟨hfree, n, hn, hknown, hrefs⟩ := hex
    rcases ReflTransGen.cases_head hx with rfl | ⟨r, hr, hx⟩
    · exact ⟨hfree, n, hn, hknown⟩
    · exact hrefs r ((Workflow.cites_iff hn).mp hr) x hx

/-- What values with these opcodes, calls and references need is there. -/
structure Supplied (s : Scope) (inChain : Bool) (opcodes calls refs : List String) : Prop where
  opcodes : ∀ o ∈ opcodes, (s.catalog.get? o).isSome
  calls : ∀ name ∈ calls, (s.document.workflow? name).isSome
  refs : ∀ id ∈ refs, Usable s inChain id

theorem supplied_nil : Supplied s inChain [] [] [] := by
  constructor <;> simp

theorem supplied_append {o₁ o₂ c₁ c₂ r₁ r₂ : List String} :
    Supplied s inChain (o₁ ++ o₂) (c₁ ++ c₂) (r₁ ++ r₂) ↔
      Supplied s inChain o₁ c₁ r₁ ∧ Supplied s inChain o₂ c₂ r₂ := by
  constructor
  · intro hex
    obtain ⟨ho, hc, hr⟩ := hex
    rw [List.forall_mem_append] at ho hc hr
    exact ⟨⟨ho.1, hc.1, hr.1⟩, ⟨ho.2, hc.2, hr.2⟩⟩
  · intro hex
    obtain ⟨h, k⟩ := hex
    exact ⟨List.forall_mem_append.mpr ⟨h.opcodes, k.opcodes⟩,
      List.forall_mem_append.mpr ⟨h.calls, k.calls⟩, List.forall_mem_append.mpr ⟨h.refs, k.refs⟩⟩

/-- The inputs of a node or reporter are supplied. -/
abbrev SuppliedIn (s : Scope) (inChain : Bool) (inputs : Inputs) : Prop :=
  Supplied s inChain (opcodesIn inputs) (callsIn inputs) (nodeRefsIn inputs)

theorem usable_iff_supplied : Usable s inChain id ↔ (inChain = true → id ∉ s.chain) ∧
    ∃ n, s.workflow.node? id = some n ∧ (s.catalog.get? n.opcode).isSome ∧
      SuppliedIn s inChain n.inputs := by
  rw [usable_iff]
  refine and_congr_right fun _ => exists_congr fun n => and_congr_right fun _ => ?_
  constructor
  · intro h
    obtain ⟨hknown, hrefs⟩ := h
    exact ⟨hknown.opcode, hknown.opcodes, hknown.calls, hrefs⟩
  · intro h
    obtain ⟨hop, hs⟩ := h
    exact ⟨⟨hop, hs.opcodes, hs.calls⟩, hs.refs⟩

/-- At most `jumps` nodes are not above. -/
def Room (s : Scope) (jumps : Nat) (above : List String) : Prop :=
  (s.workflow.nodeIds.toFinset \ above.toFinset).card ≤ jumps

theorem Room.mono {jumps : Nat} {more : List String} (h : Room s jumps above)
    (hsub : above ⊆ more) : Room s jumps more := by
  refine (Finset.card_le_card fun x hx => ?_).trans h
  simp only [Finset.mem_sdiff, List.mem_toFinset] at hx ⊢
  exact ⟨hx.1, fun hab => hx.2 (hsub hab)⟩

/-- Jumping to a node leaves one jump less. -/
theorem Room.jump {jumps : Nat} (h : Room s jumps above) (hid : id ∈ s.workflow.nodeIds)
    (ha : id ∉ above) : ∃ k, jumps = k + 1 ∧ Room s k (id :: above) := by
  have hlt := Reach.unseen_lt (List.mem_singleton_self id) hid ha
  have hset : (above ++ [id]).toFinset = (id :: above).toFinset := by ext; simp
  rw [hset] at hlt
  unfold Room at h ⊢
  cases jumps with
  | zero => omega
  | succ k => exact ⟨k, rfl, by omega⟩

/-- Resolves the inputs of nodes exactly when they are supplied and repeat nothing. -/
def Decides (s : Scope) (inChain : Bool) (jumps : Nat)
    (follow : List String → NodeDef → Placing Slots) : Prop :=
  ∀ above id n σ, Room s jumps above → id ∉ above → s.workflow.node? id = some n →
    ((∃ slots σ', (follow (id :: above) n).run σ = .ok (slots, σ')) ↔
      SuppliedIn s inChain n.inputs ∧ s.workflow.Unrepeated (id :: above) n.reporter)

/-- The reporters of a value lead down without a repetition. -/
def Descends (s : Scope) (above : List String) (rs : List Reporter) : Prop :=
  ∀ r ∈ rs, r.id ∉ above ∧ s.workflow.Unrepeated (r.id :: above) r

theorem descends_append {rs ts : List Reporter} :
    Descends s above (rs ++ ts) ↔ Descends s above rs ∧ Descends s above ts :=
  List.forall_mem_append

theorem descends_reporter {n : NodeDef} :
    Descends s above (reportersIn s.workflow n.id n.inputs) ↔
      s.workflow.Unrepeated above n.reporter :=
  (Workflow.unrepeated_iff (r := n.reporter)).symm

mutual

/-- By recursion on the value; what is behind a reference is left to `follow`. -/
theorem exists_resolve {jumps : Nat} (hf : Decides s inChain jumps follow) (above : List String)
    (hroom : Room s jumps above) (owner key : String) (σ : List String) : ∀ e : InputExpr,
    (∃ v σ', (resolve s inChain follow above owner key e).run σ = .ok (v, σ')) ↔
      Supplied s inChain e.opcodes e.calls e.nodeRefs ∧
        Descends s above (e.reporters s.workflow owner key)
  | .literal v => by
    rw [resolve]
    simp only [run_pure_eq_ok, opcodes, calls, nodeRefs, reporters, supplied_nil, true_and]
    exact iff_of_true ⟨_, σ, rfl, rfl⟩ (by simp [Descends])
  | .variable name => by
    rw [resolve]
    simp only [run_pure_eq_ok, opcodes, calls, nodeRefs, reporters, supplied_nil, true_and]
    exact iff_of_true ⟨_, σ, rfl, rfl⟩ (by simp [Descends])
  | .node id => by
    simp only [run_resolve_node, opcodes, calls, nodeRefs, reporters]
    constructor
    · intro h
      obtain ⟨v, σ', ha, hfree, n, hn, hop, slots, hslots, -⟩ := h
      obtain ⟨hs, hu⟩ := (hf above id n _ hroom ha hn).mp ⟨slots, σ', hslots⟩
      have hid := Workflow.node?_id hn
      refine ⟨⟨by simp, by simp, ?_⟩, ?_⟩
      · simpa using usable_iff_supplied.mpr ⟨hfree, n, hn, hop, hs⟩
      · simpa [Descends, hn, NodeDef.reporter, hid] using ⟨ha, hid ▸ hu⟩
    · intro h
      obtain ⟨hs, hd⟩ := h
      obtain ⟨hfree, n, hn, hop, hsn⟩ := usable_iff_supplied.mp (hs.refs id (by simp))
      have hid := Workflow.node?_id hn
      obtain ⟨ha, hu⟩ := hd n.reporter (by simp [hn])
      simp only [NodeDef.reporter, hid] at ha hu
      obtain ⟨slots, σ', hslots⟩ := (hf above id n _ hroom ha hn).mpr
        ⟨hsn, by simpa [NodeDef.reporter, hid] using hu⟩
      exact ⟨_, σ', ha, hfree, n, hn, hop, slots, hslots, rfl⟩
  | .inline i opcode inputs => by
    have hbelow := hroom.mono (List.subset_cons_self (i.getD (owner ++ "__" ++ key)) above)
    have ih := exists_resolveAll hf _ hbelow (i.getD (owner ++ "__" ++ key)) σ inputs
    simp only [run_resolve_inline, opcodes, calls, nodeRefs, reporters]
    constructor
    · intro h
      obtain ⟨v, σ', ha, hop, slots, hslots, -⟩ := h
      obtain ⟨hs, hd⟩ := ih.mp ⟨slots, σ', hslots⟩
      refine ⟨⟨List.forall_mem_cons.mpr ⟨hop, hs.opcodes⟩, hs.calls, hs.refs⟩, ?_⟩
      simpa [Descends] using ⟨ha, Workflow.unrepeated_iff.mpr hd⟩
    · intro h
      obtain ⟨hs, hd⟩ := h
      obtain ⟨hop, hops⟩ := List.forall_mem_cons.mp hs.opcodes
      obtain ⟨ha, hu⟩ := hd _ (List.mem_singleton_self _)
      obtain ⟨slots, σ', hslots⟩ :=
        ih.mpr ⟨⟨hops, hs.calls, hs.refs⟩, Workflow.unrepeated_iff.mp hu⟩
      exact ⟨_, σ', ha, hop, slots, hslots, rfl⟩
  | .call name args => by
    have ih := exists_resolveAll hf above hroom owner σ args
    simp only [run_resolve_call, opcodes, calls, nodeRefs, reporters]
    constructor
    · intro h
      obtain ⟨v, σ', hname, slots, hslots, -⟩ := h
      obtain ⟨hs, hd⟩ := ih.mp ⟨slots, σ', hslots⟩
      exact ⟨⟨hs.opcodes, List.forall_mem_cons.mpr ⟨hname, hs.calls⟩, hs.refs⟩, hd⟩
    · intro h
      obtain ⟨hs, hd⟩ := h
      obtain ⟨hname, hcalls⟩ := List.forall_mem_cons.mp hs.calls
      obtain ⟨slots, σ', hslots⟩ := ih.mpr ⟨⟨hs.opcodes, hcalls, hs.refs⟩, hd⟩
      exact ⟨_, σ', hname, slots, hslots, rfl⟩

theorem exists_resolveAll {jumps : Nat} (hf : Decides s inChain jumps follow)
    (above : List String) (hroom : Room s jumps above) (owner : String) (σ : List String) :
    ∀ inputs : Inputs,
    (∃ slots σ', (resolveAll s inChain follow above owner inputs).run σ = .ok (slots, σ')) ↔
      SuppliedIn s inChain inputs ∧ Descends s above (reportersIn s.workflow owner inputs)
  | [] => by
    rw [resolveAll]
    simp only [run_pure_eq_ok, SuppliedIn, opcodesIn, callsIn, nodeRefsIn, reportersIn,
      supplied_nil, true_and]
    exact iff_of_true ⟨_, σ, rfl, rfl⟩ (by simp [Descends])
  | (key, e) :: rest => by
    have ihe := exists_resolve hf above hroom owner key σ e
    simp only [run_resolveAll_cons, SuppliedIn, opcodesIn, callsIn, nodeRefsIn, reportersIn,
      supplied_append, descends_append]
    constructor
    · intro h
      obtain ⟨slots, σ', v, τ, more, hv, hmore, -⟩ := h
      have hhead := ihe.mp ⟨v, τ, hv⟩
      have hrest := (exists_resolveAll hf above hroom owner τ rest).mp ⟨more, σ', hmore⟩
      exact ⟨⟨hhead.1, hrest.1⟩, hhead.2, hrest.2⟩
    · intro h
      obtain ⟨⟨hse, hsrest⟩, hde, hdrest⟩ := h
      obtain ⟨v, τ, hv⟩ := ihe.mpr ⟨hse, hde⟩
      obtain ⟨more, σ', hmore⟩ :=
        (exists_resolveAll hf above hroom owner τ rest).mpr ⟨hsrest, hdrest⟩
      exact ⟨_, σ', v, τ, more, hv, hmore, rfl⟩

end

/-- What resolves referenced nodes when that many jumps are allowed. -/
def following (s : Scope) (inChain : Bool) : Nat → List String → NodeDef → Placing Slots
  | 0 => fun _ m => throw (.cyclicReporter m.id)
  | jumps + 1 => resolveInputs s inChain jumps

theorem resolveInputs_eq (jumps : Nat) (n : NodeDef) :
    resolveInputs s inChain jumps above n =
      resolveAll s inChain (following s inChain jumps) above n.id n.inputs := by
  cases jumps <;> rfl

/-- The jumps allowed suffice: each goes to another node, and there is none left to go to when they
are used up. -/
theorem decides_following (jumps : Nat) : Decides s inChain jumps (following s inChain jumps) := by
  induction jumps with
  | zero =>
    intro above id n σ hroom ha hn
    obtain ⟨k, hk, -⟩ := hroom.jump (Workflow.mem_nodeIds_of_node? hn) ha
    omega
  | succ jumps ih =>
    intro above id n σ hroom ha hn
    obtain ⟨k, hk, hroom⟩ := hroom.jump (Workflow.mem_nodeIds_of_node? hn) ha
    obtain rfl : jumps = k := by omega
    change (∃ slots σ', (resolveInputs s inChain jumps (id :: above) n).run σ = _) ↔ _
    rw [resolveInputs_eq, exists_resolveAll ih _ hroom, descends_reporter]

section Agreeing

variable {follow' : List String → NodeDef → Placing Slots}

/-- Two ways to resolve referenced nodes agree where no id is repeated. -/
def AgreeBelow (s : Scope) (above : List String)
    (follow follow' : List String → NodeDef → Placing Slots) : Prop :=
  ∀ more id n, above ⊆ more → id ∉ more → s.workflow.node? id = some n →
    follow (id :: more) n = follow' (id :: more) n

theorem AgreeBelow.mono {more : List String} (h : AgreeBelow s above follow follow')
    (hsub : above ⊆ more) : AgreeBelow s more follow follow' :=
  fun rest id n hrest => h rest id n (List.Subset.trans hsub hrest)

mutual

theorem resolve_congr {above : List String} (hf : AgreeBelow s above follow follow')
    (owner key : String) : ∀ e : InputExpr,
    resolve s inChain follow above owner key e = resolve s inChain follow' above owner key e
  | .literal _ => by rw [resolve, resolve]
  | .variable _ => by rw [resolve, resolve]
  | .node id => by
    rw [resolve, resolve]
    by_cases ha : id ∈ above
    · simp only [List.contains_iff_mem, ha, if_true]
      rfl
    cases hn : s.workflow.node? id with
    | none => rfl
    | some n =>
      have hsame := hf above id n (List.Subset.refl above) ha hn
      simp only [hsame]
  | .inline i _ inputs => by
    have hsub := List.subset_cons_self (i.getD (owner ++ "__" ++ key)) above
    rw [resolve, resolve, resolveAll_congr (hf.mono hsub) _ inputs]
  | .call _ args => by
    rw [resolve, resolve, resolveAll_congr hf owner args]

theorem resolveAll_congr {above : List String} (hf : AgreeBelow s above follow follow')
    (owner : String) : ∀ inputs : Inputs,
    resolveAll s inChain follow above owner inputs = resolveAll s inChain follow' above owner inputs
  | [] => by rw [resolveAll, resolveAll]
  | (key, e) :: rest => by
    rw [resolveAll, resolveAll, resolve_congr hf owner key e, resolveAll_congr hf owner rest]

end

/-- How many jumps are allowed makes no difference once there is room for all. -/
theorem agreeBelow_following {j k : Nat} (hj : Room s j above) (hk : Room s k above) :
    AgreeBelow s above (following s inChain j) (following s inChain k) := by
  induction j generalizing k above with
  | zero =>
    intro more id n hsub ha hn
    obtain ⟨_, hnone, -⟩ := (hj.mono hsub).jump (Workflow.mem_nodeIds_of_node? hn) ha
    omega
  | succ j ih =>
    intro more id n hsub ha hn
    have hid := Workflow.mem_nodeIds_of_node? hn
    obtain ⟨j', hj', hroomj⟩ := (hj.mono hsub).jump hid ha
    obtain ⟨k', rfl, hroomk⟩ := (hk.mono hsub).jump hid ha
    obtain rfl : j = j' := by omega
    change resolveInputs s inChain j (id :: more) n = resolveInputs s inChain k' (id :: more) n
    rw [resolveInputs_eq, resolveInputs_eq, resolveAll_congr (ih hroomj hroomk)]

end Agreeing

theorem room_all (above : List String) : Room s s.workflow.nodes.length above := by
  have hsub := Finset.card_le_card
    (Finset.sdiff_subset (s := s.workflow.nodeIds.toFinset) (t := above.toFinset))
  have hlen := List.toFinset_card_le s.workflow.nodeIds
  have heq : s.workflow.nodeIds.length = s.workflow.nodes.length := List.length_map _
  unfold Room
  omega

/-- Going on behind a reference takes no fewer jumps to be allowed. -/
theorem following_all {id : String} {n : NodeDef} (ha : id ∉ above)
    (hn : s.workflow.node? id = some n) :
    following s inChain s.workflow.nodes.length (id :: above) n =
      resolveAll s inChain (following s inChain s.workflow.nodes.length) (id :: above) n.id
        n.inputs := by
  obtain ⟨k, hk, hroom⟩ := (room_all above).jump (Workflow.mem_nodeIds_of_node? hn) ha
  conv_lhs => rw [hk]
  change resolveInputs s inChain k (id :: above) n = _
  rw [resolveInputs_eq, resolveAll_congr (agreeBelow_following hroom (room_all _))]

theorem run_plainNode {n : NodeDef} {t : TreeNode} :
    (plainNode s inChain n).run σ = .ok (t, σ') ↔ ∃ spec, s.catalog.get? n.opcode = some spec ∧
      ∃ slots, (resolveInputs s inChain s.workflow.nodes.length [n.id] n).run σ = .ok (slots, σ') ∧
        t = ⟨n.id, n.opcode, spec.category, slots, []⟩ := by
  unfold plainNode
  simp only [run_bind_eq_ok, run_category, run_pure_eq_ok]
  constructor
  · intro h
    obtain ⟨_, _, ⟨⟨spec, hspec, rfl⟩, rfl⟩, slots, _, hslots, rfl, rfl⟩ := h
    exact ⟨spec, hspec, slots, hslots, rfl⟩
  · intro h
    obtain ⟨spec, hspec, slots, hslots, rfl⟩ := h
    exact ⟨_, σ, ⟨⟨spec, hspec, rfl⟩, rfl⟩, slots, σ', hslots, rfl, rfl⟩

/-- What it takes to place a node without its branches: its opcode is known, its inputs are supplied,
and no way down from it meets an id twice. -/
structure Placeable (s : Scope) (inChain : Bool) (n : NodeDef) : Prop where
  opcode : (s.catalog.get? n.opcode).isSome
  supplied : SuppliedIn s inChain n.inputs
  unrepeated : s.workflow.Unrepeated [n.id] n.reporter

theorem exists_plainNode {n : NodeDef} :
    (∃ t σ', (plainNode s inChain n).run σ = .ok (t, σ')) ↔ Placeable s inChain n := by
  have hf : Decides s inChain s.workflow.nodes.length (following s inChain _) := decides_following _
  have hinputs := exists_resolveAll hf [n.id] (room_all [n.id]) n.id σ n.inputs
  rw [← resolveInputs_eq, descends_reporter] at hinputs
  simp only [run_plainNode]
  constructor
  · intro h
    obtain ⟨_, σ', spec, hspec, slots, hslots, -⟩ := h
    obtain ⟨hs, hu⟩ := hinputs.mp ⟨slots, σ', hslots⟩
    exact ⟨by simp [hspec], hs, hu⟩
  · intro h
    obtain ⟨hop, hs, hu⟩ := h
    obtain ⟨spec, hspec⟩ := Option.isSome_iff_exists.mp hop
    obtain ⟨slots, σ', hslots⟩ := hinputs.mpr ⟨hs, hu⟩
    exact ⟨_, σ', spec, hspec, slots, hslots, rfl⟩

/-- The nodes that references from a list of nodes lead to. -/
def CitedFrom (s : Scope) (refs : List String) (x : String) : Prop :=
  ∃ r ∈ refs, ReflTransGen s.workflow.Cites r x

theorem citedFrom_append {refs more : List String} {x : String} :
    CitedFrom s (refs ++ more) x ↔ CitedFrom s refs x ∨ CitedFrom s more x := by
  simp only [CitedFrom, List.mem_append, or_and_right, exists_or]

/-- A node leads to itself and to what its inputs lead to. -/
theorem citedFrom_cons {n : NodeDef} (hn : s.workflow.node? id = some n) {refs : List String}
    {x : String} : CitedFrom s (id :: refs) x ↔
      x = id ∨ CitedFrom s (nodeRefsIn n.inputs) x ∨ CitedFrom s refs x := by
  have hone : CitedFrom s [id] x ↔ x = id ∨ CitedFrom s (nodeRefsIn n.inputs) x := by
    simp only [CitedFrom, List.mem_singleton, exists_eq_left, ← Workflow.cites_iff hn]
    rw [ReflTransGen.cases_head_iff, eq_comm]
  rw [← List.singleton_append, citedFrom_append, hone, or_assoc]

/-- What a computation adds to the placed ids: what references lead to, if it works for the
chain. -/
def Adds (s : Scope) (inChain : Bool) (refs σ σ' : List String) : Prop :=
  ∀ x, x ∈ σ' ↔ x ∈ σ ∨ inChain = true ∧ CitedFrom s refs x

theorem adds_nil : Adds s inChain [] σ σ := by
  intro x
  simp [CitedFrom]

theorem Adds.append {refs more τ : List String} (h : Adds s inChain refs σ τ)
    (k : Adds s inChain more τ σ') : Adds s inChain (refs ++ more) σ σ' := by
  intro x
  rw [k x, h x, citedFrom_append]
  tauto

/-- The inputs of a referenced node add what their references lead to. -/
def AddsRefs (s : Scope) (inChain : Bool) (follow : List String → NodeDef → Placing Slots) : Prop :=
  ∀ above n σ slots σ', (follow above n).run σ = .ok (slots, σ') →
    Adds s inChain (nodeRefsIn n.inputs) σ σ'

mutual

theorem adds_resolve (hf : AddsRefs s inChain follow) (above : List String) (owner key : String)
    (σ σ' : List String) (v : Resolved) : ∀ e : InputExpr,
    (resolve s inChain follow above owner key e).run σ = .ok (v, σ') →
      Adds s inChain e.nodeRefs σ σ'
  | .literal _ => by
    rw [resolve, run_pure_eq_ok]
    intro h
    obtain ⟨-, rfl⟩ := h
    exact adds_nil
  | .variable _ => by
    rw [resolve, run_pure_eq_ok]
    intro h
    obtain ⟨-, rfl⟩ := h
    exact adds_nil
  | .node id => by
    rw [run_resolve_node]
    intro h x
    obtain ⟨-, -, n, hn, -, slots, hslots, -⟩ := h
    rw [hf _ _ _ _ _ hslots x, nodeRefs, citedFrom_cons hn]
    cases inChain with
    | false => simp
    | true =>
      have hnil : ¬ CitedFrom s [] x := by simp [CitedFrom]
      simp only [if_true, List.mem_cons, true_and, hnil, or_false]
      tauto
  | .inline _ _ inputs => by
    rw [run_resolve_inline]
    intro h
    obtain ⟨-, -, slots, hslots, -⟩ := h
    exact adds_resolveAll hf _ _ _ _ _ inputs hslots
  | .call _ args => by
    rw [run_resolve_call]
    intro h
    obtain ⟨-, slots, hslots, -⟩ := h
    exact adds_resolveAll hf _ _ _ _ _ args hslots

theorem adds_resolveAll (hf : AddsRefs s inChain follow) (above : List String) (owner : String)
    (σ σ' : List String) (slots : Slots) : ∀ inputs : Inputs,
    (resolveAll s inChain follow above owner inputs).run σ = .ok (slots, σ') →
      Adds s inChain (nodeRefsIn inputs) σ σ'
  | [] => by
    rw [resolveAll, run_pure_eq_ok]
    intro h
    obtain ⟨-, rfl⟩ := h
    exact adds_nil
  | (key, e) :: rest => by
    rw [run_resolveAll_cons]
    intro h
    obtain ⟨v, τ, more, hv, hmore, -⟩ := h
    exact (adds_resolve hf _ _ _ _ _ _ e hv).append (adds_resolveAll hf _ _ _ _ _ rest hmore)

end

theorem addsRefs_following (jumps : Nat) : AddsRefs s inChain (following s inChain jumps) := by
  induction jumps with
  | zero =>
    intro above n σ slots σ' h
    exact absurd h (by simp only [following, run_throw_eq_ok, not_false_eq_true])
  | succ jumps ih =>
    intro above n σ slots σ' h
    change (resolveInputs s inChain jumps above n).run σ = _ at h
    rw [resolveInputs_eq] at h
    exact adds_resolveAll ih _ _ _ _ _ _ h

/-- Placing a node without its branches adds the reporters that it uses, if it is in the chain. -/
theorem adds_plainNode {n : NodeDef} {t : TreeNode}
    (h : (plainNode s inChain n).run σ = .ok (t, σ')) :
    Adds s inChain (nodeRefsIn n.inputs) σ σ' := by
  obtain ⟨spec, -, slots, hslots, -⟩ := run_plainNode.mp h
  rw [resolveInputs_eq] at hslots
  exact adds_resolveAll (addsRefs_following _) _ _ _ _ _ _ hslots

end Tree

end BlockFlow

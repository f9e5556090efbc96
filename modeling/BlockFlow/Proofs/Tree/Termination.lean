import BlockFlow.Proofs.Tree.Partition

/-!
Building a tree ends, also where pointers or references lead back to where they started. Each call
that resolves a value goes down into the value or to a node that is not above it, and a walk places a
node only once. Main statement: the limits set to both are never reached, so that trees are as calls
and walks without limits make them.
-/

namespace BlockFlow

open Relation Outcome

/-- The inputs of a reporter written in place, or the arguments of a call. -/
def InputExpr.inner : InputExpr → Inputs
  | .inline _ _ inputs => inputs
  | .call _ args => args
  | .literal _ | .variable _ | .node _ => []

theorem InputExpr.sizeOf_lt_of_mem_inner {e e' : InputExpr} {key : String}
    (h : (key, e') ∈ e.inner) : sizeOf e' < sizeOf e := by
  have hlt := List.sizeOf_lt_of_mem h
  rw [Prod.mk.sizeOf_spec] at hlt
  match e with
  | .inline i opcode inputs =>
    rw [InputExpr.inline.sizeOf_spec]
    rw [inner] at hlt
    omega
  | .call name args =>
    rw [InputExpr.call.sizeOf_spec]
    rw [inner] at hlt
    omega

namespace Tree

variable {s : Scope} {inChain : Bool} {above : List String}

section Resolving

/-- A call that resolves the value of an input. `above` holds the ids of the node and the reporters
around the value. -/
structure Call where
  above : List String
  owner : String
  key : String
  value : InputExpr

/-- Inputs that are resolved in a row. -/
structure Row where
  above : List String
  owner : String
  inputs : Inputs

/-- The inputs of a node, which stands above them. -/
def Row.ofNode (n : NodeDef) : Row := ⟨[n.id], n.id, n.inputs⟩

def Row.calls (r : Row) : List Call := r.inputs.map fun (key, e) => ⟨r.above, r.owner, key, e⟩

/-- What a call comes to before it makes others: it has its outcome, or it places nodes and goes on
with the inputs below, of which its value is made in the end. -/
inductive Opening where
  | ends (outcome : Except ParseError Resolved)
  | opens (placed : List String) (row : Row) (whole : Slots → Resolved)

/-- The calls that are still to be made. -/
def Opening.calls : Opening → List Call
  | .ends _ => []
  | .opens _ row _ => row.calls

namespace Call

/-- Goes on with the inputs of a reporter, whose opcode must be known. -/
def openReporter (s : Scope) (k : Call) (placed : List String) (id opcode : String)
    (inputs : Inputs) : Opening :=
  match s.catalog.get? opcode with
  | none => .ends (.error (.unknownOpcode id opcode))
  | some _ => .opens placed ⟨id :: k.above, id, inputs⟩ (.reporter opcode id)

def opening (s : Scope) (inChain : Bool) (k : Call) : Opening :=
  match k.value with
  | .literal v => .ends (.ok (.literal (literalOf v)))
  | .variable name => .ends (.ok (.variable name))
  | .node id =>
    if id ∈ k.above then .ends (.error (.cyclicReporter id))
    else if inChain ∧ id ∈ s.chain then
      .ends (.error (.malformedInput k.owner (.chainNodeUsed k.key id)))
    else
      match s.workflow.node? id with
      | none => .ends (.error (.danglingLink k.owner id))
      | some n => k.openReporter s (if inChain then [id] else []) n.id n.opcode n.inputs
  | .inline id opcode inputs =>
    let id := id.getD (k.owner ++ "__" ++ k.key)
    if id ∈ k.above then .ends (.error (.cyclicReporter id))
    else k.openReporter s [] id opcode inputs
  | .call name args =>
    match s.document.workflow? name with
    | none => .ends (.error (.unknownWorkflow k.owner name))
    | some _ => .opens [] ⟨k.above, k.owner, args⟩ (.call name)

/-- The call makes another one. -/
def Makes (s : Scope) (inChain : Bool) (k k' : Call) : Prop := k' ∈ (k.opening s inChain).calls

/-- The other call has a smaller value, from among the inputs in the value of the call. No id is
repeated above it. -/
structure Nests (k k' : Call) : Prop where
  value : (k'.key, k'.value) ∈ k.value.inner
  smaller : sizeOf k'.value < sizeOf k.value
  above : k'.above = k.above ∨ ∃ id, id ∉ k.above ∧ k'.above = id :: k.above

/-- Above the other call stands one more node. -/
def Pushes (s : Scope) (k k' : Call) : Prop :=
  ∃ id ∈ s.workflow.nodeIds, id ∉ k.above ∧ k'.above = id :: k.above

theorem mem_openReporter {k k' : Call} {placed : List String} {id opcode : String}
    {inputs : Inputs} (h : k' ∈ (k.openReporter s placed id opcode inputs).calls) :
    k'.above = id :: k.above ∧ (k'.key, k'.value) ∈ inputs := by
  unfold openReporter at h
  split at h
  · cases h
  · obtain ⟨⟨key, e⟩, hin, rfl⟩ := List.mem_map.mp h
    exact ⟨rfl, hin⟩

/-- By the kinds of values. Only references lead out of the value of the call. -/
theorem Makes.nests_or_pushes {k k' : Call} (h : k.Makes s inChain k') :
    k.Nests k' ∨ k.Pushes s k' := by
  obtain ⟨above, owner, key, value⟩ := k
  unfold Makes opening at h
  match value with
  | .literal v => cases h
  | .variable name => cases h
  | .node id =>
    simp only at h
    by_cases hab : id ∈ above
    · rw [if_pos hab] at h
      cases h
    rw [if_neg hab] at h
    split at h
    · cases h
    split at h
    · cases h
    · next n hn =>
      obtain ⟨hpush, -⟩ := mem_openReporter h
      rw [Workflow.node?_id hn] at hpush
      exact .inr ⟨id, Workflow.mem_nodeIds_of_node? hn, hab, hpush⟩
  | .inline i opcode inputs =>
    simp only at h
    split at h
    · cases h
    · next hab =>
      obtain ⟨hpush, hin⟩ := mem_openReporter h
      exact .inl ⟨hin, InputExpr.sizeOf_lt_of_mem_inner hin, .inr ⟨_, hab, hpush⟩⟩
  | .call name args =>
    simp only at h
    split at h
    · cases h
    · obtain ⟨⟨key', e⟩, hin, rfl⟩ := List.mem_map.mp h
      exact .inl ⟨hin, InputExpr.sizeOf_lt_of_mem_inner hin, .inl rfl⟩

/-- The nodes that are not above a call. -/
def left (s : Scope) (k : Call) : Nat := (s.workflow.nodeIds.toFinset \ k.above.toFinset).card

theorem left_le {k k' : Call} (h : k.above ⊆ k'.above) : k'.left s ≤ k.left s :=
  Room.mono (le_refl (k.left s)) h

/-- A call has fewer nodes left than the one that makes it, or as many and a smaller value. -/
theorem Makes.descends {k k' : Call} (h : k.Makes s inChain k') :
    Prod.Lex (· < ·) (· < ·) (k'.left s, sizeOf k'.value) (k.left s, sizeOf k.value) := by
  rcases h.nests_or_pushes with hn | ⟨id, hid, hab, hpush⟩
  · have hle : k'.left s ≤ k.left s := by
      refine left_le ?_
      rcases hn.above with heq | ⟨id, -, heq⟩ <;> simp [heq]
    rcases hle.lt_or_eq with hlt | heq
    · exact .left _ _ hlt
    · rw [heq]
      exact .right _ hn.smaller
  · obtain ⟨left, hleft, hroom⟩ := Room.jump (le_refl (k.left s)) hid hab
    rw [← hpush] at hroom
    refine .left _ _ ?_
    have hle : k'.left s ≤ left := hroom
    omega

theorem wellFounded_makes (s : Scope) (inChain : Bool) :
    WellFounded fun k' k : Call => k.Makes s inChain k' := by
  have hwf : WellFounded (Prod.Lex (α := Nat) (β := Nat) (· < ·) (· < ·)) :=
    Prod.lex Nat.lt_wfRel Nat.lt_wfRel |>.wf
  exact Subrelation.wf Makes.descends (InvImage.wf (fun k : Call => (k.left s, sizeOf k.value)) hwf)

theorem Makes.nodup {k k' : Call} (h : k.Makes s inChain k') (hk : k.above.Nodup) :
    k'.above.Nodup := by
  have hcons {id : String} (hid : id ∉ k.above) (heq : k'.above = id :: k.above) :
      k'.above.Nodup := heq ▸ List.nodup_cons.mpr ⟨hid, hk⟩
  rcases h.nests_or_pushes with hn | ⟨id, -, hid, heq⟩
  · rcases hn.above with heq | ⟨id, hid, heq⟩
    · rwa [heq]
    · exact hcons hid heq
  · exact hcons hid heq

end Call

/-- The values of calls that are made one after another. -/
def answers (answer : Call → Placing Resolved) (row : Row) : Placing Slots :=
  row.calls.mapM fun k => do
    let v ← answer k
    pure (k.key, v)

/-- Resolves the value of a call, where `answer` makes the calls that this takes. -/
def unroll (s : Scope) (inChain : Bool) (answer : Call → Placing Resolved) (k : Call) :
    Placing Resolved :=
  match k.opening s inChain with
  | .ends outcome => StateT.lift outcome
  | .opens placed row whole => do
    modify (placed ++ ·)
    let slots ← answers answer row
    pure (whole slots)

/-- Resolves the value of a call, with a jump allowed for each node. -/
def resolved (s : Scope) (inChain : Bool) (k : Call) : Placing Resolved :=
  resolve s inChain (following s inChain s.workflow.nodes.length) k.above k.owner k.key k.value

theorem resolveAll_eq_answers {follow : List String → NodeDef → Placing Slots} (row : Row) :
    resolveAll s inChain follow row.above row.owner row.inputs =
      answers (fun k => resolve s inChain follow k.above k.owner k.key k.value) row := by
  obtain ⟨above, owner, inputs⟩ := row
  induction inputs with
  | nil => rfl
  | cons entry rest ih =>
    obtain ⟨key, e⟩ := entry
    simp only [answers, Row.calls, List.map_cons, List.mapM_cons, bind_assoc, pure_bind] at ih ⊢
    rw [resolveAll, ih]

theorem resolved_eq_unroll (s : Scope) (inChain : Bool) :
    resolved s inChain = unroll s inChain (resolved s inChain) := by
  funext k
  obtain ⟨above, owner, key, value⟩ := k
  have hrow (row : Row) : answers (resolved s inChain) row = resolveAll s inChain
      (following s inChain s.workflow.nodes.length) row.above row.owner row.inputs :=
    (resolveAll_eq_answers row).symm
  unfold unroll Call.opening
  simp only [resolved] at hrow ⊢
  cases value with
  | literal v =>
    rw [resolve]
    rfl
  | «variable» name =>
    rw [resolve]
    rfl
  | node id =>
    rw [resolve]
    by_cases ha : id ∈ above
    · simp only [List.contains_iff_mem, ha, if_true]
      rfl
    by_cases hc : inChain = true ∧ id ∈ s.chain
    · simp only [List.contains_iff_mem, Bool.and_eq_true, ha, hc, if_true, if_false, and_self]
      rfl
    simp only [List.contains_iff_mem, Bool.and_eq_true, ha, hc, if_false]
    cases hn : s.workflow.node? id with
    | none => rfl
    | some n =>
      simp only [following_all ha hn, Call.openReporter, category]
      have hid := Workflow.node?_id hn
      cases s.catalog.get? n.opcode with
      | none => cases inChain <;> rfl
      | some spec =>
        cases inChain <;> simp [hrow, hid] <;> rfl
  | inline i opcode inputs =>
    rw [resolve]
    by_cases ha : i.getD (owner ++ "__" ++ key) ∈ above
    · simp only [List.contains_iff_mem, ha, if_true]
      rfl
    · simp only [List.contains_iff_mem, ha, if_false, Call.openReporter, category]
      cases s.catalog.get? opcode with
      | none => rfl
      | some spec =>
        simp only [hrow]
        rfl
  | call name args =>
    rw [resolve]
    simp only
    cases s.document.workflow? name with
    | none => rfl
    | some w =>
      simp only [hrow]
      rfl

theorem answers_congr {answer answer' : Call → Placing Resolved} {row : Row}
    (h : ∀ k ∈ row.calls, answer k = answer' k) : answers answer row = answers answer' row := by
  unfold answers
  generalize row.calls = calls at h
  induction calls with
  | nil => rfl
  | cons k rest ih =>
    rw [List.forall_mem_cons] at h
    rw [List.mapM_cons, List.mapM_cons, h.1, ih h.2]

/-- Since calls cannot make calls forever, there is only one way to answer all of them. -/
theorem eq_resolved {answer : Call → Placing Resolved}
    (h : answer = unroll s inChain answer) : answer = resolved s inChain := by
  funext k
  induction k using (Call.wellFounded_makes s inChain).induction with
  | _ k ih =>
    rw [h, resolved_eq_unroll]
    unfold unroll
    have hmakes (k' : Call) (hk' : k.Makes s inChain k') : answer k' = resolved s inChain k' :=
      ih k' hk'
    unfold Call.Makes at hmakes
    cases hk : k.opening s inChain with
    | ends outcome => rfl
    | opens placed row whole =>
      rw [hk] at hmakes
      simp only [answers_congr hmakes]

end Resolving

section Walking

/-- The outcome with another value. -/
def mapValue {α β : Type} (f : α → β) (r : Except ParseError (α × List String)) :
    Except ParseError (β × List String) :=
  r.map fun p => (f p.1, p.2)

/-- A branch that keeps a node out of the chain. -/
def misfit? (c : Catalog) (n : NodeDef) : Option String :=
  if c.isControlFlow n.opcode then
    n.branchNames.find? fun name => !(c.branchSlots n.opcode n.branchNames).contains name
  else (n.branches.find? (·.2.isSome)).map (·.1)

mutual

/-- A walk from a head where some nodes are placed: the nodes that it places, in order, and its
outcome. -/
inductive Walk (s : Scope) : Option String → List String → List String →
    Except ParseError (List TreeNode × List String) → Prop
  | done {σ} : Walk s none σ [] (.ok ([], σ))
  | met {id σ} (hid : id ∈ σ) : Walk s (some id) σ [] (.ok ([], σ))
  | dangling {id σ} (hid : id ∉ σ) (hn : s.workflow.node? id = none) :
    Walk s (some id) σ [] (.error (.danglingLink s.workflow.name id))
  | refused {id σ n e} (hid : id ∉ σ) (hn : s.workflow.node? id = some n)
    (hplain : (plainNode s true n).run (id :: σ) = .error e) : Walk s (some id) σ [id] (.error e)
  | misfit {id σ n node τ name} (hid : id ∉ σ) (hn : s.workflow.node? id = some n)
    (hplain : (plainNode s true n).run (id :: σ) = .ok (node, τ))
    (hname : misfit? s.catalog n = some name) :
    Walk s (some id) σ [id] (.error (.unknownBranch n.id name))
  | stuck {id σ n node τ below e} (hid : id ∉ σ) (hn : s.workflow.node? id = some n)
    (hplain : (plainNode s true n).run (id :: σ) = .ok (node, τ))
    (hfit : misfit? s.catalog n = none)
    (hbelow : BranchWalk s n (n.walkedSlots s.catalog) τ below (.error e)) :
    Walk s (some id) σ (id :: below) (.error e)
  | goesOn {id σ n node τ below children υ rest r} (hid : id ∉ σ)
    (hn : s.workflow.node? id = some n)
    (hplain : (plainNode s true n).run (id :: σ) = .ok (node, τ))
    (hfit : misfit? s.catalog n = none)
    (hbelow : BranchWalk s n (n.walkedSlots s.catalog) τ below (.ok (children, υ)))
    (hrest : Walk s n.next υ rest r) :
    Walk s (some id) σ (id :: (below ++ rest))
      (mapValue ({ node with children := children } :: ·) r)

/-- Walks through branches of a node, one after another. -/
inductive BranchWalk (s : Scope) : NodeDef → List String → List String → List String →
    Except ParseError (List (String × List TreeNode) × List String) → Prop
  | done {n σ} : BranchWalk s n [] σ [] (.ok ([], σ))
  | stuck {n slot slots σ placed e} (hfirst : Walk s (n.branchHead? slot) σ placed (.error e)) :
    BranchWalk s n (slot :: slots) σ placed (.error e)
  | goesOn {n slot slots σ placed nodes τ more r}
    (hfirst : Walk s (n.branchHead? slot) σ placed (.ok (nodes, τ)))
    (hmore : BranchWalk s n slots τ more r) :
    BranchWalk s n (slot :: slots) σ (placed ++ more)
      (mapValue ((slot, nodes) :: ·) r)

end

/-- Nodes are placed once, none of them again, and the outcome remembers them. -/
structure PlacedOnce {α : Type} (σ placed : List String)
    (r : Except ParseError (α × List String)) : Prop where
  nodup : placed.Nodup
  fresh : ∀ id ∈ placed, id ∉ σ
  kept : ∀ a σ', r = .ok (a, σ') → σ ++ placed ⊆ σ'

namespace PlacedOnce

variable {α β γ : Type} {σ τ placed more : List String} {r : Except ParseError (β × List String)}

theorem nothing {r : Except ParseError (α × List String)}
    (h : ∀ a σ', r = .ok (a, σ') → σ' = σ) : PlacedOnce σ [] r where
  nodup := List.nodup_nil
  fresh := by simp
  kept a σ' hr := by simp [h a σ' hr]

theorem failed {e : ParseError} (h : PlacedOnce (α := α) σ placed (.error e)) :
    PlacedOnce (α := β) σ placed (.error e) where
  nodup := h.nodup
  fresh := h.fresh
  kept := nofun

theorem cons {id : String} (hid : id ∉ σ) (hsub : id :: σ ⊆ τ) (h : PlacedOnce τ placed r) :
    PlacedOnce σ (id :: placed) r where
  nodup := List.nodup_cons.mpr ⟨fun hmem => h.fresh id hmem (hsub List.mem_cons_self), h.nodup⟩
  fresh := by
    intro x hx hσ
    rcases List.mem_cons.mp hx with rfl | hx
    · exact hid hσ
    · exact h.fresh x hx (hsub (List.mem_cons_of_mem _ hσ))
  kept a σ' hr := by
    have hk := h.kept a σ' hr
    intro x hx
    simp only [List.mem_append, List.mem_cons] at hx
    rcases hx with hx | rfl | hx
    · exact hk (List.mem_append_left _ (hsub (List.mem_cons_of_mem _ hx)))
    · exact hk (List.mem_append_left _ (hsub List.mem_cons_self))
    · exact hk (List.mem_append_right _ hx)

theorem append {a : α} {f : β → γ} (h : PlacedOnce σ placed (.ok (a, τ)))
    (k : PlacedOnce τ more r) :
    PlacedOnce σ (placed ++ more) (mapValue f r) where
  nodup := by
    refine List.nodup_append.mpr ⟨h.nodup, k.nodup, ?_⟩
    rintro x hx y hy rfl
    exact k.fresh x hy (h.kept a τ rfl (List.mem_append_right _ hx))
  fresh := by
    intro x hx hσ
    rcases List.mem_append.mp hx with hx | hx
    · exact h.fresh x hx hσ
    · exact k.fresh x hx (h.kept a τ rfl (List.mem_append_left _ hσ))
  kept b σ' hr := by
    have hh := h.kept a τ rfl
    have hk : τ ++ more ⊆ σ' := by
      cases r with
      | error e => cases hr
      | ok p =>
        obtain ⟨-, rfl⟩ := Prod.mk.inj (Except.ok.inj hr)
        exact k.kept p.1 p.2 rfl
    intro x hx
    simp only [List.mem_append] at hx
    rcases hx with hx | hx | hx
    · exact hk (List.mem_append_left _ (hh (List.mem_append_left _ hx)))
    · exact hk (List.mem_append_left _ (hh (List.mem_append_right _ hx)))
    · exact hk (List.mem_append_right _ hx)

end PlacedOnce

theorem subset_plainNode {n : NodeDef} {node : TreeNode} {σ τ : List String}
    (h : (plainNode s inChain n).run σ = .ok (node, τ)) : σ ⊆ τ :=
  fun x hx => (adds_plainNode h x).mpr (.inl hx)

mutual

/-- By induction on the walk: it places a node only if the node is not placed, and no walk that it
consists of forgets what is placed. -/
theorem Walk.placedOnce {head : Option String} {σ placed : List String} {r} :
    Walk s head σ placed r → PlacedOnce σ placed r
  | .done => .nothing fun _ _ h => (Prod.mk.inj (Except.ok.inj h)).2.symm
  | .met _ => .nothing fun _ _ h => (Prod.mk.inj (Except.ok.inj h)).2.symm
  | .dangling _ _ => .nothing fun _ _ h => nomatch h
  | .refused hid _ _ => .cons hid (List.Subset.refl _) (.nothing fun _ _ h => nomatch h)
  | .misfit hid _ _ _ => .cons hid (List.Subset.refl _) (.nothing fun _ _ h => nomatch h)
  | .stuck hid _ hplain _ hbelow => .cons hid (subset_plainNode hplain) hbelow.placedOnce.failed
  | .goesOn hid _ hplain _ hbelow hrest =>
    .cons hid (subset_plainNode hplain) (hbelow.placedOnce.append hrest.placedOnce)

theorem BranchWalk.placedOnce {n : NodeDef} {slots : List String} {σ placed : List String} {r} :
    BranchWalk s n slots σ placed r → PlacedOnce σ placed r
  | .done => .nothing fun _ _ h => (Prod.mk.inj (Except.ok.inj h)).2.symm
  | .stuck hfirst => hfirst.placedOnce.failed
  | .goesOn hfirst hmore => hfirst.placedOnce.append hmore.placedOnce

end

variable {walk : Option String → Placing (List TreeNode)} {n : NodeDef} {σ τ : List String}

/-- Branches are walked where none is a misfit. -/
theorem placeBranches_eq {node : TreeNode} (hnode : node.children = []) :
    placeBranches s walk n node =
      match misfit? s.catalog n with
      | some name => throw (.unknownBranch n.id name)
      | none => (do
        let children ← walkSlots walk n (n.walkedSlots s.catalog)
        pure { node with children := children }) := by
  unfold placeBranches misfit? NodeDef.walkedSlots
  by_cases hc : s.catalog.isControlFlow n.opcode
  · cases hfound : n.branchNames.find? fun name =>
        !(s.catalog.branchSlots n.opcode n.branchNames).contains name with
    | none => simp only [hc, if_true, hfound]
    | some name => simp only [hc, if_true, hfound]
  · simp only [hc, Bool.false_eq_true, if_false]
    cases n.branches.find? (·.2.isSome) with
    | some b => rfl
    | none =>
      obtain ⟨id, opcode, kind, inputs, children⟩ := node
      cases hnode
      rfl

section Fresh

variable {fuel : Nat} {id : String}

/-- A walk goes on at a node that is not placed. -/
theorem run_walkChain_fresh (hid : id ∉ σ) (hn : s.workflow.node? id = some n) :
    (walkChain s (fuel + 1) (some id)).run σ =
      ((plainNode s true n >>= placeBranches s (walkChain s fuel) n).run (id :: σ) >>= fun p =>
        mapValue (p.1 :: ·) ((walkChain s fuel n.next).run p.2)) := by
  rw [walkChain, run_get_bind]
  simp only [List.contains_iff_mem, hid, if_false, hn, StateT.run_bind, chainNode_eq]
  rfl

theorem run_walkChain_refused {e : ParseError} (hid : id ∉ σ)
    (hn : s.workflow.node? id = some n)
    (hplain : (plainNode s true n).run (id :: σ) = .error e) :
    (walkChain s (fuel + 1) (some id)).run σ = .error e := by
  rw [run_walkChain_fresh hid hn, StateT.run_bind, hplain]
  rfl

theorem run_walkChain_entered {node : TreeNode} (hid : id ∉ σ)
    (hn : s.workflow.node? id = some n)
    (hplain : (plainNode s true n).run (id :: σ) = .ok (node, τ)) :
    (walkChain s (fuel + 1) (some id)).run σ =
      match misfit? s.catalog n with
      | some name => .error (.unknownBranch n.id name)
      | none =>
        (walkSlots (walkChain s fuel) n (n.walkedSlots s.catalog)).run τ >>= fun p =>
          mapValue ({ node with children := p.1 } :: ·) ((walkChain s fuel n.next).run p.2) := by
  have hbare : node.children = [] := by
    obtain ⟨_, -, _, -, rfl⟩ := run_plainNode.mp hplain
    rfl
  rw [run_walkChain_fresh hid hn, StateT.run_bind, hplain]
  change ((placeBranches s (walkChain s fuel) n node).run τ >>= _) = _
  rw [placeBranches_eq hbare]
  cases misfit? s.catalog n with
  | some name => rfl
  | none =>
    simp only [StateT.run_bind, bind_assoc]
    rfl

end Fresh

/-- From heads among the nodes, walks that take the given number of steps come about by the rules,
as long as no more nodes are left. -/
def RunsWalks (s : Scope) (fuel : Nat) (walk : Option String → Placing (List TreeNode)) : Prop :=
  ∀ head σ, (∀ id ∈ head, id ∈ s.workflow.nodeIds) → Room s fuel σ →
    ∃ placed, Walk s head σ placed ((walk head).run σ)

theorem exists_branchWalk {fuel : Nat} (hw : RunsWalks s fuel walk)
    (hheads : ∀ slot, ∀ id ∈ n.branchHead? slot, id ∈ s.workflow.nodeIds) (slots : List String)
    (hroom : Room s fuel σ) :
    ∃ placed, BranchWalk s n slots σ placed ((walkSlots walk n slots).run σ) := by
  induction slots generalizing σ with
  | nil => exact ⟨[], .done⟩
  | cons slot slots ih =>
    obtain ⟨placed, hfirst⟩ := hw _ σ (hheads slot) hroom
    have hrun : (walkSlots walk n (slot :: slots)).run σ =
        ((walk (n.branchHead? slot)).run σ >>= fun p =>
          mapValue ((slot, p.1) :: ·) ((walkSlots walk n slots).run p.2)) := by
      simp only [walkSlots, List.mapM_cons, StateT.run_bind, bind_assoc]
      rfl
    rw [hrun]
    cases hr : (walk (n.branchHead? slot)).run σ with
    | error e =>
      rw [hr] at hfirst
      exact ⟨placed, .stuck hfirst⟩
    | ok p =>
      rw [hr] at hfirst
      have hkept := hfirst.placedOnce.kept p.1 p.2 rfl
      obtain ⟨more, hmore⟩ := ih (hroom.mono (List.Subset.trans (List.subset_append_left _ _) hkept))
      exact ⟨placed ++ more, .goesOn hfirst hmore⟩

theorem runsWalks_walkChain
    (hp : ∀ n ∈ s.workflow.nodes, ∀ p ∈ n.pointers, p.2 ∈ s.workflow.nodeIds) (fuel : Nat) :
    RunsWalks s fuel (walkChain s fuel) := by
  induction fuel with
  | zero =>
    intro head σ hhead hroom
    cases head with
    | none => exact ⟨[], .done⟩
    | some id =>
      refine ⟨[], .met ?_⟩
      by_contra hnot
      obtain ⟨k, hk, -⟩ := hroom.jump (hhead id rfl) hnot
      omega
  | succ fuel ih =>
    intro head σ hhead hroom
    cases head with
    | none => exact ⟨[], .done⟩
    | some id =>
      by_cases hid : id ∈ σ
      · have hrun : (walkChain s (fuel + 1) (some id)).run σ = .ok ([], σ) :=
          run_walkChain_some.mpr (.inl ⟨hid, rfl, rfl⟩)
        exact ⟨[], hrun ▸ .met hid⟩
      obtain ⟨n, hn⟩ := Workflow.exists_node? (hhead id rfl)
      have htarget (slot : LinkSlot) : ∀ t ∈ n.target? slot, t ∈ s.workflow.nodeIds :=
        fun t ht => Workflow.Leads.mem_nodeIds hp (Workflow.leads_iff.mpr ⟨n, hn, slot, ht⟩)
      obtain ⟨k, hk, hleft⟩ := hroom.jump (hhead id rfl) hid
      obtain rfl : fuel = k := by omega
      cases hplain : (plainNode s true n).run (id :: σ) with
      | error e =>
        rw [run_walkChain_refused hid hn hplain]
        exact ⟨[id], .refused hid hn hplain⟩
      | ok p =>
        obtain ⟨node, τ⟩ := p
        have hroomτ : Room s fuel τ := hleft.mono (subset_plainNode hplain)
        obtain ⟨below, hbelow⟩ := exists_branchWalk ih (fun slot => htarget (.branch slot))
          (n.walkedSlots s.catalog) hroomτ
        rw [run_walkChain_entered hid hn hplain]
        cases hfit : misfit? s.catalog n with
        | some name => exact ⟨[id], .misfit hid hn hplain hfit⟩
        | none =>
          dsimp only
          cases hb : (walkSlots (walkChain s fuel) n (n.walkedSlots s.catalog)).run τ with
          | error e =>
            rw [hb] at hbelow
            exact ⟨id :: below, .stuck hid hn hplain hfit hbelow⟩
          | ok q =>
            rw [hb] at hbelow
            have hkept := hbelow.placedOnce.kept q.1 q.2 rfl
            have hsub := List.Subset.trans (List.subset_append_left _ _) hkept
            obtain ⟨rest, hrest⟩ := ih n.next q.2 (htarget .next) (hroomτ.mono hsub)
            exact ⟨id :: (below ++ rest), .goesOn hid hn hplain hfit hbelow hrest⟩

end Walking

section Built

variable {d : Document} {c : Catalog} {w : Workflow}

/-- How the tree of a workflow comes about, and the nodes that the walk of its chain places. -/
inductive Builds (d : Document) (c : Catalog) (w : Workflow) :
    List String → Except ParseError WorkflowTree → Prop
  | ungraphed {e} (hg : LinkGraph.build w = .error e) : Builds d c w [] (.error e)
  | unstarted {g} (hg : LinkGraph.build w = .ok g) (hs : w.startId? = none) (hn : w.nodes ≠ []) :
    Builds d c w [] (.error (.missingStart w.name))
  | stuck {g placed e} (hg : LinkGraph.build w = .ok g) (hs : w.startId? = none → w.nodes = [])
    (hwalk : Walk (scopeOf d c w) w.startId? [] placed (.error e)) : Builds d c w placed (.error e)
  | walked {g placed nodes σ} (hg : LinkGraph.build w = .ok g)
    (hs : w.startId? = none → w.nodes = [])
    (hwalk : Walk (scopeOf d c w) w.startId? [] placed (.ok (nodes, σ))) :
    Builds d c w placed (((orphans (scopeOf d c w) w.nodes).run σ).map fun p =>
      ⟨w.name, w.interface, w.vars.map fun (k, v) => (k, literalOf v), nodes, p.1⟩)

theorem Builds.nodup {placed : List String} {r} (h : Builds d c w placed r) : placed.Nodup := by
  cases h with
  | ungraphed | unstarted => exact List.nodup_nil
  | stuck _ _ hwalk | walked _ _ hwalk => exact hwalk.placedOnce.nodup

/-- The chain is walked, and then the orphans are built. -/
theorem ofWorkflow_eq {g : LinkGraph} (hg : LinkGraph.build w = .ok g)
    (hs : w.startId? = none → w.nodes = []) :
    ofWorkflow d c w = ((walkChain (scopeOf d c w) w.nodes.length w.startId?).run [] >>= fun p =>
      ((orphans (scopeOf d c w) w.nodes).run p.2).map fun q =>
        ⟨w.name, w.interface, w.vars.map fun (k, v) => (k, literalOf v), p.1, q.1⟩) := by
  obtain ⟨-, rfl⟩ := LinkGraph.build_eq_ok.mp hg
  have hplaced : ofWorkflow d c w = (placeAll (scopeOf d c w)).run [] >>= fun p => .ok p.1 := by
    unfold ofWorkflow scopeOf
    rw [hg]
    cases hstart : w.startId? with
    | some start => rfl
    | none =>
      simp only [hs hstart, List.isEmpty_nil, if_true]
      rfl
  rw [hplaced, placeAll]
  simp only [StateT.run_bind, bind_assoc]
  rfl

theorem exists_builds (d : Document) (c : Catalog) (w : Workflow) :
    ∃ placed, Builds d c w placed (ofWorkflow d c w) := by
  cases hg : LinkGraph.build w with
  | error e =>
    have hrun : ofWorkflow d c w = .error e := by
      rw [ofWorkflow, hg]
      rfl
    exact ⟨[], hrun ▸ .ungraphed hg⟩
  | ok g =>
    by_cases hs : w.startId? = none → w.nodes = []
    · have hp := (LinkGraph.build_eq_ok.mp hg).1
      have hhead : ∀ id ∈ w.startId?, id ∈ w.nodeIds :=
        fun _ h => Workflow.mem_nodeIds_of_startId? h
      obtain ⟨placed, hwalk⟩ := runsWalks_walkChain (s := scopeOf d c w) hp w.nodes.length
        w.startId? [] hhead (room_all [])
      rw [ofWorkflow_eq hg hs]
      cases hr : (walkChain (scopeOf d c w) w.nodes.length w.startId?).run [] with
      | error e =>
        rw [hr] at hwalk
        exact ⟨placed, .stuck hg hs hwalk⟩
      | ok p =>
        rw [hr] at hwalk
        exact ⟨placed, .walked hg hs hwalk⟩
    · obtain ⟨hstart, hne⟩ := Classical.not_imp.mp hs
      have hrun : ofWorkflow d c w = .error (.missingStart w.name) := by
        unfold ofWorkflow
        rw [hg, hstart]
        simp only [List.isEmpty_iff, hne, if_false]
        rfl
      exact ⟨[], hrun ▸ .unstarted hg hstart hne⟩

end Built

/-- Resolving the inputs of nodes comes to an end. -/
structure ResolvesInEnd (s : Scope) (inChain : Bool) : Prop where
  /-- The inputs of a node are resolved by calls below it. -/
  inputs : ∀ n, resolveInputs s inChain s.workflow.nodes.length [n.id] n =
    answers (resolved s inChain) (.ofNode n)
  /-- No call goes without one that it needs. -/
  unrolls : resolved s inChain = unroll s inChain (resolved s inChain)
  only : ∀ answer, answer = unroll s inChain answer → answer = resolved s inChain
  descends : ∀ k k' : Call, k.Makes s inChain k' → k.Nests k' ∨ k.Pushes s k'
  ends : WellFounded fun k' k : Call => k.Makes s inChain k'
  unrepeated : ∀ n, ∀ k ∈ (Row.ofNode n).calls, ∀ k',
    ReflTransGen (Call.Makes s inChain) k k' → k'.above.Nodup

theorem resolvesInEnd (s : Scope) (inChain : Bool) : ResolvesInEnd s inChain where
  inputs n := by
    rw [resolveInputs_eq]
    exact resolveAll_eq_answers (Row.ofNode n)
  unrolls := resolved_eq_unroll s inChain
  only _ h := eq_resolved h
  descends _ _ h := h.nests_or_pushes
  ends := Call.wellFounded_makes s inChain
  unrepeated n k hk k' hmakes := by
    induction hmakes with
    | refl =>
      obtain ⟨⟨key, e⟩, -, rfl⟩ := List.mem_map.mp hk
      exact List.nodup_singleton n.id
    | tail _ hlast ih => exact hlast.nodup ih

/-- Building the tree of a workflow comes to an end. -/
structure BuildsInEnd (d : Document) (c : Catalog) (w : Workflow) : Prop where
  /-- The search along pointers has found all nodes of the chain. -/
  chain : (∀ n ∈ w.nodes, ∀ p ∈ n.pointers, p.2 ∈ w.nodeIds) →
    ∀ x, x ∈ (scopeOf d c w).chain ↔ w.Linked x
  resolves : ∀ inChain, ResolvesInEnd (scopeOf d c w) inChain
  builds : ∃ placed, Builds d c w placed (ofWorkflow d c w) ∧ placed.Nodup
  /-- Walks within walks do not place a node twice either. -/
  walks : ∀ head σ placed r, Walk (scopeOf d c w) head σ placed r → PlacedOnce σ placed r

/-- The tree of any workflow of any document is built in the end, whatever its pointers and references
lead to. -/
theorem builds_in_end (d : Document) (c : Catalog) (w : Workflow) : BuildsInEnd d c w where
  chain hp _ := mem_scopeOf_chain hp
  resolves inChain := resolvesInEnd (scopeOf d c w) inChain
  builds := by
    obtain ⟨placed, h⟩ := exists_builds d c w
    exact ⟨placed, h, h.nodup⟩
  walks _ _ _ _ h := h.placedOnce

/-- The start node leads back to itself, and the reporter that it uses uses itself. -/
example : ofWorkflow ⟨[]⟩ pickCatalog ⟨"m", {}, [],
    [⟨"start", startOpcode, [("IN", .node "r")], some "start", []⟩,
      ⟨"r", "pick", [("IN", .node "r")], none, []⟩]⟩ = .error (.cyclicReporter "r") := by
  rfl

end Tree

end BlockFlow

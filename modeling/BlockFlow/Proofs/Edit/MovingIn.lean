import BlockFlow.Proofs.Edit.Branching
import BlockFlow.Proofs.Edit.Clearing
import BlockFlow.Proofs.Tree.InPlace
import BlockFlow.Proofs.Tree.Inlining

/-!
Orphans that are moved into an input. Main statement: the nodes that are left are linked as before, and
what the moved ones referenced is as it was, unless the input belongs to it.
-/

namespace BlockFlow

open Relation InputExpr

namespace InputExpr

variable {key : String} {e : InputExpr} {inputs : Inputs} {b : String}

theorem nodeRefsIn_put_subset (h : b ∈ nodeRefsIn (put key e inputs)) :
    b ∈ e.nodeRefs ∨ b ∈ nodeRefsIn inputs := by
  obtain ⟨front, old, back, hinputs, hput, -⟩ := exists_put key e inputs
  rw [hput, nodeRefsIn_append, nodeRefsIn] at h
  rw [hinputs, nodeRefsIn_append, nodeRefsIn_append]
  simp only [List.mem_append] at h ⊢
  tauto

theorem mem_nodeRefsIn_put (h : b ∈ e.nodeRefs) : b ∈ nodeRefsIn (put key e inputs) := by
  obtain ⟨front, old, back, -, hput, -⟩ := exists_put key e inputs
  rw [hput, nodeRefsIn_append, nodeRefsIn]
  exact List.mem_append_right _ (List.mem_append_left _ h)

theorem reportersIn_append (w : Workflow) (owner : String) (front back : Inputs) :
    reportersIn w owner (front ++ back) = reportersIn w owner front ++ reportersIn w owner back := by
  induction front with
  | nil => rfl
  | cons i front ih =>
    obtain ⟨k, v⟩ := i
    rw [List.cons_append, reportersIn, reportersIn, ih, List.append_assoc]

variable {w : Workflow} {owner : String} {r : Reporter}

theorem reportersIn_put_subset (h : r ∈ reportersIn w owner (put key e inputs)) :
    r ∈ e.reporters w owner key ∨ r ∈ reportersIn w owner inputs := by
  obtain ⟨front, old, back, hinputs, hput, -⟩ := exists_put key e inputs
  rw [hput, reportersIn_append, reportersIn] at h
  rw [hinputs, reportersIn_append, reportersIn_append]
  simp only [List.mem_append] at h ⊢
  tauto

theorem mem_reportersIn_put (h : r ∈ e.reporters w owner key) :
    r ∈ reportersIn w owner (put key e inputs) := by
  obtain ⟨front, old, back, -, hput, -⟩ := exists_put key e inputs
  rw [hput, reportersIn_append, reportersIn]
  exact List.mem_append_right _ (List.mem_append_left _ h)

mutual

/-- Where no reference leads into `gone`, a value stays. -/
theorem Reset.eq_self {gone : List String} : (e : InputExpr) → {e' : InputExpr} →
    {above : List String} → Reset (fun _ r => r ∈ gone) above e e' → (∀ b ∈ e.nodeRefs, b ∉ gone) →
      e' = e
  | .node id, _, _, h, hnone => h.2 (hnone id (by simp [nodeRefs]))
  | .inline id opcode inputs, _, _, h, hnone => by
    obtain ⟨inputs', rfl, h⟩ := h
    rw [ResetIn.eq_self inputs h hnone]
  | .call workflow args, _, _, h, hnone => by
    obtain ⟨args', rfl, h⟩ := h
    rw [ResetIn.eq_self args h hnone]
  | .literal _, _, _, h, _ => h
  | .variable _, _, _, h, _ => h

theorem ResetIn.eq_self {gone : List String} : (inputs : Inputs) → {inputs' : Inputs} →
    {above : List String} → ResetIn (fun _ r => r ∈ gone) above inputs inputs' →
      (∀ b ∈ nodeRefsIn inputs, b ∉ gone) → inputs' = inputs
  | [], _, _, h, _ => h
  | (_, e) :: rest, _, _, h, hnone => by
    obtain ⟨e', rest', rfl, he, hrest⟩ := h
    rw [nodeRefsIn, List.forall_mem_append] at hnone
    rw [Reset.eq_self e he hnone.1, ResetIn.eq_self rest hrest hnone.2]

end

end InputExpr

namespace Throughout

variable {P : InputExpr → Prop} {Q : Inputs → Prop} {own : Option String → String → Prop}
  {calling : String → Prop} {hit : List String → String → Prop}

theorem put {key : String} {e : InputExpr} {inputs : Inputs}
    (h : Throughout P Q own calling fun _ _ => True) (he : P e) (hinputs : Q inputs) :
    Q (InputExpr.put key e inputs) := by
  induction inputs with
  | nil => exact (h.cons _ _ _).mpr ⟨trivial, he, hinputs⟩
  | cons i rest ih =>
    obtain ⟨k, v⟩ := i
    obtain ⟨-, hv, hrest⟩ := (h.cons _ _ _).mp hinputs
    rw [InputExpr.put]
    split
    · exact (h.cons _ _ _).mpr ⟨trivial, he, hrest⟩
    · exact (h.cons _ _ _).mpr ⟨trivial, hv, ih hrest⟩

mutual

/-- What holds throughout a value and of literals holds with literals for references. -/
theorem reset (h : Throughout P Q own calling fun _ _ => True) (hliteral : ∀ v, P (.literal v)) :
    (e : InputExpr) → {e' : InputExpr} → {above : List String} → Reset hit above e e' → P e → P e'
  | .node id, e', above, hreset, he => by
    by_cases hhit : hit above id
    · obtain ⟨v, rfl⟩ := hreset.1 hhit
      exact hliteral v
    · rw [hreset.2 hhit]
      exact he
  | .inline id opcode inputs, _, _, hreset, he => by
    obtain ⟨inputs', rfl, hreset⟩ := hreset
    obtain ⟨hown, hinputs⟩ := (h.inline _ _ _).mp he
    exact (h.inline _ _ _).mpr ⟨hown, resetIn h hliteral inputs hreset hinputs⟩
  | .call workflow args, _, _, hreset, he => by
    obtain ⟨args', rfl, hreset⟩ := hreset
    obtain ⟨hcalling, hargs⟩ := (h.call _ _).mp he
    exact (h.call _ _).mpr ⟨hcalling, resetIn h hliteral args hreset hargs⟩
  | .literal v, _, _, hreset, he => by
    rw [hreset]
    exact he
  | .variable name, _, _, hreset, he => by
    rw [hreset]
    exact he

theorem resetIn (h : Throughout P Q own calling fun _ _ => True) (hliteral : ∀ v, P (.literal v)) :
    (inputs : Inputs) → {inputs' : Inputs} → {above : List String} →
      ResetIn hit above inputs inputs' → Q inputs → Q inputs'
  | [], _, _, hreset, hinputs => by
    rw [hreset]
    exact hinputs
  | (_, e) :: rest, _, _, hreset, hinputs => by
    obtain ⟨e', rest', rfl, he, hrest⟩ := hreset
    obtain ⟨-, hvalue, hinputs⟩ := (h.cons _ _ _).mp hinputs
    exact (h.cons _ _ _).mpr
      ⟨trivial, reset h hliteral e he hvalue, resetIn h hliteral rest hrest hinputs⟩

end

end Throughout

namespace NodeDef

variable {c : Catalog} {gone : List String} {n : NodeDef} {s : LinkSlot} {t : String}

/-- Pointers that lead elsewhere stay. -/
theorem mem_pointers_cut (hnodup : n.branchNames.Nodup) (h : (s, t) ∈ n.pointers) (ht : t ∉ gone) :
    (s, t) ∈ (n.cut c gone).pointers := by
  have htarget := target?_of_mem_pointers hnodup h
  have hstays : ¬ (n.target? s).any gone.contains := by simpa [htarget] using ht
  cases s with
  | next =>
    refine mem_pointers_next.mpr ?_
    rw [cut, clearHits, if_neg hstays]
    exact htarget
  | branch name =>
    refine mem_pointers_branch.mpr (List.mem_filterMap.mpr ⟨_, mem_pointers_branch.mp h, ?_⟩)
    rw [if_neg hstays]

/-- A node without pointers into `gone` stays. -/
theorem cut_eq_self (h : ∀ p ∈ n.pointers, p.2 ∉ gone) : n.cut c gone = n := by
  refine clearHits_none fun s => ?_
  rw [Option.any_eq_false]
  intro t ht
  simpa using h _ (mem_pointers_of_target? ht)

end NodeDef

namespace Workflow

variable {c : Catalog} {w w' : Workflow} {g : LinkGraph} {o target key a b x : String}
  {e : InputExpr} {moved : List String} {n n' : NodeDef}

/-- The value `e` is the orphan `o` with the orphans that only it uses written in place, and those in
`moved` are in it. -/
structure Folds (w : Workflow) (o : String) (e : InputExpr) (moved : List String) : Prop where
  root : o ∈ moved
  below : ∀ m ∈ moved, ReflTransGen w.Cites o m
  refs : ∀ y, y ∈ e.nodeRefs ↔ y ∉ moved ∧ ∃ m ∈ moved, w.Cites m y
  unshared : ∀ m ∈ moved, m ≠ o → ∀ a, w.Cites a m → a ∈ moved
  unattached : ∀ m ∈ moved, ¬ w.Attached m
  written : ∃ n inputs, w.node? o = some n ∧ e = .inline (some o) n.opcode inputs ∧
    w.InPlaceIn n.inputs inputs

theorem folds_inlineOrphan (hg : LinkGraph.build w = .ok g) (ho : o ∈ w.orphanIds g)
    (hfree : ¬ TransGen w.Cites o o) (jumps : Nat) :
    w.Folds o (w.inlineOrphan (w.orphanIds g) (jumps + 1) o []).1
      (w.inlineOrphan (w.orphanIds g) (jumps + 1) o []).2 := by
  have horphan (x : String) (hx : x ∈ w.orphanIds g) : x ∈ w.nodeIds ∧ ¬ w.Attached x :=
    (mem_orphanIds hg).mp hx
  have hsub : w.orphanIds g ⊆ w.nodeIds := fun x hx => (horphan x hx).1
  obtain ⟨n, hn⟩ := exists_node? (hsub ho)
  obtain ⟨inputs, hvalue, hinputs⟩ : ∃ inputs,
      (w.inlineOrphan (w.orphanIds g) (jumps + 1) o []).1 = .inline (some o) n.opcode inputs ∧
        w.InPlaceIn n.inputs inputs := exists_inline_of_inlineOrphan hn jumps []
  obtain ⟨new, h⟩ := exists_inlineOrphan hn (taking_inlineOrphan hsub jumps) []
  have hwritten := writtenOut_inlineOrphan hsub (hsub ho) hfree jumps
  have hmoved := h.grown
  rw [List.nil_append, List.singleton_append] at hmoved
  rw [hmoved] at hwritten ⊢
  have hcounts (x : String) : (w.inlineOrphan (w.orphanIds g) (jumps + 1) o []).1.nodeRefs.count x +
      new.count x = ((o :: new).flatMap w.reporterRefs).count x := by
    rw [h.counts x, List.flatMap_cons, List.count_append]
  constructor
  case root => exact List.mem_cons_self
  case below =>
    refine List.forall_mem_cons.mpr ⟨.refl, fun m hm => ?_⟩
    obtain ⟨r, hr, hway⟩ := h.below m hm
    exact .head hr hway
  case refs =>
    intro y
    constructor
    · intro hy
      refine ⟨fun hm => hwritten.gone y hm hy, ?_⟩
      have hpos := List.count_pos_iff.mpr hy
      exact List.mem_flatMap.mp (List.count_pos_iff.mp (hcounts y ▸ Nat.add_pos_left hpos _))
    · rintro ⟨hy, hcited⟩
      have hpos := List.count_pos_iff.mpr (List.mem_flatMap.mpr hcited)
      have hnew := List.count_eq_zero.mpr fun hin => hy (List.mem_cons_of_mem o hin)
      rw [← hcounts y, hnew, Nat.add_zero] at hpos
      exact List.count_pos_iff.mp hpos
  case unshared => exact hwritten.unshared
  case unattached =>
    refine List.forall_mem_cons.mpr ⟨(horphan o ho).2, fun m hm => ?_⟩
    exact (horphan m (h.orphans m hm).1).2
  case written => exact ⟨n, inputs, hn, hvalue, hinputs⟩

/-- The second workflow is the first without the nodes in `moved`, to which neither pointers nor
references lead, and with the value `e` in an input of the node `target`. -/
structure MovedIn (c : Catalog) (moved : List String) (target key : String) (e : InputExpr)
    (w w' : Workflow) : Prop where
  name : w'.name = w.name
  interface : w'.interface = w.interface
  vars : w'.vars = w.vars
  nodes : List.Forall₂ (fun n n' => ∃ inputs, ResetIn (fun _ r => r ∈ moved) [] n.inputs inputs ∧
      n' = (n.cut c moved).withInputs (if n.id = target then put key e inputs else inputs))
    (w.nodes.filter fun n => !moved.contains n.id) w'.nodes

namespace Folds

variable (h : w.Folds o e moved)

include h

theorem linked_not_mem (ha : w.Linked a) : a ∉ moved :=
  fun hm => h.unattached a hm ⟨a, ha, .refl⟩

/-- A node of the chain keeps its pointers. -/
theorem cut_eq_self (hn : n ∈ w.nodes) (hlinked : w.Linked n.id) : n.cut c moved = n := by
  refine NodeDef.cut_eq_self fun p hp => ?_
  obtain ⟨first, hfirst, hway⟩ := hlinked
  exact h.linked_not_mem ⟨first, hfirst, hway.tail ⟨n, hn, rfl, p.1, hp⟩⟩

/-- References lead out of what is moved, and to what they led to before. -/
theorem exists_ref (hx : x ∉ moved) (hway : ReflTransGen w.Cites o x) :
    ∃ y ∈ e.nodeRefs, ReflTransGen w.Cites y x := by
  have hout (m : String) (hway : ReflTransGen w.Cites m x) (hm : m ∈ moved) :
      ∃ y ∈ e.nodeRefs, ReflTransGen w.Cites y x := by
    induction hway using ReflTransGen.head_induction_on with
    | refl => exact absurd hm hx
    | @head m y hstep hrest ih =>
      by_cases hy : y ∈ moved
      · exact ih hy
      · exact ⟨y, (h.refs y).mpr ⟨hy, m, hm, hstep⟩, hrest⟩
  exact hout o hway h.root

/-- The nodes outside that the moved ones reference, directly or through others. -/
def Outside (w : Workflow) (o : String) (moved : List String) (x : String) : Prop :=
  TransGen w.Cites o x ∧ x ∉ moved

theorem outside_refs : ∀ y ∈ e.nodeRefs, Outside w o moved y := by
  intro y hy
  obtain ⟨hout, m, hm, hcites⟩ := (h.refs y).mp hy
  exact ⟨.tail' (h.below m hm) hcites, hout⟩

variable (hfree : ¬ TransGen w.Cites o o)

include hfree

/-- They reference nothing that is moved. -/
theorem outside_closed (ha : Outside w o moved a) (hab : w.Cites a b) : Outside w o moved b := by
  have hway := ha.1.tail hab
  refine ⟨hway, fun hb => ?_⟩
  by_cases hroot : b = o
  · exact hfree (hroot ▸ hway)
  · exact ha.2 (h.unshared b hb hroot a hab)

theorem outside_of_reflTransGen (ha : Outside w o moved a) (hway : ReflTransGen w.Cites a b) :
    Outside w o moved b := by
  induction hway with
  | refl => exact ha
  | tail _ hstep ih => exact h.outside_closed hfree ih hstep

end Folds

namespace MovedIn

variable (h : w.MovedIn c moved target key e w')

include h

theorem exists_mem (hn' : n' ∈ w'.nodes) : ∃ n ∈ w.nodes, n.id ∉ moved ∧ ∃ inputs,
    ResetIn (fun _ r => r ∈ moved) [] n.inputs inputs ∧
      n' = (n.cut c moved).withInputs (if n.id = target then put key e inputs else inputs) :=
  exists_mem_of_kept h.nodes hn'

theorem nodup_nodeIds (hids : w.nodeIds.Nodup) : w'.nodeIds.Nodup := by
  rw [nodeIds_of_kept h.nodes fun _ _ ⟨_, _, hn⟩ => hn ▸ rfl]
  exact hids.sublist (List.filter_sublist.map _)

theorem exists_node? (ha : a ∉ moved) (hn : w.node? a = some n) : ∃ inputs,
    ResetIn (fun _ r => r ∈ moved) [] n.inputs inputs ∧ w'.node? a =
      some ((n.cut c moved).withInputs (if n.id = target then put key e inputs else inputs)) := by
  obtain ⟨_, hn', inputs, hinputs, rfl⟩ :=
    exists_node?_of_kept h.nodes (fun _ _ ⟨_, _, hn⟩ => hn ▸ rfl) ha hn
  exact ⟨inputs, hinputs, hn'⟩

theorem mem_nodeIds : a ∈ w'.nodeIds ↔ a ∈ w.nodeIds ∧ a ∉ moved :=
  mem_nodeIds_of_kept h.nodes fun _ _ ⟨_, _, hn⟩ => hn ▸ rfl

/-- What a node that is left was. -/
theorem exists_node (hn' : w'.node? a = some n') : ∃ n inputs, w.node? a = some n ∧ a ∉ moved ∧
    ResetIn (fun _ r => r ∈ moved) [] n.inputs inputs ∧
      n' = (n.cut c moved).withInputs (if n.id = target then put key e inputs else inputs) := by
  obtain ⟨hid, ha⟩ := h.mem_nodeIds.mp (mem_nodeIds_of_node? hn')
  obtain ⟨n, hn⟩ := Workflow.exists_node? hid
  obtain ⟨inputs, hinputs, hfound⟩ := h.exists_node? ha hn
  exact ⟨n, inputs, hn, ha, hinputs, Option.some.inj (hn'.symm.trans hfound)⟩

/-- Other nodes reference what they did. -/
theorem cites (ha : a ∉ moved) (hb : b ∉ moved) (hne : a ≠ target) (hab : w.Cites a b) :
    w'.Cites a b := by
  obtain ⟨n, hn⟩ := hab.exists_node?
  obtain ⟨inputs, hinputs, hn'⟩ := h.exists_node? ha hn
  have hid := node?_id hn
  rw [if_neg (hid ▸ hne)] at hn'
  refine (cites_iff hn').mpr ?_
  change b ∈ nodeRefsIn inputs
  rw [ResetIn.nodeRefsIn _ _ _ hinputs]
  exact List.mem_filter.mpr ⟨(cites_iff hn).mp hab, by simpa using hb⟩

/-- All that is new is what the value references. -/
theorem of_cites (hab : w'.Cites a b) :
    w.Cites a b ∧ b ∉ moved ∨ a = target ∧ b ∈ e.nodeRefs := by
  obtain ⟨n', hn'⟩ := hab.exists_node?
  obtain ⟨n, inputs, hn, -, hinputs, rfl⟩ := h.exists_node hn'
  have hb := (cites_iff hn').mp hab
  change b ∈ nodeRefsIn (if n.id = target then put key e inputs else inputs) at hb
  have hold (hb : b ∈ nodeRefsIn inputs) : w.Cites a b ∧ b ∉ moved := by
    rw [ResetIn.nodeRefsIn _ _ _ hinputs] at hb
    obtain ⟨hb, hkept⟩ := List.mem_filter.mp hb
    exact ⟨(cites_iff hn).mpr hb, by simpa using hkept⟩
  by_cases htarget : n.id = target
  · rw [if_pos htarget] at hb
    rcases nodeRefsIn_put_subset hb with hb | hb
    · exact .inr ⟨(node?_id hn).symm.trans htarget, hb⟩
    · exact .inl (hold hb)
  · rw [if_neg htarget] at hb
    exact .inl (hold hb)

/-- The node that the value is put into. -/
theorem exists_target (ht : target ∈ w.nodeIds) (hout : target ∉ moved) : ∃ t inputs,
    w.node? target = some t ∧ ResetIn (fun _ r => r ∈ moved) [] t.inputs inputs ∧
      w'.node? target = some ((t.cut c moved).withInputs (put key e inputs)) := by
  obtain ⟨t, ht⟩ := Workflow.exists_node? ht
  obtain ⟨inputs, hinputs, ht'⟩ := h.exists_node? hout ht
  rw [if_pos (node?_id ht)] at ht'
  exact ⟨t, inputs, ht, hinputs, ht'⟩

theorem cites_target (ht : target ∈ w.nodeIds) (hout : target ∉ moved) (hb : b ∈ e.nodeRefs) :
    w'.Cites target b := by
  obtain ⟨_, _, _, _, ht'⟩ := h.exists_target ht hout
  exact (cites_iff ht').mpr (mem_nodeRefsIn_put hb)

/-- The target consists of what the value does, among others. -/
theorem uses_value {r : Reporter} (ht : target ∈ w.nodeIds) (hout : target ∉ moved)
    (hr : r ∈ e.reporters w' target key) :
    ∃ t', w'.node? target = some t' ∧ w'.Uses t'.reporter r := by
  obtain ⟨t, inputs, htarget, -, ht'⟩ := h.exists_target ht hout
  refine ⟨_, ht', ?_⟩
  change r ∈ reportersIn w' t.id (put key e inputs)
  rw [node?_id htarget]
  exact mem_reportersIn_put hr

/-- References that lead to the target do so still, unless they lead through what is moved. -/
theorem cites_to_target (hway : ReflTransGen w.Cites a target) (ha : a ∉ moved)
    (hstay : ∀ b, ReflTransGen w.Cites a b → ReflTransGen w.Cites b target → b ∉ moved) :
    ReflTransGen w'.Cites a target := by
  induction hway using ReflTransGen.head_induction_on with
  | refl => exact .refl
  | @head a b hstep hrest ih =>
    by_cases hne : a = target
    · rw [hne]
    · have hb := hstay b (.single hstep) hrest
      refine .head (h.cites ha hb hne hstep) (ih hb fun x hx => ?_)
      exact hstay x (.head hstep hx)

/-- The nodes outside that the moved ones reference are as they were, unless the target is one. -/
theorem agreeOn (hfolds : w.Folds o e moved) (hfree : ¬ TransGen w.Cites o o)
    (htarget : ¬ TransGen w.Cites o target) : AgreeOn w w' (Folds.Outside w o moved) where
  closed a b ha hab := hfolds.outside_closed hfree ha hab
  same a ha := by
    cases hn : w.node? a with
    | none =>
      have hnone : w'.node? a = none := by
        by_contra hsome
        obtain ⟨n', hn'⟩ := Option.ne_none_iff_exists'.mp hsome
        obtain ⟨n, _, hfound, -⟩ := h.exists_node hn'
        rw [hn] at hfound
        cases hfound
      rw [hnone]
    | some n =>
      obtain ⟨inputs, hinputs, hn'⟩ := h.exists_node? ha.2 hn
      have hne : n.id ≠ target := by
        rintro heq
        rw [node?_id hn] at heq
        exact htarget (heq ▸ ha.1)
      have hsame : inputs = n.inputs := ResetIn.eq_self _ hinputs fun b hb =>
        (hfolds.outside_closed hfree ha ((cites_iff hn).mpr hb)).2
      rw [hn', if_neg hne, hsame]
      rfl

/-- The start stays. -/
theorem startId? {start : String} (hs : w.startId? = some start) (hout : start ∉ moved) :
    w'.startId? = some start := by
  obtain ⟨n, hn, rfl⟩ := Option.map_eq_some_iff.mp hs
  have hheads : w'.nodes.map (fun n => (n.id, n.opcode)) =
      (w.nodes.filter (·.id ∉ moved)).map fun n => (n.id, n.opcode) := by
    have hfilter : (w.nodes.filter (·.id ∉ moved)) = w.nodes.filter fun n => !moved.contains n.id :=
      List.filter_congr fun n _ => by simp
    rw [hfilter]
    refine (List.forall₂_eq_eq_eq ▸ List.forall₂_map_left_iff.mpr
      (List.forall₂_map_right_iff.mpr (h.nodes.imp ?_)) : _ = _).symm
    rintro n _ ⟨inputs, -, rfl⟩
    rfl
  have hkept := congrArg (Option.map fun n => (n.id, n.opcode)) (startNode?_filter hn hout)
  rw [startNode?_heads, ← hheads, ← startNode?_heads] at hkept
  obtain ⟨m, hm, hids⟩ := Option.map_eq_some_iff.mp hkept
  rw [Workflow.startId?, hm]
  exact congrArg some (Prod.mk.inj hids).1

section Links

variable (hbranches : ∀ n ∈ w.nodes, n.branchNames.Nodup)

include hbranches

/-- Pointers that are left lead where they did, and not to what is moved. -/
theorem of_names (hab : w'.Names a b) : w.Names a b ∧ b ∉ moved := by
  obtain ⟨n', hn', rfl, slot, hslot⟩ := hab
  obtain ⟨n, hn, -, inputs, -, rfl⟩ := h.exists_mem hn'
  obtain ⟨hpointer, hout⟩ := NodeDef.of_mem_pointers_cut (hbranches n hn) hslot
  exact ⟨⟨n, hn, rfl, slot, hpointer⟩, hout⟩

theorem pointers (hpointers : ∀ n ∈ w.nodes, ∀ p ∈ n.pointers, p.2 ∈ w.nodeIds) :
    ∀ n ∈ w'.nodes, ∀ p ∈ n.pointers, p.2 ∈ w'.nodeIds := by
  intro n' hn' p hp
  obtain ⟨⟨n, hn, -, slot, hslot⟩, hout⟩ := h.of_names hbranches ⟨n', hn', rfl, p.1, hp⟩
  exact h.mem_nodeIds.mpr ⟨hpointers n hn (slot, p.2) hslot, hout⟩

theorem names (hids : w.nodeIds.Nodup) (hab : w.Names a b) (ha : a ∉ moved) (hb : b ∉ moved) :
    w'.Names a b := by
  obtain ⟨n, hn, rfl, slot, hslot⟩ := hab
  obtain ⟨inputs, -, hn'⟩ := h.exists_node? ha (node?_eq_some hids hn)
  exact ⟨_, node?_mem hn', rfl, slot, NodeDef.mem_pointers_cut (hbranches n hn) hslot hb⟩

variable (hfolds : w.Folds o e moved) (hids : w.nodeIds.Nodup) {start : String}
  (hs : w.startId? = some start)

include hfolds hids hs

/-- What pointers lead to from the start they do still, and to nothing else. -/
theorem linked_iff : w'.Linked x ↔ w.Linked x := by
  have hout (a : String) (ha : ReflTransGen w.Names start a) : a ∉ moved :=
    hfolds.linked_not_mem ⟨start, hs, ha⟩
  have hs' := h.startId? hs (hout start .refl)
  constructor
  · rintro ⟨first, hfirst, hway⟩
    rw [hs'] at hfirst
    cases hfirst
    exact ⟨start, hs, ReflTransGen.mono (fun a b hab => (h.of_names hbranches hab).1) _ _ hway⟩
  · rintro ⟨first, hfirst, hway⟩
    obtain rfl := Option.some.inj (hs.symm.trans hfirst)
    refine ⟨start, hs', ?_⟩
    induction hway with
    | refl => exact .refl
    | @tail a b hab hstep ih =>
      exact ih.tail (h.names hbranches hids hstep (hout a hab) (hout b (hab.tail hstep)))

theorem reached_iff : w'.Reached x ↔ w.Reached x := by
  have hbranches' : ∀ n ∈ w'.nodes, n.branchNames.Nodup := by
    intro n' hn'
    obtain ⟨n, hn, -, inputs, -, rfl⟩ := h.exists_mem hn'
    rw [NodeDef.branchNames_withInputs, NodeDef.cut, NodeDef.branchNames_clearHits]
    exact (hbranches n hn).filter _
  rw [reached_iff_linked hids hbranches, reached_iff_linked (h.nodup_nodeIds hids) hbranches',
    h.linked_iff hbranches hfolds hids hs]

end Links

section Used

variable (hfolds : w.Folds o e moved) (hreached : ∀ a, w'.Reached a ↔ w.Reached a)

include hfolds hreached

/-- Where the target is used, it is so still. -/
theorem used_target (hu : w.Used target) : w'.Used target := by
  obtain ⟨z, hz, hway⟩ := hu
  refine ⟨z, (hreached z).mpr hz, h.cites_to_target hway ?_ fun b hb _ hm => ?_⟩
  · exact fun hm => hfolds.unattached z hm ⟨z, hz.linked, .refl⟩
  · exact hfolds.unattached b hm ⟨z, hz.linked, hb⟩

/-- Nodes that come to be used are outside ones that the moved ones reference. -/
theorem of_used (hfree : ¬ TransGen w.Cites o o) (htarget : ¬ TransGen w.Cites o target)
    (hx : w'.Used x) : w.Used x ∨ w.Used target ∧ Folds.Outside w o moved x := by
  obtain ⟨z, hz, hway⟩ := hx
  induction hway with
  | refl => exact .inl ⟨z, (hreached z).mp hz, .refl⟩
  | @tail a b hab hstep ih =>
    have hagree := h.agreeOn hfolds hfree htarget
    rcases ih with hused | ⟨hused, ha⟩
    · rcases h.of_cites hstep with ⟨hcites, -⟩ | ⟨rfl, hb⟩
      · obtain ⟨y, hy, hya⟩ := hused
        exact .inl ⟨y, hy, hya.tail hcites⟩
      · exact .inr ⟨hused, hfolds.outside_refs b hb⟩
    · exact .inr ⟨hused, hagree.closed a b ha ((hagree.cites_iff ha).mp hstep)⟩

end Used

end MovedIn

end Workflow

end BlockFlow

import BlockFlow.Proofs.Edit.Repointing
import BlockFlow.Proofs.Entries
import BlockFlow.Proofs.Form.Change

/-!
Setting pointers in the outline of a form. Main statement: the node that the changed form loads as
is the node with the pointer set.
-/

namespace BlockFlow

open Outcome

/-- The node with a pointer cleared. A branch that is kept leads nowhere, another one goes. -/
def NodeDef.cleared (keep : Bool) (n : NodeDef) : LinkSlot → NodeDef
  | .next => { n with next := none }
  | .branch name =>
    if keep then { n with branches := n.branches.map fun b => if b.1 = name then (name, none) else b }
    else { n with branches := n.branches.filter (·.1 ≠ name) }

/-- The node with a pointer to another one. A branch that it did not have comes last. -/
def NodeDef.linkedTo (target : String) (n : NodeDef) : LinkSlot → NodeDef
  | .next => { n with next := some target }
  | .branch name =>
    { n with branches :=
        if name ∈ n.branchNames then
          n.branches.map fun b => if b.1 = name then (name, some target) else b
        else n.branches ++ [(name, some target)] }

/-- Without an entry, the others are found as before. -/
theorem firstOf?_filter_ne {α : Type} (k k' : String) (es : List (String × α)) :
    firstOf? k' (es.filter (·.1 ≠ k)) = if k' = k then none else firstOf? k' es := by
  rw [firstOf?, List.find?_filter]
  by_cases hk : k' = k
  · subst hk
    rw [if_pos rfl, Option.map_eq_none_iff, List.find?_eq_none]
    rintro e - he
    simp at he
  · rw [if_neg hk, firstOf?]
    have hsame : (fun e : String × α => decide (decide (e.1 ≠ k) = true ∧ decide (e.1 = k') = true)) =
        fun e => decide (e.1 = k') := by
      funext e
      by_cases he : e.1 = k'
      · simp [he, hk]
      · simp [he]
    rw [hsame]

namespace Form

variable {k k' : String} {f : Form} {es bs : List (String × Form)}

theorem entryValues_eq_map (es : List (String × Form)) :
    entryValues es = es.map fun e => (.str e.1, e.2.value) := by
  induction es with
  | nil => rfl
  | cons e es ih => rw [entryValues, ih, List.map_cons]

theorem itemValues_eq_map (items : List Form) : itemValues items = items.map value := by
  induction items with
  | nil => rfl
  | cons f items ih => rw [itemValues, ih, List.map_cons]

theorem lookup_entryValues (k : String) (es : List (String × Form)) :
    Yaml.Value.lookup k (entryValues es) = (firstOf? k es).map value := by
  induction es with
  | nil => rfl
  | cons e es ih =>
    obtain ⟨k', f⟩ := e
    rw [entryValues, Yaml.Value.lookup, ih, firstOf?, firstOf?, List.find?_cons]
    by_cases hk : k' = k <;> simp [hk]

theorem firstOf?_put (k k' : String) (f : Form) (es : List (String × Form)) :
    firstOf? k' (put k f es) = if k' = k then some f else firstOf? k' es := by
  induction es with
  | nil =>
    by_cases hk : k' = k
    · simp [put, firstOf?, hk]
    · simp [put, firstOf?, hk, Ne.symm hk]
  | cons e es ih =>
    obtain ⟨k₀, g⟩ := e
    rw [put]
    by_cases hk₀ : k₀ = k
    · subst hk₀
      by_cases hk : k' = k₀
      · simp [firstOf?, hk]
      · simp [firstOf?, hk, Ne.symm hk]
    · rw [if_neg hk₀, firstOf?, List.find?_cons]
      by_cases hk : k₀ = k'
      · subst hk
        simp [firstOf?, hk₀]
      · have ih := ih
        rw [firstOf?] at ih
        simp only [hk, decide_false, ih]
        simp [firstOf?, hk]

theorem firstOf?_erase (k k' : String) (es : List (String × Form)) :
    firstOf? k' (erase k es) = if k' = k then none else firstOf? k' es := firstOf?_filter_ne k k' es

theorem mem_put {e : String × Form} (h : e ∈ put k f es) : e = (k, f) ∨ e ∈ es := by
  induction es with
  | nil => exact .inl (List.mem_singleton.mp h)
  | cons e' es ih =>
    rw [put] at h
    split at h
    · exact (List.mem_cons.mp h).imp_right (List.mem_cons_of_mem _)
    · rcases List.mem_cons.mp h with rfl | h
      · exact .inr List.mem_cons_self
      · exact (ih h).imp_right (List.mem_cons_of_mem _)

theorem keys_put (k : String) (f : Form) (es : List (String × Form)) :
    (put k f es).map (·.1) = if k ∈ es.map (·.1) then es.map (·.1) else es.map (·.1) ++ [k] := by
  induction es with
  | nil => rfl
  | cons e es ih =>
    obtain ⟨k', g⟩ := e
    rw [put]
    by_cases hk : k' = k
    · simp [hk]
    · rw [if_neg hk, List.map_cons, ih]
      by_cases hmem : k ∈ es.map (·.1)
      · simp [hmem]
      · simp [hmem, Ne.symm hk]

theorem nodup_put (h : (es.map (·.1)).Nodup) : ((put k f es).map (·.1)).Nodup := by
  rw [keys_put]
  split
  · exact h
  · rename_i hk
    exact List.nodup_append.mpr ⟨h, List.nodup_singleton k, fun a ha b hb heq =>
      hk (List.mem_singleton.mp hb ▸ heq ▸ ha)⟩

theorem entriesSound_iff : entriesSound es ↔ ∀ e ∈ es, isKey e.1 ∧ e.2.isSound := by
  induction es with
  | nil => simp [entriesSound]
  | cons e es ih => rw [entriesSound_cons, ih, List.forall_mem_cons, and_assoc]

theorem isKey_of_mem {name : String} (hes : entriesSound es) (h : name ∈ es.map (·.1)) :
    isKey name := by
  obtain ⟨e, he, rfl⟩ := List.mem_map.mp h
  exact (entriesSound_iff.mp hes e he).1

theorem entriesSound_put (h : entriesSound es) (hk : isKey k) (hf : f.isSound) :
    entriesSound (put k f es) := by
  rw [entriesSound_iff] at h ⊢
  intro e he
  rcases mem_put he with rfl | he
  · exact ⟨hk, hf⟩
  · exact h e he

theorem entriesSound_erase (k : String) (h : entriesSound es) : entriesSound (erase k es) := by
  rw [entriesSound_iff] at h ⊢
  exact fun e he => h e (List.mem_of_mem_filter he)

theorem nodup_erase (k : String) (h : (es.map (·.1)).Nodup) :
    ((erase k es).map (·.1)).Nodup := h.sublist (List.filter_sublist.map _)

/-- Whether a form may stand behind a pointer. -/
def IsPointer (f : Form) : Prop := f.value = .null ∨ ∃ s, f.value = .str s

/-- Where it points. -/
def target? (f : Form) : Option String :=
  match f.value with
  | .str s => if s.isEmpty then none else some s
  | _ => none

theorem loadPointer_some (id field : String) (f : Form) {t : Option String} :
    Document.loadPointer id field (some f.value) = .ok t ↔ f.IsPointer ∧ t = f.target? := by
  unfold Document.loadPointer IsPointer target?
  cases f.value <;> simp [eq_comm (b := t)]

theorem loadBranches_eq_ok (id : String) {heads : List (String × Option String)} :
    Document.loadBranches id (entryValues bs) = .ok heads ↔
      (∀ b ∈ bs, b.2.IsPointer) ∧ heads = bs.map fun b => (b.1, b.2.target?) := by
  rw [Document.loadBranches, entryValues_eq_map, List.mapM_map]
  refine mapM_check_eq_ok fun b head => ?_
  simp only [Function.comp, Document.keyName, bind_eq_ok, loadPointer_some, Except.ok.injEq,
    exists_eq_left', and_assoc]
  constructor
  · rintro ⟨t, hp, rfl, rfl⟩
    exact ⟨hp, rfl⟩
  · rintro ⟨hp, rfl⟩
    exact ⟨_, hp, rfl, rfl⟩

/-- The entries inside a value. -/
def inside : Form → List (String × Form)
  | map es => es
  | _ => []

/-- The branches among the entries of a node. -/
def branches (es : List (String × Form)) : List (String × Form) :=
  ((firstOf? "branches" es).map inside).getD []

/-- Entries that a node is loaded from. -/
structure Loads (es : List (String × Form)) (n : NodeDef) : Prop where
  sound : entriesSound es
  nodup : (es.map (·.1)).Nodup
  load : Document.loadNode n.id (.map (entryValues es)) = .ok n

variable {n : NodeDef} {es' : List (String × Form)} {hs : List (String × Option String)}
  {t : Option String}

/-- Collections on one line are empty. -/
theorem value_leaf_cases (l : Leaf) : (∀ vs, l.value = .map vs → vs = []) ∧
    ∀ vs, l.value = .seq vs → vs = [] := by
  cases l with
  | plain cs =>
    rw [Leaf.value]
    cases hv : Yaml.Plain.value? cs with
    | none => simp
    | some v =>
      obtain ⟨hmap, hseq⟩ := value?_plain_scalar hv
      exact ⟨fun vs h => absurd h (hmap vs), fun vs h => absurd h (hseq vs)⟩
  | quoted cs => simp [Leaf.value]
  | noItems => simp [Leaf.value]
  | noEntries => simp [Leaf.value]

theorem value_leaf_map {l : Leaf} {vs : List (Yaml.Value × Yaml.Value)} (h : l.value = .map vs) :
    vs = [] := (value_leaf_cases l).1 vs h

theorem value_leaf_seq {l : Leaf} {vs : List Yaml.Value} (h : l.value = .seq vs) : vs = [] :=
  (value_leaf_cases l).2 vs h

theorem loadHeads_eq_ok {id : String} (h : Document.loadHeads id (entryValues es) = .ok hs) :
    (∀ b ∈ branches es, b.2.IsPointer) ∧ hs = (branches es).map fun b => (b.1, b.2.target?) := by
  unfold Document.loadHeads Document.field? at h
  rw [lookup_entryValues] at h
  unfold branches
  cases hfind : firstOf? "branches" es with
  | none =>
    rw [hfind] at h
    cases h
    simp
  | some f =>
    rw [hfind] at h
    cases f with
    | map bs => exact (loadBranches_eq_ok id).mp h
    | bare =>
      cases h
      simp [inside]
    | seq items => cases h
    | leaf l =>
      cases hv : l.value <;> simp [value, hv] at h
      · simp [h, inside]
      · rw [value_leaf_map hv] at h
        cases h
        simp [inside]

/-- A node is loaded from what stands under four keys. -/
theorem Loads.of_parts (h : Loads es n) (hsound : entriesSound es')
    (hnodup : (es'.map (·.1)).Nodup) (hopcode : firstOf? "opcode" es' = firstOf? "opcode" es)
    (hinputs : firstOf? "inputs" es' = firstOf? "inputs" es)
    (hnext : Document.loadPointer n.id "next" ((firstOf? "next" es').map value) = .ok t)
    (hheads : Document.loadHeads n.id (entryValues es') = .ok hs) :
    Loads es' { n with next := t, branches := hs } := by
  obtain ⟨hid, hne, hop, hin, -, -⟩ := Document.loadNode_map_eq_ok.mp h.load
  rw [Document.loadSection_eq_lookup, lookup_entryValues] at hin
  rw [lookup_entryValues] at hop
  refine ⟨hsound, hnodup, Document.loadNode_map_eq_ok.mpr ⟨rfl, hne, ?_, ?_, ?_, hheads⟩⟩
  · rw [lookup_entryValues, hopcode, hop]
  · rw [Document.loadSection_eq_lookup, lookup_entryValues, hinputs, hin]
  · rw [lookup_entryValues, hnext]

/-- The targets of the pointers of a node that loads. -/
theorem Loads.pointers (h : Loads es n) : n.next = (firstOf? "next" es).bind target? ∧
    (∀ b ∈ branches es, b.2.IsPointer) ∧
      n.branches = (branches es).map fun b => (b.1, b.2.target?) := by
  obtain ⟨-, -, -, -, hnext, hheads⟩ := Document.loadNode_map_eq_ok.mp h.load
  refine ⟨?_, loadHeads_eq_ok hheads⟩
  rw [lookup_entryValues] at hnext
  cases hfind : firstOf? "next" es with
  | none =>
    rw [hfind, Option.map_none, Document.loadPointer, Except.ok.injEq] at hnext
    exact hnext.symm
  | some f =>
    rw [hfind, Option.map_some, loadPointer_some] at hnext
    exact hnext.2

theorem Loads.next (h : Loads es n) :
    Document.loadPointer n.id "next" ((firstOf? "next" es).map value) = .ok n.next := by
  rw [← lookup_entryValues]
  exact (Document.loadNode_map_eq_ok.mp h.load).2.2.2.2.1

theorem Loads.heads (h : Loads es n) :
    Document.loadHeads n.id (entryValues es) = .ok n.branches :=
  (Document.loadNode_map_eq_ok.mp h.load).2.2.2.2.2

/-- A node that loads has an opcode, so it has entries. -/
theorem Loads.sound_map (h : Loads es n) : (map es).isSound := by
  refine Form.isSound_map.mpr ⟨?_, h.nodup, h.sound⟩
  rintro rfl
  obtain ⟨-, -, hopcode, -⟩ := Document.loadNode_map_eq_ok.mp h.load
  cases hopcode

theorem loadHeads_congr {id : String} (h : firstOf? "branches" es' = firstOf? "branches" es) :
    Document.loadHeads id (entryValues es') = Document.loadHeads id (entryValues es) := by
  rw [Document.loadHeads, Document.loadHeads, Document.field?, Document.field?, lookup_entryValues,
    lookup_entryValues, h]

theorem loadHeads_map {id : String} (h : firstOf? "branches" es = some (.map bs))
    (hbs : ∀ b ∈ bs, b.2.IsPointer) : Document.loadHeads id (entryValues es) =
      .ok (bs.map fun b => (b.1, b.2.target?)) := by
  rw [Document.loadHeads, Document.field?, lookup_entryValues, h]
  exact (loadBranches_eq_ok id).mpr ⟨hbs, rfl⟩

theorem loadHeads_none {id : String} (h : firstOf? "branches" es = none) :
    Document.loadHeads id (entryValues es) = .ok [] := by
  rw [Document.loadHeads, Document.field?, lookup_entryValues, h]
  rfl

theorem isKey_next : isKey "next" := isKey_ownWord (by decide)

theorem isKey_branches : isKey "branches" := isKey_ownWord (by decide)

/-- The next node is given or replaced. -/
theorem Loads.put_next {f : Form} (h : Loads es n) (hf : f.isSound) (hp : f.IsPointer) :
    Loads (put "next" f es) { n with next := f.target? } := by
  refine h.of_parts (entriesSound_put h.sound isKey_next hf) (nodup_put h.nodup) ?_ ?_ ?_ ?_
  · rw [firstOf?_put, if_neg (by decide)]
  · rw [firstOf?_put, if_neg (by decide)]
  · rw [firstOf?_put, if_pos rfl, Option.map_some, loadPointer_some]
    exact ⟨hp, rfl⟩
  · exact (loadHeads_congr (by rw [firstOf?_put, if_neg (by decide)])).trans h.heads

theorem Loads.erase_next (h : Loads es n) :
    Loads (erase "next" es) { n with next := none } := by
  refine h.of_parts (entriesSound_erase _ h.sound) (nodup_erase _ h.nodup) ?_ ?_ ?_ ?_
  · rw [firstOf?_erase, if_neg (by decide)]
  · rw [firstOf?_erase, if_neg (by decide)]
  · rw [firstOf?_erase, if_pos rfl]
    rfl
  · exact (loadHeads_congr (by rw [firstOf?_erase, if_neg (by decide)])).trans h.heads

/-- The branches are given or replaced. -/
theorem Loads.put_branches (h : Loads es n) (hne : bs ≠ []) (hsound : entriesSound bs)
    (hnodup : (bs.map (·.1)).Nodup) (hbs : ∀ b ∈ bs, b.2.IsPointer) :
    Loads (put "branches" (.map bs) es)
      { n with branches := bs.map fun b => (b.1, b.2.target?) } := by
  refine h.of_parts (entriesSound_put h.sound isKey_branches (isSound_map.mpr ⟨hne, hnodup, hsound⟩))
    (nodup_put h.nodup) ?_ ?_ ?_ ?_
  · rw [firstOf?_put, if_neg (by decide)]
  · rw [firstOf?_put, if_neg (by decide)]
  · rw [firstOf?_put, if_neg (by decide), h.next]
  · exact loadHeads_map (by rw [firstOf?_put, if_pos rfl]) hbs

theorem Loads.erase_branches (h : Loads es n) :
    Loads (erase "branches" es) { n with branches := [] } := by
  refine h.of_parts (entriesSound_erase _ h.sound) (nodup_erase _ h.nodup) ?_ ?_ ?_ ?_
  · rw [firstOf?_erase, if_neg (by decide)]
  · rw [firstOf?_erase, if_neg (by decide)]
  · rw [firstOf?_erase, if_neg (by decide), h.next]
  · exact loadHeads_none (by rw [firstOf?_erase, if_pos rfl])

/-- A pointer to a node. -/
def pointer (target : String) : Form := .leaf (.plain target.toList)

theorem isSound_pointer (h : isKey k) : (pointer k).isSound := isPlainText_of_isKey h

theorem value_pointer (h : isKey k) : (pointer k).value = .str k := by
  rw [pointer, value, Leaf.value, value?_of_isKey h, Option.getD_some]

theorem isPointer_pointer (h : isKey k) : (pointer k).IsPointer := .inr ⟨k, value_pointer h⟩

theorem target?_pointer (h : isKey k) : (pointer k).target? = some k := by
  have hne : k ≠ "" := by
    rintro rfl
    exact absurd h (by decide)
  rw [target?, value_pointer h]
  simp [hne]

/-- A pointer that is kept and leads nowhere. -/
def nowhere : Form := .leaf (.plain "null".toList)

theorem isSound_nowhere : nowhere.isSound := by decide +kernel

theorem value_nowhere : nowhere.value = .null := rfl

/-- The pointers of a node with one of them set. -/
def pointed (slot : LinkSlot) (target : Option String) (s : LinkSlot) (old : Option String) :
    Option String := if s = slot then target else old

theorem repointed_next (n : NodeDef) (t : Option String) :
    n.Repointed (pointed .next t) { n with next := t } := by
  refine ⟨rfl, rfl, rfl, fun slot => ?_⟩
  cases slot with
  | next => rw [pointed, if_pos rfl, NodeDef.target?]
  | branch name => rw [pointed, if_neg nofun, NodeDef.target?, NodeDef.target?]; rfl

/-- A branch is set where the branches listed have another target for it. -/
theorem repointed_branches {name : String} (n : NodeDef) {bs : List (String × Option String)}
    (hbs : ∀ other, (firstOf? other bs).join = if other = name then t else n.branchHead? other) :
    n.Repointed (pointed (.branch name) t) { n with branches := bs } := by
  refine ⟨rfl, rfl, rfl, fun slot => ?_⟩
  cases slot with
  | next => rw [pointed, if_neg nofun, NodeDef.target?, NodeDef.target?]
  | branch other =>
    rw [NodeDef.target?, NodeDef.branchHead?, hbs, pointed, NodeDef.target?]
    simp only [LinkSlot.branch.injEq]

/-- Where the entries under one name get another target, the others lead where they did. -/
theorem join_firstOf?_set (name other : String) (t : Option String)
    (bs : List (String × Option String)) :
    (firstOf? other (bs.map fun b => if b.1 = name then (name, t) else b)).join =
      if other = name ∧ name ∈ bs.map (·.1) then t else (firstOf? other bs).join := by
  induction bs with
  | nil => simp [firstOf?]
  | cons b bs ih =>
    rw [List.map_cons, firstOf?, firstOf?, List.find?_cons, List.find?_cons]
    rw [firstOf?, firstOf?] at ih
    by_cases hb : b.1 = name
    · by_cases hother : other = name
      · simp [hb, hother]
      · simpa [hb, hother, Ne.symm hother] using ih
    · by_cases hother : b.1 = other
      · subst hother
        simp [hb]
      · have hcons : name ∈ (b :: bs).map (·.1) ↔ name ∈ bs.map (·.1) := by
          rw [List.map_cons, List.mem_cons, or_iff_right (Ne.symm hb)]
        simp only [hcons]
        simpa [hb, hother] using ih

/-- Clearing a pointer sets it to nothing. -/
theorem repointed_cleared (keep : Bool) (n : NodeDef) (slot : LinkSlot) :
    n.Repointed (pointed slot none) (n.cleared keep slot) := by
  cases slot with
  | next => exact repointed_next n none
  | branch name =>
    cases keep with
    | true =>
      refine repointed_branches n fun other => ?_
      rw [join_firstOf?_set, NodeDef.branchHead?]
      by_cases hother : other = name
      · subst hother
        by_cases hmem : other ∈ n.branches.map (·.1)
        · rw [if_pos ⟨rfl, hmem⟩, if_pos rfl]
        · rw [if_neg (fun h => hmem h.2), if_pos rfl,
            Option.not_isSome_iff_eq_none.mp (mt isSome_firstOf?.mp hmem)]
          rfl
      · rw [if_neg (fun h => hother h.1), if_neg hother]
    | false =>
      refine repointed_branches n fun other => ?_
      refine (congrArg Option.join (firstOf?_filter_ne name other n.branches)).trans ?_
      split <;> rfl

/-- A pointer to another node is set to it. -/
theorem repointed_linkedTo (target : String) (n : NodeDef) (slot : LinkSlot) :
    n.Repointed (pointed slot (some target)) (n.linkedTo target slot) := by
  cases slot with
  | next => exact repointed_next n (some target)
  | branch name =>
    refine repointed_branches n fun other => ?_
    by_cases hmem : name ∈ n.branchNames
    · rw [if_pos hmem, join_firstOf?_set, NodeDef.branchHead?]
      exact if_congr (and_iff_left hmem) rfl rfl
    · have hnone : firstOf? name n.branches = none :=
        Option.not_isSome_iff_eq_none.mp (mt isSome_firstOf?.mp hmem)
      rw [if_neg hmem, NodeDef.branchHead?]
      rw [firstOf?, Option.map_eq_none_iff] at hnone
      rw [firstOf?, firstOf?, List.find?_append]
      by_cases hother : other = name
      · subst hother
        simp [hnone]
      · simp [hother, Ne.symm hother]

theorem cleared_self {name : String} (keep : Bool) (h : name ∉ n.branchNames) :
    n.cleared keep (.branch name) = n := by
  have hne (b : String × Option String) (hb : b ∈ n.branches) : b.1 ≠ name :=
    fun heq => h (heq ▸ List.mem_map_of_mem hb)
  cases keep with
  | true =>
    exact congrArg (fun bs => { n with branches := bs })
      ((List.map_congr_left fun b hb => if_neg (hne b hb)).trans (List.map_id _))
  | false =>
    exact congrArg (fun bs => { n with branches := bs })
      (List.filter_eq_self.mpr fun b hb => decide_eq_true (hne b hb))

/-- Where the branches written in some entries lead to. -/
def targets (bs : List (String × Form)) : List (String × Option String) :=
  bs.map fun b => (b.1, b.2.target?)

theorem keys_targets : (targets bs).map (·.1) = bs.map (·.1) := by
  rw [targets, List.map_map]
  rfl

theorem targets_append (bs bs' : List (String × Form)) :
    targets (bs ++ bs') = targets bs ++ targets bs' := List.map_append

/-- Changing one of the branches. -/
theorem targets_middle {name : String} {bs₁ bs₂ : List (String × Form)}
    {g : String × Option String → String × Option String}
    (h : name ∉ bs₁.map (·.1) ∧ name ∉ bs₂.map (·.1)) :
    ((targets (bs₁ ++ (name, f) :: bs₂)).map fun b => if b.1 = name then g b else b) =
      targets bs₁ ++ g (name, f.target?) :: targets bs₂ := by
  rw [← keys_targets, ← keys_targets] at h
  rw [targets_append]
  exact map_ite_middle rfl h

/-- A branch that is there gets another target. -/
theorem targets_put {name : String} (f : Form) (h : name ∈ bs.map (·.1))
    (hnodup : (bs.map (·.1)).Nodup) : targets (put name f bs) =
      (targets bs).map fun b => if b.1 = name then (name, f.target?) else b := by
  obtain ⟨bs₁, g, bs₂, rfl, h₁, h₂⟩ := exists_split h hnodup
  rw [put_append h₁, targets_append, targets_middle ⟨h₁, h₂⟩]
  rfl

/-- The node that is read when a branch is written. -/
theorem linkedTo_eq_put {target name : String} (ht : isKey target)
    (hbranches : n.branches = targets bs) (hnodup : (bs.map (·.1)).Nodup) :
    n.linkedTo target (.branch name) =
      { n with branches := targets (put name (pointer target) bs) } := by
  have hnames : n.branchNames = bs.map (·.1) := by rw [NodeDef.branchNames, hbranches, keys_targets]
  refine congrArg (fun branches => ({ n with branches } : NodeDef)) ?_
  rw [hnames, hbranches]
  split
  · rename_i hname
    rw [targets_put _ hname hnodup, target?_pointer ht]
  · rename_i hname
    rw [put_of_not_mem hname, targets_append, targets, targets, List.map_singleton,
      target?_pointer ht]

theorem targets_erase (name : String) (bs : List (String × Form)) :
    targets (erase name bs) = (targets bs).filter (·.1 ≠ name) := by
  rw [targets, targets, erase, List.filter_map]
  rfl

theorem put_ne_nil (k : String) (f : Form) (es : List (String × Form)) : put k f es ≠ [] := by
  cases es with
  | nil => exact List.cons_ne_nil _ _
  | cons e es =>
    rw [put]
    split <;> exact List.cons_ne_nil _ _

theorem sound_inside {f : Form} (h : f.isSound) :
    entriesSound f.inside ∧ (f.inside.map (·.1)).Nodup := by
  cases f with
  | map bs => exact ⟨(isSound_map.mp h).2.2, (isSound_map.mp h).2.1⟩
  | _ => exact ⟨rfl, List.nodup_nil⟩

/-- The branches of a node that loads are sound. -/
theorem Loads.branches_sound (h : Loads es n) :
    entriesSound (branches es) ∧ ((branches es).map (·.1)).Nodup := by
  unfold branches
  cases hfind : firstOf? "branches" es with
  | none => exact ⟨rfl, List.nodup_nil⟩
  | some g =>
    obtain ⟨e, he, rfl⟩ := Option.map_eq_some_iff.mp hfind
    exact sound_inside (entriesSound_iff.mp h.sound e (List.mem_of_find?_eq_some he)).2

variable {es₁ es₂ : List (String × Form)} {g : Form}

theorem firstOf?_append (h : k ∉ es₁.map (·.1)) :
    firstOf? k (es₁ ++ (k, g) :: es₂) = some g := by
  have hnone : es₁.find? (fun e => decide (e.1 = k)) = none := by
    rw [List.find?_eq_none]
    intro e he heq
    exact h (List.mem_map.mpr ⟨e, he, by simpa using heq⟩)
  rw [firstOf?, List.find?_append, hnone, Option.none_or, List.find?_cons_of_pos (by simp)]
  rfl

theorem firstOf?_eq_none (h : k ∉ es.map (·.1)) : firstOf? k es = none := by
  rw [firstOf?, Option.map_eq_none_iff, List.find?_eq_none]
  intro e he heq
  exact h (List.mem_map.mpr ⟨e, he, by simpa using heq⟩)

/-- The entry whose value a key has. -/
theorem exists_split_of_firstOf? {k : String} {g : Form} (h : firstOf? k es = some g) :
    ∃ es₁ es₂, es = es₁ ++ (k, g) :: es₂ ∧ k ∉ es₁.map (·.1) := by
  obtain ⟨e, he, rfl⟩ := Option.map_eq_some_iff.mp h
  obtain ⟨hk, es₁, es₂, rfl, hnot⟩ := List.find?_eq_some_iff_append.mp he
  obtain rfl : e.1 = k := by simpa using hk
  refine ⟨es₁, es₂, rfl, fun hmem => ?_⟩
  obtain ⟨e', he', heq⟩ := List.mem_map.mp hmem
  simpa [heq] using hnot e' he'

theorem branches_append (h : "branches" ∉ es₁.map (·.1)) :
    branches (es₁ ++ ("branches", g) :: es₂) = g.inside := by
  rw [branches, firstOf?_append h]
  rfl

theorem branches_none (h : "branches" ∉ es.map (·.1)) : branches es = [] := by
  rw [branches, firstOf?_eq_none h]
  rfl

/-- Branches that load are no list. -/
theorem Loads.not_seq (h : Loads (es₁ ++ ("branches", g) :: es₂) n)
    (h₁ : "branches" ∉ es₁.map (·.1)) (items : List Form) : g ≠ .seq items := by
  rintro rfl
  have hheads := h.heads
  rw [Document.loadHeads, Document.field?, lookup_entryValues, firstOf?_append h₁] at hheads
  cases hheads

/-- Entries with the same inputs. -/
def SameInputs (es es' : List (String × Form)) : Prop :=
  firstOf? "inputs" es' = firstOf? "inputs" es

theorem SameInputs.put (hk : "inputs" ≠ k) : SameInputs es (Form.put k f es) := by
  rw [SameInputs, firstOf?_put, if_neg hk]

theorem SameInputs.erase (hk : "inputs" ≠ k) : SameInputs es (Form.erase k es) := by
  rw [SameInputs, firstOf?_erase, if_neg hk]

end Form

namespace Slot

open Form (Loads SameInputs pointer pointed nowhere isKey_next isKey_branches branches)

variable {s : Slot} {es : List (String × Form)} {n : NodeDef} {keep : Bool} {target name : String}

theorem setPointer_next (h : Loads es n) (ht : Form.isKey target) : ∃ es',
    (s.fill (.map es)).setPointer s.line keep .next (some target) = s.fill (.map es') ∧
      Loads es' (n.linkedTo target .next) ∧ SameInputs es es' := by
  have hput := h.put_next (Form.isSound_pointer ht) (Form.isPointer_pointer ht)
  rw [Form.target?_pointer ht] at hput
  refine ⟨_, ?_, hput, .put (by decide)⟩
  rw [Outline.setPointer, Form.renderString_of_isKey ht]
  exact setScalar_fill (l := .plain target.toList) h.sound isKey_next h.nodup

theorem clearPointer_next (h : Loads es n) : ∃ es',
    (s.fill (.map es)).setPointer s.line keep .next none = s.fill (.map es') ∧
      Loads es' (n.cleared keep .next) ∧ SameInputs es es' := by
  refine ⟨_, ?_, h.erase_next, .erase (by decide)⟩
  rw [Outline.setPointer]
  exact removeEntry_fill h.sound h.nodup

/-- Nothing below a key, and no entries. -/
theorem fill_bare : s.fill .bare = s.fill (.map []) := rfl

/-- A value that has given way to entries is read as them. -/
theorem fill_opened {g : Form} (hg : ∀ items, g ≠ .seq items) :
    s.fill (opened g) = s.fill (.map g.inside) := by
  cases g with
  | seq items => exact absurd rfl (hg items)
  | _ => rfl

variable {g : Form} {k : String} {es₁ es₂ : List (String × Form)}

theorem setScalar_inner {l : Form.Leaf} (hes : Form.entriesSound (es₁ ++ (k, g) :: es₂))
    (hg : ∀ items, g ≠ .seq items) (hname : Form.isKey name) :
    (s.fill (.map (es₁ ++ (k, opened g) :: es₂))).setScalar
      (s.line + 1 + (Form.mappingLines es₁).length) name l.text =
        s.fill (.map (es₁ ++ (k, .map (Form.put name (.leaf l) g.inside)) :: es₂)) := by
  obtain ⟨-, hk, hsound, h₂⟩ := sound_entry hes
  obtain ⟨hinside, hnodup⟩ := Form.sound_inside hsound
  rw [← fill_inner hk h₂, ← line_inner hk h₂, fill_opened hg,
    setScalar_fill hinside hname hnodup, fill_inner]

theorem setPointer_branch (h : Loads es n) (ht : Form.isKey target) (hname : Form.isKey name) :
    ∃ es', (s.fill (.map es)).setPointer s.line keep (.branch name) (some target) =
      s.fill (.map es') ∧ Loads es' (n.linkedTo target (.branch name)) ∧ SameInputs es es' := by
  obtain ⟨hsound, hnodup⟩ := h.branches_sound
  obtain ⟨-, hbs, hbranches⟩ := h.pointers
  rw [Form.linkedTo_eq_put ht hbranches hnodup]
  have hput := h.put_branches (Form.put_ne_nil name (pointer target) (branches es))
    (Form.entriesSound_put hsound hname (Form.isSound_pointer ht)) (Form.nodup_put hnodup)
    (fun b hb => by
      rcases Form.mem_put hb with rfl | hb
      · exact Form.isPointer_pointer ht
      · exact hbs b hb)
  refine ⟨_, ?_, hput, .put (by decide)⟩
  rw [Outline.setPointer, Form.renderString_of_isKey ht]
  by_cases hmem : "branches" ∈ es.map (·.1)
  · obtain ⟨es₁, g, es₂, rfl, h₁, h₂⟩ := Form.exists_split hmem h.nodup
    rw [ensureBlock_fill_append h.sound h₁, Form.put_append h₁, Form.branches_append h₁]
    exact setScalar_inner (l := .plain target.toList) h.sound (h.not_seq h₁) hname
  · have hbare := Form.entriesSound_append.mpr ⟨h.sound, (by decide +kernel :
      Form.entriesSound [("branches", .bare)])⟩
    rw [ensureBlock_fill_none h.sound isKey_branches hmem, Form.put_of_not_mem hmem,
      Form.branches_none hmem]
    exact setScalar_inner (l := .plain target.toList) (g := .bare) hbare
      (fun _ heq => by cases heq) hname

theorem entries_leaf {l : Form.Leaf} : (s.fill (.leaf l)).entries s.line = [] := by
  have hsolid : Form.Solid (Form.bodyLines (.leaf l)) := List.forall_mem_nil _
  have hdepth : (s.fill (.leaf l)).bodyDepth? s.line = none := bodyDepth?_fill hsolid
  rw [Outline.entries]
  simp [isItem_fill, hdepth]

/-- Branches that are no block stay as they are. -/
theorem clearBranch_leaf {l : Form.Leaf} (hes : Form.entriesSound (es₁ ++ ("branches", .leaf l) :: es₂))
    (h₁ : "branches" ∉ es₁.map (·.1)) :
    (s.fill (.map (es₁ ++ ("branches", .leaf l) :: es₂))).setPointer s.line keep (.branch name) none =
      s.fill (.map (es₁ ++ ("branches", .leaf l) :: es₂)) := by
  obtain ⟨-, hk, hl, h₂⟩ := sound_entry hes
  have hentries := entries_leaf (s := s.inner es₁ es₂ "branches" hk h₂) (l := l)
  have hvalue := value_fill (s := s.inner es₁ es₂ "branches" hk h₂) hl
  rw [fill_inner, line_inner] at hentries hvalue
  have hwritten : (Form.written (.leaf l)).isEmpty = false := by
    simpa [Form.written] using text_ne_nil hl
  have hfind : (s.fill (.map (es₁ ++ ("branches", .leaf l) :: es₂))).find?
      (s.line + 1 + (Form.mappingLines es₁).length) name = none := by
    rw [Outline.find?, hentries]
    rfl
  simp [Outline.setPointer, find?_fill_append hes h₁, hfind, Outline.removeEntry,
    Outline.findBelow?, hentries, hvalue, hwritten]

section Block

variable (name) (hes : Form.entriesSound (es₁ ++ ("branches", g) :: es₂)) (hopen : opened g = g)
  (hseq : ∀ items, g ≠ .seq items)

include hes hopen hseq

theorem find?_inner : (s.fill (.map (es₁ ++ ("branches", g) :: es₂))).find?
    (s.line + 1 + (Form.mappingLines es₁).length) name =
      ((places (s.line + 1 + (Form.mappingLines es₁).length + 1) g.inside).find?
        (·.2 = name.toList)).map (·.1) := by
  obtain ⟨-, hk, hsound, h₂⟩ := sound_entry hes
  rw [← fill_inner hk h₂, ← line_inner hk h₂, ← hopen,
    fill_opened hseq, find?_fill (Form.sound_inside hsound).1, hopen]

theorem removeEntry_block : (s.fill (.map (es₁ ++ ("branches", g) :: es₂))).removeEntry
    (s.line + 1 + (Form.mappingLines es₁).length) name =
      s.fill (.map (es₁ ++ ("branches", .map (Form.erase name g.inside)) :: es₂)) := by
  obtain ⟨-, hk, hsound, h₂⟩ := sound_entry hes
  obtain ⟨hinside, hnodup⟩ := Form.sound_inside hsound
  rw [← fill_inner hk h₂, ← line_inner hk h₂, ← hopen, fill_opened hseq,
    removeEntry_fill hinside hnodup, hopen, fill_inner]

variable (h₁ : "branches" ∉ es₁.map (·.1))

include h₁

/-- A branch that is kept is set to null. -/
theorem keepBranch_block : (s.fill (.map (es₁ ++ ("branches", g) :: es₂))).setPointer s.line true
    (.branch name) none = s.fill (.map (es₁ ++ ("branches",
      if name ∈ g.inside.map (·.1) then .map (Form.put name nowhere g.inside) else g) :: es₂)) := by
  obtain ⟨-, -, hsound, -⟩ := sound_entry hes
  have hfind := find?_inner (s := s) name hes hopen hseq
  rw [Outline.setPointer]
  simp only [find?_fill_append hes h₁, if_true]
  by_cases hname : name ∈ g.inside.map (·.1)
  · obtain ⟨⟨k, f⟩, hmem, rfl⟩ := List.mem_map.mp hname
    have hkey := (Form.entriesSound_iff.mp (Form.sound_inside hsound).1 _ hmem).1
    obtain ⟨bs₁, f', bs₂, hsplit, hfront, -⟩ := Form.exists_split hname (Form.sound_inside hsound).2
    have hset := setScalar_inner (s := s) (l := .plain "null".toList) hes hseq hkey
    rw [hopen] at hset
    rw [hsplit, find?_places_append f' _ hfront] at hfind
    rw [hfind, if_pos hname]
    exact hset
  · rw [find?_places_none _ hname] at hfind
    rw [hfind, if_neg hname]
    rfl

/-- A branch that is not kept is left out, and with the last one the branches. -/
theorem dropBranch_block : (s.fill (.map (es₁ ++ ("branches", g) :: es₂))).setPointer s.line false
    (.branch name) none = s.fill (.map (if Form.erase name g.inside = [] then es₁ ++ es₂
      else es₁ ++ ("branches", .map (Form.erase name g.inside)) :: es₂)) := by
  obtain ⟨hsound₁, hk, hsound, hsound₂⟩ := sound_entry hes
  have hremove := removeEntry_block (s := s) name hes hopen hseq
  have hentries := entries_fill (s := s.inner es₁ es₂ "branches" hk hsound₂)
    (Form.entriesSound_erase name (Form.sound_inside hsound).1)
  rw [Outline.setPointer]
  simp only [find?_fill_append hes h₁, Bool.false_eq_true, if_false, hremove]
  rw [← fill_inner hk hsound₂, ← line_inner hk hsound₂, hentries]
  by_cases herased : Form.erase name g.inside = []
  · have hbare : Form.entriesSound (es₁ ++ ("branches", .bare) :: es₂) :=
      Form.entriesSound_append.mpr ⟨hsound₁, Form.entriesSound_cons.mpr ⟨hk, rfl, hsound₂⟩⟩
    have hvalue := value_fill (s := s.inner es₁ es₂ "branches" hk hsound₂) (f := .bare) rfl
    have hempty : ((places ((s.inner es₁ es₂ "branches" hk hsound₂).line + 1) []).isEmpty &&
        (Form.written .bare).isEmpty) = true := rfl
    rw [herased, ← fill_bare, hvalue, if_pos hempty, if_pos rfl, fill_inner, Outline.removeEntry,
      findBelow?_fill_append hbare h₁]
    exact remove_entry hbare rfl
  · obtain ⟨⟨k, f⟩, bs, hcons⟩ := List.exists_cons_of_ne_nil herased
    rw [if_neg herased, fill_inner, hcons]
    rfl

end Block

theorem clearPointer_branch (h : Loads es n) : ∃ es',
    (s.fill (.map es)).setPointer s.line keep (.branch name) none = s.fill (.map es') ∧
      Loads es' (n.cleared keep (.branch name)) ∧ SameInputs es es' := by
  obtain ⟨hsound, hnodup⟩ := h.branches_sound
  obtain ⟨-, hbs, hbranches⟩ := h.pointers
  have hself (hnot : name ∉ (branches es).map (·.1)) : n.cleared keep (.branch name) = n :=
    Form.cleared_self keep (by rwa [NodeDef.branchNames, hbranches, List.map_map])
  by_cases hmem : "branches" ∈ es.map (·.1)
  · obtain ⟨es₁, g, es₂, rfl, h₁, h₂⟩ := Form.exists_split hmem h.nodup
    have hinside : branches (es₁ ++ ("branches", g) :: es₂) = g.inside := Form.branches_append h₁
    by_cases hleaf : ∃ l, g = .leaf l
    · obtain ⟨l, rfl⟩ := hleaf
      exact ⟨_, clearBranch_leaf h.sound h₁, by rwa [hself (by simp [hinside, Form.inside])], rfl⟩
    · have hopen : opened g = g := by
        cases g with
        | leaf l => exact absurd ⟨l, rfl⟩ hleaf
        | _ => rfl
      have hseq := h.not_seq h₁
      cases keep with
      | true =>
        have hkeep := keepBranch_block (s := s) name h.sound hopen hseq h₁
        by_cases hname : name ∈ g.inside.map (·.1)
        · have hkey := Form.isKey_of_mem (hinside ▸ hsound) hname
          have hput := h.put_branches (Form.put_ne_nil name nowhere (branches _))
            (Form.entriesSound_put hsound hkey Form.isSound_nowhere) (Form.nodup_put hnodup)
            (fun b hb => by
              rcases Form.mem_put hb with rfl | hb
              · exact .inl Form.value_nowhere
              · exact hbs b hb)
          have hkept : n.cleared true (.branch name) = { n with
              branches := Form.targets (Form.put name nowhere g.inside) } := by
            refine congrArg (fun bs => { n with branches := bs }) ?_
            rw [Form.targets_put _ hname (hinside ▸ hnodup), ← hinside, hbranches]
            rfl
          rw [hkept, ← hinside, hkeep, if_pos hname, ← Form.put_append h₁]
          exact ⟨_, by rw [hinside], hput, .put (by decide)⟩
        · exact ⟨_, hkeep.trans (by rw [if_neg hname]), by rwa [hself (hinside ▸ hname)], rfl⟩
      | false =>
        have hdrop := dropBranch_block (s := s) name h.sound hopen hseq h₁
        have herase : n.cleared false (.branch name) = { n with
            branches := Form.targets (Form.erase name g.inside) } := by
          refine congrArg (fun bs => { n with branches := bs }) ?_
          rw [Form.targets_erase, ← hinside, hbranches]
          rfl
        rw [herase]
        by_cases herased : Form.erase name g.inside = []
        · rw [herased] at hdrop ⊢
          rw [hdrop, if_pos rfl, ← Form.erase_append h₁ h₂]
          exact ⟨_, rfl, h.erase_branches, .erase (by decide)⟩
        · rw [if_neg herased] at hdrop
          have hput := h.put_branches herased (Form.entriesSound_erase name (hinside ▸ hsound))
            (Form.nodup_erase name (hinside ▸ hnodup)) fun b hb =>
              hbs b (hinside ▸ List.mem_of_mem_filter hb)
          rw [hdrop, ← Form.put_append h₁]
          exact ⟨_, rfl, hput, .put (by decide)⟩
  · refine ⟨_, ?_, by rwa [hself (by rw [Form.branches_none hmem]; exact List.not_mem_nil)], rfl⟩
    rw [Outline.setPointer, find?_fill_none h.sound hmem]

/-- The node that is read once a pointer of it is cleared. -/
theorem clearPointer_fill (keep : Bool) (slot : LinkSlot) (h : Loads es n) : ∃ es',
    (s.fill (.map es)).setPointer s.line keep slot none = s.fill (.map es') ∧
      Loads es' (n.cleared keep slot) ∧ SameInputs es es' := by
  cases slot with
  | next => exact clearPointer_next h
  | branch name => exact clearPointer_branch h

/-- The node that is read once a pointer of it leads to another node. -/
theorem linkPointer_fill {slot : LinkSlot} (keep : Bool) (h : Loads es n) (ht : Form.isKey target)
    (hslot : ∀ name, slot = .branch name → Form.isKey name) : ∃ es',
      (s.fill (.map es)).setPointer s.line keep slot (some target) = s.fill (.map es') ∧
        Loads es' (n.linkedTo target slot) ∧ SameInputs es es' := by
  cases slot with
  | next => exact setPointer_next h ht
  | branch name => exact setPointer_branch h ht (hslot name rfl)

/-- The node that is read once a pointer of it is set. -/
theorem setPointer_fill {slot : LinkSlot} {target : Option String} (keep : Bool) (h : Loads es n)
    (htarget : ∀ t ∈ target, Form.isKey t)
    (hslot : ∀ t ∈ target, ∀ name, slot = .branch name → Form.isKey name) : ∃ es' n',
      (s.fill (.map es)).setPointer s.line keep slot target = s.fill (.map es') ∧
        Loads es' n' ∧ SameInputs es es' ∧ n.Repointed (pointed slot target) n' := by
  cases target with
  | none =>
    obtain ⟨es', hset, hload, hinputs⟩ := clearPointer_fill keep slot h
    exact ⟨es', _, hset, hload, hinputs, Form.repointed_cleared keep n slot⟩
  | some t =>
    obtain ⟨es', hset, hload, hinputs⟩ := linkPointer_fill keep h (htarget t rfl) (hslot t rfl)
    exact ⟨es', _, hset, hload, hinputs, Form.repointed_linkedTo t n slot⟩

end Slot

end BlockFlow

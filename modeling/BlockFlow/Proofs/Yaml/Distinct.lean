import BlockFlow.Yaml.Load

/-!
Values that are read have distinct keys. Main statement: no mapping anywhere in the value of a text
has two keys that are the same.
-/

namespace BlockFlow.Yaml

/-- No two keys are the same. -/
def Value.DistinctKeys (entries : List (Value × Value)) : Prop :=
  entries.Pairwise fun e e' => e.1.same e'.1 = false

namespace Value

mutual

/-- The mappings in a value, its keys aside. -/
def mappings : Value → List (List (Value × Value))
  | .seq items => itemsMappings items
  | .map entries => entries :: entriesMappings entries
  | .tagged _ v => v.mappings
  | _ => []

def itemsMappings : List Value → List (List (Value × Value))
  | [] => []
  | item :: rest => item.mappings ++ itemsMappings rest

def entriesMappings : List (Value × Value) → List (List (Value × Value))
  | [] => []
  | (_, v) :: rest => v.mappings ++ entriesMappings rest

end

section Mappings

variable {P : List (Value × Value) → Prop} {m entries : List (Value × Value)} {items : List Value}

theorem mem_itemsMappings : m ∈ itemsMappings items ↔ ∃ item ∈ items, m ∈ item.mappings := by
  induction items with
  | nil => simp [itemsMappings]
  | cons item items ih =>
    simp only [itemsMappings, List.mem_append, ih, List.mem_cons, exists_eq_or_imp]

theorem mem_entriesMappings : m ∈ entriesMappings entries ↔ ∃ e ∈ entries, m ∈ e.2.mappings := by
  induction entries with
  | nil => simp [entriesMappings]
  | cons e entries ih =>
    simp only [entriesMappings, List.mem_append, ih, List.mem_cons, exists_eq_or_imp]

/-- Every mapping in the value satisfies `P`. -/
def Everywhere (P : List (Value × Value) → Prop) (v : Value) : Prop := ∀ m ∈ v.mappings, P m

theorem everywhere_seq : (Value.seq items).Everywhere P ↔ ∀ item ∈ items, item.Everywhere P := by
  simp only [Everywhere, mappings, mem_itemsMappings]
  exact ⟨fun h item hitem m hm => h m ⟨item, hitem, hm⟩,
    fun h m ⟨item, hitem, hm⟩ => h item hitem m hm⟩

theorem everywhere_map :
    (Value.map entries).Everywhere P ↔ P entries ∧ ∀ e ∈ entries, e.2.Everywhere P := by
  simp only [Everywhere, mappings, List.forall_mem_cons, mem_entriesMappings]
  exact and_congr_right fun _ => ⟨fun h e he m hm => h m ⟨e, he, hm⟩,
    fun h m ⟨e, he, hm⟩ => h e he m hm⟩

theorem sizeOf_lt_of_mem_entries {e : Value × Value} (h : e ∈ entries) :
    sizeOf e.2 < sizeOf (Value.map entries) := by
  obtain ⟨k, v⟩ := e
  have hlt := List.sizeOf_lt_of_mem h
  simp only [Value.map.sizeOf_spec, Prod.mk.sizeOf_spec] at hlt ⊢
  omega

end Mappings

/-- The keys of every mapping in the value differ. -/
def Distinct (v : Value) : Prop := v.Everywhere DistinctKeys

end Value

namespace Node

section Gives

variable {α β γ : Type} {P : α → Prop} {Q : β → Prop}

/-- Whatever the work gives satisfies `P`. -/
def Gives (m : Work α) (P : α → Prop) : Prop := ∀ s r, m.run s = some r → P r.1

theorem gives_true (m : Work α) : Gives m fun _ => True := fun _ _ _ => trivial

theorem gives_pure {a : α} (h : P a) : Gives (pure a) P := by
  intro s r hr
  cases hr
  exact h

theorem gives_failure : Gives failure P := by
  intro s r hr
  cases hr

theorem gives_lift {x : Option α} (h : ∀ a, x = some a → P a) : Gives (StateT.lift x) P := by
  intro s r hr
  obtain ⟨a, ha, hr⟩ := Option.bind_eq_some_iff.mp hr
  cases hr
  exact h a ha

theorem Gives.bind {m : Work α} {f : α → Work β} (hm : Gives m P) (hf : ∀ a, P a → Gives (f a) Q) :
    Gives (m >>= f) Q := by
  intro s r hr
  obtain ⟨⟨a, t⟩, ha, hr⟩ := Option.bind_eq_some_iff.mp hr
  exact hf a (hm s _ ha) t r hr

theorem gives_mapM {f : γ → Work β} {xs : List γ} (h : ∀ x ∈ xs, Gives (f x) Q) :
    Gives (xs.mapM f) fun ys => ∀ y ∈ ys, Q y := by
  induction xs with
  | nil => exact gives_pure (List.forall_mem_nil _)
  | cons x xs ih =>
    rw [List.forall_mem_cons] at h
    rw [List.mapM_cons]
    refine h.1.bind fun y hy => (ih h.2).bind fun ys hys => gives_pure ?_
    exact List.forall_mem_cons.mpr ⟨hy, hys⟩

theorem gives_foldlM {f : β → γ → Work β} {xs : List γ} {b : β}
    (hf : ∀ b x, Q b → Gives (f b x) Q) (hb : Q b) : Gives (xs.foldlM f b) Q := by
  induction xs generalizing b with
  | nil => exact gives_pure hb
  | cons x xs ih =>
    rw [List.foldlM_cons]
    exact (hf b x hb).bind fun b' hb' => ih hb'

end Gives

theorem mappings_of_plain {text : List Char} {v : Value} (h : Plain.value? text = some v) :
    v.mappings = [] := by
  unfold Plain.value? at h
  split at h
  · cases h
    rfl
  · split at h
    · cases h
      rfl
    · split at h
      · cases h
        rfl
      · cases h
      · split at h <;> cases h <;> rfl

theorem mappings_of_scalarValue? {kept plain : Bool} {tag : Option Tag} {text : List Char}
    {v : Value} (h : scalarValue? kept tag plain text = some v) : v.mappings = [] := by
  have hplain (b : Bool) (h : (if b then Plain.value? text else some (.str (String.ofList text))) =
      some v) : v.mappings = [] := by
    split at h
    · exact mappings_of_plain h
    · cases h
      rfl
  unfold scalarValue? at h
  dsimp only at h
  split at h
  · exact hplain _ h
  · split at h
    · obtain ⟨b, -, rfl⟩ := Option.map_eq_some_iff.mp h
      rfl
    · split at h
      · split at h <;> cases h
        rfl
      · split at h
        · obtain ⟨x, -, rfl⟩ := Option.map_eq_some_iff.mp h
          rfl
        · split at h
          · split at h <;> cases h
            rfl
          · exact hplain _ h

/-- What one more entry with a new key keeps of the entries before it. -/
theorem distinctKeys_append {entries : List (Value × Value)} {key : Value} (v : Value)
    (hkeys : Value.DistinctKeys entries) (h : checkNew? entries key = some ()) :
    Value.DistinctKeys (entries ++ [(key, v)]) := by
  have hnew : ∀ e ∈ entries, e.1.same key = false := by
    unfold checkNew? at h
    split at h
    · cases h
    · rename_i hany
      simpa using hany
  refine List.pairwise_append.mpr ⟨hkeys, List.pairwise_singleton _ _, fun e he e' he' => ?_⟩
  rw [List.mem_singleton.mp he']
  exact hnew e he

/-- A kept tag around a value changes none of its keys. -/
theorem Gives.tagged {m : Work Value} (name : Option (List Char)) (h : Gives m Value.Distinct) :
    Gives (do
      let inner ← m
      return match name with
        | some name => .tagged (tagName name) inner
        | none => inner) Value.Distinct := by
  refine h.bind fun inner hinner => gives_pure ?_
  cases name with
  | none => exact hinner
  | some name => exact hinner

theorem gives_value (s : Scope) (depth : Nat) (kept : Bool) (node : Node) :
    Gives (value s depth kept node) Value.Distinct := by
  induction depth using Nat.strongRecOn generalizing kept node with
  | _ depth ih =>
    unfold value
    refine (gives_true _).bind fun followed _ => ?_
    dsimp only
    split
    · exact .tagged _ gives_failure
    · refine .tagged _ (gives_lift fun v h m hm => ?_)
      rw [mappings_of_scalarValue? h] at hm
      cases hm
    · cases depth with
      | zero => exact .tagged _ gives_failure
      | succ depth =>
        have hpart := fun kept node => ih depth depth.lt_succ_self kept node
        refine (gives_mapM fun item _ => hpart false item).bind fun values h => ?_
        exact .tagged _ (gives_pure (Value.everywhere_seq.mpr h))
    · cases depth with
      | zero => exact .tagged _ gives_failure
      | succ depth =>
        have hpart := fun kept node => ih depth depth.lt_succ_self kept node
        -- the fold keeps of the entries so far what is asked of a mapping
        refine Gives.bind (P := fun done => Value.DistinctKeys done ∧ ∀ e ∈ done, e.2.Distinct)
          ?_ fun values h => .tagged _ (gives_pure (Value.everywhere_map.mpr h))
        refine gives_foldlM (fun done entry hdone => ?_) ⟨.nil, List.forall_mem_nil _⟩
        refine (hpart _ entry.1).bind fun key _ => ?_
        refine Gives.bind (gives_lift fun u hu => hu) fun u hnew => ?_
        refine (hpart _ entry.2).bind fun v hv => gives_pure ?_
        refine ⟨distinctKeys_append v hdone.1 hnew, List.forall_mem_append.mpr ⟨hdone.2, ?_⟩⟩
        intro e he
        rw [List.mem_singleton.mp he]
        exact hv

end Node

/-- No mapping of a value that is read has two keys that are the same. -/
theorem distinct_of_load? {cs : List Char} {v : Value} (h : load? cs = some v) : v.Distinct := by
  obtain ⟨tokens, -, h⟩ := Option.bind_eq_some_iff.mp h
  obtain ⟨node, -, h⟩ := Option.bind_eq_some_iff.mp h
  obtain ⟨r, hr, rfl⟩ := Option.map_eq_some_iff.mp h
  exact Node.gives_value _ _ _ _ _ r hr

end BlockFlow.Yaml

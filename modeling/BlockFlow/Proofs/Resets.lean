import BlockFlow.Document.Basic
import Mathlib.Data.List.Nodup

/-!
Literals put in place of references. Main statement: putting them, one after the other, at the paths
of all references to some nodes leaves a value without references to these.
-/

namespace BlockFlow.InputExpr

mutual

/-- Whether inputs are told by their names, at any depth. -/
def Distinct : InputExpr → Prop
  | .inline _ _ inputs => DistinctIn inputs
  | .call _ args => DistinctIn args
  | _ => True

def DistinctIn : Inputs → Prop
  | [] => True
  | (key, e) :: rest => key ∉ rest.map (·.1) ∧ e.Distinct ∧ DistinctIn rest

end

mutual

/-- The second value is the first with literals for the references that are hit, told by their path
and the node they name. -/
def Reset (hit : List String → String → Prop) (above : List String) :
    InputExpr → InputExpr → Prop
  | .node id, e' => (hit above id → ∃ v, e' = .literal v) ∧ (¬ hit above id → e' = .node id)
  | .inline id opcode inputs, e' =>
    ∃ inputs', e' = .inline id opcode inputs' ∧ ResetIn hit above inputs inputs'
  | .call name args, e' => ∃ args', e' = .call name args' ∧ ResetIn hit above args args'
  | .literal v, e' => e' = .literal v
  | .variable name, e' => e' = .variable name

def ResetIn (hit : List String → String → Prop) (above : List String) : Inputs → Inputs → Prop
  | [], inputs' => inputs' = []
  | (key, e) :: rest, inputs' => ∃ e' rest', inputs' = (key, e') :: rest' ∧
      Reset hit (above ++ [key]) e e' ∧ ResetIn hit above rest rest'

end

theorem DistinctIn.nodup {inputs : Inputs} (h : DistinctIn inputs) : (inputs.map (·.1)).Nodup := by
  induction inputs with
  | nil => exact .nil
  | cons i rest ih => exact List.nodup_cons.mpr ⟨h.1, ih h.2.2⟩

theorem DistinctIn.of_mem {inputs : Inputs} {i : String × InputExpr} (h : DistinctIn inputs)
    (hi : i ∈ inputs) : i.2.Distinct := by
  induction inputs with
  | nil => cases hi
  | cons j rest ih =>
    rcases List.mem_cons.mp hi with rfl | hi
    · exact h.2.1
    · exact ih h.2.2 hi

variable {hit hit' : List String → String → Prop}

mutual

theorem Reset.congr : (e e' : InputExpr) → (above : List String) → Reset hit above e e' →
    (∀ p ∈ e.refPaths above, hit p.1 p.2 ↔ hit' p.1 p.2) → Reset hit' above e e'
  | .node id, e', above, h, hsame => by
    have hid := hsame (above, id) (by simp [refPaths])
    exact ⟨fun hh => h.1 (hid.mpr hh), fun hh => h.2 fun hin => hh (hid.mp hin)⟩
  | .inline _ _ inputs, e', above, h, hsame => by
    obtain ⟨inputs', rfl, h⟩ := h
    exact ⟨inputs', rfl, ResetIn.congr inputs inputs' above h hsame⟩
  | .call _ args, e', above, h, hsame => by
    obtain ⟨args', rfl, h⟩ := h
    exact ⟨args', rfl, ResetIn.congr args args' above h hsame⟩
  | .literal _, _, _, h, _ => h
  | .variable _, _, _, h, _ => h

theorem ResetIn.congr : (inputs inputs' : Inputs) → (above : List String) →
    ResetIn hit above inputs inputs' →
    (∀ p ∈ refPathsIn above inputs, hit p.1 p.2 ↔ hit' p.1 p.2) →
    ResetIn hit' above inputs inputs'
  | [], _, _, h, _ => h
  | (_, e) :: rest, inputs', above, h, hsame => by
    obtain ⟨e', rest', rfl, he, hrest⟩ := h
    rw [refPathsIn] at hsame
    exact ⟨e', rest', rfl,
      Reset.congr e e' _ he fun p hp => hsame p (List.mem_append_left _ hp),
      ResetIn.congr rest rest' above hrest fun p hp => hsame p (List.mem_append_right _ hp)⟩

end

mutual

theorem Reset.self : (e : InputExpr) → (above : List String) → Reset (fun _ _ => False) above e e
  | .node _, _ => ⟨False.elim, fun _ => rfl⟩
  | .inline _ _ inputs, above => ⟨inputs, rfl, ResetIn.self inputs above⟩
  | .call _ args, above => ⟨args, rfl, ResetIn.self args above⟩
  | .literal _, _ => rfl
  | .variable _, _ => rfl

theorem ResetIn.self : (inputs : Inputs) → (above : List String) →
    ResetIn (fun _ _ => False) above inputs inputs
  | [], _ => rfl
  | (_, e) :: rest, above => ⟨e, rest, rfl, Reset.self e _, ResetIn.self rest above⟩

end

mutual

/-- Without the references to some nodes, those to other nodes are left. -/
theorem Reset.nodeRefs {gone : List String} : (e e' : InputExpr) → (above : List String) →
    Reset (fun _ id => id ∈ gone) above e e' →
    e'.nodeRefs = e.nodeRefs.filter fun id => !gone.contains id
  | .node id, e', above, h => by
    by_cases hid : id ∈ gone
    · obtain ⟨v, rfl⟩ := h.1 hid
      simp [InputExpr.nodeRefs, hid]
    · rw [h.2 hid]
      simp [InputExpr.nodeRefs, hid]
  | .inline _ _ inputs, e', above, h => by
    obtain ⟨inputs', rfl, h⟩ := h
    exact ResetIn.nodeRefsIn inputs inputs' above h
  | .call _ args, e', above, h => by
    obtain ⟨args', rfl, h⟩ := h
    exact ResetIn.nodeRefsIn args args' above h
  | .literal _, _, _, h => by
    rw [h]
    rfl
  | .variable _, _, _, h => by
    rw [h]
    rfl

theorem ResetIn.nodeRefsIn {gone : List String} : (inputs inputs' : Inputs) →
    (above : List String) → ResetIn (fun _ id => id ∈ gone) above inputs inputs' →
    InputExpr.nodeRefsIn inputs' =
      (InputExpr.nodeRefsIn inputs).filter fun id => !gone.contains id
  | [], _, _, h => by
    rw [h]
    rfl
  | (_, e) :: rest, inputs', above, h => by
    obtain ⟨e', rest', rfl, he, hrest⟩ := h
    rw [InputExpr.nodeRefsIn, InputExpr.nodeRefsIn, Reset.nodeRefs e e' _ he,
      ResetIn.nodeRefsIn rest rest' above hrest, List.filter_append]

end

mutual

/-- References stand below where their value does. -/
theorem exists_of_mem_refPaths {p : List String × String} : (e : InputExpr) →
    (above : List String) → p ∈ e.refPaths above → ∃ t, p.1 = above ++ t
  | .node id, above, h => ⟨[], by rw [List.mem_singleton.mp h, List.append_nil]⟩
  | .inline _ _ inputs, above, h => by
    obtain ⟨key, t, hp, -⟩ := exists_of_mem_refPathsIn inputs above h
    exact ⟨key :: t, hp⟩
  | .call _ args, above, h => by
    obtain ⟨key, t, hp, -⟩ := exists_of_mem_refPathsIn args above h
    exact ⟨key :: t, hp⟩
  | .literal _, _, h => by cases h
  | .variable _, _, h => by cases h

theorem exists_of_mem_refPathsIn {p : List String × String} : (inputs : Inputs) →
    (above : List String) → p ∈ refPathsIn above inputs →
    ∃ key t, p.1 = above ++ key :: t ∧ key ∈ inputs.map (·.1)
  | [], _, h => by cases h
  | (key, e) :: rest, above, h => by
    rw [refPathsIn] at h
    rcases List.mem_append.mp h with h | h
    · obtain ⟨t, ht⟩ := exists_of_mem_refPaths e _ h
      exact ⟨key, t, by simpa using ht, List.mem_cons_self⟩
    · obtain ⟨key', t, ht, hkey⟩ := exists_of_mem_refPathsIn rest above h
      exact ⟨key', t, ht, List.mem_cons_of_mem _ hkey⟩

end

/-- Changes the inputs or arguments of a value. -/
def mapInputs (f : Inputs → Inputs) : InputExpr → InputExpr
  | .inline id opcode inputs => .inline id opcode (f inputs)
  | .call name args => .call name (f args)
  | e => e

/-- Puts a value at a path of input names. -/
def setAt (v : InputExpr) : List String → Inputs → Inputs
  | [], inputs => inputs
  | key :: rest, inputs => inputs.map fun i =>
    if i.1 = key then (key, if rest.isEmpty then v else mapInputs (setAt v rest) i.2) else i

theorem ResetIn.keys : (inputs inputs' : Inputs) → (above : List String) →
    ResetIn hit above inputs inputs' → inputs'.map (·.1) = inputs.map (·.1)
  | [], _, _, h => by rw [h]
  | (_, e) :: rest, inputs', above, h => by
    obtain ⟨e', rest', rfl, -, hrest⟩ := h
    rw [List.map_cons, List.map_cons, ResetIn.keys rest rest' above hrest]

/-- Other references stand below other names. -/
theorem ne_of_mem_refPathsIn {p : List String × String} {key : String} {q above : List String}
    {inputs : Inputs} (hp : p ∈ refPathsIn above inputs) (hkey : key ∉ inputs.map (·.1)) :
    p.1 ≠ above ++ key :: q := by
  obtain ⟨key', t, ht, hmem⟩ := exists_of_mem_refPathsIn inputs above hp
  intro heq
  rw [ht, List.append_right_inj, List.cons.injEq] at heq
  exact hkey (heq.1 ▸ hmem)

theorem ne_of_mem_refPaths {p : List String × String} {key k : String} {q above : List String}
    {e : InputExpr} (hp : p ∈ e.refPaths (above ++ [k])) (hk : k ≠ key) :
    p.1 ≠ above ++ key :: q := by
  obtain ⟨t, ht⟩ := exists_of_mem_refPaths e _ hp
  intro heq
  rw [ht, List.append_assoc, List.append_right_inj, List.singleton_append, List.cons.injEq] at heq
  exact hk heq.1

theorem setAt_of_not_mem {v : InputExpr} {key : String} {q : List String} {inputs : Inputs}
    (h : key ∉ inputs.map (·.1)) : setAt v (key :: q) inputs = inputs := by
  refine (List.map_congr_left fun i hi => ?_).trans (List.map_id inputs)
  have hne : i.1 ≠ key := fun heq => h (heq ▸ List.mem_map_of_mem hi)
  rw [if_neg hne, id]

mutual

/-- Where names differ, one path names one reference. -/
theorem eq_of_mem_refPaths {p : List String} {r r' : String} : (e : InputExpr) →
    (above : List String) → e.Distinct → (p, r) ∈ e.refPaths above → (p, r') ∈ e.refPaths above →
    r = r'
  | .node id, above, _, h, h' => by
    have heq := List.mem_singleton.mp h
    have heq' := List.mem_singleton.mp h'
    rw [Prod.mk.injEq] at heq heq'
    rw [heq.2, heq'.2]
  | .inline _ _ inputs, above, hd, h, h' => eq_of_mem_refPathsIn inputs above hd h h'
  | .call _ args, above, hd, h, h' => eq_of_mem_refPathsIn args above hd h h'
  | .literal _, _, _, h, _ => by cases h
  | .variable _, _, _, h, _ => by cases h

theorem eq_of_mem_refPathsIn {p : List String} {r r' : String} : (inputs : Inputs) →
    (above : List String) → DistinctIn inputs → (p, r) ∈ refPathsIn above inputs →
    (p, r') ∈ refPathsIn above inputs → r = r'
  | [], _, _, h, _ => by cases h
  | (key, e) :: rest, above, ⟨hfresh, hd, hdrest⟩, h, h' => by
    rw [refPathsIn] at h h'
    have hapart (s s' : String) (hhead : (p, s) ∈ e.refPaths (above ++ [key]))
        (htail : (p, s') ∈ refPathsIn above rest) : False := by
      obtain ⟨t, ht⟩ := exists_of_mem_refPaths e _ hhead
      exact ne_of_mem_refPathsIn htail hfresh (by simpa using ht)
    rcases List.mem_append.mp h with h | h
    · rcases List.mem_append.mp h' with h' | h'
      · exact eq_of_mem_refPaths e _ hd h h'
      · exact (hapart _ _ h h').elim
    · rcases List.mem_append.mp h' with h' | h'
      · exact (hapart _ _ h' h).elim
      · exact eq_of_mem_refPathsIn rest above hdrest h h'

end

/-- One more reference is hit in a value, where it is so in the inputs inside. -/
theorem Reset.setAt {v : Yaml.Value} {id : String} {q above : List String} {e e' : InputExpr}
    (hinside : ∀ (inputs inputs' : Inputs), DistinctIn inputs → ResetIn hit above inputs inputs' →
      (above ++ q, id) ∈ refPathsIn above inputs →
      ResetIn (fun p i => p = above ++ q ∨ hit p i) above inputs
        (InputExpr.setAt (.literal v) q inputs'))
    (hd : e.Distinct) (h : Reset hit above e e') (hmem : (above ++ q, id) ∈ e.refPaths above) :
    Reset (fun p i => p = above ++ q ∨ hit p i) above e
      (if q.isEmpty then .literal v else mapInputs (InputExpr.setAt (.literal v) q) e') := by
  have hinner (inputs : Inputs) (hmem : (above ++ q, id) ∈ refPathsIn above inputs) :
      q.isEmpty = false := by
    obtain ⟨key, t, hp, -⟩ := exists_of_mem_refPathsIn _ _ hmem
    rw [List.append_right_inj] at hp
    rw [hp]
    rfl
  cases e with
  | node id' =>
    have hq : q = [] := by
      have hp := congrArg Prod.fst (List.mem_singleton.mp hmem)
      simpa using hp
    subst hq
    rw [List.append_nil]
    exact ⟨fun _ => ⟨v, rfl⟩, fun hnot => absurd (.inl rfl) hnot⟩
  | inline i opcode inputs =>
    obtain ⟨inputs', rfl, h⟩ := h
    rw [hinner inputs hmem]
    exact ⟨_, rfl, hinside inputs inputs' hd h hmem⟩
  | call name args =>
    obtain ⟨args', rfl, h⟩ := h
    rw [hinner args hmem]
    exact ⟨_, rfl, hinside args args' hd h hmem⟩
  | literal _ => cases hmem
  | «variable» _ => cases hmem

/-- One more reference is hit. By induction on its path, and on the inputs up to the name that it
begins with. -/
theorem ResetIn.setAt {v : Yaml.Value} {id : String} (q : List String) :
    ∀ (inputs inputs' : Inputs) (above : List String), DistinctIn inputs →
      ResetIn hit above inputs inputs' → (above ++ q, id) ∈ refPathsIn above inputs →
      ResetIn (fun p i => p = above ++ q ∨ hit p i) above inputs
        (InputExpr.setAt (.literal v) q inputs') := by
  induction q with
  | nil =>
    intro inputs inputs' above _ _ hmem
    obtain ⟨key, t, hp, -⟩ := exists_of_mem_refPathsIn inputs above hmem
    simp at hp
  | cons key q ih =>
    intro inputs
    induction inputs with
    | nil =>
      intro inputs' above _ _ hmem
      cases hmem
    | cons i rest ihrest =>
      intro inputs' above hdistinct h hmem
      obtain ⟨k, e⟩ := i
      obtain ⟨e', rest', rfl, he, hrest⟩ := h
      obtain ⟨hfresh, hd, hdrest⟩ := hdistinct
      rw [refPathsIn] at hmem
      by_cases hk : k = key
      · subst hk
        have hhead : (above ++ [k] ++ q, id) ∈ e.refPaths (above ++ [k]) := by
          rcases List.mem_append.mp hmem with hmem | hmem
          · simpa using hmem
          · exact absurd rfl (ne_of_mem_refPathsIn hmem hfresh)
        have hsame : InputExpr.setAt (.literal v) (k :: q) rest' = rest' :=
          setAt_of_not_mem (ResetIn.keys rest rest' above hrest ▸ hfresh)
        have hnew := Reset.setAt (fun ins ins' => ih ins ins' (above ++ [k])) hd he hhead
        rw [List.append_assoc, List.singleton_append] at hnew
        refine ⟨_, rest', ?_, hnew, ResetIn.congr rest rest' above hrest fun p hp => ?_⟩
        · rw [InputExpr.setAt, List.map_cons, if_pos rfl, ← InputExpr.setAt, hsame]
        · simp [ne_of_mem_refPathsIn hp hfresh]
      · have htail : (above ++ key :: q, id) ∈ refPathsIn above rest := by
          rcases List.mem_append.mp hmem with hmem | hmem
          · exact absurd rfl (ne_of_mem_refPaths hmem hk)
          · exact hmem
        refine ⟨e', _, ?_, Reset.congr e e' _ he fun p hp => ?_, ihrest rest' above hdrest hrest htail⟩
        · rw [InputExpr.setAt, List.map_cons, if_neg hk, ← InputExpr.setAt]
        · simp [ne_of_mem_refPaths hp hk]

/-- The inputs or arguments written inside a value. -/
def below? : InputExpr → Option Inputs
  | .inline _ _ inputs => some inputs
  | .call _ args => some args
  | _ => none

/-- Whether a path of names leads through reporters written in place and calls. -/
def Along : List String → Inputs → Prop
  | [], _ => False
  | key :: rest, inputs => ∃ e, (key, e) ∈ inputs ∧
      (rest = [] ∨ ∃ inner, e.below? = some inner ∧ Along rest inner)

/-- Whether a path of names leads through reporters written in place and calls to a value. -/
def EndsAt : List String → Inputs → InputExpr → Prop
  | [], _, _ => False
  | key :: rest, inputs, e => ∃ e₀, (key, e₀) ∈ inputs ∧
      (rest = [] ∧ e = e₀ ∨ ∃ inner, e₀.below? = some inner ∧ EndsAt rest inner e)

theorem Along.exists_endsAt {q : List String} {inputs : Inputs} (h : Along q inputs) :
    ∃ e, EndsAt q inputs e := by
  induction q generalizing inputs with
  | nil => exact h.elim
  | cons key rest ih =>
    obtain ⟨e₀, hmem, hrest | ⟨inner, hbelow, halong⟩⟩ := h
    · exact ⟨e₀, e₀, hmem, .inl ⟨hrest, rfl⟩⟩
    · obtain ⟨e, he⟩ := ih halong
      exact ⟨e, e₀, hmem, .inr ⟨inner, hbelow, he⟩⟩

theorem EndsAt.along {q : List String} {inputs : Inputs} {e : InputExpr} (h : EndsAt q inputs e) :
    Along q inputs := by
  induction q generalizing inputs with
  | nil => exact h.elim
  | cons key rest ih =>
    obtain ⟨e₀, hmem, ⟨hrest, -⟩ | ⟨inner, hbelow, hinner⟩⟩ := h
    · exact ⟨e₀, hmem, .inl hrest⟩
    · exact ⟨e₀, hmem, .inr ⟨inner, hbelow, ih hinner⟩⟩

/-- Paths of references lead along values also where other references were reset. -/
theorem ResetIn.along {id : String} (q : List String) :
    ∀ (inputs inputs' : Inputs) (above : List String), ResetIn hit above inputs inputs' →
      (above ++ q, id) ∈ refPathsIn above inputs → Along q inputs' := by
  induction q with
  | nil =>
    intro inputs inputs' above _ hmem
    obtain ⟨key, t, hp, -⟩ := exists_of_mem_refPathsIn inputs above hmem
    simp at hp
  | cons key q ih =>
    intro inputs
    induction inputs with
    | nil =>
      intro inputs' above _ hmem
      cases hmem
    | cons i rest ihrest =>
      intro inputs' above h hmem
      obtain ⟨k, e⟩ := i
      obtain ⟨e', rest', rfl, he, hrest⟩ := h
      rw [refPathsIn] at hmem
      rcases List.mem_append.mp hmem with hmem | hmem
      · have hk : k = key := by
          by_contra hne
          exact ne_of_mem_refPaths hmem hne rfl
        subst hk
        refine ⟨e', List.mem_cons_self, ?_⟩
        have hmem : (above ++ [k] ++ q, id) ∈ e.refPaths (above ++ [k]) := by simpa using hmem
        cases e with
        | node id' =>
          have hp := congrArg Prod.fst (List.mem_singleton.mp hmem)
          exact .inl (by simpa using hp)
        | inline i opcode inputs =>
          obtain ⟨inputs', rfl, h⟩ := he
          exact .inr ⟨inputs', rfl, ih inputs inputs' _ h hmem⟩
        | call name args =>
          obtain ⟨args', rfl, h⟩ := he
          exact .inr ⟨args', rfl, ih args args' _ h hmem⟩
        | literal _ => cases hmem
        | «variable» _ => cases hmem
      · obtain ⟨e'', hin, hrest⟩ := ihrest rest' above hrest hmem
        exact ⟨e'', List.mem_cons_of_mem _ hin, hrest⟩

end BlockFlow.InputExpr

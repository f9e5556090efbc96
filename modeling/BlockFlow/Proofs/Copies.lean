import BlockFlow.Edit.Insertion
import BlockFlow.Proofs.FreshId
import BlockFlow.Proofs.Reporters
import BlockFlow.Proofs.Resets

/-!
Values with new ids for the reporters written in place. Main statements: nothing but these ids changes,
and they are what the source of ids has handed out.
-/

namespace BlockFlow

namespace InputExpr

mutual

/-- The value with one and the same id for all reporters written in place that have one. -/
def withoutIds : InputExpr → InputExpr
  | .inline id opcode inputs => .inline (id.map fun _ => "") opcode (withoutIdsIn inputs)
  | .call workflow args => .call workflow (withoutIdsIn args)
  | e => e

def withoutIdsIn : Inputs → Inputs
  | [] => []
  | (key, e) :: rest => (key, e.withoutIds) :: withoutIdsIn rest

end

theorem keys_withoutIdsIn (ins : Inputs) : (withoutIdsIn ins).map (·.1) = ins.map (·.1) := by
  induction ins with
  | nil => rfl
  | cons i ins ih => rw [withoutIdsIn, List.map_cons, List.map_cons, ih]

mutual

theorem nodeRefs_withoutIds : (e : InputExpr) → e.withoutIds.nodeRefs = e.nodeRefs
  | .literal _ | .variable _ | .node _ => rfl
  | .inline _ _ inputs => nodeRefsIn_withoutIds inputs
  | .call _ args => nodeRefsIn_withoutIds args

theorem nodeRefsIn_withoutIds : (ins : Inputs) → nodeRefsIn (withoutIdsIn ins) = nodeRefsIn ins
  | [] => rfl
  | (_, e) :: rest => congrArg₂ (· ++ ·) (nodeRefs_withoutIds e) (nodeRefsIn_withoutIds rest)

end

mutual

theorem opcodes_withoutIds : (e : InputExpr) → e.withoutIds.opcodes = e.opcodes
  | .literal _ | .variable _ | .node _ => rfl
  | .inline _ opcode inputs => congrArg (opcode :: ·) (opcodesIn_withoutIds inputs)
  | .call _ args => opcodesIn_withoutIds args

theorem opcodesIn_withoutIds : (ins : Inputs) → opcodesIn (withoutIdsIn ins) = opcodesIn ins
  | [] => rfl
  | (_, e) :: rest => congrArg₂ (· ++ ·) (opcodes_withoutIds e) (opcodesIn_withoutIds rest)

end

mutual

theorem calls_withoutIds : (e : InputExpr) → e.withoutIds.calls = e.calls
  | .literal _ | .variable _ | .node _ => rfl
  | .inline _ _ inputs => callsIn_withoutIds inputs
  | .call workflow args => congrArg (workflow :: ·) (callsIn_withoutIds args)

theorem callsIn_withoutIds : (ins : Inputs) → callsIn (withoutIdsIn ins) = callsIn ins
  | [] => rfl
  | (_, e) :: rest => congrArg₂ (· ++ ·) (calls_withoutIds e) (callsIn_withoutIds rest)

end

mutual

theorem distinct_withoutIds : (e : InputExpr) → (e.withoutIds.Distinct ↔ e.Distinct)
  | .literal _ | .variable _ | .node _ => Iff.rfl
  | .inline _ _ inputs => distinctIn_withoutIds inputs
  | .call _ args => distinctIn_withoutIds args

theorem distinctIn_withoutIds : (ins : Inputs) → (DistinctIn (withoutIdsIn ins) ↔ DistinctIn ins)
  | [] => Iff.rfl
  | (key, e) :: rest => by
    rw [withoutIdsIn, DistinctIn, DistinctIn, keys_withoutIdsIn, distinct_withoutIds e,
      distinctIn_withoutIds rest]

end

mutual

/-- As many ids are left as there were. -/
theorem length_inlineIds_withoutIds : (e : InputExpr) →
    e.withoutIds.inlineIds.length = e.inlineIds.length
  | .literal _ | .variable _ | .node _ => rfl
  | .inline id opcode inputs => by
    rw [withoutIds, inlineIds, inlineIds, List.length_append, List.length_append,
      length_inlineIdsIn_withoutIds inputs]
    cases id <;> rfl
  | .call _ args => length_inlineIdsIn_withoutIds args

theorem length_inlineIdsIn_withoutIds : (ins : Inputs) →
    (inlineIdsIn (withoutIdsIn ins)).length = (inlineIdsIn ins).length
  | [] => rfl
  | (_, e) :: rest => by
    rw [withoutIdsIn, inlineIdsIn, inlineIdsIn, List.length_append, List.length_append,
      length_inlineIds_withoutIds e, length_inlineIdsIn_withoutIds rest]

end

variable {d : Document}

mutual

/-- Nothing but ids changes. -/
theorem withoutIds_withNewIds (d : Document) : (e : InputExpr) → (s : IdSource) →
    (e.withNewIds d s).1.withoutIds = e.withoutIds
  | .literal _, _ | .variable _, _ | .node _, _ => rfl
  | .inline none _ inputs, s => by
    rw [withNewIds, withoutIds, withoutIds, withoutIds_entriesWithNewIds d inputs s]
  | .inline (some _) opcode inputs, s => by
    rw [withNewIds, withoutIds, withoutIds, withoutIds_entriesWithNewIds d inputs _]
    rfl
  | .call _ args, s => by
    rw [withNewIds, withoutIds, withoutIds, withoutIds_entriesWithNewIds d args s]

theorem withoutIds_entriesWithNewIds (d : Document) : (ins : Inputs) → (s : IdSource) →
    withoutIdsIn (entriesWithNewIds d ins s).1 = withoutIdsIn ins
  | [], _ => rfl
  | (key, e) :: rest, s => by
    rw [entriesWithNewIds, withoutIdsIn, withoutIdsIn, withoutIds_withNewIds d e s,
      withoutIds_entriesWithNewIds d rest _]

end

mutual

/-- The ids in the value are those that the source has handed out for it. -/
theorem given_withNewIds (d : Document) : (e : InputExpr) → (s : IdSource) →
    (e.withNewIds d s).2.given = (e.withNewIds d s).1.inlineIds.reverse ++ s.given
  | .literal _, _ | .variable _, _ | .node _, _ => rfl
  | .inline none _ inputs, s => given_entriesWithNewIds d inputs s
  | .inline (some _) opcode inputs, s => by
    have hinner := given_entriesWithNewIds d inputs (s.take d opcode).2
    rw [IdSource.given_take] at hinner
    rw [withNewIds, hinner, inlineIds]
    simp
  | .call _ args, s => given_entriesWithNewIds d args s

theorem given_entriesWithNewIds (d : Document) : (ins : Inputs) → (s : IdSource) →
    (entriesWithNewIds d ins s).2.given =
      (inlineIdsIn (entriesWithNewIds d ins s).1).reverse ++ s.given
  | [], _ => rfl
  | (key, e) :: rest, s => by
    rw [entriesWithNewIds, given_entriesWithNewIds d rest _, given_withNewIds d e s, inlineIdsIn,
      List.reverse_append, List.append_assoc]

end

mutual

/-- What holds of a source holds after it has handed out ids for the opcodes of a value, when it is
preserved by each. -/
theorem withNewIds_preserves {P : IdSource → Prop} : (e : InputExpr) → (s : IdSource) →
    (∀ s, ∀ o ∈ e.opcodes, P s → P (s.take d o).2) → P s → P (e.withNewIds d s).2
  | .literal _, _, _, h | .variable _, _, _, h | .node _, _, _, h => h
  | .inline none _ inputs, s, hstep, h =>
    entriesWithNewIds_preserves inputs s (fun s o ho => hstep s o (List.mem_cons_of_mem _ ho)) h
  | .inline (some _) opcode inputs, s, hstep, h =>
    entriesWithNewIds_preserves inputs (s.take d opcode).2
      (fun s o ho => hstep s o (List.mem_cons_of_mem _ ho)) (hstep s opcode List.mem_cons_self h)
  | .call _ args, s, hstep, h => entriesWithNewIds_preserves args s hstep h

theorem entriesWithNewIds_preserves {P : IdSource → Prop} : (ins : Inputs) → (s : IdSource) →
    (∀ s, ∀ o ∈ opcodesIn ins, P s → P (s.take d o).2) → P s → P (entriesWithNewIds d ins s).2
  | [], _, _, h => h
  | (_, e) :: rest, s, hstep, h =>
    entriesWithNewIds_preserves rest (e.withNewIds d s).2
      (fun s o ho => hstep s o (List.mem_append_right _ ho))
      (withNewIds_preserves e s (fun s o ho => hstep s o (List.mem_append_left _ ho)) h)

end

end InputExpr

end BlockFlow

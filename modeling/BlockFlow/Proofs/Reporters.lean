import BlockFlow.Catalog.Basic
import BlockFlow.Proofs.Pointers

/-!
What the inputs of a node hold at any depth, and the ways down from a node through the reporters in
its inputs.
-/

namespace BlockFlow

open Relation

/-- Something with inputs: a node, or a reporter written in place. -/
structure Reporter where
  id : String
  opcode : String
  inputs : Inputs

def NodeDef.reporter (n : NodeDef) : Reporter := ⟨n.id, n.opcode, n.inputs⟩

namespace InputExpr

mutual

/-- The opcodes of the reporters written in place in a value. -/
def opcodes : InputExpr → List String
  | .inline _ opcode inputs => opcode :: opcodesIn inputs
  | .call _ args => opcodesIn args
  | _ => []

def opcodesIn : Inputs → List String
  | [] => []
  | (_, e) :: rest => e.opcodes ++ opcodesIn rest

end

mutual

/-- The workflows that are called in a value. -/
def calls : InputExpr → List String
  | .inline _ _ inputs => callsIn inputs
  | .call workflow args => workflow :: callsIn args
  | _ => []

def callsIn : Inputs → List String
  | [] => []
  | (_, e) :: rest => e.calls ++ callsIn rest

end

mutual

/-- The reporters that a value of the input `key` of `owner` consists of. The arguments of a call
count as inputs of its owner. -/
def reporters (w : Workflow) (owner key : String) : InputExpr → List Reporter
  | .node id => (w.node? id).toList.map NodeDef.reporter
  | .inline id opcode inputs => [⟨id.getD (owner ++ "__" ++ key), opcode, inputs⟩]
  | .call _ args => reportersIn w owner args
  | _ => []

def reportersIn (w : Workflow) (owner : String) : Inputs → List Reporter
  | [] => []
  | (key, e) :: rest => e.reporters w owner key ++ reportersIn w owner rest

end

end InputExpr

open InputExpr

namespace Workflow

variable {w : Workflow} {above : List String} {a b : String} {r s : Reporter}

/-- A reporter is in the inputs of another, with no reporter between them. -/
def Uses (w : Workflow) (r s : Reporter) : Prop := s ∈ reportersIn w r.id r.inputs

/-- No way down from the reporter comes to an id in `above` or to one id twice. -/
def Unrepeated (w : Workflow) (above : List String) (r : Reporter) : Prop :=
  ∀ rs, List.IsChain w.Uses (r :: rs) → (rs.map (·.id)).Nodup ∧ ∀ s ∈ rs, s.id ∉ above

/-- One step down: what is used is not above, and its own ways down avoid it as well. -/
theorem unrepeated_iff : w.Unrepeated above r ↔
    ∀ s, w.Uses r s → s.id ∉ above ∧ w.Unrepeated (s.id :: above) s := by
  constructor
  · intro h s hs
    have hone := h [s] (.cons_cons hs (.singleton s))
    refine ⟨hone.2 s (by simp), fun ts hts => ?_⟩
    obtain ⟨hnd, habove⟩ := h (s :: ts) (.cons_cons hs hts)
    rw [List.map_cons, List.nodup_cons] at hnd
    refine ⟨hnd.2, fun t ht => ?_⟩
    rw [List.mem_cons, not_or]
    refine ⟨fun he => hnd.1 ?_, habove t (List.mem_cons_of_mem _ ht)⟩
    rw [← he]
    exact List.mem_map_of_mem ht
  · intro h rs hrs
    cases rs with
    | nil => simp
    | cons s ts =>
      obtain ⟨hs, hts⟩ := List.isChain_cons_cons.mp hrs
      obtain ⟨hsabove, hbelow⟩ := h s hs
      obtain ⟨hnd, habove⟩ := hbelow ts hts
      constructor
      · rw [List.map_cons, List.nodup_cons]
        refine ⟨fun hmem => ?_, hnd⟩
        obtain ⟨t, ht, he⟩ := List.mem_map.mp hmem
        exact habove t ht (by simp [he])
      · rw [List.forall_mem_cons]
        exact ⟨hsabove, fun t ht hin => habove t ht (List.mem_cons_of_mem _ hin)⟩

/-- No way down from the reporter meets an id twice, its own included. -/
def Acyclic (w : Workflow) (r : Reporter) : Prop :=
  ∀ rs, List.IsChain w.Uses (r :: rs) → ((r :: rs).map (·.id)).Nodup

/-- Ways down that avoid where they start meet no id twice. -/
theorem unrepeated_self_iff : w.Unrepeated [r.id] r ↔ w.Acyclic r := by
  refine forall₂_congr fun rs _ => ?_
  rw [List.map_cons, List.nodup_cons, and_comm]
  simp [eq_comm]

/-- No way down comes to an id that it must avoid. -/
theorem Unrepeated.not_mem (h : w.Unrepeated above r) (hs : TransGen w.Uses r s) :
    s.id ∉ above := by
  induction hs using TransGen.head_induction_on generalizing above with
  | single hrs => exact (unrepeated_iff.mp h _ hrs).1
  | head hrt _ ih =>
    have ht := (unrepeated_iff.mp h _ hrt).2
    exact fun hmem => ih ht (List.mem_cons_of_mem _ hmem)

theorem Acyclic.id_ne (h : w.Acyclic r) (hs : TransGen w.Uses r s) : s.id ≠ r.id := by
  have hnot := (unrepeated_self_iff.mpr h).not_mem hs
  simpa using hnot

theorem Acyclic.of_uses (h : w.Acyclic r) (hs : ReflTransGen w.Uses r s) : w.Acyclic s := by
  induction hs with
  | refl => exact h
  | tail _ hstep ih =>
    intro rs hrs
    have hlong := ih _ (.cons_cons hstep hrs)
    exact (List.nodup_cons.mp hlong).2

/-- A node references another in its inputs. -/
def Cites (w : Workflow) (a b : String) : Prop := b ∈ w.reporterRefs a

theorem cites_iff {n : NodeDef} (h : w.node? a = some n) :
    w.Cites a b ↔ b ∈ nodeRefsIn n.inputs := by
  simp [Cites, reporterRefs, h]

mutual

/-- A reference in a value is on a way down from one of its reporters. By recursion on the value. -/
theorem uses_of_nodeRefs {n : NodeDef} (hn : w.node? b = some n) (owner key : String) :
    ∀ e : InputExpr, b ∈ e.nodeRefs →
      ∃ s ∈ e.reporters w owner key, ReflTransGen w.Uses s n.reporter
  | .literal _, h => by simp [nodeRefs] at h
  | .variable _, h => by simp [nodeRefs] at h
  | .node id, h => by
    obtain rfl : b = id := by simpa [nodeRefs] using h
    exact ⟨n.reporter, by simp [reporters, hn], .refl⟩
  | .inline i opcode inputs, h => by
    obtain ⟨s, hs, hdown⟩ :=
      uses_of_nodeRefsIn hn (i.getD (owner ++ "__" ++ key)) inputs (by simpa [nodeRefs] using h)
    exact ⟨_, List.mem_singleton_self _, .head hs hdown⟩
  | .call _ args, h => uses_of_nodeRefsIn hn owner args (by simpa [nodeRefs] using h)

theorem uses_of_nodeRefsIn {n : NodeDef} (hn : w.node? b = some n) (owner : String) :
    ∀ inputs : Inputs, b ∈ nodeRefsIn inputs →
      ∃ s ∈ reportersIn w owner inputs, ReflTransGen w.Uses s n.reporter
  | [], h => by simp [nodeRefsIn] at h
  | (key, e) :: rest, h => by
    rw [nodeRefsIn, List.mem_append] at h
    rw [reportersIn]
    rcases h with h | h
    · obtain ⟨s, hs, hdown⟩ := uses_of_nodeRefs hn owner key e h
      exact ⟨s, List.mem_append_left _ hs, hdown⟩
    · obtain ⟨s, hs, hdown⟩ := uses_of_nodeRefsIn hn owner rest h
      exact ⟨s, List.mem_append_right _ hs, hdown⟩

end

/-- A way down leads from a node to each node that it references. -/
theorem uses_of_mem_nodeRefs {m n : NodeDef} (hb : b ∈ nodeRefsIn m.inputs)
    (hn : w.node? b = some n) : TransGen w.Uses m.reporter n.reporter := by
  obtain ⟨s, hs, hdown⟩ := uses_of_nodeRefsIn hn m.id m.inputs hb
  exact .head' hs hdown

theorem Cites.exists_node? (h : w.Cites a b) : ∃ n, w.node? a = some n := by
  cases hn : w.node? a with
  | none => simp [Cites, reporterRefs, hn] at h
  | some n => exact ⟨n, rfl⟩

end Workflow

end BlockFlow

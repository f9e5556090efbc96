import BlockFlow.Proofs.Pointers
import Mathlib.Tactic.Tauto

/-!
Pointers that come back to where they began, and changes of pointers that make none of these. Main
statement: a new pointer closes a loop exactly when its target led to its source before.
-/

namespace BlockFlow

open Relation

/-- No chain of steps comes back to where it began. -/
def Loopless {α : Type} (r : α → α → Prop) : Prop := ∀ a, ¬ TransGen r a a

namespace Loopless

variable {α : Type} {r s : α → α → Prop} {a b : α}

/-- Steps that other steps can be taken for make no loop. -/
theorem mono (h : Loopless r) (hle : ∀ a b, s a b → TransGen r a b) : Loopless s := by
  intro a ha
  have hclosed : s ≤ TransGen r := hle
  exact h a (TransGen.closed hclosed a a ha)

/-- Taking a new step once is enough: between its first and its last use the way is old. -/
theorem transGen_insert {x y : α}
    (h : TransGen (fun x y => r x y ∨ x = a ∧ y = b) x y) :
    TransGen r x y ∨ ReflTransGen r x a ∧ ReflTransGen r b y := by
  induction h with
  | single hstep =>
    rcases hstep with hold | ⟨rfl, rfl⟩
    · exact .inl (.single hold)
    · exact .inr ⟨.refl, .refl⟩
  | tail _ hstep ih =>
    rcases hstep with hold | ⟨rfl, rfl⟩
    · rcases ih with hway | ⟨hto, hfrom⟩
      · exact .inl (hway.tail hold)
      · exact .inr ⟨hto, hfrom.tail hold⟩
    · rcases ih with hway | ⟨hto, -⟩
      · exact .inr ⟨hway.to_reflTransGen, .refl⟩
      · exact .inr ⟨hto, .refl⟩

/-- A new step closes a loop exactly when its end led to its beginning. -/
theorem insert_iff (h : Loopless r) :
    Loopless (fun x y => r x y ∨ x = a ∧ y = b) ↔ ¬ ReflTransGen r b a := by
  constructor
  · intro hnew hback
    have hway : ReflTransGen (fun x y => r x y ∨ x = a ∧ y = b) b a :=
      ReflTransGen.mono (fun _ _ => Or.inl) _ _ hback
    exact hnew a (.head' (.inr ⟨rfl, rfl⟩) hway)
  · intro hback x hx
    rcases transGen_insert hx with hold | ⟨hto, hfrom⟩
    · exact h x hold
    · exact hback (hfrom.trans hto)

/-- Steps out of where nothing leads to are in no loop. -/
theorem of_sources (h : Loopless r) (out : α → Prop) (hout : ∀ x y, s x y → ¬ out y)
    (hle : ∀ x y, s x y → r x y ∨ out x) : Loopless s := by
  intro a ha
  have hwalk : ∀ {x y}, TransGen s x y → ¬ out x → TransGen r x y := by
    intro x y hxy hx
    induction hxy with
    | single hstep => exact .single ((hle _ _ hstep).resolve_right hx)
    | tail hway hstep ih =>
      obtain ⟨z, -, hlast⟩ := TransGen.tail'_iff.mp hway
      exact ih.tail ((hle _ _ hstep).resolve_right (hout _ _ hlast))
  obtain ⟨z, -, hlast⟩ := TransGen.tail'_iff.mp ha
  exact h a (hwalk ha (hout _ _ hlast))

/-- A new member between two others is in a loop only when the second one leads to the first. -/
theorem insert_between {x : α} {p q : Option α} (h : Loopless r) (hx : ∀ y, ¬ r y x ∧ ¬ r x y)
    (hp : x ∉ p) (hq : x ∉ q) (hback : ∀ a ∈ p, ∀ b ∈ q, ¬ ReflTransGen r b a) :
    Loopless fun a b => (r a b ∨ a = x ∧ b ∈ q) ∨ a ∈ p ∧ b = x := by
  have hout : ∀ a b, r a b ∨ a = x ∧ b ∈ q → b ≠ x := by
    intro a b hab heq
    subst heq
    rcases hab with hab | ⟨-, hb⟩
    · exact (hx a).1 hab
    · exact hq hb
  have honward : Loopless fun a b => r a b ∨ a = x ∧ b ∈ q :=
    of_sources h _ hout fun a b hab => hab.imp_right And.left
  cases p with
  | none => exact mono honward fun a b hab => .single (by simpa using hab)
  | some a =>
    -- Nothing leads to `x`, so a way that begins elsewhere is an old one.
    have hold {y : α} (hway : ReflTransGen (fun a b => r a b ∨ a = x ∧ b ∈ q) y a) (hy : y ≠ x) :
        ReflTransGen r y a := by
      induction hway using ReflTransGen.head_induction_on with
      | refl => exact .refl
      | head hstep _ ih => exact .head (hstep.resolve_right fun h => hy h.1) (ih (hout _ _ hstep))
    have hnew : ¬ ReflTransGen (fun a b => r a b ∨ a = x ∧ b ∈ q) x a := by
      intro hway
      rcases ReflTransGen.cases_head hway with rfl | ⟨b, hfirst, hway⟩
      · exact hp rfl
      · have hb := hfirst.resolve_left (hx b).2
        exact hback a rfl b hb.2 (hold hway (hout _ _ hfirst))
    have hall := (insert_iff honward (a := a) (b := x)).mpr hnew
    exact mono hall fun y z hyz => .single (by simpa [eq_comm] using hyz)

end Loopless

/-- Pointers of a workflow lead back to none of its nodes. -/
def Workflow.NoLoop (w : Workflow) : Prop := Loopless w.Names

/-- Searching from the target of each pointer tells whether there is a loop. -/
def LinkGraph.loopless (g : LinkGraph) : Bool :=
  g.links.all fun l => !(g.reachableFrom l.target).contains l.source

theorem LinkGraph.loopless_iff {w : Workflow} {g : LinkGraph} (hg : build w = .ok g) :
    g.loopless ↔ w.NoLoop := by
  have hlinks : g.links = w.links := by rw [(build_eq_ok.mp hg).2]
  have htargets := (build_eq_ok.mp hg).1
  simp only [loopless, List.all_eq_true, hlinks, Workflow.mem_links, Bool.not_eq_true',
    List.contains_eq_mem, decide_eq_false_iff_not, mem_reachableFrom hg]
  constructor
  · intro h a ha
    obtain ⟨b, ⟨n, hn, hid, slot, hp⟩, hback⟩ := TransGen.head'_iff.mp ha
    exact h ⟨a, slot, b⟩ ⟨n, hn, hid, hp⟩ ⟨htargets n hn _ hp, hback⟩
  · intro h l hl hback
    obtain ⟨n, hn, hid, hp⟩ := hl
    exact h l.source (.head' ⟨n, hn, hid, l.slot, hp⟩ hback.2)

/-- Whether the pointers of a document make no loop and all name nodes. -/
def Document.loopless (d : Document) : Bool :=
  d.workflows.all fun w => (LinkGraph.build w).toOption.any (·.loopless)

theorem Document.noLoop_of_loopless {d : Document} (h : d.loopless) :
    ∀ w ∈ d.workflows, w.NoLoop := by
  intro w hw
  obtain ⟨g, hg, hloopless⟩ := (Option.any_eq_true _ _).mp (List.all_eq_true.mp h w hw)
  exact (LinkGraph.loopless_iff (Outcome.toOption_eq_some.mp hg)).mp hloopless

end BlockFlow

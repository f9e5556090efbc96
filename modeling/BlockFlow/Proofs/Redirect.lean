import BlockFlow.Proofs.Loops

/-!
What one pointer does to the loops of a graph when it is led to a node that nothing else leads to
any more. Main statement: it closes a loop exactly when the node led to its source before, or is its
source.
-/

namespace BlockFlow

open Relation

section Ways

variable {α : Type} {r : α → α → Prop} {a b : α}

/-- A way need not come back to where it begins. -/
theorem avoids_start (h : ReflTransGen r a b) : ReflTransGen (fun x y => r x y ∧ y ≠ a) a b := by
  induction h with
  | refl => exact .refl
  | @tail x y _ hstep ih =>
    by_cases hback : y = a
    · rw [hback]
    · exact ih.tail ⟨hstep, hback⟩

/-- A way need not leave where it ends. -/
theorem avoids_end (h : ReflTransGen r a b) : ReflTransGen (fun x y => r x y ∧ x ≠ b) a b := by
  induction h using ReflTransGen.head_induction_on with
  | refl => exact .refl
  | @head x y hstep _ ih =>
    by_cases hend : x = b
    · rw [hend]
    · exact ih.head ⟨hstep, hend⟩

end Ways

namespace LinkGraph

/-- A pointer leads from `a` to `b`. -/
def Steps (g : LinkGraph) (a b : String) : Prop := ∃ l ∈ g.links, l.source = a ∧ l.target = b

/-- The graph once a pointer leads to a node that nothing else leads to. -/
def redirect (g : LinkGraph) (source : String) (slot : LinkSlot) (target : String) : LinkGraph :=
  { g with links := ⟨source, slot, target⟩ :: g.links.filter fun l =>
      !(l.source = source && l.slot = slot) && l.target ≠ target }

variable {w : Workflow} {g : LinkGraph} {a b source target : String} {slot : LinkSlot}

theorem steps_eq_names (hg : build w = .ok g) : g.Steps = w.Names := by
  funext a b
  obtain ⟨-, rfl⟩ := build_eq_ok.mp hg
  simp only [Steps, Workflow.mem_links, eq_iff_iff]
  constructor
  · intro h
    obtain ⟨l, ⟨n, hn, hid, hp⟩, rfl, rfl⟩ := h
    exact ⟨n, hn, hid, l.slot, hp⟩
  · intro h
    obtain ⟨n, hn, hid, slot, hp⟩ := h
    exact ⟨⟨a, slot, b⟩, ⟨n, hn, hid, hp⟩, rfl, rfl⟩

theorem isAncestor_iff_steps (hg : build w = .ok g) (ha : a ∈ w.nodeIds) (hb : b ∈ w.nodeIds) :
    g.isAncestor a b ↔ ReflTransGen g.Steps a b := by
  simp [isAncestor_iff hg, mem_reachableFrom hg, ha, hb, steps_eq_names hg]

theorem mem_redirect {l : Link} : l ∈ (g.redirect source slot target).links ↔
    l = ⟨source, slot, target⟩ ∨
      l ∈ g.links ∧ ¬ (l.source = source ∧ l.slot = slot) ∧ l.target ≠ target := by
  simp only [redirect, List.mem_cons, List.mem_filter, Bool.and_eq_true, Bool.not_eq_true',
    Bool.and_eq_false_iff, decide_eq_true_eq, decide_eq_false_iff_not, not_and_or]

theorem steps_redirect (h : (g.redirect source slot target).Steps a b) :
    g.Steps a b ∧ b ≠ target ∨ a = source ∧ b = target := by
  obtain ⟨l, hl, rfl, rfl⟩ := h
  rcases mem_redirect.mp hl with rfl | ⟨hold, -, hne⟩
  · exact .inr ⟨rfl, rfl⟩
  · exact .inl ⟨⟨l, hold, rfl, rfl⟩, hne⟩

/-- Pointers of other nodes into other nodes stay. -/
theorem steps_redirect_of_ne (h : g.Steps a b) (ha : a ≠ source) (hb : b ≠ target) :
    (g.redirect source slot target).Steps a b := by
  obtain ⟨l, hl, rfl, rfl⟩ := h
  exact ⟨l, mem_redirect.mpr (.inr ⟨hl, fun hslot => ha hslot.1, hb⟩), rfl, rfl⟩

/-- What led from the target to the source still does: the way there uses neither what leads to the
target nor what leads on from the source. -/
theorem reaches_redirect (h : ReflTransGen g.Steps target source) :
    ReflTransGen (g.redirect source slot target).Steps target source := by
  have hway := avoids_end (avoids_start h)
  exact ReflTransGen.mono (fun _ _ hstep => steps_redirect_of_ne hstep.1.1 hstep.2 hstep.1.2) _ _
    hway

/-- A way from the target is an old one. -/
theorem reaches_of_redirect (h : ReflTransGen (g.redirect source slot target).Steps target b) :
    ReflTransGen g.Steps target b := by
  refine ReflTransGen.mono (fun x y hstep => ?_) _ _ (avoids_start h)
  obtain ⟨hnew, hne⟩ := hstep
  rcases steps_redirect hnew with hold | ⟨-, heq⟩
  · exact hold.1
  · exact absurd heq hne

theorem not_loop_redirect (h : ¬ ReflTransGen g.Steps target source) :
    ¬ TransGen (g.redirect source slot target).Steps target target := by
  intro hloop
  obtain ⟨last, hway, hstep⟩ := TransGen.tail'_iff.mp hloop
  rcases steps_redirect hstep with hold | ⟨rfl, -⟩
  · exact hold.2 rfl
  · exact h (reaches_of_redirect hway)

theorem loopless_redirect (hg : Loopless g.Steps) (h : ¬ ReflTransGen g.Steps target source) :
    Loopless (g.redirect source slot target).Steps := by
  refine ((Loopless.insert_iff hg).mpr h).mono fun x y hstep => .single ?_
  exact (steps_redirect hstep).imp And.left id

/-- Searching from the target for the source tells whether the pointer will close a loop. -/
theorem redirect_loops (w : Workflow) (g : LinkGraph) (source target : String) (slot : LinkSlot)
    (hg : build w = .ok g) (hs : source ∈ w.nodeIds) (ht : target ∈ w.nodeIds) :
    ((source = target ∨ g.isAncestor target source) →
      ⟨source, slot, target⟩ ∈ (g.redirect source slot target).links ∧
        ReflTransGen (g.redirect source slot target).Steps target source) ∧
    (¬ (source = target ∨ g.isAncestor target source) →
      ¬ TransGen (g.redirect source slot target).Steps target target ∧
        (Loopless g.Steps → Loopless (g.redirect source slot target).Steps)) := by
  rw [isAncestor_iff_steps hg ht hs]
  constructor
  · intro h
    refine ⟨mem_redirect.mpr (.inl rfl), ?_⟩
    rcases h with rfl | hway
    · exact .refl
    · exact reaches_redirect hway
  · intro h
    have hway : ¬ ReflTransGen g.Steps target source := fun hway => h (.inr hway)
    exact ⟨not_loop_redirect hway, fun hloopless => loopless_redirect hloopless hway⟩

/-- A node, one behind it, and one in a branch of that. -/
def chained : Workflow where
  name := "m"
  interface := {}
  vars := []
  nodes := [
    ⟨"a", "io_print", [], some "b", []⟩,
    ⟨"b", "control_while", [], none, [("BODY", some "c")]⟩,
    ⟨"c", "io_print", [], none, []⟩]

/-- Leading the last node back to the first closes a loop, leading the first on to the last does
not. -/
theorem chained_redirect : ∃ g, build chained = .ok g ∧
    ReflTransGen (g.redirect "c" .next "a").Steps "a" "c" ∧
    Loopless (g.redirect "a" .next "c").Steps := by
  have hg : build chained = .ok ⟨chained.nodeIds, chained.links⟩ := by decide +kernel
  have hloopless : Loopless (LinkGraph.Steps ⟨chained.nodeIds, chained.links⟩) := by
    rw [steps_eq_names hg]
    exact (loopless_iff hg).mp (by decide +kernel)
  refine ⟨_, hg, ?_, ?_⟩
  · exact ((redirect_loops chained _ "c" "a" .next hg (by decide) (by decide)).1
      (by decide +kernel)).2
  · exact ((redirect_loops chained _ "a" "c" .next hg (by decide) (by decide)).2
      (by decide +kernel)).2 hloopless

end LinkGraph

end BlockFlow

import BlockFlow.Proofs.Removal
import Mathlib.Order.Bounds.Basic

/-!
The order in which nodes are let go. A pass looks at the nodes that go in some order, and what it
lets go counts as gone for the rest of the pass. Main statement: whatever the order of each pass,
passes come to an end, and what is gone then is the least set that has the nodes to be removed, what
their branches lead to and the reporters that only members of the set use.
-/

namespace BlockFlow.Workflow

/-- A pass that looks at the nodes which go in the given order. -/
def pass (w : Workflow) (g : LinkGraph) (order gone : List String) : List String :=
  ((order.flatMap w.reporterRefs).filter fun id => !gone.contains id).foldl (w.release g) gone

/-- A pass in some order lets more go. -/
def Grows (w : Workflow) (g : LinkGraph) (more gone : List String) : Prop :=
  ∃ order, order.Perm gone ∧ more = w.pass g order gone ∧ more.length ≠ gone.length

/-- Passes, each in an order of its own, lead from one list to another, and the last of them lets
nothing go. -/
inductive Settles (w : Workflow) (g : LinkGraph) : List String → List String → Prop
  | done {order gone : List String} (horder : order.Perm gone)
      (hsame : (w.pass g order gone).length = gone.length) : Settles w g gone gone
  | step {order gone last : List String} (horder : order.Perm gone)
      (hgrown : (w.pass g order gone).length ≠ gone.length)
      (hlast : Settles w g (w.pass g order gone) last) : Settles w g gone last

/-- The set has the nodes `roots`, what their branches lead to, and each reporter that a member uses,
that no pointer leads to and that only members use. -/
structure TakesAll (w : Workflow) (g : LinkGraph) (roots : List String) (taken : Set String) :
    Prop where
  nodes : ∀ r ∈ roots, r ∈ taken
  branches : ∀ r ∈ roots, ∀ x ∈ g.branchDescendants r, x ∈ taken
  reporters : ∀ a ∈ taken, ∀ x, w.Cites a x → (∀ b, ¬ w.Names b x) →
    (∀ b, w.Cites b x → b ∈ taken) → x ∈ taken

section Pass

variable {w : Workflow} {g : LinkGraph} {order gone last start : List String} {x : String}

theorem releaseRefs_eq_pass : w.releaseRefs g gone = w.pass g gone gone := rfl

theorem prefix_pass (hg : LinkGraph.build w = .ok g) (order gone : List String) :
    gone <+: w.pass g order gone :=
  prefix_foldl_release hg gone _

/-- A pass in an order of the nodes that go lets reporters go that these use and nothing else
needs. -/
theorem unneeded_of_pass (hg : LinkGraph.build w = .ok g) (horder : order.Perm gone)
    (hx : x ∈ w.pass g order gone) (hnew : x ∉ gone) :
    (∃ a ∈ gone, w.Cites a x) ∧ w.Unneeded (w.pass g order gone) x := by
  obtain ⟨hmem, hunneeded⟩ := unneeded_of_foldl_release hg hx hnew
  have hrefs := (List.mem_filter.mp hmem).1
  obtain ⟨a, ha, hcites⟩ := List.mem_flatMap.mp hrefs
  exact ⟨⟨a, horder.mem_iff.mp ha, hcites⟩, hunneeded⟩

/-- A pass that lets nothing go found all reporters needed, whatever its order. -/
theorem mem_of_pass_same (hg : LinkGraph.build w = .ok g) (horder : order.Perm gone)
    (hsame : (w.pass g order gone).length = gone.length) {a : String} (ha : a ∈ gone)
    (hcites : w.Cites a x) (hunneeded : w.Unneeded gone x) : x ∈ gone := by
  by_contra hnew
  have hrefs : x ∈ order.flatMap w.reporterRefs :=
    List.mem_flatMap.mpr ⟨a, horder.mem_iff.mpr ha, hcites⟩
  have hmem : x ∈ (order.flatMap w.reporterRefs).filter fun id => !gone.contains id := by
    simpa [hnew] using hrefs
  exact hnew (foldl_release_eq hg hsame x hmem hunneeded)

/-- A pass that lets more go leaves fewer reporters to be let go. -/
theorem card_pass_lt (hg : LinkGraph.build w = .ok g) (horder : order.Perm gone)
    (hgrown : (w.pass g order gone).length ≠ gone.length) :
    (w.allRefs.toFinset \ (w.pass g order gone).toFinset).card <
      (w.allRefs.toFinset \ gone.toFinset).card := by
  obtain ⟨x, hx, hnew⟩ := exists_released hg hgrown
  obtain ⟨⟨a, -, hcites⟩, -⟩ := unneeded_of_pass hg horder hx hnew
  obtain ⟨new, heq⟩ := prefix_pass hg order gone
  change x ∈ w.pass g order gone at hx
  rw [← heq] at hx ⊢
  have hfound : x ∈ new := (List.mem_append.mp hx).resolve_left hnew
  exact Reach.unseen_lt hfound (mem_allRefs hcites) hnew

/-- No order of the passes lets them go on for ever. -/
theorem wellFounded_grows (hg : LinkGraph.build w = .ok g) : WellFounded (w.Grows g) := by
  apply Subrelation.wf (r := InvImage (· < ·) fun gone : List String =>
    (w.allRefs.toFinset \ gone.toFinset).card)
  · intro more gone h
    obtain ⟨order, horder, rfl, hgrown⟩ := h
    exact card_pass_lt hg horder hgrown
  · exact InvImage.wf _ Nat.lt_wfRel.wf

/-- From everywhere passes come to an end. -/
theorem exists_settles (hg : LinkGraph.build w = .ok g) (start : List String) :
    ∃ last, Settles w g start last := by
  induction start using (wellFounded_grows hg).induction with
  | _ gone ih =>
    by_cases hsame : (w.pass g gone gone).length = gone.length
    · exact ⟨gone, .done (.refl gone) hsame⟩
    · obtain ⟨last, hlast⟩ := ih _ ⟨gone, .refl gone, rfl, hsame⟩
      exact ⟨last, .step (.refl gone) hsame hlast⟩

/-- A pass stays in each set that takes along what must go: when it lets a reporter go, only members
use it. -/
theorem foldl_release_taken {roots ids : List String} {taken : Set String}
    (hg : LinkGraph.build w = .ok g) (ht : w.TakesAll g roots taken)
    (hids : ∀ y ∈ ids, ∃ a ∈ taken, w.Cites a y) (hgone : ∀ y ∈ gone, y ∈ taken) :
    ∀ y ∈ ids.foldl (w.release g) gone, y ∈ taken := by
  induction ids generalizing gone with
  | nil => exact hgone
  | cons id ids ih =>
    obtain ⟨⟨a, ha, hcites⟩, hrest⟩ := List.forall_mem_cons.mp hids
    rw [List.foldl_cons]
    apply ih hrest
    rcases release_eq hg gone id with ⟨-, hunneeded, heq⟩ | ⟨-, heq⟩
    · have hid : id ∈ taken := by
        apply ht.reporters a ha id hcites hunneeded.unlinked
        intro b hb
        exact hgone b (hunneeded.unused b hb)
      rw [heq]
      intro y hy
      rcases List.mem_append.mp hy with hy | hy
      · exact hgone y hy
      · rw [List.mem_singleton.mp hy]
        exact hid
    · rw [heq]
      exact hgone

/-- The passes of a removal, which look at the nodes as they were let go, are among these. -/
theorem settles_releaseAll (hg : LinkGraph.build w = .ok g) (fuel : Nat)
    (hfuel : (w.allRefs.toFinset \ gone.toFinset).card < fuel) :
    Settles w g gone (w.releaseAll g fuel gone) := by
  induction fuel generalizing gone with
  | zero => omega
  | succ fuel ih =>
    rw [releaseAll]
    by_cases hsame : (w.releaseRefs g gone).length = gone.length
    · rw [if_pos hsame]
      exact .done (.refl gone) hsame
    · rw [if_neg hsame]
      apply Settles.step (.refl gone) hsame
      have hless := card_pass_lt hg (.refl gone) hsame
      rw [releaseRefs_eq_pass]
      apply ih
      omega

end Pass

namespace Settles

variable {w : Workflow} {g : LinkGraph} {start last : List String} {x : String}

theorem subset (hg : LinkGraph.build w = .ok g) (h : Settles w g start last) : start ⊆ last := by
  induction h with
  | done => exact fun _ hx => hx
  | @step order gone _ _ _ _ ih => exact fun _ hx => ih ((prefix_pass hg order gone).subset hx)

/-- What is let go on the way is needed by nothing that stays. -/
theorem unneeded (hg : LinkGraph.build w = .ok g) (h : Settles w g start last) (hx : x ∈ last)
    (hnew : x ∉ start) : w.Unneeded last x := by
  induction h with
  | done => exact absurd hx hnew
  | @step order gone last horder _ hlast ih =>
    by_cases hpass : x ∈ w.pass g order gone
    · have hunneeded := (unneeded_of_pass hg horder hpass hnew).2
      exact hunneeded.mono (hlast.subset hg)
    · exact ih hx hpass

/-- In the end nothing is left to be let go. -/
theorem closed (hg : LinkGraph.build w = .ok g) (h : Settles w g start last) {a : String}
    (ha : a ∈ last) (hcites : w.Cites a x) (hunneeded : w.Unneeded last x) : x ∈ last := by
  induction h with
  | done horder hsame => exact mem_of_pass_same hg horder hsame ha hcites hunneeded
  | step _ _ _ ih => exact ih ha hunneeded

/-- Each set that takes along what must go has what the passes let go. -/
theorem subset_of_takesAll {roots : List String} {taken : Set String}
    (hg : LinkGraph.build w = .ok g) (ht : w.TakesAll g roots taken) (h : Settles w g start last)
    (hstart : ∀ y ∈ start, y ∈ taken) : ∀ y ∈ last, y ∈ taken := by
  induction h with
  | done => exact hstart
  | @step order gone last horder _ _ ih =>
    apply ih
    have hcandidates : ∀ y ∈ (order.flatMap w.reporterRefs).filter fun id => !gone.contains id,
        ∃ a ∈ taken, w.Cites a y := by
      intro y hy
      obtain ⟨a, ha, hcites⟩ := List.mem_flatMap.mp (List.mem_filter.mp hy).1
      exact ⟨a, hstart a (horder.mem_iff.mp ha), hcites⟩
    exact foldl_release_taken hg ht hcandidates hstart

theorem isLeast {roots : List String} (hg : LinkGraph.build w = .ok g)
    (hstart : ∀ y, y ∈ start ↔ y ∈ roots ∨ ∃ r ∈ roots, y ∈ g.branchDescendants r)
    (h : Settles w g start last) : IsLeast {taken | w.TakesAll g roots taken} {y | y ∈ last} := by
  constructor
  · refine ⟨?_, ?_, ?_⟩
    · intro r hr
      exact h.subset hg ((hstart r).mpr (.inl hr))
    · intro r hr y hy
      exact h.subset hg ((hstart y).mpr (.inr ⟨r, hr, hy⟩))
    · intro a ha y hcites hunlinked hunused
      exact h.closed hg ha hcites ⟨hunlinked, hunused⟩
  · intro taken ht y hy
    apply h.subset_of_takesAll hg ht _ y hy
    intro z hz
    rcases (hstart z).mp hz with hroot | ⟨r, hr, hbranch⟩
    · exact ht.nodes z hroot
    · exact ht.branches r hr z hbranch

end Settles

/-- The passes end with the nodes that a removal removes, among names that are no nodes. -/
theorem filter_of_settles {w : Workflow} {g : LinkGraph} {roots start last : List String}
    (hg : LinkGraph.build w = .ok g)
    (hstart : ∀ x, x ∈ start ↔ x ∈ roots ∨ ∃ r ∈ roots, x ∈ g.branchDescendants r)
    (h : Settles w g start last) : w.nodeIds.filter last.contains = w.removalSet g roots := by
  let first := (roots.flatMap fun id => id :: g.branchDescendants id).eraseDups
  have hfirst : ∀ x, x ∈ first ↔ x ∈ roots ∨ ∃ r ∈ roots, x ∈ g.branchDescendants r := by
    intro x
    simp only [first, List.mem_eraseDups, List.mem_flatMap, List.mem_cons, and_or_left, exists_or,
      exists_eq_right']
  have hcard : (w.allRefs.toFinset \ first.toFinset).card < w.allRefs.length + 1 := by
    have hle := (Finset.card_le_card (Finset.sdiff_subset (s := w.allRefs.toFinset)
      (t := first.toFinset))).trans (List.toFinset_card_le w.allRefs)
    omega
  have hmodel := (settles_releaseAll hg (w.allRefs.length + 1) hcard).isLeast hg hfirst
  have hsame := (h.isLeast hg hstart).unique hmodel
  have hmem (x : String) : x ∈ last ↔ x ∈ w.releaseAll g (w.allRefs.length + 1) first :=
    Set.ext_iff.mp hsame x
  apply List.filter_congr
  intro x _
  simp only [List.contains_eq_mem, hmem x]
  rfl

/-- Whatever the order in which each pass looks at the nodes that go, the passes come to an end, and
what is gone then is the least set that takes along what must go. In document order its nodes are
those that a removal removes, and only such nodes use the reporters that were let go. -/
theorem settled_isLeast (w : Workflow) (g : LinkGraph) (roots start : List String)
    (hd : w.nodeIds.Nodup) (hg : LinkGraph.build w = .ok g)
    (hstart : ∀ x, x ∈ start ↔ x ∈ roots ∨ ∃ r ∈ roots, x ∈ g.branchDescendants r) :
    WellFounded (w.Grows g) ∧ (∃ last, Settles w g start last) ∧ ∀ last, Settles w g start last →
      IsLeast {taken | w.TakesAll g roots taken} {x | x ∈ last} ∧
      w.nodeIds.filter last.contains = w.removalSet g roots ∧ (w.removalSet g roots).Nodup ∧
      ∀ x ∈ w.removalSet g roots, x ∉ start → ∀ a, w.Cites a x → a ∈ w.removalSet g roots := by
  refine ⟨wellFounded_grows hg, exists_settles hg start, ?_⟩
  intro last h
  have hresult := filter_of_settles hg hstart h
  have hmem (x : String) : x ∈ w.removalSet g roots ↔ x ∈ w.nodeIds ∧ x ∈ last := by
    rw [← hresult]
    simp
  refine ⟨h.isLeast hg hstart, hresult, ?_, ?_⟩
  · rw [← hresult]
    exact hd.filter _
  · intro x hx hnew a hcites
    have hunneeded := h.unneeded hg ((hmem x).mp hx).2 hnew
    exact (hmem a).mpr ⟨hcites.mem_nodeIds, hunneeded.unused a hcites⟩

/-- The node `x` uses `s` and `r`, which uses `s` too, and it shares `u` with `y`. -/
def layered : Workflow :=
  ⟨"m", {}, [],
    [⟨"start", startOpcode, [], some "x", []⟩,
      ⟨"s", "str_concat", [], none, []⟩,
      ⟨"r", "str_concat", [("ITEM1", .node "s")], none, []⟩,
      ⟨"u", "str_concat", [], none, []⟩,
      ⟨"y", "io_print", [("STRING", .node "u")], none, []⟩,
      ⟨"b", "io_print", [], none, []⟩,
      ⟨"x", "control_if", [("LEFT", .node "s"), ("RIGHT", .node "r"), ("MORE", .node "u")],
        some "y", [("THEN", some "b")]⟩]⟩

/-- Two passes, the second one against the order of the first, let `r` and then `s` go. -/
theorem layered_settled : ∃ g, LinkGraph.build layered = .ok g ∧
    Settles layered g ["x", "b"] ["x", "b", "r", "s"] ∧
    IsLeast {taken | layered.TakesAll g ["x"] taken} {x | x ∈ ["x", "b", "r", "s"]} ∧
    layered.removalSet g ["x"] = ["s", "r", "b", "x"] := by
  let g : LinkGraph := ⟨layered.nodeIds, layered.links⟩
  have hg : LinkGraph.build layered = .ok g := LinkGraph.build_eq_ok.mpr ⟨by decide, rfl⟩
  have hbranch : g.branchDescendants "x" = ["b"] := by decide
  have hstart : ∀ x, x ∈ ["x", "b"] ↔ x ∈ ["x"] ∨ ∃ r ∈ ["x"], x ∈ g.branchDescendants r := by
    simp [hbranch]
  have hfirst : layered.pass g ["x", "b"] ["x", "b"] = ["x", "b", "r"] := by decide +kernel
  have hsecond : layered.pass g ["r", "b", "x"] ["x", "b", "r"] = ["x", "b", "r", "s"] := by
    decide +kernel
  have hthird : layered.pass g ["s", "x", "r", "b"] ["x", "b", "r", "s"] =
      ["x", "b", "r", "s"] := by decide +kernel
  have hturned : ["r", "b", "x"].Perm ["x", "b", "r"] := by decide
  have hmixed : ["s", "x", "r", "b"].Perm ["x", "b", "r", "s"] := by decide
  have hruns : Settles layered g ["x", "b"] ["x", "b", "r", "s"] := by
    apply Settles.step (.refl _) (by rw [hfirst]; decide)
    rw [hfirst]
    apply Settles.step hturned (by rw [hsecond]; decide)
    rw [hsecond]
    exact .done hmixed (by rw [hthird])
  obtain ⟨-, -, hlast⟩ := settled_isLeast layered g ["x"] ["x", "b"] (by decide) hg hstart
  obtain ⟨hleast, hresult, -, -⟩ := hlast _ hruns
  exact ⟨g, hg, hruns, hleast, hresult ▸ by decide⟩

end BlockFlow.Workflow

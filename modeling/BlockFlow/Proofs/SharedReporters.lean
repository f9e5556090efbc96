import BlockFlow.Proofs.Tree.Orphans

/-!
The reporters that moved nodes need from outside. A search looks at what one pending name references
after the other. Main statement: whatever the order in which names are looked at, the search comes to
an end, and then it has found exactly the reporters that references lead to and that are not moved.
-/

namespace BlockFlow.Workflow

open Relation

/-- The names that were found, and those whose references are still to be looked at. -/
structure Search where
  found : List String
  pending : List String

namespace Search

/-- Finds a name, unless it is in `moved` or was found before. -/
def meet (moved : List String) (s : Search) (id : String) : Search :=
  if moved.contains id || s.found.contains id then s else ⟨s.found ++ [id], s.pending ++ [id]⟩

/-- One of the pending names, whichever it is, is looked at. -/
inductive Step (w : Workflow) (moved : List String) : Search → Search → Prop
  | look (found before after : List String) (id : String) :
    Step w moved ⟨found, before ++ id :: after⟩
      ((w.reporterRefs id).foldl (meet moved) ⟨found, before ++ after⟩)

/-- What was found is needed and not moved, and references that have been looked at lead to nothing
else. -/
structure Sound (w : Workflow) (moved : List String) (s : Search) : Prop where
  found : ∀ x ∈ s.found, x ∉ moved ∧ ∃ a ∈ moved, TransGen w.Cites a x
  pending : ∀ x ∈ s.pending, x ∈ moved ∨ x ∈ s.found
  looked : ∀ a, a ∈ moved ∨ a ∈ s.found →
    a ∈ s.pending ∨ ∀ b, w.Cites a b → b ∈ moved ∨ b ∈ s.found

variable {w : Workflow} {moved order found pending refs : List String} {s t : Search} {x : String}

/-- Of the names that are met, those that are new are found, and are pending. -/
theorem foldl_meet (moved refs found pending : List String) :
    ∃ new, refs.foldl (meet moved) ⟨found, pending⟩ = ⟨found ++ new, pending ++ new⟩ ∧
      (∀ x ∈ new, x ∈ refs ∧ x ∉ moved ∧ x ∉ found) ∧
      ∀ x ∈ refs, x ∈ moved ∨ x ∈ found ++ new := by
  induction refs generalizing found pending with
  | nil => exact ⟨[], by simp, by simp, by simp⟩
  | cons id refs ih =>
    rw [List.foldl_cons]
    by_cases hold : id ∈ moved ∨ id ∈ found
    · have hmeet : meet moved ⟨found, pending⟩ id = ⟨found, pending⟩ := by simp [meet, hold]
      obtain ⟨new, heq, hnew, hrefs⟩ := ih found pending
      rw [hmeet]
      refine ⟨new, heq, fun x hx => ?_, ?_⟩
      · obtain ⟨hmem, hrest⟩ := hnew x hx
        exact ⟨List.mem_cons_of_mem _ hmem, hrest⟩
      · exact List.forall_mem_cons.mpr ⟨hold.imp_right (List.mem_append_left _), hrefs⟩
    · have hmeet : meet moved ⟨found, pending⟩ id = ⟨found ++ [id], pending ++ [id]⟩ := by
        simp [meet, hold]
      rw [not_or] at hold
      obtain ⟨new, heq, hnew, hrefs⟩ := ih (found ++ [id]) (pending ++ [id])
      rw [hmeet]
      simp only [List.append_assoc, List.singleton_append] at heq hrefs
      refine ⟨id :: new, heq, List.forall_mem_cons.mpr ⟨⟨List.mem_cons_self, hold⟩, ?_⟩, ?_⟩
      · intro x hx
        obtain ⟨hmem, hmoved, hfound⟩ := hnew x hx
        exact ⟨List.mem_cons_of_mem _ hmem, hmoved, fun h => hfound (List.mem_append_left _ h)⟩
      · exact List.forall_mem_cons.mpr ⟨.inr (by simp), hrefs⟩

/-- A step leaves fewer names to be found, or it finds none and leaves fewer to be looked at. -/
theorem Step.lt (h : Step w moved s t) :
    Prod.Lex (· < ·) (· < ·) ((w.allRefs.toFinset \ t.found.toFinset).card, t.pending.length)
      ((w.allRefs.toFinset \ s.found.toFinset).card, s.pending.length) := by
  obtain ⟨found, before, after, id⟩ := h
  obtain ⟨new, heq, hnew, -⟩ := foldl_meet moved (w.reporterRefs id) found (before ++ after)
  rw [heq]
  cases new with
  | nil =>
    rw [List.append_nil, List.append_nil]
    refine .right _ ?_
    simp
  | cons x new =>
    obtain ⟨hrefs, -, hfresh⟩ := hnew x List.mem_cons_self
    exact .left _ _ (Reach.unseen_lt List.mem_cons_self (mem_allRefs hrefs) hfresh)

/-- No order in which names are looked at lets the search go on for ever. -/
theorem wellFounded_step (w : Workflow) (moved : List String) :
    WellFounded fun t s => Step w moved s t := by
  apply Subrelation.wf (r := InvImage (Prod.Lex (· < ·) (· < ·)) fun s : Search =>
    ((w.allRefs.toFinset \ s.found.toFinset).card, s.pending.length))
  · intro t s h
    exact h.lt
  · exact InvImage.wf _ (Prod.lex Nat.lt_wfRel Nat.lt_wfRel).wf

theorem exists_step (w : Workflow) (moved : List String) (h : s.pending ≠ []) :
    ∃ t, Step w moved s t := by
  obtain ⟨found, pending⟩ := s
  obtain ⟨id, after, rfl⟩ := List.exists_cons_of_ne_nil h
  exact ⟨_, .look found [] after id⟩

/-- From everywhere the search comes to an end. -/
theorem exists_end (w : Workflow) (moved : List String) (s : Search) :
    ∃ last, ReflTransGen (Step w moved) s ⟨last, []⟩ := by
  induction s using (wellFounded_step w moved).induction with
  | _ s ih =>
    by_cases hnil : s.pending = []
    · obtain ⟨found, pending⟩ := s
      obtain rfl : pending = [] := hnil
      exact ⟨found, .refl⟩
    · obtain ⟨t, hstep⟩ := exists_step w moved hnil
      obtain ⟨last, hlast⟩ := ih t hstep
      exact ⟨last, .head hstep hlast⟩

/-! What the search keeps -/

theorem sound_start (horder : ∀ x, x ∈ order ↔ x ∈ moved) : Sound w moved ⟨[], order⟩ where
  found := by simp
  pending x hx := .inl ((horder x).mp hx)
  looked a ha := .inl ((horder a).mpr (ha.resolve_right List.not_mem_nil))

theorem Sound.step (h : Sound w moved s) (hstep : Step w moved s t) : Sound w moved t := by
  obtain ⟨found, before, after, id⟩ := hstep
  obtain ⟨new, heq, hnew, hrefs⟩ := foldl_meet moved (w.reporterRefs id) found (before ++ after)
  rw [heq]
  have hneeded : id ∈ moved ∨ ∃ a ∈ moved, TransGen w.Cites a id :=
    (h.pending id (by simp)).imp_right fun hid => (h.found id hid).2
  constructor
  case found =>
    intro x hx
    rcases List.mem_append.mp hx with hx | hx
    · exact h.found x hx
    · obtain ⟨hcites, hout, -⟩ := hnew x hx
      refine ⟨hout, ?_⟩
      rcases hneeded with hid | ⟨a, ha, hid⟩
      · exact ⟨id, hid, .single hcites⟩
      · exact ⟨a, ha, .tail hid hcites⟩
  case pending =>
    intro x hx
    rcases List.mem_append.mp hx with hx | hx
    · have hold := h.pending x (by simp only [List.mem_append, List.mem_cons] at hx ⊢; tauto)
      exact hold.imp_right (List.mem_append_left _)
    · exact .inr (List.mem_append_right _ hx)
  case looked =>
    intro a ha
    by_cases hid : a = id
    · subst hid
      exact .inr hrefs
    by_cases hfresh : a ∈ new
    · exact .inl (List.mem_append_right _ hfresh)
    have hold : a ∈ moved ∨ a ∈ found :=
      ha.imp_right fun h => (List.mem_append.mp h).resolve_right hfresh
    refine (h.looked a hold).imp (fun hp => ?_) fun hall b hb => ?_
    · simp only [List.mem_append, List.mem_cons, hid, false_or] at hp ⊢
      exact .inl hp
    · exact (hall b hb).imp_right (List.mem_append_left _)

theorem Sound.run (h : Sound w moved s) (hrun : ReflTransGen (Step w moved) s t) :
    Sound w moved t := by
  induction hrun with
  | refl => exact h
  | tail _ hstep ih => exact ih.step hstep

/-- When nothing is pending any more, all that is needed and not moved has been found. -/
theorem Sound.mem_found_iff (h : Sound w moved s) (hend : s.pending = []) :
    x ∈ s.found ↔ x ∉ moved ∧ ∃ a ∈ moved, TransGen w.Cites a x := by
  refine ⟨h.found x, fun hx => ?_⟩
  obtain ⟨hout, a, ha, hcites⟩ := hx
  have hclosed (b c : String) (hb : b ∈ moved ∨ b ∈ s.found) (hbc : w.Cites b c) :
      c ∈ moved ∨ c ∈ s.found := by
    rcases h.looked b hb with hpending | hall
    · rw [hend] at hpending
      cases hpending
    · exact hall c hbc
  have hmem (y : String) (hy : TransGen w.Cites a y) : y ∈ moved ∨ y ∈ s.found := by
    induction hy with
    | single hab => exact hclosed _ _ (.inl ha) hab
    | tail _ hbc ih => exact hclosed _ _ ih hbc
  exact (hmem x hcites).resolve_left hout

end Search

variable {w : Workflow} {moved shared : List String} {a b x : String}

theorem mem_sharedReporters : x ∈ w.sharedReporters moved ↔
    x ∈ w.nodeIds ∧ x ∉ moved ∧ ∃ a ∈ moved, TransGen w.Cites a x := by
  have hcond : x ∈ w.sharedReporters moved ↔
      x ∈ w.nodeIds ∧ x ∉ moved ∧ ∃ a ∈ moved, ReflTransGen w.Cites a x := by
    simp only [sharedReporters, List.mem_filter, Bool.and_eq_true, List.contains_iff_mem,
      mem_referenceClosure, Bool.not_eq_true', ← Bool.not_eq_true, and_comm]
  rw [hcond]
  refine and_congr_right fun _ => and_congr_right fun hout => exists_congr fun a => ?_
  refine and_congr_right fun ha => ⟨fun h => ?_, fun h => h.to_reflTransGen⟩
  rcases reflTransGen_iff_eq_or_transGen.mp h with rfl | h
  · exact absurd ha hout
  · exact h

/-- Whatever the search has found in the end, its nodes are the shared reporters. -/
theorem filter_found {s : Search} (h : s.Sound w moved) (hend : s.pending = []) :
    w.nodeIds.filter s.found.contains = w.sharedReporters moved := by
  refine List.filter_congr fun x hx => ?_
  have hshared : x ∈ w.sharedReporters moved ↔
      x ∈ w.nodeIds ∧ x ∉ moved ∧ ∃ a ∈ moved, TransGen w.Cites a x := mem_sharedReporters
  rw [sharedReporters, List.mem_filter] at hshared
  rw [Bool.eq_iff_iff, List.contains_iff_mem, h.mem_found_iff hend]
  simpa only [hx, true_and] using hshared.symm

/-- The reporters are those that moved nodes need from outside. -/
structure Supplies (w : Workflow) (moved shared : List String) : Prop where
  ordered : shared.Sublist w.nodeIds
  nodup : shared.Nodup
  mem : ∀ x, x ∈ shared ↔ x ∈ w.nodeIds ∧ x ∉ moved ∧ ∃ a ∈ moved, TransGen w.Cites a x
  /-- Where references name nodes, those of the moved nodes and of the reporters stay among them. -/
  closed : (∀ a b, w.Cites a b → b ∈ w.nodeIds) →
    ∀ a b, a ∈ moved ∨ a ∈ shared → w.Cites a b → b ∈ moved ∨ b ∈ shared

theorem closed_of_mem_iff
    (hmem : ∀ x, x ∈ shared ↔ x ∈ w.nodeIds ∧ x ∉ moved ∧ ∃ a ∈ moved, TransGen w.Cites a x)
    (hnodes : ∀ a b, w.Cites a b → b ∈ w.nodeIds) (ha : a ∈ moved ∨ a ∈ shared)
    (hcites : w.Cites a b) : b ∈ moved ∨ b ∈ shared := by
  by_cases hb : b ∈ moved
  · exact .inl hb
  · refine .inr ((hmem b).mpr ⟨hnodes a b hcites, hb, ?_⟩)
    rcases ha with ha | ha
    · exact ⟨a, ha, .single hcites⟩
    · obtain ⟨-, -, c, hc, hca⟩ := (hmem a).mp ha
      exact ⟨c, hc, .tail hca hcites⟩

/-- The search for what moved nodes need ends, whatever the order in which it starts and goes on, and
what it finds are the shared reporters: in document order the nodes outside that references lead to. -/
theorem supplies_sharedReporters (w : Workflow) (moved : List String) (hd : w.nodeIds.Nodup) :
    WellFounded (fun t s => Search.Step w moved s t) ∧
    (∀ order : List String, (∀ x, x ∈ order ↔ x ∈ moved) →
      (∃ last, ReflTransGen (Search.Step w moved) ⟨[], order⟩ ⟨last, []⟩) ∧
      ∀ s, ReflTransGen (Search.Step w moved) ⟨[], order⟩ s → (∀ t, ¬ Search.Step w moved s t) →
        s.pending = [] ∧ w.nodeIds.filter s.found.contains = w.sharedReporters moved) ∧
    w.Supplies moved (w.sharedReporters moved) := by
  refine ⟨Search.wellFounded_step w moved, fun order horder => ?_, ?_⟩
  · refine ⟨Search.exists_end w moved _, fun s hrun hstuck => ?_⟩
    have hend : s.pending = [] := by
      by_contra hne
      obtain ⟨t, hstep⟩ := Search.exists_step w moved hne
      exact hstuck t hstep
    exact ⟨hend, filter_found ((Search.sound_start horder).run hrun) hend⟩
  · exact {
      ordered := List.filter_sublist
      nodup := hd.filter _
      mem := fun x => mem_sharedReporters
      closed := fun hnodes a b => closed_of_mem_iff (fun x => mem_sharedReporters) hnodes }

/-- The moved nodes `p` and `q` need `a`, `b` and `c`. References lead from `a` to `b` and back, and
to `q`. -/
def tangledRefs : Workflow where
  name := "m"
  interface := {}
  vars := []
  nodes := [
    ⟨"c", "str_concat", [("ITEM1", .literal .null)], none, []⟩,
    ⟨"p", "io_print", [("STRING", .node "a")], some "q", []⟩,
    ⟨"b", "str_concat", [("ITEM1", .node "a")], none, []⟩,
    ⟨"a", "str_concat", [("ITEM1", .node "q"), ("ITEM2", .node "b")], none, []⟩,
    ⟨"q", "io_print", [("STRING", .inline none "str_concat" [("ITEM1", .node "c")])], none, []⟩,
    ⟨"d", "io_print", [("STRING", .node "b")], none, []⟩]

theorem tangledRefs_supplied : tangledRefs.nodeIds.Nodup ∧
    (∃ last, ReflTransGen (Search.Step tangledRefs ["p", "q"]) ⟨[], ["q", "p"]⟩ ⟨last, []⟩ ∧
      tangledRefs.nodeIds.filter last.contains = ["c", "b", "a"]) ∧
    tangledRefs.Supplies ["p", "q"] ["c", "b", "a"] ∧
    (∀ a b, tangledRefs.Cites a b → b ∈ tangledRefs.nodeIds) ∧
    ∀ a b, a ∈ ["p", "q"] ∨ a ∈ ["c", "b", "a"] → tangledRefs.Cites a b →
      b ∈ ["p", "q"] ∨ b ∈ ["c", "b", "a"] := by
  have hd : tangledRefs.nodeIds.Nodup := by decide
  have hshared : tangledRefs.sharedReporters ["p", "q"] = ["c", "b", "a"] := by decide +kernel
  obtain ⟨-, hruns, hsupplies⟩ := supplies_sharedReporters tangledRefs ["p", "q"] hd
  rw [hshared] at hsupplies
  obtain ⟨⟨last, hlast⟩, hfound⟩ := hruns ["q", "p"] (by simp [or_comm])
  have hstuck (t : Search) : ¬ Search.Step tangledRefs ["p", "q"] ⟨last, []⟩ t := by
    generalize hs : (⟨last, []⟩ : Search) = s
    rintro ⟨found, before, after, id⟩
    simp at hs
  have hnodes (a b : String) (h : tangledRefs.Cites a b) : b ∈ tangledRefs.nodeIds := by
    have hall : ∀ x ∈ tangledRefs.allRefs, x ∈ tangledRefs.nodeIds := by decide
    exact hall b (mem_allRefs h)
  exact ⟨hd, ⟨last, hlast, (hfound _ hlast hstuck).2.trans hshared⟩, hsupplies, hnodes,
    hsupplies.closed hnodes⟩

end BlockFlow.Workflow

import BlockFlow.Proofs.Edit.Following

/-!
Where the references of a node stand. Main statement: the paths at which references are listed are
those along which a reference is looked up with no other reference on the way, and what they name are
the references that are counted.
-/

namespace BlockFlow

namespace InputExpr

variable {w : Workflow} {e x : InputExpr} {inputs inner : Inputs} {above p q : List String}
  {key t : String}

mutual

/-- Listed references are the references that are counted, in this order. -/
theorem map_snd_refPaths : (e : InputExpr) → (above : List String) →
    (e.refPaths above).map (·.2) = e.nodeRefs
  | .node _, _ => rfl
  | .inline _ _ inputs, above => map_snd_refPathsIn inputs above
  | .call _ args, above => map_snd_refPathsIn args above
  | .literal _, _ => rfl
  | .variable _, _ => rfl

theorem map_snd_refPathsIn : (inputs : Inputs) → (above : List String) →
    (refPathsIn above inputs).map (·.2) = nodeRefsIn inputs
  | [], _ => rfl
  | (key, e) :: rest, above => by
    rw [refPathsIn, nodeRefsIn, List.map_append, map_snd_refPaths e (above ++ [key]),
      map_snd_refPathsIn rest above]

end

mutual

/-- Where names differ, no path is listed twice. -/
theorem nodup_refPaths : (e : InputExpr) → (above : List String) → e.Distinct →
    ((e.refPaths above).map (·.1)).Nodup
  | .node _, _, _ => List.nodup_singleton _
  | .inline _ _ inputs, above, hd => nodup_refPathsIn inputs above hd
  | .call _ args, above, hd => nodup_refPathsIn args above hd
  | .literal _, _, _ => .nil
  | .variable _, _, _ => .nil

theorem nodup_refPathsIn : (inputs : Inputs) → (above : List String) → DistinctIn inputs →
    ((refPathsIn above inputs).map (·.1)).Nodup
  | [], _, _ => .nil
  | (key, e) :: rest, above, ⟨hfresh, hd, hdrest⟩ => by
    rw [refPathsIn, List.map_append, List.nodup_append']
    refine ⟨nodup_refPaths e _ hd, nodup_refPathsIn rest above hdrest, ?_⟩
    intro p hhead htail
    obtain ⟨r, hr, rfl⟩ := List.mem_map.mp hhead
    obtain ⟨s, hs, heq⟩ := List.mem_map.mp htail
    obtain ⟨u, hu⟩ := exists_of_mem_refPaths e _ hr
    rw [List.append_assoc, List.singleton_append, ← heq] at hu
    exact ne_of_mem_refPathsIn hs hfresh hu

end

/-- References are listed input by input. -/
theorem mem_refPathsIn {r : List String × String} :
    r ∈ refPathsIn above inputs ↔ ∃ i ∈ inputs, r ∈ i.2.refPaths (above ++ [i.1]) := by
  induction inputs with
  | nil => simp [refPathsIn]
  | cons i rest ih => simp only [refPathsIn, List.mem_append, ih, List.mem_cons, exists_eq_or_imp]

/-- A reference is listed for a value that is this reference, or that has it inside. -/
theorem mem_refPaths_iff : (above ++ q, t) ∈ e.refPaths above ↔ q = [] ∧ e = .node t ∨
    ∃ inner, e.below? = some inner ∧ (above ++ q, t) ∈ refPathsIn above inner := by
  cases e <;> simp [refPaths, below?, eq_comm]

/-- The listed paths of references are those that lead to references through reporters written in
place and calls. -/
theorem mem_refPathsIn_iff :
    (above ++ q, t) ∈ refPathsIn above inputs ↔ EndsAt q inputs (.node t) := by
  induction q generalizing above inputs with
  | nil =>
    refine iff_of_false (fun h => ?_) id
    obtain ⟨key, u, hu, -⟩ := exists_of_mem_refPathsIn inputs above h
    simp at hu
  | cons key q ih =>
    have hvalue (e : InputExpr) : (above ++ key :: q, t) ∈ e.refPaths (above ++ [key]) ↔
        q = [] ∧ e = .node t ∨ ∃ inner, e.below? = some inner ∧ EndsAt q inner (.node t) := by
      rw [List.append_cons above key q, mem_refPaths_iff]
      simp only [ih]
    rw [mem_refPathsIn]
    constructor
    · rintro ⟨⟨k, e⟩, hmem, h⟩
      have hk : k = key := by
        by_contra hne
        exact ne_of_mem_refPaths h hne rfl
      subst hk
      refine ⟨e, hmem, ((hvalue e).mp h).imp_left fun hnode => ?_⟩
      exact ⟨hnode.1, hnode.2.symm⟩
    · rintro ⟨e, hmem, h⟩
      refine ⟨(key, e), hmem, (hvalue e).mpr (h.imp_left fun hnode => ?_)⟩
      exact ⟨hnode.1, hnode.2.symm⟩

/-- Where names differ, the value that a path leads to is looked up. -/
theorem EndsAt.valueAlong? (h : EndsAt q inputs e) (hd : DistinctIn inputs) :
    w.valueAlong? inputs q = some e := by
  induction q generalizing inputs with
  | nil => exact h.elim
  | cons key rest ih =>
    obtain ⟨e₀, hmem, hrest⟩ := h
    have hfirst := firstOf?_of_mem hd.nodup hmem
    have hvalue := hd.of_mem hmem
    rcases hrest with ⟨rfl, rfl⟩ | ⟨inner, hbelow, hends⟩
    · exact hfirst
    · have hinner : w.inputsBelow e₀ = inner ∧ DistinctIn inner := by
        cases e₀ <;> cases hbelow <;> exact ⟨rfl, hvalue⟩
      have hlook := ih hends hinner.2
      cases rest with
      | nil => exact hends.elim
      | cons k rest =>
        change (firstOf? key inputs).bind (fun x => w.valueAlong? (w.inputsBelow x) (k :: rest)) = _
        rw [hfirst, Option.bind_some, hinner.1, hlook]

/-- On the way along a path stand values that have others inside. -/
theorem EndsAt.exists_below (h : EndsAt q inputs e) (hp : p <+: q) (hne : p ≠ q) (hp₀ : p ≠ []) :
    ∃ x inner, EndsAt p inputs x ∧ x.below? = some inner := by
  induction q generalizing inputs p with
  | nil => exact h.elim
  | cons key rest ih =>
    obtain ⟨k, p, rfl⟩ := List.exists_cons_of_ne_nil hp₀
    obtain ⟨rfl, hprefix⟩ := List.cons_prefix_cons.mp hp
    obtain ⟨e₀, hmem, ⟨rfl, -⟩ | ⟨inner, hbelow, hends⟩⟩ := h
    · exact absurd (by rw [List.prefix_nil.mp hprefix]) hne
    · by_cases hnil : p = []
      · subst hnil
        exact ⟨e₀, inner, ⟨e₀, hmem, .inl ⟨rfl, rfl⟩⟩, hbelow⟩
      · obtain ⟨x, xs, hx, hxs⟩ := ih hends hprefix (fun heq => hne (by rw [heq])) hnil
        exact ⟨x, xs, ⟨e₀, hmem, .inr ⟨inner, hbelow, hx⟩⟩, hxs⟩

end InputExpr

open InputExpr

namespace Workflow

variable {w : Workflow} {id t : String} {path : List String} {n : NodeDef}

/-- No reference stands on the way to the end of the path. -/
def Unbroken (w : Workflow) (id : String) (path : List String) : Prop :=
  ∀ q, q <+: path → q ≠ path → ∀ t, w.valueAt? id q ≠ some (.node t)

theorem valueAt?_eq (hn : w.node? id = some n) :
    w.valueAt? id path = w.valueAlong? n.inputs path := by
  rw [valueAt?, hn]
  rfl

theorem mem_referencePaths_iff (hn : w.node? id = some n) (hd : DistinctIn n.inputs) :
    (path, t) ∈ w.referencePaths id ↔
      w.valueAt? id path = some (.node t) ∧ w.Unbroken id path := by
  have hlisted : (path, t) ∈ w.referencePaths id ↔ EndsAt path n.inputs (.node t) := by
    have hpaths : ([] ++ path, t) ∈ refPathsIn [] n.inputs ↔ EndsAt path n.inputs (.node t) :=
      mem_refPathsIn_iff
    rwa [referencePaths, hn]
  rw [hlisted, valueAt?_eq hn]
  constructor
  · intro hends
    refine ⟨hends.valueAlong? hd, fun q hq hne s hs => ?_⟩
    rw [valueAt?_eq hn] at hs
    have hq₀ : q ≠ [] := by
      rintro rfl
      cases hs
    obtain ⟨x, inner, hx, hbelow⟩ := hends.exists_below hq hne hq₀
    have hnode : some x = some (.node s) := (hx.valueAlong? hd).symm.trans hs
    cases hnode
    cases hbelow
  · rintro ⟨hvalue, hunbroken⟩
    rcases endsAt_or_follows hvalue with hends | ⟨q, post, s, m, rfl, -, hpost, hends, -, -⟩
    · exact hends
    · refine absurd ?_ (hunbroken q (List.prefix_append q post) (by simpa using hpost) s)
      rw [valueAt?_eq hn]
      exact hends.valueAlong? hd

/-- The references of a node are counted, listed with their paths and looked up along them alike. -/
theorem referencePaths_agree (w : Workflow) (id : String)
    (hd : ∀ n ∈ w.nodes, DistinctIn n.inputs) :
    (w.referencePaths id).map (·.2) = w.reporterRefs id ∧
    ((w.referencePaths id).map (·.1)).Nodup ∧ (∀ p ∈ w.referencePaths id, p.1 ≠ []) ∧
    ∀ path t, (path, t) ∈ w.referencePaths id ↔
      w.valueAt? id path = some (.node t) ∧ w.Unbroken id path := by
  cases hn : w.node? id with
  | none => simp [referencePaths, reporterRefs, valueAt?, hn]
  | some n =>
    have hdistinct := hd n (node?_mem hn)
    have hpaths : w.referencePaths id = refPathsIn [] n.inputs := by rw [referencePaths, hn]
    refine ⟨?_, ?_, ?_, fun path t => mem_referencePaths_iff hn hdistinct⟩
    · rw [hpaths, reporterRefs, hn]
      exact map_snd_refPathsIn n.inputs []
    · rw [hpaths]
      exact nodup_refPathsIn n.inputs [] hdistinct
    · intro p hp
      rw [hpaths] at hp
      obtain ⟨key, u, hu, -⟩ := exists_of_mem_refPathsIn n.inputs [] hp
      rw [hu]
      exact List.cons_ne_nil key u

/-- The node `p` holds references at two depths, and the node `r` that it names holds one too. -/
def citing : Workflow where
  name := "m"
  interface := {}
  vars := []
  nodes := [
    ⟨"p", "io_print", [("A", .inline none "str_concat"
      [("X", .node "r"), ("Y", .call "other" [("Z", .node "s")])]), ("B", .node "r")], none, []⟩,
    ⟨"r", "str_concat", [("C", .node "s")], none, []⟩,
    ⟨"s", "str_concat", [("D", .literal .null)], none, []⟩]

/-- What the node `r` references is looked up from `p`, but is no reference of `p`. -/
theorem citing_agrees : (∀ n ∈ citing.nodes, DistinctIn n.inputs) ∧
    citing.reporterRefs "p" = ["r", "s", "r"] ∧
    citing.valueAt? "p" ["A", "Y", "Z"] = some (.node "s") ∧
    citing.valueAt? "p" ["B", "C"] = some (.node "s") ∧ ¬ citing.Unbroken "p" ["B", "C"] := by
  have hd : ∀ n ∈ citing.nodes, DistinctIn n.inputs := by
    simp [citing, DistinctIn, Distinct]
  obtain ⟨hrefs, -, -, hlisted⟩ := referencePaths_agree citing "p" hd
  have hthrough : citing.valueAt? "p" ["B", "C"] = some (.node "s") := rfl
  refine ⟨hd, hrefs.symm.trans (by decide), ((hlisted ["A", "Y", "Z"] "s").mp (by decide)).1,
    hthrough, fun hunbroken => ?_⟩
  exact absurd ((hlisted ["B", "C"] "s").mpr ⟨hthrough, hunbroken⟩) (by decide)

end Workflow

end BlockFlow

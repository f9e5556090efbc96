import BlockFlow.Proofs.Edit.Bridging

/-!
Inputs along paths that follow references. Main statement: the search for an input ends in the node
that the last reference on the path leads to, and there it goes along values.
-/

namespace BlockFlow

open Outcome InputExpr Yaml

namespace Workflow

variable {w : Workflow} {ins : Inputs} {path : List String} {e : InputExpr}

/-- A path leads along values, or up to a reference that is followed. -/
theorem endsAt_or_follows (h : w.valueAlong? ins path = some e) : EndsAt path ins e ∨
    ∃ (q post : List String) (t : String) (m : NodeDef), path = q ++ post ∧ q ≠ [] ∧ post ≠ [] ∧
      EndsAt q ins (.node t) ∧ w.node? t = some m ∧ w.valueAlong? m.inputs post = some e := by
  induction path generalizing ins with
  | nil => cases h
  | cons key rest ih =>
    cases rest with
    | nil => exact .inl ⟨e, mem_of_firstOf? h, .inl ⟨rfl, rfl⟩⟩
    | cons k rest =>
      obtain ⟨e₀, hfirst, hrest⟩ := Option.bind_eq_some_iff.mp h
      have hmem := mem_of_firstOf? hfirst
      have hempty : w.valueAlong? [] (k :: rest) = none := by
        cases rest <;> rfl
      have hinside (inner : Inputs) (hbelow : e₀.below? = some inner)
          (hinner : w.valueAlong? inner (k :: rest) = some e) :
          EndsAt (key :: k :: rest) ins e ∨ ∃ (q post : List String) (t : String) (m : NodeDef),
            key :: k :: rest = q ++ post ∧ q ≠ [] ∧ post ≠ [] ∧ EndsAt q ins (.node t) ∧
              w.node? t = some m ∧ w.valueAlong? m.inputs post = some e := by
        rcases ih hinner with hends | ⟨q, post, t, m, hpath, -, hpost, hends, hfollow⟩
        · exact .inl ⟨e₀, hmem, .inr ⟨inner, hbelow, hends⟩⟩
        · refine .inr ⟨key :: q, post, t, m, by rw [hpath]; rfl, List.cons_ne_nil _ _, hpost, ?_,
            hfollow⟩
          exact ⟨e₀, hmem, .inr ⟨inner, hbelow, hends⟩⟩
      cases e₀ with
      | inline id opcode inputs => exact hinside inputs rfl hrest
      | call name args => exact hinside args rfl hrest
      | node t =>
        cases hm : w.node? t with
        | none =>
          simp only [inputsBelow, hm, Option.map_none, Option.getD_none] at hrest
          rw [hempty] at hrest
          cases hrest
        | some m =>
          simp only [inputsBelow, hm, Option.map_some, Option.getD_some] at hrest
          exact .inr ⟨[key], k :: rest, t, m, rfl, List.cons_ne_nil _ _, List.cons_ne_nil _ _,
            ⟨.node t, hmem, .inl ⟨rfl, rfl⟩⟩, hm, hrest⟩
      | literal v => cases hempty.symm.trans hrest
      | «variable» name => cases hempty.symm.trans hrest

end Workflow

/-- References are told by their key. -/
theorem Document.lookup_of_loadValue_node {owner key t : String} {vs : List (Value × Value)}
    (h : loadValue owner key (.map vs) = .ok (.node t)) : Value.lookup "node" vs = some (.str t) := by
  rw [loadValue] at h
  split at h
  · cases h
  · split at h
    · cases h
    · cases h
    · split at h
      · rename_i hnode
        cases h
        exact hnode
      · cases h
      · split at h
        · obtain ⟨args, -, h⟩ := bind_eq_ok.mp h
          cases h
        · cases h
        · split at h
          · obtain ⟨id, -, h⟩ := bind_eq_ok.mp h
            obtain ⟨inputs, -, h⟩ := bind_eq_ok.mp h
            cases h
          · cases h
          · cases h

namespace Slot

variable {s : Slot} {gs gs₁ gs₂ : List (String × Form)} {g : Form} {k owner key t text : String}

/-- A string behind a key is read. -/
theorem scalar?_fill (hes : Form.entriesSound (gs₁ ++ (k, g) :: gs₂)) (hg : g.value = .str text) :
    (s.fill (.map (gs₁ ++ (k, g) :: gs₂))).scalar? (s.line + 1 + (Form.mappingLines gs₁).length) =
      some text := by
  obtain ⟨-, hk, hsound, h₂⟩ := sound_entry hes
  have hwritten (t : Slot) (hkey : t.key = k) :
      Line.value? ((t.fill g).line t.line) = some g.written := by
    rw [line_fill, hkey]
    exact Form.value?_headLine hk hsound _
  rw [← fill_inner hk h₂, ← line_inner hk h₂, Outline.scalar?, Line.scalar?, hwritten _ rfl]
  cases g with
  | leaf l =>
    have hvalue : l.value = .str text := hg
    simp [Form.written, text_ne_nil hsound, Form.load?_leaf hsound, hvalue]
  | _ => cases hg

/-- The search goes on in the node that a reference names. -/
theorem enter_reference {d : Draft} {w : Workflow} {missing : EditError} {b : Nat × String}
    (hd : d.outline = s.fill (.map gs)) (hgs : Form.entriesSound gs)
    (hload : Document.loadValue owner key (Form.map gs).value = .ok (.node t))
    (h : d.enter w missing s.line = .ok b) : d.nodeLine w.name t = .ok b.1 := by
  have hnode := Document.lookup_of_loadValue_node hload
  rw [Form.lookup_entryValues] at hnode
  obtain ⟨g, hfirst, hg⟩ := Option.map_eq_some_iff.mp hnode
  obtain ⟨gs₁, gs₂, rfl, h₁⟩ := Form.exists_split_of_firstOf? hfirst
  unfold Draft.enter at h
  simp only [hd, find?_fill_append hgs h₁, scalar?_fill hgs hg] at h
  obtain ⟨block, hblock, h⟩ := bind_eq_ok.mp h
  cases h
  exact hblock

end Slot

namespace Scene

variable {S : Scene} {ws₁ ws₂ : List Workflow} {w : Workflow} {d d' : Draft} {id node : String}
  {e : InputExpr} {p : Draft.InputPlace}

/-- An input is found where the path leads once it has followed its last reference. -/
theorem Hosts.exists_host (h : S.Hosts ws₁ w ws₂) (hd : S.Holds d w.nodes) :
    ∀ (path : List String) (id opcode : String) (n : NodeDef) (span : Span),
      d.nodeSpan w.name id = .ok span → w.node? id = some n →
      w.valueAlong? n.inputs path = some e →
      d.inputFrom w node span.start opcode path = .ok p →
      ∃ (m : NodeDef) (q : List String) (span : Span) (opcode : String), m ∈ w.nodes ∧
        EndsAt q m.inputs e ∧ d.nodeSpan w.name m.id = .ok span ∧
          d.inputFrom w node span.start opcode q = .ok p := by
  intro path
  induction hlength : path.length using Nat.strong_induction_on generalizing path with
  | _ k ih =>
    intro id opcode n span hspan hn hvalue hplace
    have hid := Workflow.node?_id hn
    rcases Workflow.endsAt_or_follows hvalue with
      hends | ⟨q, post, t, m, rfl, hq, hpost, hends, hm, hrest⟩
    · exact ⟨n, path, span, opcode, Workflow.node?_mem hn, hends, hid ▸ hspan, hplace⟩
    · -- The reference stands in the block of the node, and the search goes on from the node it names.
      obtain ⟨s, fs, n', hn', hid', hstart, houtline, hload, hplain, -⟩ :=
        h.exists_block (holds_iff.mp hd) hspan
      have hsame : w.node? id = some n' :=
        hid' ▸ Workflow.node?_eq_some hd.nodup_ids hn'
      obtain rfl : n = n' := Option.some.inj (hn.symm.trans hsame)
      obtain ⟨-, -, -, hinputs, -⟩ := Document.loadNode_map_eq_ok.mp hload.load
      rw [hstart] at hplace
      obtain ⟨E, hform, -⟩ := Slot.exists_entry q s fs "inputs" n.id n.inputs opcode
        ⟨hload.sound, hload.nodup, hplain trivial⟩ (.inl rfl) hinputs hends houtline hplace
      obtain ⟨missing, block, opcode', henter, hsearch⟩ := E.exists_enter hpost
      obtain ⟨-, hkey, hsound, hback⟩ := Slot.sound_entry E.sound
      obtain ⟨gs, hgs⟩ := Form.exists_map_of_not_literal hform fun v heq => by cases heq
      rw [hgs] at hform hsound
      have hinner : d.outline = (E.slot.inner E.front E.back E.key hkey hback).fill (.map gs) := by
        rw [E.outline, Slot.fill_inner, hgs]
      rw [← Slot.line_inner hkey hback] at henter
      have hblock := Slot.enter_reference hinner (Form.isSound_map.mp hsound).2.2 hform henter
      obtain ⟨span', hspan', hblock⟩ := bind_eq_ok.mp hblock
      obtain rfl : span'.start = block := Except.ok.inj hblock
      refine ih post.length ?_ post rfl t opcode' m span' hspan' hm hrest hsearch
      rw [← hlength, List.length_append]
      have hlong : 0 < q.length := List.length_pos_of_ne_nil hq
      omega

/-- Resetting an input along a path that follows references: a literal stands in the input of the node
in which the search for it ends. -/
theorem Hosts.clearInput {path : List String} (h : S.Hosts ws₁ w ws₂) (hd : S.Holds d w.nodes)
    (hvalue : w.valueAt? id path = some e) (hok : d.resetInput w id path = .ok d') :
    ∃ m ∈ w.nodes, ∃ q v, EndsAt q m.inputs e ∧
      S.Holds d' (setInputs m.id (InputExpr.setAt (.literal v) q m.inputs) w.nodes) := by
  obtain ⟨n, hn, hvalue⟩ := Option.bind_eq_some_iff.mp hvalue
  obtain ⟨p, hp, hok⟩ := bind_eq_ok.mp hok
  cases hok
  unfold Draft.inputPlace at hp
  split at hp
  · cases hp
  · obtain ⟨line, hline, hp⟩ := bind_eq_ok.mp hp
    obtain ⟨span, hspan, hline⟩ := bind_eq_ok.mp hline
    cases hline
    obtain ⟨n', -, hp⟩ := bind_eq_ok.mp hp
    obtain ⟨m, q, span', opcode, hm, hends, hspan', hplace⟩ :=
      h.exists_host hd path id n'.opcode n span hspan hn hvalue hp
    have halong : ∀ k ∈ w.nodes, k.id = m.id → Along q k.inputs := by
      intro k hk hid
      obtain rfl : k = m := List.inj_on_of_nodup_map hd.nodup_ids hk hm hid
      exact hends.along
    obtain ⟨v, hholds⟩ := h.setLiteral hd hspan' halong hplace
    rw [setInputs_eq hd.nodup_ids hm (InputExpr.setAt (.literal v) q)] at hholds
    exact ⟨m, hm, q, v, hends, hholds⟩

end Scene

end BlockFlow

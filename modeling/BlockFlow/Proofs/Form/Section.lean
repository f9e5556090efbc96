import BlockFlow.Proofs.Form.Site
import BlockFlow.Proofs.Form.Change

/-!
A section of a workflow, such as its variables. Main statements: the section is found, or added, below
the line of the workflow, and nothing but the section changes with what is written there.
-/

namespace BlockFlow

namespace Form

variable {owner : String} {vs : List (String × Form)}

/-- The values of entries under their keys, as variables are. -/
def namedValues (vs : List (String × Form)) : List (String × Yaml.Value) := vs.map fun e => (e.1, e.2.value)

theorem loadVariables_entryValues :
    Document.loadVariables owner (some (.map (entryValues vs))) = .ok (namedValues vs) := by
  rw [Document.loadVariables, entryValues_eq_map, List.mapM_map, Outcome.mapM_eq_ok, namedValues,
    List.forall₂_map_right_iff]
  exact List.forall₂_same.mpr fun _ _ => rfl

variable {k k' : String} {es es₁ es₂ : List (String × Form)} {f g : Form}

/-- Other entries do not change with the value of a key. -/
theorem lookup_others (hk : k' ≠ k) (f g : Form) :
    Yaml.Value.lookup k' (entryValues (es₁ ++ (k, f) :: es₂)) =
      Yaml.Value.lookup k' (entryValues (es₁ ++ (k, g) :: es₂)) := by
  have hsame : firstOf? k' (es₁ ++ (k, f) :: es₂) = firstOf? k' (es₁ ++ (k, g) :: es₂) := by
    simp [firstOf?, List.find?_append, Ne.symm hk]
  rw [lookup_entryValues, lookup_entryValues, hsame]

/-- A value that is null counts as absent. -/
theorem field?_split (h : k ∉ es₁.map (·.1)) :
    Document.field? k (entryValues (es₁ ++ (k, f) :: es₂)) =
      match f.value with
      | .null => none
      | v => some v := by
  rw [Document.field?, lookup_entryValues, firstOf?_append h, Option.map_some]
  generalize f.value = v
  cases v <;> rfl

theorem lookup_added (hk : k' ≠ k) (f : Form) :
    Yaml.Value.lookup k' (entryValues (es ++ [(k, f)])) = Yaml.Value.lookup k' (entryValues es) := by
  have hsame : firstOf? k' (es ++ [(k, f)]) = firstOf? k' es := by
    simp [firstOf?, List.find?_append, Ne.symm hk]
  rw [lookup_entryValues, lookup_entryValues, hsame]

/-- An added entry that is null changes nothing. -/
theorem field?_added (h : k ∉ es.map (·.1)) (k' : String) :
    Document.field? k' (entryValues (es ++ [(k, .bare)])) = Document.field? k' (entryValues es) := by
  by_cases hk : k' = k
  · subst hk
    rw [field?_split h, Document.field?, lookup_entryValues, firstOf?_eq_none h]
    rfl
  · exact Document.field?_congr (lookup_added hk .bare)

end Form

open Form (entriesSound mappingLines headLine)

/-- A workflow in a text, and the place of a section of it below its first entry. -/
structure Section extends Site where
  first : String × Form
  front : List (String × Form)
  back : List (String × Form)
  key : String
  isKey : Form.isKey key
  frontSound : entriesSound (first :: front)
  backSound : entriesSound back
  itemKeys : (first.1 :: (front.map (·.1) ++ key :: back.map (·.1))).Nodup

namespace Section

variable {S : Section} {f g : Form} {k : String}

/-- The entries of the workflow. -/
def entries (S : Section) (f : Form) : List (String × Form) :=
  S.first :: (S.front ++ (S.key, f) :: S.back)

/-- The whole text, with the section given. -/
def whole (S : Section) (f : Form) : Form := S.form (.map (S.entries f))

/-- The place of the section. -/
def slot (S : Section) : Slot := S.dash.inner S.first S.front S.back S.key S.isKey S.backSound

theorem fill_slot : S.slot.fill f = S.dash.fill (S.entries f) := Dash.fill_inner _ _

theorem fill_eq_whole : S.slot.fill f = ⟨(S.whole f).lines, true⟩ := by
  rw [fill_slot, Site.fill_eq_form, whole]

theorem isSound_entries (hf : f.isSound) : (Form.map (S.entries f)).isSound := by
  refine Form.isSound_map.mpr ⟨List.cons_ne_nil _ _, by simpa [entries] using S.itemKeys, ?_⟩
  rw [entries, ← List.cons_append]
  exact Form.entriesSound_append.mpr ⟨S.frontSound,
    Form.entriesSound_cons.mpr ⟨S.isKey, hf, S.backSound⟩⟩

theorem isSound_whole (hf : f.isSound) : (S.whole f).isSound := S.isSound_form (isSound_entries hf)

theorem toChars_fill : (S.slot.fill f).toChars = (S.whole f).chars := by
  rw [fill_eq_whole, whole, Form.toChars_lines S.lines_form_ne_nil]

theorem key_not_mem : S.key ∉ (S.first :: S.front).map (·.1) := by
  have hkeys := S.itemKeys
  rw [← List.cons_append] at hkeys
  intro hmem
  exact (List.nodup_append.mp hkeys).2.2 _ hmem _ List.mem_cons_self rfl

/-- The other entries of the workflow do not change with the section. -/
theorem lookup_entries (hk : k ≠ S.key) (f g : Form) :
    Yaml.Value.lookup k (Form.entryValues (S.entries f)) =
      Yaml.Value.lookup k (Form.entryValues (S.entries g)) := by
  rw [entries, entries, ← List.cons_append, ← List.cons_append]
  exact Form.lookup_others hk f g

theorem field?_entries (hk : k ≠ S.key) (f g : Form) :
    Document.field? k (Form.entryValues (S.entries f)) =
      Document.field? k (Form.entryValues (S.entries g)) :=
  Document.field?_congr (lookup_entries hk f g)

/-- A section that is null counts as absent. -/
theorem field?_key : Document.field? S.key (Form.entryValues (S.entries f)) =
    match f.value with
    | .null => none
    | v => some v := by
  rw [entries, ← List.cons_append]
  exact Form.field?_split key_not_mem

/-- An added section that is null changes nothing else. -/
theorem lookup_added (hk : k ≠ S.key) (hback : S.back = []) :
    Yaml.Value.lookup k (Form.entryValues (S.entries f)) =
      Yaml.Value.lookup k (Form.entryValues (S.first :: S.front)) := by
  rw [entries, hback, ← List.cons_append]
  exact Form.lookup_added hk f

theorem field?_added (hback : S.back = []) (k : String) :
    Document.field? k (Form.entryValues (S.entries .bare)) =
      Document.field? k (Form.entryValues (S.first :: S.front)) := by
  rw [entries, hback, ← List.cons_append]
  exact Form.field?_added key_not_mem k

end Section

namespace Dash

variable {d : Dash} {e : String × Form} {es es₁ es₂ : List (String × Form)} {k : String} {g : Form}

theorem sound_inner (hes : entriesSound (e :: (es₁ ++ (k, g) :: es₂))) :
    Form.isKey k ∧ g.isSound ∧ entriesSound es₂ := by
  rw [← List.cons_append] at hes
  exact Form.entriesSound_cons.mp (Form.entriesSound_append.mp hes).2

theorem findBelow?_fill_append (hes : entriesSound (e :: (es₁ ++ (k, g) :: es₂)))
    (h : k ∉ (e :: es₁).map (·.1)) (hk : Form.isKey k) (h₂ : entriesSound es₂) :
    (d.fill (e :: (es₁ ++ (k, g) :: es₂))).findBelow? d.line k =
      some (d.inner e es₁ es₂ k hk h₂).line := by
  have hne : d.line + (mappingLines (e :: es₁)).length ≠ d.line := by
    rw [length_mappingLines_cons]
    omega
  have hfind : (d.fill (e :: (es₁ ++ (k, g) :: es₂))).find? d.line k =
      some (d.line + (mappingLines (e :: es₁)).length) := find?_fill_append hes rfl h
  rw [Outline.findBelow?, hfind, line_inner]
  exact Option.filter_eq_some_iff.mpr ⟨rfl, decide_eq_true hne⟩

theorem findBelow?_fill_none (hes : entriesSound (e :: es)) (h : k ∉ (e :: es).map (·.1)) :
    (d.fill (e :: es)).findBelow? d.line k = none := by
  rw [Outline.findBelow?, Outline.find?, entries_fill hes, find?_places_none _ h]
  rfl

theorem ensureBlock_fill_append (hes : entriesSound (e :: (es₁ ++ (k, g) :: es₂)))
    (h : k ∉ (e :: es₁).map (·.1)) (hk : Form.isKey k) (h₂ : entriesSound es₂) :
    (d.fill (e :: (es₁ ++ (k, g) :: es₂))).ensureBlock d.line k =
      ((d.inner e es₁ es₂ k hk h₂).fill (Slot.opened g), (d.inner e es₁ es₂ k hk h₂).line) := by
  rw [Outline.ensureBlock, findBelow?_fill_append hes h hk h₂]
  simp only
  rw [← fill_inner hk h₂]
  exact Slot.open_fill (sound_inner hes).2.1

theorem entryDepth_fill : (d.fill (e :: es)).entryDepth d.line = d.column + 2 := by
  rw [Outline.entryDepth, isItem_fill, if_pos rfl, Outline.depth_of_indent? indent?_fill]

theorem ensureBlock_fill_none (hes : entriesSound (e :: es)) (h : k ∉ (e :: es).map (·.1))
    (hk : Form.isKey k) : (d.fill (e :: es)).ensureBlock d.line k =
      ((d.inner e es [] k hk rfl).fill .bare, (d.inner e es [] k hk rfl).line) := by
  have hlines : (d.fill (e :: es)).lines = (d.inner e es [] k hk rfl).above ++ d.rest := by
    simp [lines_fill, inner]
  have hend : (d.fill (e :: es)).blockEnd d.line = (d.inner e es [] k hk rfl).above.length := by
    rw [blockEnd_fill hes]
    exact (line_inner hk rfl).symm
  have hkey : [Outline.keyLine (d.column + 2) k] =
      (Form.entryLines k .bare (Form.lines .bare)).map (·.deeper (d.column + 2)) := by
    simp [Outline.keyLine, Form.entryLines, Form.lines, Form.renderString_of_isKey hk]
  rw [Outline.ensureBlock, findBelow?_fill_none hes h]
  simp only [entryDepth_fill, hkey]
  rw [Outline.insert, Outline.splice, hend, hlines, List.take_left, List.drop_left]
  rfl

end Dash

namespace Form

/-- Whether the first entry of a mapping has another key. -/
def startsApart (k : String) : Form → Bool
  | map ((k', _) :: _) => k' ≠ k
  | _ => true

/-- Whether no workflow begins with an entry of that key, on the line of its item. -/
def opensWithout (k : String) : Form → Bool
  | map roots =>
    match firstOf? "workflows" roots with
    | some (seq items) => items.all (startsApart k)
    | _ => true
  | _ => true

end Form

namespace Site

variable {T : Site} {f : Form} {e : String × Form} {es : List (String × Form)} {k : String}

theorem opensWithout_items : (T.form f).opensWithout k = (T.items f).all (Form.startsApart k) := by
  rw [form, whole, Form.opensWithout, Form.firstOf?_append not_mem_above]

/-- What a workflow begins with does not depend on what follows. -/
theorem opensWithout_form (h : (T.form (.map (e :: es))).opensWithout k) :
    e.1 ≠ k ∧ ∀ g es', (T.form (.map ((e.1, g) :: es'))).opensWithout k := by
  rw [opensWithout_items, items, List.all_append, List.all_cons, Bool.and_eq_true,
    Bool.and_eq_true] at h
  obtain ⟨hbefore, hfirst, hafter⟩ := h
  refine ⟨of_decide_eq_true hfirst, fun g es' => ?_⟩
  have hsame : Form.startsApart k (.map ((e.1, g) :: es')) = true := hfirst
  rw [opensWithout_items, items, List.all_append, List.all_cons, hbefore, hafter, hsame]
  rfl

end Site

namespace Section

open Scene (Workflows)

variable {S : Section} {F f g : Form} {d : Document} {w w' : Workflow} {ws₁ ws₂ : List Workflow}
  {name k : String}

/-- The text loads with another section when the workflow does. -/
theorem eq_of_load (haround : S.Around ws₁ w ws₂) (hf : f.isSound)
    (hload : Document.loadWorkflow (Form.map (S.entries f)).value = .ok w')
    (hd : Document.load (String.ofList (S.whole f).chars) = .ok d) :
    d = ⟨ws₁ ++ w' :: ws₂⟩ := by
  rw [Document.load, String.toList_ofList] at hd
  obtain ⟨vs₁, v, vs₂, rfl, hv, hload'⟩ :=
    S.ofValue_form.mp (Form.ofValue_of_ofChars (isSound_whole hf) rfl hd)
  obtain rfl := Scene.workflows_unique hv.before haround.before
  obtain rfl := Scene.workflows_unique hv.after haround.after
  obtain rfl := Except.ok.inj (hload'.symm.trans hload)
  rfl

/-- A section of a workflow in a text: what stands in it, and where it is found or added. -/
structure Holds (S : Section) (F g : Form) (w : Workflow) : Prop where
  sound : g.isSound
  load : Document.loadWorkflow (Form.map (S.entries g)).value = .ok w
  line : (Outline.ofChars F.chars).workflowLine? w.name = some S.dash.line
  ensure : (Outline.ofChars F.chars).ensureBlock S.dash.line S.key =
    (S.slot.fill (Slot.opened g), S.slot.line)
  opens : ∀ f k, F.opensWithout k → (S.whole f).opensWithout k

theorem exists_section (hF : F.isSound) (hblock : F.isBlock) (hopens : F.opensWithout k) (hk : Form.isKey k)
    (hname : k ≠ "name") (hd : Document.load (String.ofList F.chars) = .ok d)
    (hw : d.workflow? name = some w) :
    ∃ (S : Section) (g : Form) (ws₁ ws₂ : List Workflow), S.key = k ∧ d = ⟨ws₁ ++ w :: ws₂⟩ ∧
      S.Around ws₁ w ws₂ ∧ S.Holds F g w := by
  rw [Document.load, String.toList_ofList] at hd
  obtain ⟨T, es, ws₁, ws₂, rfl, hes, hdoc, haround, hload⟩ :=
    Site.exists_site hF (Form.ofValue_of_ofChars hF hblock hd) (List.mem_of_find?_eq_some hw)
  obtain ⟨hne, hkeys, hentries⟩ := Form.isSound_map.mp hes
  obtain ⟨e, es, rfl⟩ := List.exists_cons_of_ne_nil hne
  obtain ⟨hfirst, hrest⟩ := Site.opensWithout_form hopens
  have hfresh : w.name ∉ ws₁.map (·.name) := (fresh_of_nodup haround.names).1
  have houtline : Outline.ofChars (T.form (.map (e :: es))).chars = T.dash.fill (e :: es) := by
    rw [Form.outline_chars hF T.lines_form_ne_nil, Site.fill_eq_form]
  have hline := T.workflowLine?_fill hes haround.before hload hfresh
  rw [← houtline] at hline
  by_cases hmem : k ∈ es.map (·.1)
  · obtain ⟨front, g, back, rfl, hfront, -⟩ := Form.exists_split hmem (List.nodup_cons.mp hkeys).2
    obtain ⟨-, hg, hback⟩ := Dash.sound_inner hentries
    have hparts := Form.entriesSound_append.mp ((List.cons_append (a := e)) ▸ hentries)
    have hnew : k ∉ (e :: front).map (·.1) := by simp [Ne.symm hfirst, hfront]
    let S : Section := {
      toSite := T
      first := e
      front, back
      key := k
      isKey := hk
      frontSound := hparts.1
      backSound := hback
      itemKeys := by simpa using hkeys }
    refine ⟨S, g, ws₁, ws₂, rfl, hdoc, haround, hg, hload, hline, ?_, ?_⟩
    · rw [houtline]
      exact Dash.ensureBlock_fill_append hentries hnew hk hback
    · exact fun f k' hk' => (Site.opensWithout_form hk').2 _ _
  · have hnew : k ∉ (e :: es).map (·.1) := by simp [Ne.symm hfirst, hmem]
    let S : Section := {
      toSite := T
      first := e
      front := es
      back := []
      key := k
      isKey := hk
      frontSound := hentries
      backSound := rfl
      itemKeys := by
        have hsame : e.1 :: (es.map (·.1) ++ [k]) = (e :: es).map (·.1) ++ [k] := rfl
        rw [List.map_nil, hsame]
        exact List.nodup_append.mpr ⟨hkeys, List.nodup_singleton _, fun a ha b hb heq =>
          hnew (List.mem_singleton.mp hb ▸ heq ▸ ha)⟩ }
    have hloaded : Document.loadWorkflow (Form.map (S.entries .bare)).value = .ok w := by
      obtain ⟨hne', hlookup, hinterface, hvars, hnodes⟩ := Document.loadWorkflow_map_eq_ok.mp hload
      refine Document.loadWorkflow_map_eq_ok.mpr ⟨hne', ?_, ?_, ?_, ?_⟩
      · rw [S.lookup_added (Ne.symm hname) rfl, hlookup]
      · rw [S.field?_added rfl, hinterface]
      · rw [S.field?_added rfl, hvars]
      · rw [S.field?_added rfl, hnodes]
    refine ⟨S, .bare, ws₁, ws₂, rfl, hdoc, haround, rfl, hloaded, hline, ?_, ?_⟩
    · rw [houtline]
      exact Dash.ensureBlock_fill_none hentries hnew hk
    · exact fun f k' hk' => (Site.opensWithout_form hk').2 _ _

end Section

end BlockFlow

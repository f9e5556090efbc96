import BlockFlow.Proofs.Edit.Revising
import BlockFlow.Proofs.Form.Listing

/-!
What edits of the interface of a workflow leave behind. Main statement: in a text in block style one
list of the interface changes as the edit says, and nothing else.
-/

namespace BlockFlow

open Yaml (Value)
open Form (entriesSound itemsSound)
open Outcome

namespace Form

section Reading

variable {α : Type} {item? : Value → Option α} {items more : List Form} {xs ys : List α}
  {f g : Form}

/-- Items that are read one by one. -/
def Reads (item? : Value → Option α) (items : List Form) (xs : List α) : Prop :=
  List.Forall₂ (fun f x => item? f.value = some x) items xs

theorem mapM_itemValues : (itemValues items).mapM item? = some xs ↔ Reads item? items xs := by
  induction items generalizing xs with
  | nil => cases xs <;> simp [itemValues, Reads]
  | cons f items ih =>
    rw [itemValues, List.mapM_cons, Reads, List.forall₂_cons_left_iff]
    constructor
    · intro h
      obtain ⟨x, hx, h⟩ := Option.bind_eq_some_iff.mp h
      obtain ⟨rest, hrest, h⟩ := Option.bind_eq_some_iff.mp h
      exact ⟨x, rest, hx, ih.mp hrest, (Option.some.inj h).symm⟩
    · rintro ⟨x, rest, hx, hrest, rfl⟩
      exact Option.bind_eq_some_iff.mpr
        ⟨x, hx, Option.bind_eq_some_iff.mpr ⟨rest, ih.mpr hrest, rfl⟩⟩

/-- The block of some items, on one line when there are none. -/
def listing (items : List Form) : Form := if items = [] then .leaf .noItems else .seq items

theorem isSound_listing (h : itemsSound items) : (listing items).isSound := by
  unfold listing
  split
  · rfl
  · rename_i hne
    exact isSound_seq.mpr ⟨hne, h⟩

theorem value_listing : (listing items).value = .seq (itemValues items) := by
  unfold listing
  split
  · rename_i hnil
    rw [hnil]
    rfl
  · rfl

/-- A list that loads, as it stands behind its key. -/
theorem reads_listed (h : Document.listOf? item? (match g.value with
    | .null => none
    | v => some v) = some xs) : (∀ es, g ≠ .map es) ∧ Reads item? g.listed xs := by
  cases g with
  | seq items => exact ⟨nofun, mapM_itemValues.mp h⟩
  | bare =>
    cases h
    exact ⟨nofun, .nil⟩
  | map es => cases h
  | leaf l =>
    refine ⟨nofun, ?_⟩
    rw [value] at h
    cases hv : l.value with
    | null =>
      rw [hv] at h
      cases h
      exact .nil
    | seq vs =>
      rw [hv, value_leaf_seq hv] at h
      cases h
      exact .nil
    | tagged tag v =>
      exact absurd hv (value_leaf_ne_tagged l tag v)
    | _ =>
      rw [hv] at h
      cases h

/-- A list that is read is one again after a change of its items. -/
theorem listOf?_listing (h : Reads item? items xs) :
    Document.listOf? item? (some (listing items).value) = some xs := by
  rw [value_listing]
  exact mapM_itemValues.mpr h

theorem Reads.append (h : Reads item? items xs) (hmore : Reads item? more ys) :
    Reads item? (items ++ more) (xs ++ ys) := List.rel_append h hmore

/-- The item that is read as the first element with some property. -/
theorem Reads.exists_split {p : α → Bool} (h : Reads item? items xs) (hp : xs.any p) :
    ∃ before f after xs₁ x xs₂, items = before ++ f :: after ∧ xs = xs₁ ++ x :: xs₂ ∧
      Reads item? before xs₁ ∧ item? f.value = some x ∧ Reads item? after xs₂ ∧
      (∀ y ∈ xs₁, p y = false) ∧ p x = true := by
  induction h with
  | nil => cases hp
  | @cons f x items xs hfx hrest ih =>
    by_cases hx : p x = true
    · exact ⟨[], f, items, [], x, xs, rfl, rfl, .nil, hfx, hrest, by simp, hx⟩
    · rw [Bool.not_eq_true] at hx
      rw [List.any_cons, hx, Bool.false_or] at hp
      obtain ⟨before, g, after, xs₁, y, xs₂, rfl, rfl, hbefore, hg, hafter, hnone, hy⟩ := ih hp
      exact ⟨f :: before, g, after, x :: xs₁, y, xs₂, rfl, rfl, .cons hfx hbefore, hg, hafter,
        List.forall_mem_cons.mpr ⟨hx, hnone⟩, hy⟩

end Reading

/-- An interface input as an item. -/
def inputItem (i : InterfaceInput) : Form :=
  map [("name", .leaf (.string i.name)), ("type", .leaf (.string i.type)),
    ("required", .leaf (.plain (Value.boolText i.required).toList))]

/-- Strings of an interface input that are read back. -/
structure Spelled (i : InterfaceInput) : Prop where
  name : (Leaf.string i.name).isSound
  type : (Leaf.string i.type).isSound

theorem isKey_type : isKey "type" := by decide +kernel

theorem isKey_required : isKey "required" := by decide +kernel

variable {i : InterfaceInput}

theorem isSound_inputItem (h : Spelled i) : (inputItem i).isSound := by
  have hflag : (Leaf.plain (Value.boolText i.required).toList).isSound := by
    cases i.required <;> decide +kernel
  refine isSound_map.mpr ⟨List.cons_ne_nil _ _, by simp, ?_⟩
  exact entriesSound_cons.mpr ⟨isKey_ownWord (by decide), h.name,
    entriesSound_cons.mpr ⟨isKey_type, h.type, entriesSound_cons.mpr ⟨isKey_required, hflag, rfl⟩⟩⟩

theorem interfaceInput?_inputItem (h : Spelled i) :
    Document.interfaceInput? (inputItem i).value = some i := by
  obtain ⟨name, type, required⟩ := i
  have hname : (Leaf.string name).value = .str name := Leaf.value_string h.name
  have htype : (Leaf.string type).value = .str type := Leaf.value_string h.type
  have hflag : (Leaf.plain (Value.boolText required).toList).value = .bool required := by
    cases required <;> rfl
  rw [inputItem, interfaceInput?_map]
  simp [fieldOf?, namedValues, Document.onlyField?, value, hname, htype, hflag, Document.string?,
    Document.bool?, Value.untagged]

theorem itemLines_inputItem (i : InterfaceInput) :
    itemLines (inputItem i) (inputItem i).lines = i.itemLines := by
  have hflag (cs : Line) : (Leaf.plain cs).text = cs := rfl
  simp [inputItem, itemLines, lines, mappingLines, entryLines, InterfaceInput.itemLines,
    Leaf.text_string, hflag, Line.deeper, Text.spaces]

end Form

namespace Slot

variable {s : Slot} {items before after : List Form} {f g : Form}

/-- A value that has given way to items is read as them. -/
theorem fill_listed (hg : ∀ es, g ≠ .map es) : s.fill (opened g) = s.fill (.seq g.listed) := by
  cases g with
  | map es => exact absurd rfl (hg es)
  | _ => rfl

theorem fill_listing_append (f : Form) (items : List Form) :
    s.fill (.seq (items ++ [f])) = s.fill (Form.listing (items ++ [f])) := by
  rw [Form.listing, if_neg (by simp)]

/-- An item is added behind those of a list. -/
theorem appendItem_fill (hitems : itemsSound items) (hf : f.isSound) :
    (s.fill (.seq items)).appendItem s.line (Form.itemLines f f.lines) =
      s.fill (Form.listing (items ++ [f])) := by
  have hsolid : Form.Solid (Form.itemLines f f.lines) := Form.solid_itemLines (Form.solid_lines f hf)
  rw [Outline.appendItem, depth_fill, itemDepth_fill hitems, Line.indentAll_eq_map hsolid,
    insert_item hitems, fill_listing_append]

/-- An item is written over. -/
theorem overwrite_item (h : itemsSound (before ++ f :: after)) (hg : g.isSound) {i : Nat}
    (hi : i = s.line + 1 + (Form.sequenceLines before).length) :
    (s.fill (.seq (before ++ f :: after))).splice i ((s.fill (.seq (before ++ f :: after))).blockEnd i)
      (Line.indentAll ((s.fill (.seq (before ++ f :: after))).span i).indent
        (Form.itemLines g g.lines)) = s.fill (Form.listing (before ++ g :: after)) := by
  have hsolid : Form.Solid (Form.itemLines g g.lines) := Form.solid_itemLines (Form.solid_lines g hg)
  have hdepth : ((s.fill (.seq (before ++ f :: after))).span i).indent = s.column + 2 := by
    obtain ⟨-, hf, hafter⟩ := sound_item h
    rw [Outline.span, ← hold_dash (h := hafter), hi, ← line_dash (h := hafter), Dash.depth_hold hf]
    rfl
  rw [hdepth, Line.indentAll_eq_map hsolid, replace_item h g hi, Form.listing, if_neg (by simp)]

/-- An item is removed, and the block with it when it was the last one. -/
theorem dropItem_fill (h : itemsSound (before ++ f :: after)) {i : Nat}
    (hi : i = s.line + 1 + (Form.sequenceLines before).length) :
    ((s.fill (.seq (before ++ f :: after))).remove i
      ((s.fill (.seq (before ++ f :: after))).blockEnd i)).collapse s.line "[]".toList =
        s.fill (Form.listing (before ++ after)) := by
  obtain ⟨hbefore, -, hafter⟩ := sound_item h
  have hsolid : Form.Solid (Form.bodyLines (.seq (before ++ after))) :=
    Form.solid_sequenceLines _ (Form.itemsSound_append.mpr ⟨hbefore, hafter⟩)
  rw [remove_item h hi, show "[]".toList = Form.Leaf.noItems.text from rfl,
    collapse_block hsolid nofun, Form.listing]
  cases hrest : before ++ after with
  | nil => rfl
  | cons g items =>
    have hne : (Form.seq (g :: items)).lines ≠ [] := Form.sequenceLines_ne_nil (List.cons_ne_nil g items)
    rw [if_neg hne, if_neg (List.cons_ne_nil g items)]

end Slot

/-- A list of the interface of a workflow: the entries around it. -/
structure Roster (S : Section) (k : String) where
  front : List (String × Form)
  back : List (String × Form)
  isKey : Form.isKey k
  frontSound : entriesSound front
  backSound : entriesSound back
  keys : (front.map (·.1) ++ k :: back.map (·.1)).Nodup

namespace Roster

variable {S : Section} {k : String} {R : Roster S k} {f g : Form} {es : List (String × Form)}

/-- The entries of the interface. -/
def entries (R : Roster S k) (f : Form) : List (String × Form) := R.front ++ (k, f) :: R.back

/-- The place of the list. -/
def slot (R : Roster S k) : Slot := S.slot.inner R.front R.back k R.isKey R.backSound

theorem fill_slot : R.slot.fill f = S.slot.fill (.map (R.entries f)) := Slot.fill_inner _ _

theorem isSound_entries (hf : f.isSound) : (Form.map (R.entries f)).isSound := by
  refine Form.isSound_map.mpr ⟨by simp [entries], by simpa [entries] using R.keys, ?_⟩
  exact Form.entriesSound_append.mpr ⟨R.frontSound,
    Form.entriesSound_cons.mpr ⟨R.isKey, hf, R.backSound⟩⟩

theorem key_not_mem : k ∉ R.front.map (·.1) := fun hmem =>
  (List.nodup_append.mp R.keys).2.2 _ hmem _ List.mem_cons_self rfl

/-- The list is found, or added, in the block of the interface. -/
theorem exists_roster (S : Section) (hk : Form.isKey k) (hes : entriesSound es)
    (hnodup : (es.map (·.1)).Nodup) : ∃ (R : Roster S k) (g : Form), g.isSound ∧
      (S.slot.fill (.map es)).ensureBlock S.slot.line k =
        (R.slot.fill (Slot.opened g), R.slot.line) ∧
      ∀ k', Document.field? k' (Form.entryValues (R.entries g)) =
        Document.field? k' (Form.entryValues es) := by
  by_cases hmem : k ∈ es.map (·.1)
  · obtain ⟨front, g, back, rfl, hfront, -⟩ := Form.exists_split hmem hnodup
    obtain ⟨hfrontSound, -, hg, hbackSound⟩ := Slot.sound_entry hes
    let R : Roster S k := {
      front, back
      isKey := hk
      frontSound := hfrontSound
      backSound := hbackSound
      keys := by simpa using hnodup }
    refine ⟨R, g, hg, ?_, fun _ => rfl⟩
    rw [Slot.ensureBlock_fill_append hes hfront, fill_slot, slot, Slot.line_inner]
    rfl
  · let R : Roster S k := {
      front := es
      back := []
      isKey := hk
      frontSound := hes
      backSound := rfl
      keys := List.nodup_append.mpr ⟨hnodup, List.nodup_singleton _, fun a ha b hb heq =>
        hmem (List.mem_singleton.mp hb ▸ heq ▸ ha)⟩ }
    refine ⟨R, .bare, rfl, ?_, fun k' => ?_⟩
    · rw [Slot.ensureBlock_fill_none hes hk hmem, fill_slot, slot, Slot.line_inner]
      rfl
    · exact Form.field?_added hmem k'

variable {owner : String} {t : Interface} {items : List Form}

theorem field?_key : Document.field? k (Form.entryValues (R.entries f)) =
    match f.value with
    | .null => none
    | v => some v := Form.field?_split key_not_mem

theorem field?_entries {k' : String} (hk : k' ≠ k) (f g : Form) :
    Document.field? k' (Form.entryValues (R.entries f)) =
      Document.field? k' (Form.entryValues (R.entries g)) :=
  Document.field?_congr (Form.lookup_others hk f g)

theorem field?_listing : Document.field? k (Form.entryValues (R.entries (Form.listing items))) =
    some (Form.listing items).value := by
  rw [field?_key, Form.value_listing]

/-- An interface loads with another list of inputs. -/
theorem loads_inputs {R : Roster S "inputs"} {xs : List InterfaceInput}
    (h : Document.loadInterface owner (some (.map (Form.entryValues (R.entries g)))) = .ok t)
    (hxs : Form.Reads Document.interfaceInput? items xs) :
    Document.loadInterface owner (some (.map (Form.entryValues (R.entries (Form.listing items))))) =
      .ok { t with inputs := xs } := by
  obtain ⟨-, houtputs⟩ := Document.loadInterface_map.mp h
  refine Document.loadInterface_map.mpr ⟨?_, ?_⟩
  · rw [field?_listing, Form.listOf?_listing hxs]
  · rw [field?_entries (by decide) _ g, houtputs]

theorem loads_outputs {R : Roster S "outputs"} {xs : List String}
    (h : Document.loadInterface owner (some (.map (Form.entryValues (R.entries g)))) = .ok t)
    (hxs : Form.Reads Document.string? items xs) :
    Document.loadInterface owner (some (.map (Form.entryValues (R.entries (Form.listing items))))) =
      .ok { t with outputs := xs } := by
  obtain ⟨hinputs, -⟩ := Document.loadInterface_map.mp h
  refine Document.loadInterface_map.mpr ⟨?_, ?_⟩
  · rw [field?_entries (by decide) _ g, hinputs]
  · rw [field?_listing, Form.listOf?_listing hxs]

/-- A section with another list of inputs. -/
theorem exists_inputs {R : Roster S "inputs"} {xs : List InterfaceInput} {o : Outline}
    (h : Document.loadInterface owner (some (.map (Form.entryValues (R.entries g)))) = .ok t)
    (hxs : Form.Reads Document.interfaceInput? items xs) (hitems : itemsSound items)
    (ho : o = R.slot.fill (Form.listing items)) : ∃ es, o = S.slot.fill (.map es) ∧
      (Form.map es).isSound ∧
      Document.loadInterface owner (some (.map (Form.entryValues es))) = .ok { t with inputs := xs } :=
  ⟨_, ho.trans R.fill_slot, R.isSound_entries (Form.isSound_listing hitems), R.loads_inputs h hxs⟩

theorem exists_outputs {R : Roster S "outputs"} {xs : List String} {o : Outline}
    (h : Document.loadInterface owner (some (.map (Form.entryValues (R.entries g)))) = .ok t)
    (hxs : Form.Reads Document.string? items xs) (hitems : itemsSound items)
    (ho : o = R.slot.fill (Form.listing items)) : ∃ es, o = S.slot.fill (.map es) ∧
      (Form.map es).isSound ∧
      Document.loadInterface owner (some (.map (Form.entryValues es))) = .ok { t with outputs := xs } :=
  ⟨_, ho.trans R.fill_slot, R.isSound_entries (Form.isSound_listing hitems), R.loads_outputs h hxs⟩

end Roster

namespace Form

/-- An interface that loads is inside its section. -/
theorem interface_inside {g : Form} {owner : String} {t : Interface}
    (h : Document.loadInterface owner (match g.value with
      | .null => none
      | v => some v) = .ok t) : (∀ items, g ≠ .seq items) ∧
        Document.loadInterface owner (some (.map (entryValues g.inside))) = .ok t := by
  cases g with
  | map es => exact ⟨nofun, h⟩
  | bare => exact ⟨nofun, h⟩
  | seq items => cases h
  | leaf l =>
    refine ⟨nofun, ?_⟩
    rw [value] at h
    cases hv : l.value with
    | null =>
      rw [hv] at h
      exact h
    | map vs =>
      rw [hv, value_leaf_map hv] at h
      exact h
    | _ =>
      rw [hv] at h
      cases h

end Form

namespace Document

variable {S : Section} {f : Form} {w : Workflow} {t : Interface} {es : List (String × Form)}

/-- Another interface in a workflow that loads. -/
theorem loadWorkflow_interface (hkey : S.key = "interface")
    (hw : loadWorkflow (Form.map (S.entries f)).value = .ok w)
    (ht : loadInterface w.name (some (.map (Form.entryValues es))) = .ok t) :
    loadWorkflow (Form.map (S.entries (.map es))).value = .ok { w with interface := t } := by
  obtain ⟨hname, hlookup, -, hvars, hnodes⟩ := loadWorkflow_map_eq_ok.mp hw
  refine loadWorkflow_map_eq_ok.mpr ⟨hname, ?_, ?_, ?_, ?_⟩
  · rw [S.lookup_entries (by rw [hkey]; decide) (.map es) f, hlookup]
  · rw [← hkey, S.field?_key]
    exact ht
  · rw [S.field?_entries (by rw [hkey]; decide) (.map es) f, hvars]
  · rw [S.field?_entries (by rw [hkey]; decide) (.map es) f, hnodes]

end Document

namespace Edit

/-- What an edit of the interface of a workflow does to it. New strings are read back. -/
inductive Relists (workflow : String) : Edit → (Interface → Interface) → Prop where
  | addInput {i : InterfaceInput} (hi : Form.Spelled i) :
    Relists workflow (.addInterfaceInput workflow i) fun t => { t with inputs := t.inputs ++ [i] }
  | updateInput {name : String} {i : InterfaceInput} (hi : Form.Spelled i) :
    Relists workflow (.updateInterfaceInput workflow name i) fun t =>
      { t with inputs := t.inputs.set (t.inputs.findIdx (·.name = name)) i }
  | removeInput {name : String} : Relists workflow (.removeInterfaceInput workflow name) fun t =>
      { t with inputs := t.inputs.eraseP (·.name = name) }
  | addOutput {name : String} (hname : (Form.Leaf.string name).isSound) :
    Relists workflow (.addInterfaceOutput workflow name) fun t =>
      { t with outputs := t.outputs ++ [name] }
  | removeOutput {name : String} : Relists workflow (.removeInterfaceOutput workflow name) fun t =>
      { t with outputs := t.outputs.erase name }

variable {c : Catalog} {F g : Form} {d : Document} {w : Workflow} {S : Section} {e : Edit}
  {f : Interface → Interface} {after : Draft} {id : Option String} {r : Edited}

/-- A list of the interface, with the blocks that it stands in opened. -/
theorem exists_list {k : String} (hkey : S.key = "interface") (hk : Form.isKey k)
    (hS : S.Holds F g w) : ∃ (R : Roster S k) (h : Form), h.isSound ∧
      (⟨c, d, Outline.ofChars F.chars⟩ : Draft).interfaceList w.name k =
        .ok (⟨c, d, R.slot.fill (Slot.opened h)⟩, R.slot.line) ∧
      Document.loadInterface w.name (some (.map (Form.entryValues (R.entries h)))) =
        .ok w.interface := by
  obtain ⟨-, -, hinterface, -, -⟩ := Document.loadWorkflow_map_eq_ok.mp hS.load
  rw [← hkey, S.field?_key] at hinterface
  obtain ⟨hseq, hinterface⟩ := Form.interface_inside hinterface
  obtain ⟨hes, hnodup⟩ := Form.sound_inside hS.sound
  obtain ⟨R, h, hh, hensure, hfields⟩ := Roster.exists_roster S hk hes hnodup
  refine ⟨R, h, hh, ?_, ?_⟩
  · have hopen := hS.ensure
    rw [hkey, Slot.fill_opened hseq] at hopen
    have hline : (⟨c, d, Outline.ofChars F.chars⟩ : Draft).workflowLine w.name = .ok S.dash.line :=
      Draft.workflowLine_eq_ok.mpr hS.line
    rw [Draft.interfaceList, hline]
    simp only [bind, Except.bind, hopen, hensure]
    rfl
  · obtain ⟨hinputs, houtputs⟩ := Document.loadInterface_map.mp hinterface
    exact Document.loadInterface_map.mpr ⟨by rw [hfields, hinputs], by rw [hfields, houtputs]⟩

section Listed

variable {k name : String} {α : Type} {item? : Value → Option α} {xs : List α} {R : Roster S k}
  {h : Form} {x : α} {called : α → String}

/-- What a list holds, as it stands in the text. -/
structure Lists (c : Catalog) (F : Form) (d : Document) (w : Workflow) (R : Roster S k) (h : Form)
    (item? : Value → Option α) (xs : List α) : Prop where
  sound : h.isSound
  list : (⟨c, d, Outline.ofChars F.chars⟩ : Draft).interfaceList w.name k =
    .ok (⟨c, d, R.slot.fill (.seq h.listed)⟩, R.slot.line)
  reads : Form.Reads item? h.listed xs

theorem Lists.items (hl : Lists c F d w R h item? xs) : itemsSound h.listed :=
  Form.itemsSound_listed hl.sound

/-- An item is written behind those of a list. -/
theorem Lists.append (hl : Lists c F d w R h item? xs) (hg : g.isSound)
    (hx : item? g.value = some x) : ∃ items,
      (R.slot.fill (.seq h.listed)).appendItem R.slot.line (Form.itemLines g g.lines) =
        R.slot.fill (Form.listing items) ∧ itemsSound items ∧ Form.Reads item? items (xs ++ [x]) :=
  ⟨h.listed ++ [g], Slot.appendItem_fill hl.items hg,
    Form.itemsSound_append.mpr ⟨hl.items, Form.itemsSound_cons.mpr ⟨hg, rfl⟩⟩,
    hl.reads.append (.cons hx .nil)⟩

/-- The first item with a name is the one that is found. -/
theorem Lists.exists_item (hl : Lists c F d w R h item? xs)
    (hcalled : ∀ (f : Form) (x : α), item? f.value = some x → Form.Named f (called x))
    (hname : xs.any fun x => called x = name) :
    ∃ before f after xs₁ x xs₂, h.listed = before ++ f :: after ∧ xs = xs₁ ++ x :: xs₂ ∧
      Form.Reads item? before xs₁ ∧ Form.Reads item? after xs₂ ∧
      (∀ y ∈ xs₁, called y ≠ name) ∧ called x = name ∧
      (⟨c, d, Outline.ofChars F.chars⟩ : Draft).interfaceItem w.name k name =
        .ok (⟨c, d, R.slot.fill (.seq h.listed)⟩, R.slot.line,
          R.slot.line + 1 + (Form.sequenceLines before).length) := by
  obtain ⟨before, f, after, xs₁, x, xs₂, hitems, rfl, hbefore, hx, hafter, hnone, hname⟩ :=
    hl.reads.exists_split hname
  simp only [decide_eq_true_eq, decide_eq_false_iff_not] at hnone hname
  refine ⟨before, f, after, xs₁, x, xs₂, hitems, rfl, hbefore, hafter, hnone, hname, ?_⟩
  have hsound := hl.items
  have hnamed : ∀ g ∈ before, ∃ n, Form.Named g n ∧ n ≠ name := by
    intro g hg
    obtain ⟨y, hy, hread⟩ := exists_mem_of_forall₂ hbefore hg
    exact ⟨called y, hcalled g y hread, hnone y hy⟩
  rw [hitems] at hsound
  have hfind := Slot.findItem?_fill (s := R.slot) hsound hnamed (hname ▸ hcalled f x hx)
  rw [Draft.interfaceItem, hl.list]
  simp only [bind, Except.bind, hitems, hfind]

/-- The first item with a name is removed. -/
theorem Lists.remove (hl : Lists c F d w R h item? xs)
    (hcalled : ∀ (f : Form) (x : α), item? f.value = some x → Form.Named f (called x))
    (hname : xs.any fun x => called x = name)
    (hrun : (⟨c, d, Outline.ofChars F.chars⟩ : Draft).removeInterfaceItem w.name k name = .ok after) :
    ∃ items, after.outline = R.slot.fill (Form.listing items) ∧ itemsSound items ∧
      Form.Reads item? items (xs.eraseP fun x => called x = name) := by
  obtain ⟨before, f, rest, xs₁, x, xs₂, hitems, rfl, hbefore, hrest, hnone, hx, hitem⟩ :=
    hl.exists_item hcalled hname
  have hsound := hl.items
  rw [Draft.removeInterfaceItem, hitem] at hrun
  cases hrun
  rw [hitems] at hsound
  obtain ⟨hsound₁, -, hsound₂⟩ := Slot.sound_item hsound
  refine ⟨before ++ rest, ?_, Form.itemsSound_append.mpr ⟨hsound₁, hsound₂⟩, ?_⟩
  · simp only [Draft.withOutline, hitems]
    exact Slot.dropItem_fill hsound rfl
  · rw [List.eraseP_append_right _ (by simpa using hnone), List.eraseP_cons_of_pos (by simpa using hx)]
    exact hbefore.append hrest

/-- The first item with a name is written over. -/
theorem Lists.overwrite (hl : Lists c F d w R h item? xs)
    (hcalled : ∀ (f : Form) (x : α), item? f.value = some x → Form.Named f (called x))
    (hname : xs.any fun x => called x = name) (hg : g.isSound) (hx : item? g.value = some x) :
    ∃ i items, (⟨c, d, Outline.ofChars F.chars⟩ : Draft).interfaceItem w.name k name =
        .ok (⟨c, d, R.slot.fill (.seq h.listed)⟩, R.slot.line, i) ∧
      (R.slot.fill (.seq h.listed)).splice i ((R.slot.fill (.seq h.listed)).blockEnd i)
        (Line.indentAll ((R.slot.fill (.seq h.listed)).span i).indent (Form.itemLines g g.lines)) =
          R.slot.fill (Form.listing items) ∧ itemsSound items ∧
      Form.Reads item? items (xs.set (xs.findIdx fun x => called x = name) x) := by
  obtain ⟨before, f, rest, xs₁, y, xs₂, hitems, rfl, hbefore, hrest, hnone, hy, hitem⟩ :=
    hl.exists_item hcalled hname
  have hsound := hl.items
  rw [hitems] at hsound
  obtain ⟨hsound₁, -, hsound₂⟩ := Slot.sound_item hsound
  refine ⟨_, before ++ g :: rest, hitem, ?_, Form.itemsSound_append.mpr
    ⟨hsound₁, Form.itemsSound_cons.mpr ⟨hg, hsound₂⟩⟩, ?_⟩
  · rw [hitems]
    exact Slot.overwrite_item hsound hg rfl
  · have hindex : (xs₁ ++ y :: xs₂).findIdx (fun x => called x = name) = xs₁.length := by
      have hall : xs₁.findIdx (fun x => called x = name) = xs₁.length :=
        List.findIdx_eq_length.mpr (by simpa using hnone)
      rw [List.findIdx_append, hall, if_neg (Nat.lt_irrefl _), List.findIdx_cons]
      simp [hy]
    rw [hindex, List.set_append_right _ _ le_rfl, Nat.sub_self, List.set_cons_zero]
    exact hbefore.append (.cons hx hrest)

end Listed

theorem lists_inputs (hkey : S.key = "interface") (hS : S.Holds F g w) :
    ∃ (R : Roster S "inputs") (h : Form),
      Lists c F d w R h Document.interfaceInput? w.interface.inputs ∧
      Document.loadInterface w.name (some (.map (Form.entryValues (R.entries h)))) =
        .ok w.interface := by
  obtain ⟨R, h, hh, hlist, hload⟩ :=
    exists_list hkey (Form.isKey_ownWord (k := "inputs") (by decide)) hS
  have hinputs := (Document.loadInterface_map.mp hload).1
  rw [R.field?_key] at hinputs
  obtain ⟨hmap, hreads⟩ := Form.reads_listed hinputs
  exact ⟨R, h, ⟨hh, Slot.fill_listed hmap ▸ hlist, hreads⟩, hload⟩

theorem lists_outputs (hkey : S.key = "interface") (hS : S.Holds F g w) :
    ∃ (R : Roster S "outputs") (h : Form),
      Lists c F d w R h Document.string? w.interface.outputs ∧
      Document.loadInterface w.name (some (.map (Form.entryValues (R.entries h)))) =
        .ok w.interface := by
  obtain ⟨R, h, hh, hlist, hload⟩ :=
    exists_list hkey (Form.isKey_ownWord (k := "outputs") (by decide)) hS
  have houtputs := (Document.loadInterface_map.mp hload).2
  rw [R.field?_key] at houtputs
  obtain ⟨hmap, hreads⟩ := Form.reads_listed houtputs
  exact ⟨R, h, ⟨hh, Slot.fill_listed hmap ▸ hlist, hreads⟩, hload⟩

/-- An edit of the interface writes other entries into the section. -/
theorem exists_interface (hkey : S.key = "interface") (hS : S.Holds F g w)
    (hw : d.workflow? w.name = some w) (he : Relists w.name e f)
    (hrun : e.run ⟨c, d, Outline.ofChars F.chars⟩ = .ok (after, id)) :
    ∃ es : List (String × Form), after.outline = S.slot.fill (.map es) ∧ (Form.map es).isSound ∧
      Document.loadInterface w.name (some (.map (Form.entryValues es))) = .ok (f w.interface) := by
  cases he with
  | @addInput i hi =>
    obtain ⟨R, h, hl, hload⟩ := lists_inputs (c := c) (d := d) hkey hS
    obtain ⟨items, hfill, hitems, hreads⟩ := hl.append (Form.isSound_inputItem hi)
      (Form.interfaceInput?_inputItem hi)
    have hok := Draft.ok_of_workflow (run_changed hrun) hw
    split at hok
    · cases hok
    · obtain ⟨⟨d', line⟩, hlist, hok⟩ := bind_eq_ok.mp hok
      obtain ⟨rfl, rfl⟩ := Prod.mk.inj (Except.ok.inj (hl.list.symm.trans hlist))
      cases hok
      rw [Form.itemLines_inputItem] at hfill
      exact R.exists_inputs hload hreads hitems hfill
  | @updateInput name i hi =>
    obtain ⟨R, h, hl, hload⟩ := lists_inputs (c := c) (d := d) hkey hS
    have hok := Draft.ok_of_workflow (run_changed hrun) hw
    dsimp only at hok
    split at hok
    · cases hok
    rename_i hany
    split at hok
    · cases hok
    obtain ⟨j, items, hitem, hfill, hitems, hreads⟩ := hl.overwrite (fun _ _ => Form.named_of_interfaceInput?)
      (by simpa using hany) (Form.isSound_inputItem hi) (Form.interfaceInput?_inputItem hi)
    obtain ⟨⟨d', line, j'⟩, hitem', hok⟩ := bind_eq_ok.mp hok
    obtain ⟨rfl, rfl, rfl⟩ := Prod.mk.inj (Except.ok.inj (hitem.symm.trans hitem'))
    cases hok
    rw [Form.itemLines_inputItem] at hfill
    exact R.exists_inputs hload hreads hitems hfill
  | @removeInput name =>
    obtain ⟨R, h, hl, hload⟩ := lists_inputs (c := c) (d := d) hkey hS
    have hok := Draft.ok_of_workflow (run_changed hrun) hw
    split at hok
    · rename_i hany
      obtain ⟨items, hfill, hitems, hreads⟩ :=
        hl.remove (fun _ _ => Form.named_of_interfaceInput?) hany hok
      exact R.exists_inputs hload hreads hitems hfill
    · cases hok
  | @addOutput name hname =>
    obtain ⟨R, h, hl, hload⟩ := lists_outputs (c := c) (d := d) hkey hS
    have hvalue : Document.string? (Form.leaf (.string name)).value = some name := by
      rw [Form.value, Form.Leaf.value_string hname]
      rfl
    obtain ⟨items, hfill, hitems, hreads⟩ := hl.append (g := .leaf (.string name)) hname hvalue
    have hok := Draft.ok_of_workflow (run_changed hrun) hw
    split at hok
    · cases hok
    · obtain ⟨⟨d', line⟩, hlist, hok⟩ := bind_eq_ok.mp hok
      obtain ⟨rfl, rfl⟩ := Prod.mk.inj (Except.ok.inj (hl.list.symm.trans hlist))
      cases hok
      rw [Form.itemLines, Form.Leaf.text_string] at hfill
      exact R.exists_outputs hload hreads hitems hfill
  | @removeOutput name =>
    obtain ⟨R, h, hl, hload⟩ := lists_outputs (c := c) (d := d) hkey hS
    have hok := Draft.ok_of_workflow (run_changed hrun) hw
    split at hok
    · rename_i hmem
      have hname : w.interface.outputs.any fun x => x = name := by simpa using hmem
      obtain ⟨items, hfill, hitems, hreads⟩ :=
        hl.remove (fun _ _ => Form.named_of_string?) hname hok
      have hsame : (fun x => decide (x = name)) = (name == ·) := by
        funext x
        rw [Bool.beq_comm]
        rfl
      rw [hsame, ← List.erase_eq_eraseP] at hreads
      exact R.exists_outputs hload hreads hitems hfill
    · cases hok

/-- In a text in block style, in which no workflow begins with its interface, an edit of the interface
changes one of its two lists as it says, and nothing else. The text is in block style again. -/
theorem relisted_of_apply (c : Catalog) (F : Form) (d : Document) (name : String) (e : Edit)
    (f : Interface → Interface) (r : Edited) (hF : F.isSound) (hblock : F.isBlock)
    (hopens : F.opensWithout "interface") (hd : Document.load (String.ofList F.chars) = .ok d)
    (he : Relists name e f) (hr : e.apply c (String.ofList F.chars) = .ok r) :
    ∃ (F' : Form) (d' : Document), F'.isSound ∧ F'.isBlock ∧
      (∀ k, F.opensWithout k → F'.opensWithout k) ∧ r.text = String.ofList F'.chars ∧
      Document.load r.text = .ok d' ∧
      Document.Changed name (fun w w' => w' = { w with interface := f w.interface }) d d' := by
  obtain ⟨d₀, after, id, -, hd₀, hrun, -, -⟩ := exists_run hr
  obtain rfl : d = d₀ := Except.ok.inj (hd.symm.trans hd₀)
  obtain ⟨w, hw⟩ : ∃ w, d.workflow? name = some w := by
    cases he
    all_goals
      obtain ⟨w, hw, -⟩ := bind_eq_ok.mp (run_changed hrun)
      exact ⟨w, Draft.workflow_eq_ok.mp hw⟩
  obtain rfl : w.name = name := by simpa using List.find?_some hw
  refine changed_of_section (u := fun w => { w with interface := f w.interface }) hF hblock hopens
    (Form.isKey_ownWord (by decide)) (by decide) hd hw hr fun hkey hS hrun => ?_
  obtain ⟨es, hfill, hsound, hload⟩ := exists_interface hkey hS hw he hrun
  exact ⟨.map es, hfill, hsound, Document.loadWorkflow_interface hkey hS.load hload⟩

/-- A workflow that takes `a` and a second `a`, and gives `b`. -/
def doubled : Form :=
  let word (s : String) : Form := .leaf (.plain s.toList)
  .map [("workflows", .seq [.map [("name", word "m"), ("interface", .map [
    ("inputs", .seq [.map [("name", word "a"), ("type", word "int")],
      .map [("name", word "a"), ("type", word "str")]]),
    ("outputs", .seq [word "b"])]), ("nodes", .leaf .noEntries)]])]

set_option maxRecDepth 2000 in
theorem doubled_relisted : ∃ (d d' : Document) (r : Edited) (F' : Form),
    doubled.isSound ∧ doubled.isBlock ∧ doubled.opensWithout "interface" ∧
    Document.load (String.ofList doubled.chars) = .ok d ∧
    (Edit.removeInterfaceInput "m" "a").apply Catalog.builtin (String.ofList doubled.chars) = .ok r ∧
    F'.isSound ∧ F'.isBlock ∧ r.text = String.ofList F'.chars ∧ Document.load r.text = .ok d' ∧
    Document.Changed "m" (fun w w' => w' = { w with interface :=
      { w.interface with inputs := w.interface.inputs.eraseP (·.name = "a") } }) d d' := by
  have hF : doubled.isSound := by decide +kernel
  have hopens : doubled.opensWithout "interface" := by decide +kernel
  have hcheck : (documents? Catalog.builtin (.removeInterfaceInput "m" "a") doubled.chars).any
      fun _ => true := by decide +kernel
  obtain ⟨d, r, -, hd, hr, -, -⟩ := exists_apply rfl hcheck
  obtain ⟨F', d', hF', hblock', -, htext, hd', hchanged⟩ := relisted_of_apply Catalog.builtin doubled d
    "m" _ _ r hF rfl hopens hd .removeInput hr
  exact ⟨d, d', r, F', hF, rfl, hopens, hd, hr, hF', hblock', htext, hd', hchanged⟩

/-- An interface in braces over two lines. -/
def creased : String :=
  "workflows:
  - name: m
    interface: \x7boutputs: [a],
      note: x\x7d
    nodes: \x7b\x7d
"

set_option maxRecDepth 2000 in
/-- Adding the output `b` removes `a`. -/
theorem addOutput_creased : ¬ ∀ (text name : String) (e : Edit) (f : Interface → Interface)
    (d : Document) (r : Edited), Document.load text = .ok d → Relists name e f →
    e.apply Catalog.builtin text = .ok r → ∃ d', Document.load r.text = .ok d' ∧
      Document.Changed name (fun w w' => w' = { w with interface := f w.interface }) d d' := by
  intro h
  obtain ⟨cs, htext, hcheck⟩ : ∃ cs, creased = String.ofList cs ∧
      (documents? Catalog.builtin (.addInterfaceOutput "m" "b") cs).any (fun ds =>
        (ds.1.workflow? "m").any (fun w => w.interface.outputs = ["a"]) &&
          (ds.2.workflow? "m").any fun w => w.interface.outputs = ["b"]) :=
    ⟨_, rfl, by decide +kernel⟩
  obtain ⟨d, r, d₁, hd, hr, hd₁, hdocs⟩ := exists_apply htext hcheck
  simp only [Bool.and_eq_true, Option.any_eq_true, decide_eq_true_eq] at hdocs
  obtain ⟨⟨w, hw, hold⟩, w₁, hw₁, hnew⟩ := hdocs
  obtain ⟨d', hd', hchanged⟩ := h creased "m" _ _ d r hd (.addOutput (by decide +kernel)) hr
  obtain rfl : d₁ = d' := Except.ok.inj (hd₁.symm.trans hd')
  obtain ⟨w', hw', heq⟩ := hchanged.exists_workflow? (fun v v' hv => by rw [hv]) hw
  obtain rfl : w₁ = w' := Option.some.inj (hw₁.symm.trans hw')
  rw [heq] at hnew
  simp only [hold] at hnew
  exact absurd hnew (by decide)

end Edit

end BlockFlow

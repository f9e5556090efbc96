import BlockFlow.Edit.Interface
import BlockFlow.Proofs.Form.Renamed
import BlockFlow.Proofs.Form.Write
import BlockFlow.Proofs.Outline.Keys

/-!
Lists whose items have names. Main statements: an item is found by its name, and it is replaced or
removed where it stands.
-/

namespace BlockFlow

open Form (itemsSound itemLines sequenceLines Solid)

namespace Line

variable {q : Char} {l rest : Line} {p : Line × Line}

theorem colon_mem_of_quotedPair? (h : quotedPair? q rest = some p) : ':' ∈ rest := by
  obtain ⟨⟨key, after⟩, hsplit, h⟩ := Option.bind_eq_some_iff.mp h
  obtain ⟨value, hvalue, -⟩ := Option.bind_eq_some_iff.mp h
  rw [Text.splitFirst?_eq hsplit]
  cases after with
  | nil => cases hvalue
  | cons c cs =>
    have hc : ':' = c := by
      by_contra hne
      simp [Text.dropStem?, hne] at hvalue
    simp [← hc]

theorem colon_mem_of_splitColon? (h : splitColon? l = some p) : ':' ∈ l := by
  unfold splitColon? at h
  split at h
  · rename_i parts hsplit
    rw [Text.splitFirst?_eq hsplit]
    simp
  · split at h
    · rename_i hlast
      exact List.mem_of_getLast? hlast
    · cases h

/-- There is a colon on the line of an entry. -/
theorem colon_mem_of_pair? (h : pair? l = some p) : ':' ∈ l := by
  unfold pair? at h
  split at h
  case h_7 =>
    split at h
    · cases h
    · obtain ⟨parts, hsplit, -⟩ := Option.bind_eq_some_iff.mp h
      exact colon_mem_of_splitColon? hsplit
  case h_2 | h_3 => exact List.mem_cons_of_mem _ (colon_mem_of_quotedPair? h)
  all_goals cases h

end Line

namespace Form

/-- A quote between quotes stands behind a backslash. -/
theorem mem_of_splitFirst?_quote {cs key rest : List Char}
    (h : Text.splitFirst? ['"'] (cs.flatMap Text.Quoted.encodeChar ++ ['"']) = some (key, rest)) :
    rest = [] ∨ '\\' ∈ key := by
  by_cases hmem : '"' ∈ cs
  · obtain ⟨ds, es, rfl, hds⟩ := List.eq_append_cons_of_mem hmem
    have hfree : '"' ∉ ds.flatMap Text.Quoted.encodeChar ++ ['\\'] := by
      simp [Text.Quoted.quote_not_mem_flatMap hds]
    let more := es.flatMap Text.Quoted.encodeChar ++ ['"']
    have hsplit : Text.splitFirst? ['"']
        (ds.flatMap Text.Quoted.encodeChar ++ ['\\'] ++ ['"'] ++ more) =
          some (ds.flatMap Text.Quoted.encodeChar ++ ['\\'], more) := Text.splitFirst?_of_not_mem hfree
    have hsame : (ds ++ '"' :: es).flatMap Text.Quoted.encodeChar ++ ['"'] =
        ds.flatMap Text.Quoted.encodeChar ++ ['\\'] ++ ['"'] ++ more := by
      simp [Text.Quoted.encodeChar, more]
    rw [hsame, hsplit] at h
    obtain ⟨rfl, -⟩ := Prod.mk.inj (Option.some.inj h)
    exact .inr (by simp)
  · have hsplit : Text.splitFirst? ['"'] (cs.flatMap Text.Quoted.encodeChar ++ ['"'] ++ []) =
        some (cs.flatMap Text.Quoted.encodeChar, []) :=
      Text.splitFirst?_of_not_mem (Text.Quoted.quote_not_mem_flatMap hmem)
    rw [List.append_nil] at hsplit
    obtain ⟨-, rfl⟩ := Prod.mk.inj (Option.some.inj (h.symm.trans hsplit))
    exact .inl rfl

/-- An item that is a scalar is no entry, or one with a key that no one looks for. -/
theorem backslash_mem_of_pair? {l : Leaf} {p : Line × Line} (hl : l.isSound)
    (h : Line.pair? l.text = some p) : '\\' ∈ p.1 := by
  cases l with
  | plain cs =>
    have hcolon := (List.all_eq_true.mp (Yaml.chars_of_isPlainText hl).1) ':'
      (Line.colon_mem_of_pair? h)
    simp [isTextChar] at hcolon
  | quoted cs =>
    obtain ⟨⟨key, rest⟩, hsplit, h⟩ := Option.bind_eq_some_iff.mp h
    obtain ⟨value, hvalue, heq⟩ := Option.bind_eq_some_iff.mp h
    cases heq
    rcases mem_of_splitFirst?_quote hsplit with rfl | hmem
    · cases hvalue
    · exact hmem
  | noItems => cases h
  | noEntries => cases h

/-- Scalars and empty collections have no tags. -/
theorem value_leaf_ne_tagged (l : Leaf) (tag : String) (v : Yaml.Value) :
    l.value ≠ .tagged tag v := by
  cases l with
  | plain cs =>
    unfold Leaf.value Yaml.Plain.value?
    repeat' split
    all_goals
      intro h
      cases h
  | _ =>
    intro h
    cases h

theorem untagged_leaf (l : Leaf) : l.value.untagged = l.value := by
  cases hv : l.value with
  | tagged tag v => exact absurd hv (value_leaf_ne_tagged l tag v)
  | _ => rfl

/-- The name of an item: the scalar that it is, or its entry `name`. -/
inductive Named : Form → String → Prop where
  | scalar {l : Leaf} {name : String} (h : l.value = .str name) : Named (leaf l) name
  | entry {l : Leaf} {name : String} {es₁ es₂ : List (String × Form)}
    (hfirst : "name" ∉ es₁.map (·.1)) (h : l.value = .str name) :
    Named (map (es₁ ++ ("name", leaf l) :: es₂)) name

variable {f : Form} {s : String}

theorem exists_leaf_of_string? (h : Document.string? f.value = some s) :
    ∃ l, f = leaf l ∧ l.value = .str s := by
  cases f with
  | leaf l =>
    rw [value, Document.string?, untagged_leaf] at h
    split at h
    · rename_i hvalue
      cases h
      exact ⟨l, rfl, hvalue⟩
    · cases h
  | _ => cases h

theorem named_of_string? (h : Document.string? f.value = some s) : Named f s := by
  obtain ⟨l, rfl, hvalue⟩ := exists_leaf_of_string? h
  exact .scalar hvalue

theorem firstOf?_of_onlyField? {es : List (String × Form)} {k : String} {v : Yaml.Value}
    (h : Document.onlyField? k (namedValues es) = some (some v)) :
    ∃ g, firstOf? k es = some g ∧ g.value = v := by
  have hfilter : (namedValues es).filter (·.1 = k) =
      (es.filter (·.1 = k)).map fun e => (e.1, e.2.value) := by
    rw [namedValues, List.filter_map]
    rfl
  rw [Document.onlyField?, hfilter] at h
  rw [firstOf?, ← List.head?_filter]
  generalize es.filter (·.1 = k) = found at h ⊢
  rcases found with _ | ⟨e, _ | ⟨e', rest⟩⟩
  · cases h
  · cases h
    exact ⟨e.2, rfl, rfl⟩
  · cases h

theorem named_of_interfaceInput? {i : InterfaceInput} (h : Document.interfaceInput? f.value = some i) :
    Named f i.name := by
  cases f with
  | map es =>
    rw [interfaceInput?_map] at h
    obtain ⟨name, hname, h⟩ := Option.bind_eq_some_iff.mp h
    obtain ⟨type, -, h⟩ := Option.bind_eq_some_iff.mp h
    obtain ⟨required, -, h⟩ := Option.bind_eq_some_iff.mp h
    cases h
    obtain ⟨_ | v, hfield, hv⟩ := Option.bind_eq_some_iff.mp hname
    · cases hv
    · obtain ⟨g, hfirst, rfl⟩ := firstOf?_of_onlyField? hfield
      obtain ⟨l, rfl, hvalue⟩ := exists_leaf_of_string? hv
      obtain ⟨es₁, es₂, rfl, h₁⟩ := exists_split_of_firstOf? hfirst
      exact .entry h₁ hvalue
  | leaf l =>
    rw [value, Document.interfaceInput?, untagged_leaf] at h
    split at h
    · rename_i es hvalue
      rw [value_leaf_map hvalue] at h
      cases h
    · cases h
  | _ => cases h

end Form

namespace Dash

variable {d : Dash} {f g : Form} {name : String}

/-- The outline with an item in the place. -/
def hold (d : Dash) (f : Form) : Outline :=
  ⟨d.above ++ (itemLines f f.lines).map (·.deeper d.column) ++ d.rest, true⟩

theorem hold_map (es : List (String × Form)) : d.hold (.map es) = d.fill es := rfl

/-- The parts of the block of an item. -/
theorem exists_lines_hold (d : Dash) (hf : f.isSound) : ∃ (rest : Line) (ls : List Line),
    itemLines f f.lines = ('-' :: rest) :: ls ∧
    (d.hold f).line d.line = Line.deeper d.column ('-' :: rest) ∧
    (d.hold f).lines.drop (d.line + 1) = ls.map (·.deeper d.column) ++ d.rest ∧
    (d.hold f).blockEnd d.line = d.line + 1 + ls.length := by
  obtain ⟨rest, ls, hlines, hstart, hdeep⟩ := exists_itemLines hf
  have hwhole : (d.hold f).lines = d.above ++ Line.deeper d.column ('-' :: rest) ::
      (ls.map (·.deeper d.column) ++ d.rest) := by
    simp [hold, hlines]
  have hline : (d.hold f).line d.line = Line.deeper d.column ('-' :: rest) := by
    apply Outline.line_eq_of_getElem?
    rw [hwhole, line, List.getElem?_append_right le_rfl, Nat.sub_self]
    rfl
  have hdrop : (d.hold f).lines.drop (d.line + 1) = ls.map (·.deeper d.column) ++ d.rest := by
    rw [hwhole, line, List.drop_length_add_append]
    rfl
  have hindent : ((d.hold f).line d.line).indent? = some d.column := by
    rw [hline, Line.indent?_deeper, Form.indent?_dash]
    rfl
  have hitem : ((d.hold f).line d.line).isItem = true := by
    rw [hline, Line.isItem_deeper, isItem_dash hstart]
  have hbelow : ∀ l ∈ ls.map (·.deeper d.column), ∃ n, l.indent? = some n ∧ d.column < n := by
    intro l hl
    obtain ⟨m, hm, rfl⟩ := List.mem_map.mp hl
    obtain ⟨n, hn, hlt⟩ := hdeep m hm
    exact ⟨d.column + n, by rw [Line.indent?_deeper, hn]; rfl, by omega⟩
  refine ⟨rest, ls, hlines, hline, hdrop, ?_⟩
  rw [Outline.blockEnd_of_indent? hindent, hitem, hdrop, d.ends.reach hbelow, List.length_map]

theorem splice_hold (hf : f.isSound) (ls : List Line) :
    (d.hold f).splice d.line ((d.hold f).blockEnd d.line) ls = ⟨d.above ++ ls ++ d.rest, true⟩ := by
  obtain ⟨rest, below, -, -, hdrop, hend⟩ := d.exists_lines_hold hf
  have htake : (d.hold f).lines.take d.line = d.above := by
    rw [hold, line, List.append_assoc, List.take_left]
  have hrest : (d.hold f).lines.drop (d.line + 1 + below.length) = d.rest := by
    rw [← List.drop_drop, hdrop, List.drop_left' (List.length_map _)]
  rw [Outline.splice, hend, htake, hrest]
  rfl

/-- An item gives way to another one. -/
theorem replace_hold (hf : f.isSound) (g : Form) :
    (d.hold f).splice d.line ((d.hold f).blockEnd d.line)
      ((itemLines g g.lines).map (·.deeper d.column)) = d.hold g := splice_hold hf _

theorem depth_hold (hf : f.isSound) : (d.hold f).depth d.line = d.column := by
  obtain ⟨rest, below, -, hline, -⟩ := d.exists_lines_hold hf
  refine Outline.depth_of_indent? ?_
  rw [hline, Line.indent?_deeper, Form.indent?_dash]
  rfl

theorem trimStart_leaf {l : Form.Leaf} (hl : l.isSound) : Text.trimStart l.text = l.text := by
  have hle : (Text.trim l.text).length ≤ (Text.trimStart l.text).length := by
    rw [Text.trim, Text.trimEnd, List.length_reverse]
    exact (List.length_dropWhile_le _ _).trans_eq List.length_reverse
  rw [Form.trim_leaf hl] at hle
  have hsuffix : Text.trimStart l.text <:+ l.text := List.dropWhile_suffix _
  exact hsuffix.eq_of_length (Nat.le_antisymm hsuffix.length_le hle)

/-- No entry is found on the line of a scalar. -/
theorem find?_hold_leaf {l : Form.Leaf} (hl : l.isSound) :
    (d.hold (.leaf l)).find? d.line "name" = none := by
  obtain ⟨rest, below, hlines, hline, hdrop, hend⟩ := d.exists_lines_hold (f := .leaf l) hl
  obtain ⟨heq, rfl⟩ := List.cons.inj hlines
  obtain rfl := (List.cons.inj heq).2
  have hitem : ((d.hold (.leaf l)).line d.line).isItem = true := by
    rw [hline, Line.isItem_deeper]
    rfl
  have hbody : (d.hold (.leaf l)).numberedBody d.line = [] := by
    rw [Outline.numberedBody, Outline.body, Outline.slice, hend, List.length_nil, Nat.add_zero,
      Nat.sub_self, List.take_zero]
    rfl
  have hspace : Text.trimStart (' ' :: l.text) = l.text := by
    have hspaces := Text.trimStart_spaces 1 l.text
    rw [trimStart_leaf hl] at hspaces
    exact hspaces
  have hkey : ((d.hold (.leaf l)).line d.line).itemKey? = (Line.pair? l.text).map (·.1) := by
    have hdash : Text.trimStart ('-' :: ' ' :: l.text) = '-' :: ' ' :: l.text := rfl
    rw [hline, Line.itemKey?, Line.deeper, Text.trimStart_spaces, hdash, List.drop_one,
      List.tail_cons, hspace]
  rw [Outline.find?, Outline.entries]
  simp only [hitem, if_true, hkey, hbody, Outline.entriesAt, List.filterMap_nil, List.append_nil]
  cases hpair : Line.pair? l.text with
  | none => rfl
  | some p =>
    have hmem := Form.backslash_mem_of_pair? hl hpair
    have hne : p.1 ≠ "name".toList := by
      intro heq
      rw [heq] at hmem
      exact absurd hmem (by decide)
    rw [Option.map_some, Option.map_some, Option.toList_some,
      List.find?_cons_of_neg (by rwa [decide_eq_true_eq])]
    rfl

theorem itemScalar?_hold_leaf {l : Form.Leaf} (hl : l.isSound) (hvalue : l.value = .str name) :
    ((d.hold (.leaf l)).line d.line).itemScalar? = some name.toList := by
  obtain ⟨rest, below, hlines, hline, -⟩ := d.exists_lines_hold (f := .leaf l) hl
  obtain ⟨heq, rfl⟩ := List.cons.inj hlines
  obtain rfl := (List.cons.inj heq).2
  have hdash : Text.trimStart ('-' :: ' ' :: l.text) = '-' :: ' ' :: l.text := rfl
  have htrim : Text.trim (' ' :: l.text) = l.text := by
    have hspaces := Text.trimStart_spaces 1 l.text
    rw [Text.trim, show Text.trimStart (' ' :: l.text) = Text.trimStart l.text from hspaces]
    exact Form.trim_leaf hl
  rw [hline, Line.itemScalar?, Line.deeper, Text.trimStart_spaces, hdash]
  simp [Text.dropStem?, htrim, Form.dropComment_leaf hl, Form.load?_leaf hl, hvalue]

/-- An item is called by its name. -/
theorem itemName?_hold (hf : f.isSound) (h : Form.Named f name) :
    (d.hold f).itemName? d.line = some name := by
  cases h with
  | @scalar l _ hvalue =>
    rw [Outline.itemName?, find?_hold_leaf hf, itemScalar?_hold_leaf hf hvalue]
    simp
  | @entry l _ es₁ es₂ hfirst hvalue =>
    have hes := (Form.isSound_map.mp hf).2.2
    have hl := (Form.entriesSound_cons.mp (Form.entriesSound_append.mp hes).2).2.1
    rw [hold_map, Outline.itemName?, find?_fill_append hes rfl hfirst, Option.bind_some,
      Outline.scalar?, Line.scalar?, value_fill hes rfl]
    simp [Form.written, Slot.text_ne_nil hl, Form.load?_leaf hl, hvalue]

end Dash

/-- The item at a line of a list. -/
theorem Slot.hold_dash {s : Slot} {f : Form} {before after : List Form} {h : itemsSound after} :
    (s.dash before after h).hold f = s.fill (.seq (before ++ f :: after)) := by
  have hlines : ((s.dash before after h).hold f).lines =
      (s.fill (.seq (before ++ f :: after))).lines := by
    simp [Dash.hold, dash, fill, Form.entryLines, Form.lines, Form.sequenceLines_append,
      sequenceLines, Function.comp_def, deeper_deeper]
  exact congrArg (Outline.mk · true) hlines

namespace Slot

variable {s : Slot} {items before after : List Form} {f : Form} {names : List String}
  {name : String}

/-- An item of a list among the others. -/
theorem sound_item (h : itemsSound (before ++ f :: after)) :
    itemsSound before ∧ f.isSound ∧ itemsSound after := by
  obtain ⟨hbefore, hrest⟩ := Form.itemsSound_append.mp h
  exact ⟨hbefore, Form.itemsSound_cons.mp hrest⟩

theorem itemName?_fill (h : itemsSound (before ++ f :: after)) (hname : Form.Named f name) :
    (s.fill (.seq (before ++ f :: after))).itemName?
      (s.line + 1 + (sequenceLines before).length) = some name := by
  obtain ⟨-, hf, hafter⟩ := sound_item h
  rw [← hold_dash (h := hafter), ← line_dash (h := hafter)]
  exact Dash.itemName?_hold hf hname

theorem itemPlaces_append (start : Nat) (items more : List Form) :
    itemPlaces start (items ++ more) =
      itemPlaces start items ++ itemPlaces (start + (sequenceLines items).length) more := by
  induction items generalizing start with
  | nil => rfl
  | cons f items ih =>
    rw [List.cons_append, itemPlaces, itemPlaces, List.cons_append, ih, sequenceLines,
      List.length_append, Nat.add_assoc]

/-- The first item with a name is found. -/
theorem findItem?_fill (h : itemsSound (before ++ f :: after))
    (hbefore : ∀ g ∈ before, ∃ n, Form.Named g n ∧ n ≠ name) (hname : Form.Named f name) :
    (s.fill (.seq (before ++ f :: after))).findItem? s.line name =
      some (s.line + 1 + (sequenceLines before).length) := by
  rw [Outline.findItem?, items_fill h, itemPlaces_append, itemPlaces]
  refine List.find?_eq_some_iff_append.mpr ⟨by simp [itemName?_fill h hname], _, _, rfl, ?_⟩
  intro i hi
  obtain ⟨b, g, a, rfl, rfl⟩ := mem_itemPlaces.mp hi
  obtain ⟨n, hn, hne⟩ := hbefore g (List.mem_append_right _ List.mem_cons_self)
  rw [List.append_assoc, List.cons_append] at h ⊢
  simp [itemName?_fill h hn, hne]

/-- An item gives way to another one. -/
theorem replace_item (h : itemsSound (before ++ f :: after)) (g : Form) {i : Nat}
    (hi : i = s.line + 1 + (sequenceLines before).length) :
    (s.fill (.seq (before ++ f :: after))).splice i ((s.fill (.seq (before ++ f :: after))).blockEnd i)
      ((itemLines g g.lines).map (·.deeper (s.column + 2))) =
        s.fill (.seq (before ++ g :: after)) := by
  obtain ⟨-, hf, hafter⟩ := sound_item h
  rw [← hold_dash (h := hafter), ← hold_dash (h := hafter), hi, ← line_dash (h := hafter)]
  exact Dash.replace_hold hf g

theorem remove_item (h : itemsSound (before ++ f :: after)) {i : Nat}
    (hi : i = s.line + 1 + (sequenceLines before).length) :
    (s.fill (.seq (before ++ f :: after))).remove i
      ((s.fill (.seq (before ++ f :: after))).blockEnd i) = s.fill (.seq (before ++ after)) := by
  obtain ⟨-, hf, hafter⟩ := sound_item h
  rw [← hold_dash (h := hafter), hi, ← line_dash (h := hafter), Outline.remove,
    Dash.splice_hold hf, List.append_nil]
  refine congrArg (Outline.mk · true) ?_
  simp [dash, Form.entryLines, Form.lines, Form.sequenceLines_append, Function.comp_def,
    deeper_deeper]

end Slot

end BlockFlow

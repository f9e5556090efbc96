import BlockFlow.Edit.Workflows
import BlockFlow.Proofs.Form.Write

/-!
Renaming variables and workflows line by line. Main statement: the lines of a mapping, renamed one by one,
are those of the mapping in which every entry that reads as a use of the old name is written anew.
-/

namespace BlockFlow

namespace Yaml.Value

/-- The text of a scalar other than null. -/
def text? : Value → Option String
  | .str s => some s
  | .int i => some (intText i)
  | .float x => some (floatText x)
  | .bool b => some (boolText b)
  | _ => none

/-- What an entry shows behind its key: the text of a scalar, or an empty collection. -/
def shown? : Value → Option String
  | .seq [] => some "[]"
  | .map [] => some "\x7b\x7d"
  | v => v.text?

mutual

/-- Whether an entry inside reads as a use of the variable. -/
def mentions (name : String) : Value → Bool
  | .seq items => itemsMention name items
  | .map entries => entriesMention name entries
  | .tagged _ v => v.mentions name
  | _ => false

def entriesMention (name : String) : List (Value × Value) → Bool
  | [] => false
  | (k, v) :: entries =>
    k.isStr "variable" && v.text? = some name || v.mentions name || entriesMention name entries

def itemsMention (name : String) : List Value → Bool
  | [] => false
  | v :: items => v.mentions name || itemsMention name items

end

section

variable (word name : String)

mutual

/-- Whether an entry inside shows the name behind the key `word`. -/
def reads : Value → Bool
  | .seq items => itemsRead items
  | .map entries => entriesRead entries
  | .tagged _ v => v.reads
  | _ => false

def entriesRead : List (Value × Value) → Bool
  | [] => false
  | (k, v) :: entries =>
    k.isStr word && v.shown? = some name || v.reads || entriesRead entries

def itemsRead : List Value → Bool
  | [] => false
  | v :: items => v.reads || itemsRead items

end

end

end Yaml.Value

namespace Form

section

variable (word old new : String)

mutual

/-- The form in which entries that show a name behind the key `word` show another one. The entry on the
line of an item is left alone, unless it has a line of its own (`own`). -/
def respell (own : Bool) : Form → Form
  | leaf l => leaf l
  | bare => bare
  | map es => map (respellEntries own es)
  | seq items => seq (respellItems items)

def respellEntries (own : Bool) : List (String × Form) → List (String × Form)
  | [] => []
  | (k, f) :: es =>
    (k, if own ∧ k = word ∧ f.value.shown? = some old then leaf (.string new)
      else f.respell true) :: respellEntries true es

def respellItems : List Form → List Form
  | [] => []
  | f :: items => f.respell false :: respellItems items

end

end

variable {word old new k : String} {own : Bool} {f : Form} {es : List (String × Form)}

theorem leaf_of_shown? {name : String} (hf : f.isSound) (h : f.value.shown? = some name) :
    ∃ l, f = leaf l := by
  cases f with
  | leaf l => exact ⟨l, rfl⟩
  | bare => cases h
  | map es =>
    obtain ⟨e, es, rfl⟩ := List.exists_cons_of_ne_nil (isSound_map.mp hf).1
    cases h
  | seq items =>
    obtain ⟨f, items, rfl⟩ := List.exists_cons_of_ne_nil (isSound_seq.mp hf).1
    cases h

theorem headLine_respell : headLine k (f.respell word old new own) = headLine k f := by
  cases f <;> rfl

theorem keys_respellEntries :
    (respellEntries word old new own es).map (·.1) = es.map (·.1) := by
  induction es generalizing own with
  | nil => rfl
  | cons e es ih =>
    obtain ⟨k, f⟩ := e
    rw [respellEntries, List.map_cons, List.map_cons, ih]

theorem firstOf?_respellEntries (hk : k ≠ word) :
    firstOf? k (respellEntries word old new own es) =
      (firstOf? k es).map (·.respell word old new true) := by
  induction es generalizing own with
  | nil => rfl
  | cons e es ih =>
    obtain ⟨k', f⟩ := e
    by_cases heq : k' = k
    · subst heq
      simp [respellEntries, firstOf?, hk]
    · have hrest : firstOf? k (respellEntries word old new true es) =
          (firstOf? k es).map (·.respell word old new true) := ih
      simpa [respellEntries, firstOf?, heq] using hrest

mutual

theorem isSound_respell (hnew : (Leaf.string new).isSound) : (f : Form) → (own : Bool) →
    f.isSound → (f.respell word old new own).isSound
  | leaf _, _, h => h
  | bare, _, _ => rfl
  | map es, own, h => by
    obtain ⟨hne, hkeys, hes⟩ := isSound_map.mp h
    have hsame : (respellEntries word old new own es).map (·.1) = es.map (·.1) := keys_respellEntries
    refine isSound_map.mpr ⟨fun hnil => hne ?_, ?_, entriesSound_respell hnew es own hes⟩
    · rw [hnil] at hsame
      exact List.map_eq_nil_iff.mp hsame.symm
    · rwa [hsame]
  | seq items, _, h => by
    obtain ⟨hne, hitems⟩ := isSound_seq.mp h
    refine isSound_seq.mpr ⟨?_, itemsSound_respell hnew items hitems⟩
    obtain ⟨f, items, rfl⟩ := List.exists_cons_of_ne_nil hne
    exact List.cons_ne_nil _ _

theorem entriesSound_respell (hnew : (Leaf.string new).isSound) : (es : List (String × Form)) →
    (own : Bool) → entriesSound es → entriesSound (respellEntries word old new own es)
  | [], _, _ => rfl
  | (k, f) :: es, own, h => by
    obtain ⟨hk, hf, hes⟩ := entriesSound_cons.mp h
    refine entriesSound_cons.mpr ⟨hk, ?_, entriesSound_respell hnew es true hes⟩
    split
    · exact hnew
    · exact isSound_respell hnew f true hf

theorem itemsSound_respell (hnew : (Leaf.string new).isSound) : (items : List Form) →
    itemsSound items → itemsSound (respellItems word old new items)
  | [], _ => rfl
  | f :: items, h => by
    obtain ⟨hf, hitems⟩ := itemsSound_cons.mp h
    exact itemsSound_cons.mpr
      ⟨isSound_respell hnew f false hf, itemsSound_respell hnew items hitems⟩

end

theorem value?_ne_tagged {cs : List Char} {tag : String} {v : Yaml.Value} :
    Yaml.Plain.value? cs ≠ some (.tagged tag v) := by
  unfold Yaml.Plain.value?
  split
  · nofun
  · split
    · nofun
    · split
      · nofun
      · nofun
      · split <;> nofun

/-- The scalar on the line of a scalar or an empty collection. -/
theorem shown?_leaf {l : Leaf} : l.value.shown? =
    match l.value with
    | .null => none
    | .str s => some s
    | .int i => some (Yaml.Value.intText i)
    | .float x => some (Yaml.Value.floatText x)
    | .bool b => some (Yaml.Value.boolText b)
    | _ => some (String.ofList l.text) := by
  cases l with
  | plain cs =>
    rw [Leaf.value]
    cases hcs : Yaml.Plain.value? cs with
    | none => rfl
    | some v =>
      obtain ⟨hmap, hseq⟩ := value?_plain_scalar hcs
      cases v with
      | map es => exact absurd rfl (hmap es)
      | seq vs => exact absurd rfl (hseq vs)
      | tagged tag v => exact absurd hcs value?_ne_tagged
      | _ => rfl
  | quoted cs => rfl
  | noItems => rfl
  | noEntries => rfl

/-- The text on the line of an entry. -/
theorem scalar?_headLine (hk : isKey k) (hf : f.isSound) :
    (headLine k f).scalar? = some old.toList ↔ f.value.shown? = some old := by
  have hvalue := value?_headLine hk hf 0
  rw [Line.scalar?, show headLine k f = (headLine k f).deeper 0 from rfl, hvalue]
  cases f with
  | leaf l =>
    have hload : Yaml.load? l.text = some l.value := load?_leaf hf
    simp only [written, Option.bind_eq_bind, Option.bind_some, List.isEmpty_iff,
      Slot.text_ne_nil hf, if_false, hload, value, shown?_leaf]
    cases hv : l.value <;> simp [String.ext_iff]
  | bare => simp [written, value, Yaml.Value.shown?, Yaml.Value.text?]
  | map es =>
    obtain ⟨e, es, rfl⟩ := List.exists_cons_of_ne_nil (isSound_map.mp hf).1
    simp [written, value, entryValues, Yaml.Value.shown?, Yaml.Value.text?]
  | seq items =>
    obtain ⟨f, items, rfl⟩ := List.exists_cons_of_ne_nil (isSound_seq.mp hf).1
    simp [written, value, itemValues, Yaml.Value.shown?, Yaml.Value.text?]

/-- No line of a form holds a mapping with entries. -/
theorem flowMapping?_headLine (hk : isKey k) (hf : f.isSound) {vs : List (Yaml.Value × Yaml.Value)}
    (h : (headLine k f).flowMapping? = some vs) : vs = [] := by
  have hvalue := value?_headLine hk hf 0
  rw [Line.flowMapping?, show headLine k f = (headLine k f).deeper 0 from rfl, hvalue] at h
  simp only [Option.bind_eq_bind, Option.bind_some] at h
  split at h
  · cases h
  · cases f with
    | leaf l =>
      rw [written, load?_leaf hf] at h
      cases hv : l.value with
      | map ws =>
        rw [hv] at h
        exact (Option.some.inj h).symm.trans (value_leaf_map hv)
      | _ =>
        rw [hv] at h
        cases h
    | _ => simp [written] at *

end Form

namespace Line

open Form (isKey headLine)

variable {word old new k : String} {f : Form} {l : Line} {g : Line → Line}

/-- A change of single lines that gives another name to the entries that show a name behind the key
`word`. Lines of items are left alone. -/
structure Respells (word old new : String) (g : Line → Line) : Prop where
  deeper : ∀ (l : Line) (n : Nat), (∃ d, l.indent? = some d) → g (l.deeper n) = (g l).deeper n
  dash : ∀ rest : Line, startsItem ('-' :: rest) → g ('-' :: rest) = '-' :: rest
  head : ∀ (k : String) (f : Form), isKey k → f.isSound → g (headLine k f) =
    if k = word ∧ f.value.shown? = some old then headLine k (.leaf (.string new)) else headLine k f

theorem value?_deeper (n : Nat) (l : Line) : (l.deeper n).value? = l.value? := by
  rw [value?, value?, deeper, Text.trimStart_spaces]

theorem scalar?_deeper (n : Nat) (l : Line) : (l.deeper n).scalar? = l.scalar? := by
  rw [scalar?, scalar?, value?_deeper]

theorem flowMapping?_deeper (n : Nat) (l : Line) : (l.deeper n).flowMapping? = l.flowMapping? := by
  rw [flowMapping?, flowMapping?, value?_deeper]

/-- The line of an item has no key. -/
theorem key?_dash {rest : Line} (h : startsItem ('-' :: rest)) : key? ('-' :: rest) = none := by
  have hpair : pair? ('-' :: rest) = none := if_pos h
  have htrim : Text.trimStart ('-' :: rest) = '-' :: rest := rfl
  rw [key?, htrim, hpair]
  rfl

/-- Lines in which a variable is renamed. -/
theorem renameVariable_respells (old new : String) :
    Respells "variable" old new (renameVariable old new) where
  deeper := by
    rintro l n ⟨d, hd⟩
    have hdeep (cs : Line) : deeper (n + d) cs = (deeper d cs).deeper n :=
      (Slot.deeper_deeper d n cs).symm
    simp only [renameVariable, indent?_deeper, hd, key?_deeper, scalar?_deeper, flowMapping?_deeper,
      Option.map_some, Option.getD_some, hdeep]
    split
    · rfl
    · split
      · split <;> rfl
      · split
        · split <;> rfl
        · rfl
  dash := fun rest h => by rw [renameVariable, key?_dash h]
  head := fun k f hk hf => by
    have hname : k.toList = "variable".toList ↔ k = "variable" := String.toList_inj
    simp only [renameVariable, Form.key?_headLine hk, Form.indent?_headLine hk, hname,
      Form.scalar?_headLine hk hf, Option.getD_some]
    by_cases hvariable : k = "variable"
    · subst hvariable
      simp only [if_true, true_and]
      split
      · rw [headLine, Form.Leaf.text_string]
        rfl
      · rfl
    · simp only [hvariable, if_false, false_and]
      split
      · rename_i name hflow
        exact absurd (Form.flowMapping?_headLine hk hf hflow) (List.cons_ne_nil _ _)
      · rfl

/-- Lines in which a workflow is renamed where it is called. -/
theorem renameCall_respells (old new : String) :
    Respells "workflow_call" old new (renameCall old new) where
  deeper := by
    rintro l n ⟨d, hd⟩
    have hdeep (cs : Line) : deeper (n + d) cs = (deeper d cs).deeper n :=
      (Slot.deeper_deeper d n cs).symm
    simp only [renameCall, indent?_deeper, hd, key?_deeper, scalar?_deeper, flowMapping?_deeper,
      Option.map_some, Option.getD_some, hdeep]
    split
    · rfl
    · split
      · split <;> rfl
      · split
        · rfl
        · split
          · split <;> rfl
          · rfl
  dash := fun rest h => by rw [renameCall, key?_dash h]
  head := fun k f hk hf => by
    have hname : k.toList = "workflow_call".toList ↔ k = "workflow_call" := String.toList_inj
    simp only [renameCall, Form.key?_headLine hk, Form.indent?_headLine hk, hname,
      Form.scalar?_headLine hk hf, Option.getD_some]
    by_cases hcall : k = "workflow_call"
    · subst hcall
      simp only [if_true, true_and]
      split
      · rw [headLine, Form.Leaf.text_string]
        rfl
      · rfl
    · simp only [hcall, if_false, false_and]
      split
      · rfl
      · rename_i entries hflow
        rw [Form.flowMapping?_headLine hk hf hflow]
        rfl

end Line

namespace Form

section Lines

variable {word old new : String} {g : Line → Line} {ls : List Line}

/-- Lines that move to the right together are renamed before or after that. -/
theorem Solid.respelled_deeper (h : Solid ls) (hg : Line.Respells word old new g) (n : Nat) :
    (ls.map (·.deeper n)).map g = (ls.map g).map (·.deeper n) := by
  rw [List.map_map, List.map_map]
  exact List.map_congr_left fun l hl => hg.deeper l n (h l hl)

mutual

theorem bodyLines_respell (hg : Line.Respells word old new g) : (f : Form) → f.isSound →
    (f.respell word old new true).bodyLines = f.bodyLines.map g
  | leaf _, _ => rfl
  | bare, _ => rfl
  | map es, h => mappingLines_respell hg es (isSound_map.mp h).2.2
  | seq items, h => sequenceLines_respell hg items (isSound_seq.mp h).2

theorem mappingLines_respell (hg : Line.Respells word old new g) :
    (es : List (String × Form)) → entriesSound es → mappingLines (respellEntries word old new true es) =
      (mappingLines es).map g
  | [], _ => rfl
  | (k, f) :: es, h => by
    obtain ⟨hk, hf, hes⟩ := entriesSound_cons.mp h
    have hbody := bodyLines_respell hg f hf
    have hrest := mappingLines_respell hg es hes
    rw [respellEntries, mappingLines, mappingLines, entryLines_eq, entryLines_eq, List.map_append,
      List.map_cons, hg.head k f hk hf, (solid_lines f hf).respelled_deeper hg, ← hbody, ← hrest]
    by_cases huse : k = word ∧ f.value.shown? = some old
    · obtain ⟨l, rfl⟩ := leaf_of_shown? hf huse.2
      simp only [huse, and_self, if_true]
      rfl
    · simp only [huse, and_false, if_false, headLine_respell]

theorem sequenceLines_respell (hg : Line.Respells word old new g) : (items : List Form) → itemsSound items →
    sequenceLines (respellItems word old new items) =
      (sequenceLines items).map g
  | [], _ => rfl
  | f :: items, h => by
    obtain ⟨hf, hitems⟩ := itemsSound_cons.mp h
    rw [respellItems, sequenceLines, sequenceLines, List.map_append, itemLines_respell hg f hf,
      sequenceLines_respell hg items hitems]

/-- The line of an item stays, with the entry that is on it. -/
theorem itemLines_respell (hg : Line.Respells word old new g) : (f : Form) → f.isSound →
    itemLines (f.respell word old new false) (f.respell word old new false).lines =
      (itemLines f f.lines).map g
  | leaf l, _ => by
    have hdash : g ('-' :: ' ' :: l.text) = '-' :: ' ' :: l.text := hg.dash _ rfl
    simp [respell, itemLines, hdash]
  | bare, _ => by
    have hdash : g ['-'] = ['-'] := hg.dash _ rfl
    simp [respell, itemLines, lines, hdash]
  | map [], h => absurd rfl (isSound_map.mp h).1
  | map ((k, f) :: es), h => by
    obtain ⟨-, hf, hes⟩ := entriesSound_cons.mp (isSound_map.mp h).2.2
    have hdash : g ('-' :: ' ' :: headLine k f) = '-' :: ' ' :: headLine k f := hg.dash _ rfl
    have hbody := bodyLines_respell hg f hf
    have hrest := mappingLines_respell hg es hes
    have hsolid := (solid_lines f hf).map_deeper 2
    simp only [respell, respellEntries, itemLines, lines, mappingLines, entryLines_eq,
      Bool.false_eq_true, false_and, if_false, headLine_respell, List.cons_append, List.map_cons,
      List.map_append, hdash, hbody, hrest, (solid_mappingLines es hes).respelled_deeper hg,
      hsolid.respelled_deeper hg, (solid_lines f hf).respelled_deeper hg]
  | seq items, h => by
    obtain ⟨hne, hitems⟩ := isSound_seq.mp h
    obtain ⟨f, items, rfl⟩ := List.exists_cons_of_ne_nil hne
    have hlines := sequenceLines_respell hg (f :: items) hitems
    have hsolid := solid_sequenceLines (f :: items) hitems
    obtain ⟨rest, ls, hfirst, hstart, -⟩ := exists_itemLines (itemsSound_cons.mp hitems).1
    have hshape : sequenceLines (f :: items) = ('-' :: rest) :: (ls ++ sequenceLines items) := by
      rw [sequenceLines, hfirst, List.cons_append]
    have hdash (l : Line) : g ('-' :: ' ' :: l) = '-' :: ' ' :: l := hg.dash _ rfl
    rw [hshape] at hlines hsolid
    rw [List.map_cons, hg.dash _ hstart] at hlines
    have hrest : Solid (ls ++ sequenceLines items) := fun l hl =>
      hsolid l (List.mem_cons_of_mem _ hl)
    simp only [respell, itemLines, lines, hlines, hshape, List.map_cons, hdash,
      hrest.respelled_deeper hg]

end

end Lines

mutual

/-- Where no entry shows the name behind the key, nothing is written anew. -/
theorem respell_of_not_reads : (f : Form) → (own : Bool) → f.value.reads word old = false →
    f.respell word old new own = f
  | leaf _, _, _ => rfl
  | bare, _, _ => rfl
  | map es, own, h => congrArg map (respellEntries_of_not_reads es own h)
  | seq items, _, h => congrArg seq (respellItems_of_not_reads items h)

theorem respellEntries_of_not_reads : (es : List (String × Form)) → (own : Bool) →
    Yaml.Value.entriesRead word old (entryValues es) = false → respellEntries word old new own es = es
  | [], _, _ => rfl
  | (k, f) :: es, own, h => by
    simp only [entryValues, Yaml.Value.entriesRead, Bool.or_eq_false_iff] at h
    obtain ⟨⟨huse, hf⟩, hes⟩ := h
    have hnot : ¬ (own = true ∧ k = word ∧ f.value.shown? = some old) := by
      rintro ⟨-, rfl, htext⟩
      rw [htext] at huse
      simp [Yaml.Value.isStr] at huse
    rw [respellEntries, if_neg hnot, respell_of_not_reads f true hf,
      respellEntries_of_not_reads es true hes]

theorem respellItems_of_not_reads : (items : List Form) →
    Yaml.Value.itemsRead word old (itemValues items) = false → respellItems word old new items = items
  | [], _ => rfl
  | f :: items, h => by
    simp only [itemValues, Yaml.Value.itemsRead, Bool.or_eq_false_iff] at h
    rw [respellItems, respell_of_not_reads f false h.1, respellItems_of_not_reads items h.2]

end

end Form

namespace Dash

open Form (mappingLines itemLines)

variable {d : Dash} {es : List (String × Form)} {word old new : String} {g : Line → Line}

/-- Renaming the lines of a mapping one by one. -/
theorem mapLines_fill (hg : Line.Respells word old new g) (hes : (Form.map es).isSound) :
    (d.fill es).mapLines d.line ((d.fill es).blockEnd d.line) g =
      d.fill (Form.respellEntries word old new false es) := by
  obtain ⟨hne, -, hsound⟩ := Form.isSound_map.mp hes
  obtain ⟨e, es, rfl⟩ := List.exists_cons_of_ne_nil hne
  have hend := blockEnd_fill (d := d) hsound
  have hitem : itemLines (.map (Form.respellEntries word old new false (e :: es))) _ = _ :=
    Form.itemLines_respell hg (.map (e :: es)) hes
  have hsolid : Form.Solid (itemLines (.map (e :: es)) (mappingLines (e :: es))) :=
    Form.solid_itemLines (Form.solid_lines (.map (e :: es)) hes)
  have hlength : (mappingLines (e :: es)).length =
      ((itemLines (.map (e :: es)) (mappingLines (e :: es))).map (·.deeper d.column)).length := by
    simp [mappingLines, Form.entryLines_eq, itemLines]
  rw [hlength] at hend
  have hrenamed : d.fill (Form.respellEntries word old new false (e :: es)) = ⟨d.above ++
      ((itemLines (.map (e :: es)) (mappingLines (e :: es))).map (·.deeper d.column)).map
        g ++ d.rest, true⟩ := by
    rw [hsolid.respelled_deeper hg]
    exact congrArg (fun ls => Outline.mk (d.above ++ ls.map (·.deeper d.column) ++ d.rest) true) hitem
  rw [Outline.mapLines, Outline.splice, Outline.slice, hend, hrenamed]
  simp only [fill, line, List.append_assoc, List.take_left, List.drop_left,
    Nat.add_sub_cancel_left]
  rw [← List.drop_drop, List.drop_left, List.drop_left]

end Dash

end BlockFlow

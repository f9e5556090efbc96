import BlockFlow.Proofs.Form.Folded
import BlockFlow.Proofs.Form.Value

/-!
Texts in block style in which collections may stand on one line, in braces or brackets. Main statement:
such a text loads as the value of the form in which all of them are unfolded.
-/

namespace BlockFlow

open Yaml (Token Node)

/-- Whether a collection can stand on one line, and is read back when it is written in lines. -/
def Form.isFoldable (f : Form) : Bool := f.isBlock && f.isSound && f.fits && Form.isFaithful f.value

/-- A value as it is written, where collections may stand on one line. -/
inductive Page where
  | leaf (l : Form.Leaf)
  | bare
  /-- A collection on one line. -/
  | folded (f : Form)
  | map (entries : List (String × Page))
  | seq (items : List Page)

namespace Page

mutual

/-- The form of a page, given what stands for the collections on one line. -/
def form (φ : Form → Form) : Page → Form
  | leaf l => .leaf l
  | bare => .bare
  | folded f => φ f
  | map entries => .map (entryForms φ entries)
  | seq items => .seq (itemForms φ items)

def entryForms (φ : Form → Form) : List (String × Page) → List (String × Form)
  | [] => []
  | (key, p) :: rest => (key, p.form φ) :: entryForms φ rest

def itemForms (φ : Form → Form) : List Page → List Form
  | [] => []
  | p :: rest => p.form φ :: itemForms φ rest

end

/-- A collection on one line as a scalar with its text. -/
def onLine (f : Form) : Form := .leaf (.plain f.folded)

/-- The form that has the lines of the page. -/
def written (p : Page) : Form := p.form onLine

/-- The form in which all collections are unfolded. -/
def unfolded (p : Page) : Form := p.form id

mutual

def tokens : Page → List Token
  | leaf l => l.tokens
  | bare => []
  | folded f => f.foldTokens
  | map entries => .blockMappingStart :: (entryTokens entries ++ [.blockEnd])
  | seq items => .blockSequenceStart :: (itemTokens items ++ [.blockEnd])

def entryTokens : List (String × Page) → List Token
  | [] => []
  | (key, p) :: rest => .key :: .scalar true key.toList :: .value :: (p.tokens ++ entryTokens rest)

def itemTokens : List Page → List Token
  | [] => []
  | p :: rest => .blockEntry :: (p.tokens ++ itemTokens rest)

end

mutual

/-- Whether a page is read back. -/
def isSound : Page → Bool
  | leaf l => l.isSound
  | bare => true
  | folded f => f.isFoldable
  | map entries => !entries.isEmpty && decide (entries.map (·.1)).Nodup && entriesSound entries
  | seq items => !items.isEmpty && itemsSound items

def entriesSound : List (String × Page) → Bool
  | [] => true
  | (key, p) :: rest => Form.isKey key && p.isSound && entriesSound rest

def itemsSound : List Page → Bool
  | [] => true
  | p :: rest => p.isSound && itemsSound rest

end

/-- Collections that span lines. -/
def isBlock : Page → Bool
  | map _ => true
  | seq _ => true
  | _ => false

variable {φ : Form → Form} {p : Page} {key : String} {entries more : List (String × Page)}
  {items others : List Page} {f : Form}

theorem isFoldable_iff : f.isFoldable ↔
    f.isBlock ∧ f.isSound ∧ f.fits ∧ Form.isFaithful f.value := by
  simp [Form.isFoldable, and_assoc]

theorem entriesSound_cons : entriesSound ((key, p) :: entries) ↔
    Form.isKey key ∧ p.isSound ∧ entriesSound entries := by
  simp [entriesSound, and_assoc]

theorem itemsSound_cons : itemsSound (p :: items) ↔ p.isSound ∧ itemsSound items := by
  simp [itemsSound]

theorem entriesSound_append :
    entriesSound (entries ++ more) ↔ entriesSound entries ∧ entriesSound more := by
  induction entries with
  | nil => simp [entriesSound]
  | cons e entries ih =>
    rw [List.cons_append, entriesSound_cons, entriesSound_cons, ih]
    simp only [and_assoc]

theorem itemsSound_append : itemsSound (items ++ others) ↔ itemsSound items ∧ itemsSound others := by
  induction items with
  | nil => simp [itemsSound]
  | cons p items ih => rw [List.cons_append, itemsSound_cons, itemsSound_cons, ih, and_assoc]

theorem isSound_map : (Page.map entries).isSound ↔
    entries ≠ [] ∧ (entries.map (·.1)).Nodup ∧ entriesSound entries := by
  simp [isSound, and_assoc]

theorem isSound_seq : (Page.seq items).isSound ↔ items ≠ [] ∧ itemsSound items := by
  simp [isSound]

theorem entryForms_eq_map (entries : List (String × Page)) :
    entryForms φ entries = entries.map fun e => (e.1, e.2.form φ) := by
  induction entries with
  | nil => rfl
  | cons e entries ih => rw [entryForms, ih, List.map_cons]

theorem itemForms_eq_map (items : List Page) : itemForms φ items = items.map (form φ) := by
  induction items with
  | nil => rfl
  | cons p items ih => rw [itemForms, ih, List.map_cons]

theorem keys_entryForms (entries : List (String × Page)) :
    (entryForms φ entries).map (·.1) = entries.map (·.1) := by
  simp [entryForms_eq_map, Function.comp_def]

theorem entryForms_append (entries more : List (String × Page)) :
    entryForms φ (entries ++ more) = entryForms φ entries ++ entryForms φ more := by
  simp [entryForms_eq_map]

theorem itemForms_append (items others : List Page) :
    itemForms φ (items ++ others) = itemForms φ items ++ itemForms φ others := by
  simp [itemForms_eq_map]

theorem entryForms_ne_nil (h : entries ≠ []) : entryForms φ entries ≠ [] := by
  simpa [entryForms_eq_map] using h

theorem itemForms_ne_nil (h : items ≠ []) : itemForms φ items ≠ [] := by
  simpa [itemForms_eq_map] using h

mutual

/-- The form of a page is sound when what stands for the collections on one line is. -/
theorem isSound_form (hφ : ∀ f : Form, f.isFoldable → (φ f).isSound) :
    (p : Page) → p.isSound → (p.form φ).isSound
  | leaf _, h => h
  | bare, _ => rfl
  | folded f, h => hφ f h
  | map entries, h => by
    obtain ⟨hne, hnodup, hentries⟩ := isSound_map.mp h
    exact Form.isSound_map.mpr ⟨entryForms_ne_nil hne, (keys_entryForms entries).symm ▸ hnodup,
      entriesSound_entryForms hφ entries hentries⟩
  | seq items, h => by
    obtain ⟨hne, hitems⟩ := isSound_seq.mp h
    exact Form.isSound_seq.mpr ⟨itemForms_ne_nil hne, itemsSound_itemForms hφ items hitems⟩

theorem entriesSound_entryForms (hφ : ∀ f : Form, f.isFoldable → (φ f).isSound) :
    (entries : List (String × Page)) → entriesSound entries →
    Form.entriesSound (entryForms φ entries)
  | [], _ => rfl
  | (_, p) :: entries, h => by
    obtain ⟨hkey, hp, hrest⟩ := entriesSound_cons.mp h
    exact Form.entriesSound_cons.mpr
      ⟨hkey, isSound_form hφ p hp, entriesSound_entryForms hφ entries hrest⟩

theorem itemsSound_itemForms (hφ : ∀ f : Form, f.isFoldable → (φ f).isSound) :
    (items : List Page) → itemsSound items → Form.itemsSound (itemForms φ items)
  | [], _ => rfl
  | p :: items, h => by
    obtain ⟨hp, hrest⟩ := itemsSound_cons.mp h
    exact Form.itemsSound_cons.mpr ⟨isSound_form hφ p hp, itemsSound_itemForms hφ items hrest⟩

end

theorem isSound_unfolded (h : p.isSound) : p.unfolded.isSound :=
  isSound_form (fun _ hf => (isFoldable_iff.mp hf).2.1) p h

section Scan

open Yaml Form

variable {limit : Nat}

theorem written_eq_bare_or_lines_ne_nil (h : p.isSound) : p.written = .bare ∨ p.written.lines ≠ [] := by
  cases p with
  | leaf l => exact .inr (List.cons_ne_nil _ _)
  | bare => exact .inl rfl
  | folded f => exact .inr (List.cons_ne_nil _ _)
  | map entries => exact .inr (mappingLines_ne_nil (entryForms_ne_nil (isSound_map.mp h).1))
  | seq items => exact .inr (sequenceLines_ne_nil (itemForms_ne_nil (isSound_seq.mp h).1))

theorem startable_entries (hne : entries ≠ []) (h : entriesSound entries) :
    Startable (mappingLines (entryForms onLine entries)) := by
  cases entries with
  | nil => exact absurd rfl hne
  | cons e entries => exact startable_mappingLines (entriesSound_cons.mp h).1

theorem startable_items (hne : items ≠ []) (h : itemsSound items) :
    Startable (sequenceLines (itemForms onLine items)) := by
  cases items with
  | nil => exact absurd rfl hne
  | cons p items =>
    exact startable_sequenceLines (written_eq_bare_or_lines_ne_nil (itemsSound_cons.mp h).1)

theorem lined_written (h : p.isSound) (hblock : p.isBlock) : Lined p.written := by
  cases p with
  | map entries =>
    obtain ⟨hne, -, hentries⟩ := isSound_map.mp h
    exact lined_map (entryForms_ne_nil hne) (startable_entries hne hentries)
  | seq items =>
    obtain ⟨hne, hitems⟩ := isSound_seq.mp h
    exact lined_seq (itemForms_ne_nil hne) (startable_items hne hitems)
  | _ => cases hblock

mutual

theorem scansValue : (p : Page) → p.isSound → ScansValue limit p.written p.tokens
  | leaf _, h => scansValue_leaf (scansText_leaf h)
  | bare, _ => scansValue_bare
  | folded f, h =>
    have hf := isFoldable_iff.mp h
    scansValue_leaf (l := .plain f.folded) (scansText_folded hf.2.1 hf.2.2.1 hf.1)
  | map entries, h =>
    have hentries := isSound_map.mp h
    (scansEntries entries hentries.1 hentries.2.2).block.value (lined_written h rfl)
  | seq items, h =>
    have hitems := isSound_seq.mp h
    (scansItems items hitems.1 hitems.2).block.value (lined_written h rfl)

theorem scansItem : (p : Page) → p.isSound → ScansItem limit p.written p.tokens
  | leaf _, h => scansItem_leaf (scansText_leaf h)
  | bare, _ => scansItem_bare
  | folded f, h =>
    have hf := isFoldable_iff.mp h
    scansItem_leaf (l := .plain f.folded) (scansText_folded hf.2.1 hf.2.2.1 hf.1)
  | map entries, h =>
    have hentries := isSound_map.mp h
    (scansEntries entries hentries.1 hentries.2.2).block.item (lined_written h rfl)
  | seq items, h =>
    have hitems := isSound_seq.mp h
    (scansItems items hitems.1 hitems.2).block.item (lined_written h rfl)

theorem scansEntries : (entries : List (String × Page)) → entries ≠ [] → entriesSound entries →
    ScansLines limit (mappingLines (entryForms onLine entries)) .blockMappingStart (entryTokens entries)
  | [], hne, _ => absurd rfl hne
  | (_, p) :: entries, _, h => by
    obtain ⟨hkey, hp, hrest⟩ := entriesSound_cons.mp h
    have hne (hlines : mappingLines (entryForms onLine entries) ≠ []) : entries ≠ [] := by
      rintro rfl
      exact hlines rfl
    refine scansLines_mapping hkey (scansValue p hp)
      (fun hlines => scansEntries entries (hne hlines) hrest)
      (fun hlines => ?_) (fun hlines => startable_entries (hne hlines) hrest)
    cases entries with
    | nil => rfl
    | cons e entries => exact absurd hlines (mappingLines_ne_nil (List.cons_ne_nil _ _))

theorem scansItems : (items : List Page) → items ≠ [] → itemsSound items →
    ScansLines limit (sequenceLines (itemForms onLine items)) .blockSequenceStart (itemTokens items)
  | [], hne, _ => absurd rfl hne
  | p :: items, _, h => by
    obtain ⟨hp, hrest⟩ := itemsSound_cons.mp h
    have hne (hlines : sequenceLines (itemForms onLine items) ≠ []) : items ≠ [] := by
      rintro rfl
      exact hlines rfl
    refine scansLines_sequence (written_eq_bare_or_lines_ne_nil hp) (scansItem p hp)
      (fun hlines => scansItems items (hne hlines) hrest)
      (fun hlines => ?_) (fun hlines => startable_items (hne hlines) hrest)
    cases items with
    | nil => rfl
    | cons p items => exact absurd hlines (sequenceLines_ne_nil (List.cons_ne_nil _ _))

end

theorem scansBlock_written (h : p.isSound) (hblock : p.isBlock) :
    ScansBlock limit p.written.lines p.tokens := by
  cases p with
  | map entries =>
    obtain ⟨hne, -, hentries⟩ := isSound_map.mp h
    exact (scansEntries entries hne hentries).block
  | seq items =>
    obtain ⟨hne, hitems⟩ := isSound_seq.mp h
    exact (scansItems items hne hitems).block
  | _ => cases hblock

mutual

theorem all_isLineChar_written : (p : Page) → p.isSound → ∀ l ∈ p.written.lines, ∀ c ∈ l, isLineChar c
  | leaf l, h => all_isLineChar_lines (.leaf l) h
  | bare, _ => by simp [written, form, lines]
  | folded f, h => by
    obtain ⟨-, hf, hfits, -⟩ := isFoldable_iff.mp h
    have hchars := all_isFoldChar_folded f hf hfits
    simp only [isFoldChar, Bool.and_eq_true] at hchars
    simpa [written, form, onLine, lines, Leaf.text] using fun c hc => (hchars c hc).1
  | map entries, h => all_isLineChar_entries entries (isSound_map.mp h).2.2
  | seq items, h => all_isLineChar_items items (isSound_seq.mp h).2

theorem all_isLineChar_entries : (entries : List (String × Page)) → entriesSound entries →
    ∀ l ∈ mappingLines (entryForms onLine entries), ∀ c ∈ l, isLineChar c
  | [], _ => by simp [entryForms, mappingLines]
  | (key, p) :: entries, h => by
    obtain ⟨hkey, hp, hrest⟩ := entriesSound_cons.mp h
    exact List.forall_mem_append.mpr ⟨all_isLineChar_entryLines hkey (all_isLineChar_written p hp),
      all_isLineChar_entries entries hrest⟩

theorem all_isLineChar_items : (items : List Page) → itemsSound items →
    ∀ l ∈ sequenceLines (itemForms onLine items), ∀ c ∈ l, isLineChar c
  | [], _ => by simp [itemForms, sequenceLines]
  | p :: items, h => by
    obtain ⟨hp, hrest⟩ := itemsSound_cons.mp h
    exact List.forall_mem_append.mpr ⟨all_isLineChar_itemLines (all_isLineChar_written p hp),
      all_isLineChar_items items hrest⟩

end

/-- The tokens of the text are those of the page. -/
theorem tokens?_written (h : p.isSound) (hblock : p.isBlock) :
    tokens? p.written.chars = some p.tokens :=
  tokens?_of_scansBlock (lined_written h hblock) (all_isLineChar_written p h)
    fun _ => scansBlock_written h hblock

end Scan

section Read

open Yaml.Node Form

variable {rest : List Token}

theorem exists_tokens_cons (h : p.isSound) (hne : p ≠ bare) :
    ∃ t ts, p.tokens = t :: ts ∧ opensNode t := by
  cases p with
  | leaf l => exact Form.exists_tokens_cons (f := .leaf l) nofun
  | bare => exact absurd rfl hne
  | folded f => exact exists_foldTokens_cons (isFoldable_iff.mp h).2.2.1
  | map entries => exact ⟨_, _, rfl, rfl⟩
  | seq items => exact ⟨_, _, rfl, rfl⟩

theorem eq_bare_of_tokens (h : p.isSound) (hnil : p.tokens = []) : p = bare := by
  by_contra hne
  obtain ⟨t, ts, htokens, -⟩ := exists_tokens_cons h hne
  rw [hnil] at htokens
  cases htokens

mutual

theorem gives_page : (p : Page) → p.isSound → p ≠ bare → ∀ fuel q rest, q ≠ .flow →
    2 * p.tokens.length + 2 ≤ fuel → Gives (read fuel q) (p.tokens ++ rest) p.unfolded.node rest
  | leaf l, _, _, fuel, q, rest, _, hfuel => by
    obtain ⟨fuel, rfl⟩ : ∃ m, fuel = m + 2 := ⟨fuel - 2, by omega⟩
    exact gives_leaf l fuel q rest
  | bare, _, h, _, _, _, _, _ => absurd rfl h
  | folded f, h, _, fuel, q, rest, _, hfuel =>
    gives_folded f (isFoldable_iff.mp h).2.2.1 fuel q rest hfuel
  | map entries, h, _, fuel, q, rest, hq, hfuel => by
    simp only [tokens, List.length_cons, List.length_append] at hfuel
    obtain ⟨fuel, rfl⟩ : ∃ m, fuel = m + 1 := ⟨fuel - 1, by omega⟩
    have hentries := gives_entries entries (isSound_map.mp h).2.2 fuel rest (by omega)
    simpa [tokens, unfolded, form, node] using gives_map hq hentries
  | seq items, h, _, fuel, q, rest, hq, hfuel => by
    simp only [tokens, List.length_cons, List.length_append] at hfuel
    obtain ⟨fuel, rfl⟩ : ∃ m, fuel = m + 1 := ⟨fuel - 1, by omega⟩
    have hitems := gives_items items (isSound_seq.mp h).2 fuel rest (by omega)
    simpa [tokens, unfolded, form, node] using gives_seq hq hitems

theorem gives_entries : (entries : List (String × Page)) → entriesSound entries → ∀ fuel rest,
    2 * (entryTokens entries).length + 2 ≤ fuel → Gives (readBlockMapping fuel)
      (entryTokens entries ++ .blockEnd :: rest) (entryNodes (entryForms id entries)) rest
  | [], _, fuel, rest, hfuel => by
    obtain ⟨fuel, rfl⟩ : ∃ m, fuel = m + 1 := ⟨fuel - 1, by omega⟩
    exact fun _ _ => rfl
  | (key, p) :: entries, h, fuel, rest, hfuel => by
    obtain ⟨-, hp, hsound⟩ := entriesSound_cons.mp h
    simp only [entryTokens, List.length_cons, List.length_append] at hfuel
    obtain ⟨fuel, rfl⟩ : ∃ m, fuel = m + 4 := ⟨fuel - 4, by omega⟩
    have hends : ([.key, .value, .blockEnd] : List Token) ⊆ stops := by simp [stops]
    have hrest : ∃ t ∈ ([.key, .value, .blockEnd] : List Token), ∃ more,
        entryTokens entries ++ .blockEnd :: rest = t :: more := by
      cases entries with
      | nil => exact ⟨.blockEnd, by simp, rest, rfl⟩
      | cons e entries => exact ⟨.key, by simp, _, rfl⟩
    have hne (htokens : p.tokens ≠ []) : p ≠ bare := by
      rintro rfl
      exact htokens rfl
    have hvalue := gives_value hends (n := p.unfolded.node)
      (fun hnil => by rw [eq_bare_of_tokens hp hnil]; rfl)
      (fun htokens => exists_tokens_cons hp (hne htokens))
      (fun htokens => gives_page p hp (hne htokens) (fuel + 2) .entry _ (by decide) (by omega)) hrest
    have hmore := gives_entries entries hsound (fuel + 3) rest (by omega)
    simpa [entryTokens, entryForms, entryNodes, unfolded] using gives_entry hvalue hmore

theorem gives_items : (items : List Page) → itemsSound items → ∀ fuel rest,
    2 * (itemTokens items).length + 2 ≤ fuel → Gives (readBlockSequence fuel)
      (itemTokens items ++ .blockEnd :: rest) (itemNodes (itemForms id items)) rest
  | [], _, fuel, rest, hfuel => by
    obtain ⟨fuel, rfl⟩ : ∃ m, fuel = m + 1 := ⟨fuel - 1, by omega⟩
    exact fun _ _ => rfl
  | p :: items, h, fuel, rest, hfuel => by
    obtain ⟨hp, hsound⟩ := itemsSound_cons.mp h
    simp only [itemTokens, List.length_cons, List.length_append] at hfuel
    obtain ⟨fuel, rfl⟩ : ∃ m, fuel = m + 2 := ⟨fuel - 2, by omega⟩
    have hends : ([.blockEntry, .blockEnd] : List Token) ⊆ stops := by simp [stops]
    have hrest : ∃ t ∈ ([.blockEntry, .blockEnd] : List Token), ∃ more,
        itemTokens items ++ .blockEnd :: rest = t :: more := by
      cases items with
      | nil => exact ⟨.blockEnd, by simp, rest, rfl⟩
      | cons e items => exact ⟨.blockEntry, by simp, _, rfl⟩
    have hne (htokens : p.tokens ≠ []) : p ≠ bare := by
      rintro rfl
      exact htokens rfl
    have hitem := gives_value hends (n := p.unfolded.node)
      (fun hnil => by rw [eq_bare_of_tokens hp hnil]; rfl)
      (fun htokens => exists_tokens_cons hp (hne htokens))
      (fun htokens => gives_page p hp (hne htokens) fuel .block _ (by decide) (by omega)) hrest
    have hmore := gives_items items hsound (fuel + 1) rest (by omega)
    simpa [itemTokens, itemForms, itemNodes, unfolded] using gives_item hitem hmore

end

end Read

/-- The text of a page loads as the value of the form in which all collections are unfolded, if it is
not nested too deep. -/
theorem load?_written (h : p.isSound) (hblock : p.isBlock) : Yaml.load? p.written.chars =
    if p.unfolded.height ≤ 128 then some p.unfolded.value else none := by
  refine Form.load?_of_tokens? (tokens?_written h hblock) ?_ (isSound_unfolded h)
  have hne : p ≠ bare := by
    rintro rfl
    cases hblock
  have hread := gives_page p h hne (4 * p.tokens.length + 8) .block [] (by decide) (by omega)
  obtain ⟨t, ts, htokens, ht⟩ := exists_tokens_cons h hne
  rw [List.append_nil, htokens] at hread
  rw [htokens]
  exact Form.ofTokens?_of_gives ht hread

end Page

end BlockFlow

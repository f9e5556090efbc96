import BlockFlow.Proofs.Form.Brackets
import BlockFlow.Proofs.Form.Line
import BlockFlow.Proofs.Form.Read

/-!
Collections on one line, in braces and brackets. Main statements: the scanner splits such a line into
its tokens, and they are read as the node of the form.
-/

namespace BlockFlow.Form

open Yaml Yaml.Scanner

/-- What stands in front of an entry or item between brackets. -/
def lead : (first : Bool) → Line
  | true => []
  | false => [',', ' ']

def leadTokens : (first : Bool) → List Token
  | true => []
  | false => [.flowEntry]

mutual

/-- A value on one line. -/
def folded : Form → Line
  | leaf l => l.text
  | bare => []
  | map entries => '{' :: (foldedEntries true entries ++ ['}'])
  | seq items => '[' :: (foldedItems true items ++ [']'])

def foldedEntries : (first : Bool) → List (String × Form) → Line
  | _, [] => []
  | first, (key, f) :: rest =>
    lead first ++ (key.toList ++ ':' :: ' ' :: (f.folded ++ foldedEntries false rest))

def foldedItems : (first : Bool) → List Form → Line
  | _, [] => []
  | first, f :: rest => lead first ++ (f.folded ++ foldedItems false rest)

end

mutual

def foldTokens : Form → List Token
  | leaf l => l.tokens
  | bare => []
  | map entries => .flowMappingStart :: (foldEntryTokens true entries ++ [.flowMappingEnd])
  | seq items => .flowSequenceStart :: (foldItemTokens true items ++ [.flowSequenceEnd])

def foldEntryTokens : (first : Bool) → List (String × Form) → List Token
  | _, [] => []
  | first, (key, f) :: rest => leadTokens first ++
    .key :: .scalar true key.toList :: .value :: (f.foldTokens ++ foldEntryTokens false rest)

def foldItemTokens : (first : Bool) → List Form → List Token
  | _, [] => []
  | first, f :: rest => leadTokens first ++ (f.foldTokens ++ foldItemTokens false rest)

end

/-- Whether a scalar ends where it should between brackets, and is not taken for a comment. -/
def Leaf.fits : Leaf → Bool
  | plain cs => cs.all fun c => !isFlowIndicator c
  | quoted cs => cs.all fun c => c ≠ '#'
  | noItems => true
  | noEntries => true

mutual

/-- Whether a value can stand on one line. -/
def fits : Form → Bool
  | leaf l => l.fits
  | bare => false
  | map entries => entriesFit entries
  | seq items => itemsFit items

def entriesFit : List (String × Form) → Bool
  | [] => true
  | (_, f) :: rest => f.fits && entriesFit rest

def itemsFit : List Form → Bool
  | [] => true
  | f :: rest => f.fits && itemsFit rest

end

variable {f : Form} {key : String} {entries : List (String × Form)} {items : List Form}

theorem entriesFit_cons : entriesFit ((key, f) :: entries) ↔ f.fits ∧ entriesFit entries := by
  simp [entriesFit]

theorem itemsFit_cons : itemsFit (f :: items) ↔ f.fits ∧ itemsFit items := by
  simp [itemsFit]

/-- What may stand behind a value between brackets. -/
def Closes (rest : List Char) : Prop := ∃ d more, rest = d :: more ∧ isFlowIndicator d

theorem closes_foldedEntries (entries : List (String × Form)) {rest : List Char} (h : Closes rest) :
    Closes (foldedEntries false entries ++ rest) := by
  cases entries with
  | nil => exact h
  | cons e entries => exact ⟨',', _, rfl, rfl⟩

theorem closes_foldedItems (items : List Form) {rest : List Char} (h : Closes rest) :
    Closes (foldedItems false items ++ rest) := by
  cases items with
  | nil => exact h
  | cons f items => exact ⟨',', _, rfl, rfl⟩

theorem not_isFlowIndicator_of_isKey (h : isKey key) : ∀ c ∈ key.toList, isFlowIndicator c = false := by
  intro c hc
  have hchar := (plainKey_of_isKey h).chars c hc
  rw [Bool.eq_false_iff]
  intro hflow
  have hmarks : [',', '[', ']', '{', '}'] ⊆ marks := by decide
  have hmem : c ∈ marks := hmarks (by simpa [isFlowIndicator, or_assoc] using hflow)
  rw [not_isPlainChar c (by simp [hmem])] at hchar
  cases hchar

theorem hash_not_mem_encodeChar {c : Char} (hc : c ≠ '#') : '#' ∉ Text.Quoted.encodeChar c := by
  have hcontrol : ∀ n < 32, '#' ∉ Text.Quoted.encodeChar (Char.ofNat n) := by decide
  by_cases hlow : c.toNat < 32
  · have hnot := hcontrol c.toNat hlow
    rwa [Char.ofNat_toNat] at hnot
  · unfold Text.Quoted.encodeChar
    split_ifs
    all_goals first | decide | simpa using Ne.symm hc

/-- The characters of a text on one line, in which no comment begins. -/
def isFoldChar (c : Char) : Bool := isLineChar c && c ≠ '#'

theorem all_isFoldChar_leaf {l : Leaf} (h : l.isSound) (hfits : l.fits) :
    ∀ c ∈ l.text, isFoldChar c := by
  have hhash : '#' ∉ l.text := by
    cases l with
    | plain cs =>
      intro hmem
      simpa [isTextChar] using (List.all_eq_true.mp (chars_of_isPlainText h).1) '#' hmem
    | quoted cs =>
      have hcs : ∀ c ∈ cs, c ≠ '#' := by simpa [Leaf.fits] using hfits
      simp only [Leaf.text, Text.Quoted.encode, List.mem_cons, List.mem_append, List.mem_flatMap,
        List.not_mem_nil, or_false, not_or, not_exists, not_and]
      exact ⟨by decide, fun c hc => hash_not_mem_encodeChar (hcs c hc), by decide⟩
    | noItems => decide
    | noEntries => decide
  intro c hc
  have hne : c ≠ '#' := fun heq => hhash (heq ▸ hc)
  simp [isFoldChar, all_isLineChar_leaf h c hc, hne]

theorem all_isFoldChar_lead (first : Bool) : ∀ c ∈ lead first, isFoldChar c := by
  have hall : (lead first).all isFoldChar := by cases first <;> decide
  exact List.all_eq_true.mp hall

mutual

theorem all_isFoldChar_folded : (f : Form) → f.isSound → f.fits → ∀ c ∈ f.folded, isFoldChar c
  | leaf _, h, hfits => all_isFoldChar_leaf h hfits
  | bare, _, hfits => by cases hfits
  | map entries, h, hfits => by
    have hentries := all_isFoldChar_foldedEntries entries (isSound_map.mp h).2.2 hfits true
    have hbrackets : isFoldChar '{' ∧ isFoldChar '}' := by decide
    simpa [folded, or_imp, forall_and, hbrackets] using hentries
  | seq items, h, hfits => by
    have hitems := all_isFoldChar_foldedItems items (isSound_seq.mp h).2 hfits true
    have hbrackets : isFoldChar '[' ∧ isFoldChar ']' := by decide
    simpa [folded, or_imp, forall_and, hbrackets] using hitems

theorem all_isFoldChar_foldedEntries : (entries : List (String × Form)) → entriesSound entries →
    entriesFit entries → ∀ first, ∀ c ∈ foldedEntries first entries, isFoldChar c
  | [], _, _, _ => by simp [foldedEntries]
  | (key, f) :: entries, h, hfits, first => by
    obtain ⟨hkey, hf, hrest⟩ := entriesSound_cons.mp h
    obtain ⟨hfit, hfits⟩ := entriesFit_cons.mp hfits
    have hvalue := all_isFoldChar_folded f hf hfit
    have hmore := all_isFoldChar_foldedEntries entries hrest hfits false
    have hname : ∀ c ∈ key.toList, isFoldChar c :=
      all_isFoldChar_leaf (l := .plain key.toList) (isPlainText_of_isKey hkey)
        (by simpa [Leaf.fits] using not_isFlowIndicator_of_isKey hkey)
    have hmarks := all_isFoldChar_lead first
    have hcolon : isFoldChar ':' ∧ isFoldChar ' ' := by decide
    simpa [foldedEntries, or_imp, forall_and, hcolon] using ⟨hmarks, hname, hvalue, hmore⟩

theorem all_isFoldChar_foldedItems : (items : List Form) → itemsSound items → itemsFit items →
    ∀ first, ∀ c ∈ foldedItems first items, isFoldChar c
  | [], _, _, _ => by simp [foldedItems]
  | f :: items, h, hfits, first => by
    obtain ⟨hf, hrest⟩ := itemsSound_cons.mp h
    obtain ⟨hfit, hfits⟩ := itemsFit_cons.mp hfits
    have hvalue := all_isFoldChar_folded f hf hfit
    have hmore := all_isFoldChar_foldedItems items hrest hfits false
    have hmarks := all_isFoldChar_lead first
    simpa [foldedItems, or_imp, forall_and] using ⟨hmarks, hvalue, hmore⟩

end

section Scan

variable {limit line depth n : Nat} {c : Cursor} {k : Bool} {b : Blocks} {rest inner : List Char}
  {places : List (Option KeyPlace)} {l : Leaf} {ts : List Token}

/-- Brackets around what is split into tokens. -/
theorem reaches_enclosed {first last : Char} {t t' : Token} (hmem : (first, t, last, t') ∈ brackets)
    (hlevel : Level line depth c places) (hdepth : 1 < depth)
    (hc : c.rest = Text.spaces n ++ first :: (inner ++ last :: rest)) (hlimit : c.rest.length < limit)
    (hinner : ∀ (c' : Cursor) (places' : List (Option KeyPlace)) (b' : Blocks),
      Level line (depth + 1) c' places' → c'.rest = inner ++ last :: rest → c'.rest.length < limit →
      ∃ k', Reaches limit line (depth + 1) (facing c' true places' b') k' (last :: rest)
        (b'.pushAll ts)) :
    Reaches limit line depth (facing c k places b) false rest (b.pushAll (t :: (ts ++ [t']))) := by
  have hpos : 0 < limit := Nat.zero_lt_of_lt hlimit
  obtain ⟨c₁, places₁, hc₁, hlevel₁, hopen⟩ := reaches_open hmem hlevel hdepth hc hpos
  obtain ⟨k', c₂, places₂, hc₂, hlevel₂, hbody⟩ := hinner c₁ places₁ (b.push t) hlevel₁ hc₁
    (Nat.lt_of_le_of_lt hopen.1 hlimit)
  obtain ⟨c₃, places₃, hc₃, hlevel₃, hclose⟩ := reaches_close hmem hlevel₂ (by omega) hc₂ hpos
  refine ⟨c₃, places₃, hc₃, hlevel₃, ?_⟩
  have htokens : ((b.push t).pushAll ts).push t' = b.pushAll (t :: (ts ++ [t'])) := by
    simp [Blocks.pushAll, Blocks.push]
  rw [← htokens]
  exact hopen.trans (hbody.trans hclose)

theorem mem_brackets_items :
    ('[', Token.flowSequenceStart, ']', Token.flowSequenceEnd) ∈ brackets := by simp [brackets]

theorem mem_brackets_entries :
    ('{', Token.flowMappingStart, '}', Token.flowMappingEnd) ∈ brackets := by simp [brackets]

theorem reaches_leaf (hl : l.isSound) (hfits : l.fits) (hlevel : Level line depth c places)
    (hdepth : 1 < depth) (hc : c.rest = Text.spaces n ++ (l.text ++ rest)) (hrest : Closes rest)
    (hlimit : c.rest.length < limit) :
    Reaches limit line depth (facing c k places b) false rest (b.pushAll l.tokens) := by
  have hempty {first last : Char} {t t' : Token} (hmem : (first, t, last, t') ∈ brackets)
      (hc : c.rest = Text.spaces n ++ first :: ([] ++ last :: rest)) :
      Reaches limit line depth (facing c k places b) false rest (b.pushAll (t :: ([] ++ [t']))) :=
    reaches_enclosed hmem hlevel hdepth hc hlimit fun c' places' b' hlevel' hc' _ =>
      ⟨true, c', places', hc', hlevel', .refl _⟩
  have hlength : l.text.length < limit := by
    rw [hc] at hlimit
    simp only [List.length_append] at hlimit
    omega
  cases l with
  | plain text =>
    have hflow : ∀ d ∈ text, isFlowIndicator d = false := by simpa [Leaf.fits] using hfits
    exact reaches_plain hlevel hdepth hc hl hflow hrest hlength
  | quoted text =>
    have hle : text.length ≤ (text.flatMap Text.Quoted.encodeChar).length :=
      length_le_flatMap_encodeChar text
    refine reaches_quoted hlevel hdepth hc hl ?_
    simp only [Leaf.text, Text.Quoted.encode, List.length_cons, List.length_append] at hlength
    omega
  | noItems => exact hempty mem_brackets_items hc
  | noEntries => exact hempty mem_brackets_entries hc

/-- A comma leads to the next entry or item. -/
theorem exists_leads_lead {first : Bool} {cs : List Char} (hk : first = true → k = true)
    (hlevel : Level line depth c places) (hdepth : 1 < depth) (hc : c.rest = lead first ++ cs)
    (hlimit : c.rest.length < limit) : ∃ c' places' m, Level line depth c' places' ∧
      c'.rest = Text.spaces m ++ cs ∧ Leads limit (facing c k places b)
        (facing c' true places' (b.pushAll (leadTokens first))) := by
  cases first with
  | true =>
    obtain rfl := hk rfl
    exact ⟨c, places, 0, hlevel, hc, .refl _⟩
  | false =>
    obtain ⟨c', places', hc', hlevel', hleads⟩ :=
      reaches_comma (k := k) (b := b) hlevel hdepth hc (Nat.zero_lt_of_lt hlimit)
    exact ⟨c', places', 1, hlevel', hc', hleads⟩

mutual

/-- A value between brackets is split into its tokens. -/
theorem reaches_folded : (f : Form) → f.isSound → f.fits → ∀ (depth n : Nat) (c : Cursor) (k : Bool)
    (b : Blocks) (rest : List Char) (places : List (Option KeyPlace)), Level line depth c places →
    1 < depth → c.rest = Text.spaces n ++ (f.folded ++ rest) → Closes rest → c.rest.length < limit →
    Reaches limit line depth (facing c k places b) false rest (b.pushAll f.foldTokens)
  | leaf _, hf, hfits, _, _, _, _, _, _, _, hlevel, hdepth, hc, hrest, hlimit =>
    reaches_leaf hf hfits hlevel hdepth hc hrest hlimit
  | bare, _, hfits, _, _, _, _, _, _, _, _, _, _, _, _ => by cases hfits
  | map entries, hf, hfits, _, _, _, _, _, rest, _, hlevel, hdepth, hc, _, hlimit => by
    simp only [folded, List.cons_append, List.append_assoc, List.nil_append] at hc
    refine reaches_enclosed mem_brackets_entries hlevel hdepth hc hlimit ?_
    intro c' places' b' hlevel' hc' hlimit'
    exact reaches_foldedEntries entries (isSound_map.mp hf).2.2 hfits true _ c' true b' _ places'
      (fun _ => rfl) hlevel' (by omega) hc' ⟨'}', rest, rfl, rfl⟩ hlimit'
  | seq items, hf, hfits, _, _, _, _, _, rest, _, hlevel, hdepth, hc, _, hlimit => by
    simp only [folded, List.cons_append, List.append_assoc, List.nil_append] at hc
    refine reaches_enclosed mem_brackets_items hlevel hdepth hc hlimit ?_
    intro c' places' b' hlevel' hc' hlimit'
    exact reaches_foldedItems items (isSound_seq.mp hf).2 hfits true _ c' true b' _ places'
      (fun _ => rfl) hlevel' (by omega) hc' ⟨']', rest, rfl, rfl⟩ hlimit'

theorem reaches_foldedEntries : (entries : List (String × Form)) → entriesSound entries →
    entriesFit entries → ∀ (first : Bool) (depth : Nat) (c : Cursor) (k : Bool) (b : Blocks)
    (rest : List Char) (places : List (Option KeyPlace)), (first = true → k = true) →
    Level line depth c places → 1 < depth → c.rest = foldedEntries first entries ++ rest →
    Closes rest → c.rest.length < limit → ∃ k', Reaches limit line depth (facing c k places b) k' rest
      (b.pushAll (foldEntryTokens first entries))
  | [], _, _, _, _, c, k, _, _, places, _, hlevel, _, hc, _, _ =>
    ⟨k, c, places, hc, hlevel, .refl _⟩
  | (key, f) :: entries, hsound, hfits, first, depth, c, k, b, rest, places, hk, hlevel, hdepth, hc,
      hrest, hlimit => by
    obtain ⟨hkey, hf, hsound⟩ := entriesSound_cons.mp hsound
    obtain ⟨hfit, hfits⟩ := entriesFit_cons.mp hfits
    have hwidth : Text.byteWidth key.toList ≤ 1024 := by
      simp only [isKey, Bool.and_eq_true, decide_eq_true_eq] at hkey
      exact hkey.2
    simp only [foldedEntries, List.append_assoc, List.cons_append] at hc
    obtain ⟨c₁, places₁, m, hlevel₁, hc₁, hlead⟩ :=
      exists_leads_lead (b := b) hk hlevel hdepth hc hlimit
    have hshort₁ : c₁.rest.length ≤ c.rest.length := hlead.1
    have hlength : key.toList.length < limit := by
      rw [hc₁] at hshort₁
      simp only [List.length_append] at hshort₁
      omega
    obtain ⟨c₂, places₂, hc₂, hlevel₂, hname⟩ := reaches_key (b := b.pushAll (leadTokens first))
      hlevel₁ hdepth hc₁ (isPlainText_of_isKey hkey) (not_isFlowIndicator_of_isKey hkey) hwidth rfl
      hlength
    have hshort₂ : c₂.rest.length ≤ c₁.rest.length := hname.1
    obtain ⟨c₃, places₃, hc₃, hlevel₃, hvalue⟩ := reaches_folded f hf hfit depth 1 c₂ false
      ((((b.pushAll (leadTokens first)).push .key).push (.scalar true key.toList)).push .value) _
      places₂ hlevel₂ hdepth hc₂ (closes_foldedEntries entries hrest) (by omega)
    have hshort₃ : c₃.rest.length ≤ c₂.rest.length := hvalue.1
    obtain ⟨k', c₄, places₄, hc₄, hlevel₄, hmore⟩ := reaches_foldedEntries entries hsound hfits false
      depth c₃ false _ rest places₃ nofun hlevel₃ hdepth hc₃ hrest (by omega)
    refine ⟨k', c₄, places₄, hc₄, hlevel₄, ?_⟩
    have hleads := hlead.trans (hname.trans (hvalue.trans hmore))
    simpa [Blocks.pushAll, Blocks.push, foldEntryTokens] using hleads

theorem reaches_foldedItems : (items : List Form) → itemsSound items → itemsFit items →
    ∀ (first : Bool) (depth : Nat) (c : Cursor) (k : Bool) (b : Blocks) (rest : List Char)
    (places : List (Option KeyPlace)), (first = true → k = true) → Level line depth c places →
    1 < depth → c.rest = foldedItems first items ++ rest → Closes rest → c.rest.length < limit →
    ∃ k', Reaches limit line depth (facing c k places b) k' rest
      (b.pushAll (foldItemTokens first items))
  | [], _, _, _, _, c, k, _, _, places, _, hlevel, _, hc, _, _ =>
    ⟨k, c, places, hc, hlevel, .refl _⟩
  | f :: items, hsound, hfits, first, depth, c, k, b, rest, places, hk, hlevel, hdepth, hc, hrest,
      hlimit => by
    obtain ⟨hf, hsound⟩ := itemsSound_cons.mp hsound
    obtain ⟨hfit, hfits⟩ := itemsFit_cons.mp hfits
    simp only [foldedItems, List.append_assoc] at hc
    obtain ⟨c₁, places₁, m, hlevel₁, hc₁, hlead⟩ :=
      exists_leads_lead (b := b) hk hlevel hdepth hc hlimit
    have hshort₁ : c₁.rest.length ≤ c.rest.length := hlead.1
    obtain ⟨c₂, places₂, hc₂, hlevel₂, hitem⟩ := reaches_folded f hf hfit depth m c₁ true
      (b.pushAll (leadTokens first)) _ places₁ hlevel₁ hdepth hc₁ (closes_foldedItems items hrest)
      (by omega)
    have hshort₂ : c₂.rest.length ≤ c₁.rest.length := hitem.1
    obtain ⟨k', c₃, places₃, hc₃, hlevel₃, hmore⟩ := reaches_foldedItems items hsound hfits false
      depth c₂ false _ rest places₂ nofun hlevel₂ hdepth hc₂ hrest (by omega)
    refine ⟨k', c₃, places₃, hc₃, hlevel₃, ?_⟩
    have hleads := hlead.trans (hitem.trans hmore)
    simpa [Blocks.pushAll, foldItemTokens] using hleads

end

variable {s : Scanner} {column : Nat}

/-- Brackets that nothing stands around. -/
theorem exists_leads_enclosed {first last : Char} {t t' : Token} (hmem : (first, t, last, t') ∈ brackets)
    (h : Arrives limit s (first :: (inner ++ last :: rest)) column k b)
    (hlimit : (first :: (inner ++ last :: rest)).length < limit) (hin : b.indent < column)
    (hinner : ∀ (line : Nat) (c' : Cursor) (places' : List (Option KeyPlace)) (b' : Blocks),
      Level line 2 c' places' → c'.rest = inner ++ last :: rest → c'.rest.length < limit →
      ∃ k', Reaches limit line 2 (facing c' true places' b') k' (last :: rest) (b'.pushAll ts)) :
    ∃ c place, Lapses c.line place ∧ c.rest = rest ∧
      Leads limit s (behind c false place (b.pushAll (t :: (ts ++ [t'])))) := by
  have hclose : b.close column = b := Blocks.close_of_le (Int.le_of_lt hin)
  obtain ⟨c, hc, hcolumn, hstep⟩ := step?_open hmem h
  obtain ⟨place, hplace, hsave⟩ := savePlace?_resting (k := k) (b := b) (c := c) (by omega)
  let c₁ := c.past [first] (inner ++ last :: rest)
  have hopen : step? limit s = some (facing c₁ true [none, place] (b.push t)) := by
    rw [hstep, hclose, openFlow?, hsave, show c₁ = c.skip 1 from (Cursor.skip_one hc).symm]
    rfl
  have hlevel : Level c.line 2 c₁ [none, place] :=
    ⟨rfl, Nat.succ_pos _, rfl, by simpa using ⟨lapses_none _, hplace⟩⟩
  have hshort := h.shorter
  simp only [List.length_cons] at hshort hlimit
  obtain ⟨k', c₂, places₂, hc₂, hlevel₂, hbody⟩ := hinner c.line c₁ _ (b.push t) hlevel rfl
    (by simp only [c₁, Cursor.past]; omega)
  obtain ⟨c₃, places₃, hc₃, hlevel₃, hend⟩ :=
    reaches_close hmem hlevel₂ Nat.one_pos hc₂ (Nat.zero_lt_of_lt hlimit)
  obtain ⟨p, hp⟩ := List.length_eq_one_iff.mp hlevel₃.length
  subst hp
  have htokens : ((b.push t).pushAll ts).push t' = b.pushAll (t :: (ts ++ [t'])) := by
    simp [Blocks.pushAll, Blocks.push]
  rw [htokens] at hend
  refine ⟨c₃, p, ?_, hc₃, (leads_step hopen ?_).trans (hbody.trans hend)⟩
  · rw [hlevel₃.here]
    exact hlevel₃.lapses p (List.mem_singleton_self p)
  · simp only [facing, c₁, Cursor.past]
    omega

/-- What stands between the brackets of a collection on one line is split into tokens. -/
theorem exists_enclosed (hf : f.isSound) (hfits : f.fits) (hblock : f.isBlock) :
    ∃ (first last : Char) (t t' : Token) (inner : List Char) (ts : List Token),
      (first, t, last, t') ∈ brackets ∧ f.folded = first :: (inner ++ [last]) ∧
      f.foldTokens = t :: (ts ++ [t']) ∧ ∀ (limit line : Nat) (c : Cursor)
        (places : List (Option KeyPlace)) (b : Blocks) (rest : List Char), Level line 2 c places →
        c.rest = inner ++ last :: rest → c.rest.length < limit →
        ∃ k', Reaches limit line 2 (facing c true places b) k' (last :: rest) (b.pushAll ts) := by
  cases f with
  | map entries =>
    refine ⟨'{', '}', _, _, _, _, mem_brackets_entries, rfl, rfl, ?_⟩
    intro limit line c places b rest hlevel hc hlimit
    exact reaches_foldedEntries entries (isSound_map.mp hf).2.2 hfits true 2 c true b _ places
      (fun _ => rfl) hlevel Nat.one_lt_two hc ⟨'}', rest, rfl, rfl⟩ hlimit
  | seq items =>
    refine ⟨'[', ']', _, _, _, _, mem_brackets_items, rfl, rfl, ?_⟩
    intro limit line c places b rest hlevel hc hlimit
    exact reaches_foldedItems items (isSound_seq.mp hf).2 hfits true 2 c true b _ places
      (fun _ => rfl) hlevel Nat.one_lt_two hc ⟨']', rest, rfl, rfl⟩ hlimit
  | _ => cases hblock

theorem exists_leads_folded (hf : f.isSound) (hfits : f.fits) (hblock : f.isBlock)
    (h : Arrives limit s (f.folded ++ rest) column k b) (hlimit : (f.folded ++ rest).length < limit)
    (hin : b.indent < column) : ∃ c place, Lapses c.line place ∧ c.rest = rest ∧
      Leads limit s (behind c false place (b.pushAll f.foldTokens)) := by
  obtain ⟨first, last, t, t', inner, ts, hmem, htext, htokens, hinner⟩ :=
    exists_enclosed hf hfits hblock
  have hwhole : f.folded ++ rest = first :: (inner ++ last :: rest) := by simp [htext]
  rw [hwhole] at h hlimit
  rw [htokens]
  exact exists_leads_enclosed hmem h hlimit hin fun line c' places' b' =>
    hinner limit line c' places' b' rest

theorem starts_of_folded (hf : f.isSound) (hfits : f.fits) (hblock : f.isBlock) (rest : List Char) :
    Starts (f.folded ++ rest) := by
  obtain ⟨first, last, t, t', inner, ts, hmem, htext, -, -⟩ := exists_enclosed hf hfits hblock
  rw [htext]
  exact (starts_of_brackets hmem _).1

/-- A collection on one line, at the end of the line. -/
theorem scansText_folded (hf : f.isSound) (hfits : f.fits) (hblock : f.isBlock) :
    ScansText limit f.folded f.foldTokens := by
  refine ⟨starts_of_folded hf hfits hblock, ?_⟩
  intro s column n k b rest h hrest hlimit hin _
  obtain ⟨c, place, hplace, hc, hleads⟩ := exists_leads_folded hf hfits hblock h hlimit hin
  refine ⟨_, hleads, arrives_line hplace hc hrest ?_⟩
  obtain ⟨first, last, t, t', inner, ts, -, htext, -, -⟩ := exists_enclosed hf hfits hblock
  rw [htext] at hlimit
  simp only [List.length_cons, List.length_append] at hlimit
  omega

end Scan

section Read

open Yaml.Node

variable {fuel : Nat} {p : Position} {ts rest more : List Token}

theorem gives_flowMap {entries : List (Node × Node)}
    (h : Gives (readFlowMapping fuel true) ts entries rest) :
    Gives (read (fuel + 1) p) (.flowMappingStart :: ts) (.map none none entries) rest := by
  intro anchors handles
  have hread : read (fuel + 1) p ⟨.flowMappingStart :: ts, anchors, handles⟩ =
      (readFlowMapping fuel true ⟨ts, anchors, handles⟩).bind
        fun (entries, r) => some (.map none none entries, r) := by cases p <;> rfl
  rw [hread, h]
  rfl

theorem gives_flowSeq {items : List Node} (h : Gives (readFlowSequence fuel true) ts items rest) :
    Gives (read (fuel + 1) p) (.flowSequenceStart :: ts) (.seq none none items) rest := by
  intro anchors handles
  have hread : read (fuel + 1) p ⟨.flowSequenceStart :: ts, anchors, handles⟩ =
      (readFlowSequence fuel true ⟨ts, anchors, handles⟩).bind
        fun (items, r) => some (.seq none none items, r) := by cases p <;> rfl
  rw [hread, h]
  rfl

theorem gives_flowEntry {first : Bool} {key : List Char} {value : Node} {entries : List (Node × Node)}
    (hvalue : Gives (readUnless (fuel + 3) .flow [.flowEntry, .flowMappingEnd]) ts value rest)
    (hrest : Gives (readFlowMapping (fuel + 3) false) rest entries more) :
    Gives (readFlowMapping (fuel + 4) first)
      (leadTokens first ++ .key :: .scalar true key :: .value :: ts)
      ((.scalar none none true key, value) :: entries) more := by
  intro anchors handles
  have hread : readFlowMapping (fuel + 4) first
      ⟨leadTokens first ++ .key :: .scalar true key :: .value :: ts, anchors, handles⟩ =
      (readUnless (fuel + 3) .flow [.flowEntry, .flowMappingEnd] ⟨ts, anchors, handles⟩).bind
        fun v => (readFlowMapping (fuel + 3) false v.2).bind
          fun es => some ((.scalar none none true key, v.1) :: es.1, es.2) := by
    cases first <;> rfl
  rw [hread, hvalue, Option.bind_some, hrest]
  rfl

theorem exists_foldTokens_cons {f : Form} (h : f.fits) :
    ∃ t ts, f.foldTokens = t :: ts ∧ opensNode t := by
  cases f with
  | leaf l => cases l <;> exact ⟨_, _, rfl, rfl⟩
  | bare => cases h
  | map entries => exact ⟨_, _, rfl, rfl⟩
  | seq items => exact ⟨_, _, rfl, rfl⟩

theorem gives_flowItem {first : Bool} {t : Token} {item : Node} {items : List Node}
    (ht : opensNode t) (hitem : Gives (read fuel .flow) (t :: ts) item rest)
    (hrest : Gives (readFlowSequence fuel false) rest items more) :
    Gives (readFlowSequence (fuel + 1) first) (leadTokens first ++ t :: ts) (item :: items) more := by
  intro anchors handles
  have hread : readFlowSequence (fuel + 1) first ⟨leadTokens first ++ t :: ts, anchors, handles⟩ =
      (read fuel .flow ⟨t :: ts, anchors, handles⟩).bind fun n =>
        (readFlowSequence fuel false n.2).bind fun ns => some (n.1 :: ns.1, ns.2) := by
    cases t <;> first | (cases ht; done) | (cases first <;> rfl)
  rw [hread, hitem, Option.bind_some, hrest]
  rfl

mutual

/-- The tokens of a value between brackets are read as its node. -/
theorem gives_folded : (f : Form) → f.fits → ∀ fuel p rest, 2 * f.foldTokens.length + 2 ≤ fuel →
    Gives (read fuel p) (f.foldTokens ++ rest) f.node rest
  | leaf l, _, fuel, p, rest, hfuel => by
    obtain ⟨fuel, rfl⟩ : ∃ m, fuel = m + 2 := ⟨fuel - 2, by omega⟩
    exact gives_leaf l fuel p rest
  | bare, h, _, _, _, _ => by cases h
  | map entries, h, fuel, p, rest, hfuel => by
    simp only [foldTokens, List.length_cons, List.length_append] at hfuel
    obtain ⟨fuel, rfl⟩ : ∃ m, fuel = m + 1 := ⟨fuel - 1, by omega⟩
    have hentries := gives_foldedEntries entries h true fuel rest (by omega)
    simpa [foldTokens, node] using gives_flowMap hentries
  | seq items, h, fuel, p, rest, hfuel => by
    simp only [foldTokens, List.length_cons, List.length_append] at hfuel
    obtain ⟨fuel, rfl⟩ : ∃ m, fuel = m + 1 := ⟨fuel - 1, by omega⟩
    have hitems := gives_foldedItems items h true fuel rest (by omega)
    simpa [foldTokens, node] using gives_flowSeq hitems

theorem gives_foldedEntries : (entries : List (String × Form)) → entriesFit entries →
    ∀ first fuel rest, 2 * (foldEntryTokens first entries).length + 2 ≤ fuel →
    Gives (readFlowMapping fuel first) (foldEntryTokens first entries ++ .flowMappingEnd :: rest)
      (entryNodes entries) rest
  | [], _, first, fuel, rest, hfuel => by
    obtain ⟨fuel, rfl⟩ : ∃ m, fuel = m + 1 := ⟨fuel - 1, by omega⟩
    exact fun _ _ => rfl
  | (key, f) :: entries, h, first, fuel, rest, hfuel => by
    obtain ⟨hfit, hfits⟩ := entriesFit_cons.mp h
    simp only [foldEntryTokens, List.length_cons, List.length_append] at hfuel
    obtain ⟨fuel, rfl⟩ : ∃ m, fuel = m + 4 := ⟨fuel - 4, by omega⟩
    have hread := gives_folded f hfit (fuel + 2) .flow
      (foldEntryTokens false entries ++ .flowMappingEnd :: rest) (by omega)
    have hmore := gives_foldedEntries entries hfits false (fuel + 3) rest (by omega)
    obtain ⟨t, ts, htokens, ht⟩ := exists_foldTokens_cons hfit
    have hends : t ∉ ([.flowEntry, .flowMappingEnd] : List Token) := by
      rintro hmem
      simp only [List.mem_cons, List.not_mem_nil, or_false] at hmem
      rcases hmem with rfl | rfl <;> cases ht
    rw [htokens, List.cons_append] at hread
    simpa [foldEntryTokens, entryNodes, htokens] using gives_flowEntry (gives_unless hends hread) hmore

theorem gives_foldedItems : (items : List Form) → itemsFit items →
    ∀ first fuel rest, 2 * (foldItemTokens first items).length + 3 ≤ fuel →
    Gives (readFlowSequence fuel first) (foldItemTokens first items ++ .flowSequenceEnd :: rest)
      (itemNodes items) rest
  | [], _, first, fuel, rest, hfuel => by
    obtain ⟨fuel, rfl⟩ : ∃ m, fuel = m + 1 := ⟨fuel - 1, by omega⟩
    exact fun _ _ => rfl
  | f :: items, h, first, fuel, rest, hfuel => by
    obtain ⟨hfit, hfits⟩ := itemsFit_cons.mp h
    obtain ⟨t, ts, htokens, ht⟩ := exists_foldTokens_cons hfit
    have hlength : 0 < f.foldTokens.length := by rw [htokens]; exact Nat.succ_pos _
    simp only [foldItemTokens, List.length_append] at hfuel
    obtain ⟨fuel, rfl⟩ : ∃ m, fuel = m + 1 := ⟨fuel - 1, by omega⟩
    have hitem := gives_folded f hfit fuel .flow
      (foldItemTokens false items ++ .flowSequenceEnd :: rest) (by omega)
    have hmore := gives_foldedItems items hfits false fuel rest (by omega)
    rw [htokens, List.cons_append] at hitem
    simpa [foldItemTokens, itemNodes, htokens] using gives_flowItem ht hitem hmore

end

end Read

/-- The tokens of a collection on one line by itself. -/
theorem tokens?_folded (hf : f.isSound) (hfits : f.fits) (hblock : f.isBlock) :
    tokens? f.folded = some f.foldTokens := by
  have hchars := all_isFoldChar_folded f hf hfits
  have hallowed : f.folded.all isAllowed := by
    refine List.all_eq_true.mpr fun c hc => ?_
    have hchar := hchars c hc
    simp only [isFoldChar, isLineChar, Bool.and_eq_true] at hchar
    exact hchar.1.1
  have hne : f.folded ≠ [] := by
    obtain ⟨first, last, t, t', inner, ts, -, htext, -, -⟩ := exists_enclosed hf hfits hblock
    rw [htext]
    exact List.cons_ne_nil _ _
  have hstarts : Starts f.folded := by
    simpa using starts_of_folded hf hfits hblock []
  have hstart : Arrives (f.folded.length + 1) (Scanner.start f.folded) (f.folded ++ []) 0 true
      ⟨-1, [], []⟩ := by
    simpa using arrives_start (f.folded.length + 1) hstarts (Nat.succ_pos _)
  obtain ⟨c, place, hplace, hc, hleads⟩ := exists_leads_folded hf hfits hblock hstart
    (by simp) (by decide)
  refine tokens?_of_leads hne hallowed hleads fun fuel _ => ?_
  obtain ⟨s', hs', htokens⟩ := leaveBlocks?_behind (c := c) (k := false)
    (b := Blocks.pushAll f.foldTokens ⟨-1, [], []⟩) hplace
  refine ⟨s', ?_, by rw [htokens]; simp [Blocks.pushAll, Blocks.close, Blocks.closeFrom]⟩
  rw [proceed, if_pos (by simp [behind, hc])]
  exact hs'

/-- A collection on one line loads as its value, if it is not nested too deep. -/
theorem load?_folded (hf : f.isSound) (hfits : f.fits) (hblock : f.isBlock) :
    load? f.folded = if f.height ≤ 128 then some f.value else none := by
  refine load?_of_tokens? (tokens?_folded hf hfits hblock) ?_ hf
  have hread := gives_folded f hfits (4 * f.foldTokens.length + 8) .block [] (by omega)
  obtain ⟨t, ts, htokens, ht⟩ := exists_foldTokens_cons hfits
  rw [List.append_nil, htokens] at hread
  rw [htokens]
  exact ofTokens?_of_gives ht hread

end BlockFlow.Form

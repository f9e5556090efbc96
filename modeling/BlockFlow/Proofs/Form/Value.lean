import BlockFlow.Proofs.Form.Write
import BlockFlow.Proofs.KeyNames

/-!
Values as edits write them. Main statement: a value whose keys are strings and whose numbers are read
back is read back whole.
-/

namespace BlockFlow

open Yaml (Value)

namespace Text

variable {n : Nat}

/-- Numbers other than zero are written without a zero in front. -/
theorem head?_decimalDigits (hn : n ≠ 0) : (decimalDigits n).head? ≠ some '0' := by
  induction n using Nat.strongRecOn with
  | ind n ih =>
    by_cases hlt : n < 10
    · have hdigit : ∀ m < 10, m ≠ 0 → [Nat.digitChar m].head? ≠ some '0' := by decide
      rw [decimalDigits, Nat.toDigits_of_lt_base hlt]
      exact hdigit n hlt hn
    · have hdiv := ih (n / 10) (by omega) (by omega)
      rw [decimalDigits] at hdiv ⊢
      rw [Nat.toDigits_of_base_le (by norm_num) (by omega),
        List.head?_append_of_ne_nil _ Nat.toDigits_ne_nil]
      exact hdiv

/-- The digits of a number: none but digits, and a zero only by itself in front. -/
theorem exists_decimalDigits (n : Nat) : ∃ c ds, decimalDigits n = c :: ds ∧
    (∀ d ∈ c :: ds, isDigit d) ∧ (c = '0' → ds = []) := by
  obtain ⟨c, ds, hlist⟩ := List.exists_cons_of_ne_nil (Decimal.decimalDigits_ne_nil (n := n))
  refine ⟨c, ds, hlist, fun d hd => Decimal.isDigit_of_mem (hlist ▸ hd), ?_⟩
  rintro rfl
  by_cases hn : n = 0
  · subst hn
    exact (List.cons.inj hlist).2.symm
  · exact absurd (by rw [hlist, List.head?_cons]) (head?_decimalDigits hn)

/-- A text that does not begin with a digit is no number. -/
theorem natOfDigits?_minus (base : Nat) (cs : List Char) : natOfDigits? base ('-' :: cs) = none := by
  have hnone (cs : List Char) : cs.foldl (fun (acc : Option Nat) c => do
      let value ← acc
      let d ← digitValue? c
      if d < base then some (value * base + d) else none) none = none := by
    induction cs with
    | nil => rfl
    | cons c cs ih => exact ih
  exact hnone cs

end Text

namespace Yaml.Plain

open Text (decimalDigits isDigit)

variable {n bound : Nat} {c : Char} {ds : List Char}

theorem isPadded_of_digits (hds : c = '0' → ds = []) (hc : isDigit c) :
    isPadded (c :: ds) = false ∧ isPadded ('-' :: c :: ds) = false := by
  have hsign : c ≠ '-' ∧ c ≠ '+' := by
    constructor
    all_goals
      rintro rfl
      exact absurd hc (by decide)
  by_cases hzero : c = '0'
  · obtain rfl := hds hzero
    subst hzero
    decide
  · have hminus : isPadded ('-' :: c :: ds) = false := by
      simp only [isPadded]
      split
      · simp_all
      · rfl
    refine ⟨?_, hminus⟩
    rw [← hminus]
    simp only [isPadded]
    split
    · simp_all
    · simp_all

theorem based?_of_digits (hds : c = '0' → ds = []) : based? (c :: ds) = none := by
  unfold based?
  split
  all_goals first | rfl | simp_all

theorem magnitude?_decimalDigits (hle : n ≤ bound) :
    magnitude? false bound (decimalDigits n) = some n := by
  obtain ⟨c, ds, hlist, -, hzero⟩ := Text.exists_decimalDigits n
  have hbased : based? (decimalDigits n) = none := hlist ▸ based?_of_digits hzero
  rw [magnitude?, hbased, Decimal.natOfDigits?_decimalDigits]
  simp [hle]

theorem magnitude?_minus (padded : Bool) : magnitude? padded bound ('-' :: ds) = none := by
  have hbased : based? ('-' :: ds) = none := rfl
  rw [magnitude?, hbased, Text.natOfDigits?_minus]
  cases padded <;> rfl

theorem intWithin?_unsigned {least greatest : Nat} {cs : List Char} (hplus : cs.head? ≠ some '+')
    (h : magnitude? (isPadded cs) greatest cs = some n) :
    intWithin? least greatest cs = some (n : Int) := by
  unfold intWithin?
  split
  · simp at hplus
  · simp only [h]

theorem intWithin?_minus {least greatest : Nat} {cs : List Char}
    (h : magnitude? (isPadded ('-' :: cs)) least cs = some n) :
    intWithin? least greatest ('-' :: cs) = some (-n : Int) := by
  have hpositive : magnitude? (isPadded ('-' :: cs)) greatest ('-' :: cs) = none := magnitude?_minus _
  unfold intWithin?
  simp only
  split
  · rename_i heq
    have heq : magnitude? (isPadded ('-' :: cs)) greatest ('-' :: cs) = some _ := heq
    rw [hpositive] at heq
    cases heq
  · rename_i heq
    cases heq
    rw [h]
    rfl
  · rename_i hnot
    exact absurd rfl (hnot cs)

/-- Integers within bounds are read back. -/
theorem intWithin?_intText {i : Int} {least greatest : Nat} (hlow : -least ≤ i) (hhigh : i ≤ greatest) :
    intWithin? least greatest (Json.intText i) = some i := by
  obtain ⟨c, ds, hlist, hdigits, hzero⟩ := Text.exists_decimalDigits i.natAbs
  have hc := hdigits c List.mem_cons_self
  obtain ⟨hplain, hminus⟩ := isPadded_of_digits hzero hc
  unfold Json.intText
  split
  · rename_i hneg
    have hread : magnitude? false least (decimalDigits i.natAbs) = some i.natAbs :=
      magnitude?_decimalDigits (by omega)
    rw [hlist] at hread ⊢
    rw [intWithin?_minus (hminus.symm ▸ hread)]
    exact congrArg some (by omega)
  · have hread : magnitude? false greatest (decimalDigits i.natAbs) = some i.natAbs :=
      magnitude?_decimalDigits (by omega)
    have hplus : (c :: ds).head? ≠ some '+' := by
      rintro ⟨⟩
      exact absurd hc (by decide)
    rw [hlist] at hread ⊢
    rw [intWithin?_unsigned hplus (hplain.symm ▸ hread)]
    exact congrArg some (by omega)

/-- An integer that fits 64 bits is read back. -/
theorem value?_intText {i : Int} (hlow : -2 ^ 63 ≤ i) (hhigh : i < 2 ^ 64) :
    value? (Json.intText i) = some (.int i) := by
  have hwithin : intWithin? (Nat.pow 2 63) (Nat.pow 2 64 - 1) (Json.intText i) = some i :=
    intWithin?_intText (by norm_num; omega) (by norm_num; omega)
  have hwhole : whole (Json.intText i) = .fits i := by rw [whole, hwithin]
  have hword (word : List Char) (hword : (word.any fun c => c ≠ '-' && !isDigit c) = true) :
      Json.intText i ≠ word := by
    rintro rfl
    obtain ⟨c, hc, hnot⟩ := List.any_eq_true.mp hword
    rw [Bool.and_eq_true, Bool.not_eq_true', decide_eq_true_eq] at hnot
    have hmem := Yaml.Value.mem_jsonIntText hc
    simp [hnot] at hmem
  have hnull : isNull (Json.intText i) = false := by
    simp only [isNull, Bool.or_eq_false_iff, decide_eq_false_iff_not]
    exact ⟨⟨⟨hword _ rfl, hword _ rfl⟩, hword _ rfl⟩, hword _ rfl⟩
  have hbool : bool? (Json.intText i) = none := by
    unfold bool?
    rw [if_neg, if_neg]
    · simp only [Bool.or_eq_true, decide_eq_true_eq, not_or]
      exact ⟨⟨hword _ rfl, hword _ rfl⟩, hword _ rfl⟩
    · simp only [Bool.or_eq_true, decide_eq_true_eq, not_or]
      exact ⟨⟨hword _ rfl, hword _ rfl⟩, hword _ rfl⟩
  rw [value?, hnull, hbool, hwhole]
  cases hcs : Json.intText i with
  | nil =>
    rw [hcs] at hwithin
    cases hwithin
  | cons c cs => rfl

end Yaml.Plain

namespace Form

mutual

/-- The form that a value is written in. -/
def ofValue : Value → Form
  | .str s => .leaf (.string s)
  | .seq [] => .leaf .noItems
  | .seq (v :: vs) => .seq (ofItems (v :: vs))
  | .map [] => .leaf .noEntries
  | .map (e :: es) => .map (ofEntries (e :: es))
  | v => .leaf (.plain (Outline.inlineOrNull v))

def ofItems : List Value → List Form
  | [] => []
  | v :: vs => ofValue v :: ofItems vs

/-- Keys stand for themselves when they are strings. -/
def ofEntries : List (Value × Value) → List (String × Form)
  | [] => []
  | (k, v) :: es => (String.ofList (Outline.renderKey k), ofValue v) :: ofEntries es

end

/-- Whether the text of a number is read as that number, bit for bit. -/
def isFloatText (x : Float) : Bool :=
  let cs := Decimal.documentStyle.write x
  isPlainText cs && match Yaml.Plain.value? cs with
    | some (.float y) => y.toBits == x.toBits
    | _ => false

mutual

/-- Whether a value is read back as it is written: numbers and strings are, and keys are strings
that stand for themselves. -/
def isFaithful : Value → Bool
  | .null => true
  | .bool _ => true
  | .int i => decide (-2 ^ 63 ≤ i) && decide (i < 2 ^ 64)
  | .float x => isFloatText x
  | .str s => (Leaf.string s).isSound
  | .seq vs => itemsFaithful vs
  | .map es => decide (es.map fun e => String.ofList (Outline.renderKey e.1)).Nodup &&
      entriesFaithful es
  | .tagged _ _ => false

def itemsFaithful : List Value → Bool
  | [] => true
  | v :: vs => isFaithful v && itemsFaithful vs

def entriesFaithful : List (Value × Value) → Bool
  | [] => true
  | (k, v) :: es => (match k with
    | .str s => isKey s
    | _ => false) && isFaithful v && entriesFaithful es

end

/-- The characters of integers are read as they are. -/
theorem isTextChar_digit {c : Char} (h : Text.isDigit c) : isTextChar c ∧
    Yaml.Scanner.isIndicator c = false ∧ Yaml.isBlankOrBreak c = false ∧ c ≠ ' ' ∧ c ≠ '.' ∧
      c ≠ '-' := by
  simpa [and_assoc] using Decimal.of_isDigit (p := fun c => isTextChar c &&
    !Yaml.Scanner.isIndicator c && !Yaml.isBlankOrBreak c && c ≠ ' ' && c ≠ '.' && c ≠ '-')
    (by decide) h

/-- Digits, and digits behind a minus, are written without quotes. -/
theorem isPlainText_digits {c : Char} {ds : List Char} (h : ∀ d ∈ c :: ds, Text.isDigit d) :
    ((Yaml.Plain.value? (c :: ds)).isSome → isPlainText (c :: ds)) ∧
      ((Yaml.Plain.value? ('-' :: c :: ds)).isSome → isPlainText ('-' :: c :: ds)) := by
  have hall : (c :: ds).all isTextChar := List.all_eq_true.mpr fun d hd => (isTextChar_digit (h d hd)).1
  have hlast : (c :: ds).getLast? ≠ some ' ' := fun heq =>
    (isTextChar_digit (h ' ' (List.mem_of_getLast? heq))).2.2.2.1 rfl
  obtain ⟨-, hindicator, hblank, hspace, hpoint, hminus⟩ := isTextChar_digit (h c List.mem_cons_self)
  have hstart : Yaml.startsBlank (c :: ds) = false := hblank
  have hdash : isTextChar '-' := by decide
  constructor
  · intro hvalue
    simp [isPlainText, hindicator, hspace, hlast, hall, hvalue, hpoint, hminus]
  · intro hvalue
    simp [isPlainText, hstart, hlast, hall, hvalue, hminus, hdash]

/-- An integer is written without quotes. -/
theorem isPlainText_intText {i : Int} (h : (Yaml.Plain.value? (Json.intText i)).isSome) :
    isPlainText (Json.intText i) := by
  obtain ⟨c, ds, hlist, hdigits, -⟩ := Text.exists_decimalDigits i.natAbs
  obtain ⟨hplain, hminus⟩ := isPlainText_digits hdigits
  unfold Json.intText at h ⊢
  rw [hlist] at h ⊢
  split
  · rename_i hneg
    rw [if_pos hneg] at h
    exact hminus h
  · rename_i hneg
    rw [if_neg hneg] at h
    exact hplain h

theorem renderKey_str {k : String} (h : isKey k) :
    String.ofList (Outline.renderKey (.str k)) = k := by
  rw [Outline.renderKey, renderString_of_isKey h, String.ofList_toList]

theorem entriesFaithful_cons {k v : Value} {es : List (Value × Value)} :
    entriesFaithful ((k, v) :: es) ↔
      (∃ s, k = .str s ∧ isKey s) ∧ isFaithful v ∧ entriesFaithful es := by
  cases k <;> simp [entriesFaithful, and_assoc]

theorem isFaithful_map {es : List (Value × Value)} : isFaithful (.map es) ↔
    (es.map fun e => String.ofList (Outline.renderKey e.1)).Nodup ∧ entriesFaithful es := by
  rw [isFaithful, Bool.and_eq_true, decide_eq_true_eq]

theorem keys_ofEntries (es : List (Value × Value)) : (ofEntries es).map (·.1) =
    es.map fun e => String.ofList (Outline.renderKey e.1) := by
  induction es with
  | nil => rfl
  | cons e es ih => rw [ofEntries, List.map_cons, List.map_cons, ih]

mutual

/-- A faithful value is read back from its form. -/
theorem ofValue_faithful : (v : Value) → isFaithful v → (ofValue v).isSound ∧ (ofValue v).value = v
  | .null, _ => ⟨by decide +kernel, rfl⟩
  | .bool true, _ => ⟨by decide +kernel, rfl⟩
  | .bool false, _ => ⟨by decide +kernel, rfl⟩
  | .int i, h => by
    simp only [isFaithful, Bool.and_eq_true, decide_eq_true_eq] at h
    have hvalue := Yaml.Plain.value?_intText h.1 h.2
    have htext : (Outline.inlineOrNull (.int i)) = Json.intText i := by
      simp [Outline.inlineOrNull, Outline.inline?, Value.intText]
    rw [ofValue, htext]
    · exact ⟨isPlainText_intText (by rw [hvalue]; rfl), by simp [value, Leaf.value, hvalue]⟩
    all_goals simp
  | .float x, h => by
    simp only [isFaithful, isFloatText, Bool.and_eq_true] at h
    have htext : Outline.inlineOrNull (.float x) = Decimal.documentStyle.write x := by
      simp [Outline.inlineOrNull, Outline.inline?, Value.floatText]
    rw [ofValue, htext]
    · refine ⟨h.1, ?_⟩
      have hread := h.2
      split at hread
      · rename_i y hy
        have hsame : y = x := Decimal.float_eq_of_toBits (by simpa using hread)
        simp [value, Leaf.value, hy, hsame]
      · cases hread
    all_goals simp
  | .str s, h => ⟨h, Leaf.value_string h⟩
  | .seq [], _ => ⟨rfl, rfl⟩
  | .seq (v :: vs), h => by
    obtain ⟨hsound, hvalues⟩ := ofItems_faithful (v :: vs) h
    exact ⟨isSound_seq.mpr ⟨List.cons_ne_nil _ _, hsound⟩, congrArg Value.seq hvalues⟩
  | .map [], _ => ⟨rfl, rfl⟩
  | .map (e :: es), h => by
    obtain ⟨hnodup, hes⟩ := isFaithful_map.mp h
    obtain ⟨hsound, hvalues⟩ := ofEntries_faithful (e :: es) hes
    refine ⟨isSound_map.mpr ⟨List.cons_ne_nil _ _, ?_, hsound⟩, congrArg Value.map hvalues⟩
    rw [keys_ofEntries]
    exact hnodup
  | .tagged _ _, h => by cases h

theorem ofItems_faithful : (vs : List Value) → itemsFaithful vs →
    itemsSound (ofItems vs) ∧ itemValues (ofItems vs) = vs
  | [], _ => ⟨rfl, rfl⟩
  | v :: vs, h => by
    rw [itemsFaithful, Bool.and_eq_true] at h
    obtain ⟨hsound, hvalue⟩ := ofValue_faithful v h.1
    obtain ⟨hrest, hvalues⟩ := ofItems_faithful vs h.2
    exact ⟨itemsSound_cons.mpr ⟨hsound, hrest⟩, by rw [ofItems, itemValues, hvalue, hvalues]⟩

theorem ofEntries_faithful : (es : List (Value × Value)) → entriesFaithful es →
    entriesSound (ofEntries es) ∧ entryValues (ofEntries es) = es
  | [], _ => ⟨rfl, rfl⟩
  | (k, v) :: es, h => by
    obtain ⟨⟨s, rfl, hs⟩, hv, hes⟩ := entriesFaithful_cons.mp h
    obtain ⟨hsound, hvalue⟩ := ofValue_faithful v hv
    obtain ⟨hrest, hvalues⟩ := ofEntries_faithful es hes
    rw [ofEntries, renderKey_str hs]
    exact ⟨entriesSound_cons.mpr ⟨hs, hsound, hrest⟩, by rw [entryValues, hvalue, hvalues]⟩

end

/-- A value stands on the line of its key when it is a scalar or an empty collection. -/
theorem ofValue_inline {v : Value} (h : isFaithful v) : (∃ l, ofValue v = .leaf l ∧
    Outline.inline? v = some l.text) ∨ (∀ l, ofValue v ≠ .leaf l) ∧ Outline.inline? v = none := by
  cases v with
  | str s => exact .inl ⟨_, rfl, by rw [Outline.inline?, Leaf.text_string]⟩
  | seq vs =>
    cases vs with
    | nil => exact .inl ⟨_, rfl, rfl⟩
    | cons v vs => exact .inr ⟨nofun, rfl⟩
  | map es =>
    cases es with
    | nil => exact .inl ⟨_, rfl, rfl⟩
    | cons e es => exact .inr ⟨nofun, rfl⟩
  | tagged tag v => cases h
  | _ => exact .inl ⟨_, rfl, rfl⟩

theorem entryLines_of_not_leaf {key : String} {f : Form} (h : ∀ l, f ≠ .leaf l) (inside : List Line) :
    entryLines key f inside = (key.toList ++ [':']) :: inside.map (·.deeper 2) := by
  cases f with
  | leaf l => exact absurd rfl (h l)
  | _ => rfl

theorem bodyLines_of_not_leaf {f : Form} (h : ∀ l, f ≠ .leaf l) : f.bodyLines = f.lines := by
  cases f with
  | leaf l => exact absurd rfl (h l)
  | _ => rfl

theorem itemLines_of_not_leaf {f : Form} (h : ∀ l, f ≠ .leaf l) (first : Line) (rest : List Line) :
    itemLines f (first :: rest) = ('-' :: ' ' :: first) :: rest.map (·.deeper 2) := by
  cases f with
  | leaf l => exact absurd rfl (h l)
  | _ => rfl

/-- Collections that are not empty have lines. -/
theorem lines_ofValue_ne_nil {v : Value} (h : ∀ l, ofValue v ≠ .leaf l) : (ofValue v).lines ≠ [] := by
  cases v with
  | seq vs =>
    cases vs with
    | nil => exact absurd rfl (h _)
    | cons v vs => exact sequenceLines_ne_nil (List.cons_ne_nil _ _)
  | map es =>
    cases es with
    | nil => exact absurd rfl (h _)
    | cons e es => exact mappingLines_ne_nil (List.cons_ne_nil _ _)
  | _ => exact absurd rfl (h _)

mutual

/-- A collection is written in the lines of its form. -/
theorem lines_ofValue : (v : Value) → isFaithful v → (∀ l, ofValue v ≠ .leaf l) →
    (ofValue v).lines = Outline.valueLines v
  | .seq (v :: vs), h, _ => lines_ofItems (v :: vs) h
  | .map (e :: es), h, _ => lines_ofEntries (e :: es) (isFaithful_map.mp h).2
  | .seq [], _, hleaf => absurd rfl (hleaf _)
  | .map [], _, hleaf => absurd rfl (hleaf _)
  | .null, _, hleaf => absurd rfl (hleaf _)
  | .bool _, _, hleaf => absurd rfl (hleaf _)
  | .int _, _, hleaf => absurd rfl (hleaf _)
  | .float _, _, hleaf => absurd rfl (hleaf _)
  | .str _, _, hleaf => absurd rfl (hleaf _)
  | .tagged _ _, _, hleaf => absurd rfl (hleaf _)

theorem lines_ofItems : (vs : List Value) → itemsFaithful vs →
    sequenceLines (ofItems vs) = Outline.sequenceLines vs
  | [], _ => rfl
  | v :: vs, h => by
    rw [itemsFaithful, Bool.and_eq_true] at h
    rw [ofItems, sequenceLines, Outline.sequenceLines, lines_ofItems vs h.2]
    rcases ofValue_inline h.1 with ⟨l, hleaf, hinline⟩ | ⟨hleaf, hinline⟩
    · simp only [hleaf, Outline.itemLines, hinline, itemLines]
    · obtain ⟨first, rest, hlines⟩ := List.exists_cons_of_ne_nil (lines_ofValue_ne_nil hleaf)
      rw [hlines, itemLines_of_not_leaf hleaf]
      rw [lines_ofValue v h.1 hleaf] at hlines
      simp only [hlines, Outline.itemLines, hinline]

theorem lines_ofEntries : (es : List (Value × Value)) → entriesFaithful es →
    mappingLines (ofEntries es) = Outline.mappingLines es
  | [], _ => rfl
  | (k, v) :: es, h => by
    obtain ⟨⟨s, rfl, hs⟩, hv, hes⟩ := entriesFaithful_cons.mp h
    rw [ofEntries, mappingLines, Outline.mappingLines, lines_ofEntries es hes, renderKey_str hs,
      Outline.renderKey, renderString_of_isKey hs]
    rcases ofValue_inline hv with ⟨l, hleaf, hinline⟩ | ⟨hleaf, hinline⟩
    · rw [hleaf, Outline.entryLines, hinline]
      rfl
    · rw [lines_ofValue v hv hleaf, Outline.entryLines, hinline, entryLines_of_not_leaf hleaf]

end

end Form

namespace Slot

open Form (ofValue isFaithful)

variable {s : Slot} {es : List (String × Form)} {k : String} {v : Value}

/-- A value is put under a key. -/
theorem setValue_fill (hes : Form.entriesSound es) (hk : Form.isKey k)
    (hnodup : (es.map (·.1)).Nodup) (hv : isFaithful v) :
    (s.fill (.map es)).setValue s.line k v = s.fill (.map (Form.put k (ofValue v) es)) := by
  rw [Outline.setValue]
  rcases Form.ofValue_inline hv with ⟨l, hleaf, hinline⟩ | ⟨hleaf, hinline⟩
  · rw [hinline, hleaf]
    exact setScalar_fill hes hk hnodup
  · have hsolid : Form.Solid (ofValue v).lines := by
      have hbody := Form.solid_lines _ (Form.ofValue_faithful v hv).1
      rwa [Form.bodyLines_of_not_leaf hleaf] at hbody
    rw [hinline, ← Form.lines_ofValue v hv hleaf]
    exact setBlock_fill hes hk hnodup hsolid hleaf

end Slot

end BlockFlow

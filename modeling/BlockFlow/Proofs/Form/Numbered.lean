import BlockFlow.Edit.Numbered
import BlockFlow.Proofs.Form.Inputs
import BlockFlow.Proofs.Form.Scene
import BlockFlow.Proofs.KeyNames

/-!
Numbered inputs in the outline of a form. Main statements: numbered names can stand as keys, and when
an input is left out or gets another name, the node is read with its inputs changed likewise.
-/

namespace BlockFlow

open Outcome

open Text (isDigit decimalDigits)

namespace Form

/-- The stems of the numbered inputs of built-in opcodes. -/
def isStem (stem : String) : Bool := stem = "ITEM" || stem = "PART"

/-- The stems of their numbered branches and inputs. -/
def stems : List String := ["CASE", "CATCH", "ITEM", "PART"]

/-- The letters that these begin with. -/
def initials : List Char := ['C', 'I', 'P']

/-- The letters that numbered names begin with: these, and those of built-in opcodes. -/
def letters : List Char := initials ++ ['c', 'd', 'i', 'o', 's', 'w']

variable {stem : String} {n : Nat} {c : Char} {cs : List Char}

theorem mem_stems (h : isStem stem) : stem ∈ stems := by
  simp only [isStem, Bool.or_eq_true, decide_eq_true_eq] at h
  rcases h with rfl | rfl <;> decide

theorem eq_of_mem_letters (h : c ∈ letters) : c = 'C' ∨ c = 'I' ∨ c = 'P' ∨ c = 'c' ∨ c = 'd' ∨
    c = 'i' ∨ c = 'o' ∨ c = 's' ∨ c = 'w' := by
  simpa [letters, initials] using h

theorem natOfDigits?_of_head (h : ∀ d ∈ Text.digitValue? c, 10 ≤ d) :
    Text.natOfDigits? 10 (c :: cs) = none := by
  have hfold (ds : List Char) : ds.foldl (fun acc c => do
      let value ← acc
      let d ← Text.digitValue? c
      if d < 10 then some (value * 10 + d) else none) none = none := by
    induction ds with
    | nil => rfl
    | cons d ds ih => exact ih
  rw [Text.natOfDigits?, List.foldl_cons]
  · cases hd : Text.digitValue? c with
    | none => exact hfold cs
    | some d =>
      have hle := h d hd
      simpa [show ¬ d < 10 by omega] using hfold cs
  · simp

/-- Nothing that begins with one of these letters is a number or a word for something else. -/
theorem no_number_of_head (hc : c ∈ letters) (cs : List Char) : Yaml.Plain.isNull (c :: cs) = false ∧
    Yaml.Plain.bool? (c :: cs) = none ∧ Yaml.Plain.based? (c :: cs) = none ∧
      Decimal.Fraction.parse? (c :: cs) = none := by
  rcases eq_of_mem_letters hc with rfl | rfl | rfl | rfl | rfl | rfl | rfl | rfl | rfl <;>
    refine ⟨by simp [Yaml.Plain.isNull], by simp [Yaml.Plain.bool?], rfl, rfl⟩

theorem ne_of_mem_letters (hc : c ∈ letters) : c ≠ '+' ∧ c ≠ '-' ∧ c ≠ '.' ∧ c ≠ ' ' := by
  refine ⟨?_, ?_, ?_, ?_⟩ <;>
  · rintro rfl
    exact absurd hc (by decide)

/-- What begins with one of these letters is a string. -/
theorem value?_of_head (hc : c ∈ letters) :
    Yaml.Plain.value? (c :: cs) = some (.str (String.ofList (c :: cs))) := by
  obtain ⟨hnull, hbool, hbased, hfraction⟩ := no_number_of_head hc cs
  obtain ⟨hplus, hminus, hpoint, -⟩ := ne_of_mem_letters hc
  have hdigit : ∀ d ∈ Text.digitValue? c, 10 ≤ d := by
    have hall : letters.all fun c => (Text.digitValue? c).all (10 ≤ ·) := by decide
    have hletter := List.all_eq_true.mp hall c hc
    intro d hd
    rw [Option.mem_def.mp hd] at hletter
    simpa using hletter
  have hnumber : Text.natOfDigits? 10 (c :: cs) = none := natOfDigits?_of_head hdigit
  have hmagnitude (padded : Bool) (bound : Nat) :
      Yaml.Plain.magnitude? padded bound (c :: cs) = none := by
    simp [Yaml.Plain.magnitude?, hbased, hnumber]
  have hinteger (least greatest : Nat) :
      Yaml.Plain.intWithin? least greatest (c :: cs) = none := by
    simp [Yaml.Plain.intWithin?, hmagnitude, hplus, hminus]
  have hfloat : Yaml.Plain.float? (c :: cs) = none := by
    simp [Yaml.Plain.float?, hfraction, hplus, hminus, hpoint]
  simp [Yaml.Plain.value?, Yaml.Plain.whole, hnull, hbool, hinteger, hfloat]

/-- Whether a character is written without quotes and takes one byte. -/
def isWordChar (c : Char) : Bool :=
  isTextChar c && Outline.isPlainChar c && Yaml.isAllowed c && c ≠ ' ' && c.utf8Size = 1

theorem isWordChar_of_isDigit (h : isDigit c) : isWordChar c := Decimal.of_isDigit (by decide) h

theorem toList_numberedName (stem : String) (n : Nat) :
    (numberedName stem n).toList = stem.toList ++ decimalDigits n := by
  rw [numberedName, String.toList_append, String.toList_ofList]

theorem numberedName_injective (stem : String) : Function.Injective (numberedName stem) := by
  intro m n h
  have hlist := congrArg String.toList h
  rw [toList_numberedName, toList_numberedName, List.append_right_inj] at hlist
  exact Yaml.Value.decimalDigits_injective hlist

theorem dropStem?_append (stem rest : List Char) : Text.dropStem? stem (stem ++ rest) = some rest := by
  induction stem with
  | nil => rfl
  | cons c stem ih => rw [List.cons_append, Text.dropStem?, if_pos rfl, ih]

/-- The number of a numbered name. -/
theorem ordinal?_numberedName (stem : String) (hone : 1 ≤ n) (hlt : n < 2 ^ 64) :
    ordinal? (numberedName stem n) stem = some n := by
  have hdigits : ∀ c ∈ decimalDigits n, isDigit c := fun c => Decimal.isDigit_of_mem
  have hne : decimalDigits n ≠ [] := Decimal.decimalDigits_ne_nil
  rw [ordinal?, toList_numberedName, dropStem?_append]
  simp only [Option.bind_eq_bind, Option.bind_some, Decimal.natOfDigits?_decimalDigits]
  rw [if_neg (by simpa [hne] using hdigits)]
  exact if_pos (by simpa [hone] using hlt)

theorem ordinal?_bounds {name : String} {k : Nat} (h : ordinal? name stem = some k) :
    1 ≤ k ∧ k < 2 ^ 64 := by
  obtain ⟨ds, -, h⟩ := Option.bind_eq_some_iff.mp h
  split at h
  · cases h
  · obtain ⟨m, -, h⟩ := Option.bind_eq_some_iff.mp h
    obtain ⟨hbounds, heq⟩ := Option.ite_none_right_eq_some.mp h
    rw [← Option.some.inj heq]
    simpa using hbounds

theorem length_decimalDigits (hlt : n < 2 ^ 64) : (decimalDigits n).length ≤ 20 :=
  (Nat.length_toDigits_le_iff (by norm_num) (by norm_num)).mpr (hlt.trans (by norm_num))

theorem byteWidth_eq_length (h : ∀ c ∈ cs, c.utf8Size = 1) : Text.byteWidth cs = cs.length := by
  have hfold (start : Nat) : cs.foldl (fun n c => n + c.utf8Size) start = start + cs.length := by
    induction cs generalizing start with
    | nil => rfl
    | cons c cs ih =>
      obtain ⟨hc, hcs⟩ := List.forall_mem_cons.mp h
      rw [List.foldl_cons, ih hcs, hc, List.length_cons]
      omega
  rw [Text.byteWidth, hfold, Nat.zero_add]

/-- Words that begin with one of these letters can stand before a colon. -/
theorem isKey_word {key : String} (hkey : key.toList = c :: cs) (h : c ∈ letters)
    (hchars : ∀ x ∈ c :: cs, isWordChar x) (hwidth : (c :: cs).length ≤ 1024) : isKey key := by
  have hvalue : Yaml.Plain.value? (c :: cs) = some (.str key) := by
    rw [value?_of_head h, ← hkey, String.ofList_toList]
  simp only [isWordChar, Bool.and_eq_true, decide_eq_true_eq] at hchars
  have hall : (c :: cs).all isTextChar ∧ (c :: cs).all Outline.isPlainChar ∧
      (c :: cs).all Yaml.isAllowed := by
    simp only [List.all_eq_true]
    exact ⟨fun x hx => (hchars x hx).1.1.1.1, fun x hx => (hchars x hx).1.1.1.2,
      fun x hx => (hchars x hx).1.1.2⟩
  have hlast : (c :: cs).getLast? ≠ some ' ' := fun heq =>
    (hchars ' ' (List.mem_of_getLast? heq)).1.2 rfl
  have hbytes : Text.byteWidth (c :: cs) ≤ 1024 := by
    rw [byteWidth_eq_length fun x hx => (hchars x hx).2]
    exact hwidth
  have hne : c ≠ ' ' ∧ c ≠ '-' ∧ c ≠ '.' ∧ Yaml.Scanner.isIndicator c = false := by
    rcases eq_of_mem_letters h with rfl | rfl | rfl | rfl | rfl | rfl | rfl | rfl | rfl <;> decide
  have htext : isPlainText (c :: cs) := by
    simp [isPlainText, hne, hall, hlast, hvalue]
  have hload := load?_leaf (l := .plain (c :: cs)) htext
  rw [Leaf.text, Leaf.value, hvalue, Option.getD_some] at hload
  have hstr : (Yaml.Value.str key).isStr key = true := by simp [Yaml.Value.isStr]
  have hplain : Outline.isPlain (c :: cs) := by
    rw [Outline.isPlain, hload, hall.2.1, Option.any_some, ← hkey, String.ofList_toList, hstr, hkey]
    simp [hne, hlast]
  rw [isKey, hkey, hplain, hall.2.2, hvalue, Option.any_some, hstr]
  simp [hne, hbytes]

/-- Whether a stem with any number behind it can stand before a colon. -/
def isKeyStem (stem : String) : Bool :=
  (stem.toList.head?.any fun c => letters.contains c) && stem.toList.all isWordChar &&
    decide (stem.toList.length ≤ 1000)

theorem exists_of_isKeyStem (h : isKeyStem stem) : ∃ c rest, stem.toList = c :: rest ∧ c ∈ letters ∧
    (∀ x ∈ c :: rest, isWordChar x) ∧ (c :: rest).length ≤ 1000 := by
  simp only [isKeyStem, Bool.and_eq_true, Option.any_eq_true, List.contains_eq_mem,
    decide_eq_true_eq, List.all_eq_true] at h
  obtain ⟨⟨⟨c, hhead, hc⟩, hchars⟩, hshort⟩ := h
  obtain ⟨rest, hlist⟩ := List.head?_eq_some_iff.mp hhead
  rw [hlist] at hchars hshort
  exact ⟨c, rest, hlist, hc, hchars, hshort⟩

theorem isKey_of_isKeyStem (hstem : isKeyStem stem) : isKey stem := by
  obtain ⟨c, rest, hlist, hc, hchars, hshort⟩ := exists_of_isKeyStem hstem
  exact isKey_word hlist hc hchars (hshort.trans (by norm_num))

theorem isKey_numbered (hstem : isKeyStem stem) (hlt : n < 2 ^ 64) : isKey (numberedName stem n) := by
  obtain ⟨c, rest, hlist, hc, hchars, hshort⟩ := exists_of_isKeyStem hstem
  have hcons : (numberedName stem n).toList = c :: (rest ++ decimalDigits n) := by
    rw [toList_numberedName, hlist, List.cons_append]
  refine isKey_word hcons hc ?_ ?_
  · rw [← List.cons_append, List.forall_mem_append]
    exact ⟨hchars, fun x hx => isWordChar_of_isDigit (Decimal.isDigit_of_mem hx)⟩
  · have hdigits := length_decimalDigits hlt
    rw [← List.cons_append, List.length_append]
    omega

theorem isKey_numberedName (hstem : stem ∈ stems) (hlt : n < 2 ^ 64) :
    isKey (numberedName stem n) := by
  have hall : stems.all isKeyStem := by decide
  exact isKey_numbered (List.all_eq_true.mp hall stem hstem) hlt

/-- Numbered names are told apart from other keys by the letter they begin with. -/
theorem numberedName_ne {key : String} (hstem : stem ∈ stems)
    (hkey : initials.all fun c => key.toList.head? ≠ some c) : numberedName stem n ≠ key := by
  rintro rfl
  have hall : stems.all fun stem => stem.toList.head?.any fun c => initials.contains c := by decide
  obtain ⟨c, hhead, hc⟩ := (Option.any_eq_true _ _).mp (List.all_eq_true.mp hall stem hstem)
  obtain ⟨rest, hlist⟩ := List.head?_eq_some_iff.mp hhead
  have hne := List.all_eq_true.mp hkey c (by simpa using hc)
  simp [toList_numberedName, hlist] at hne

end Form

namespace Slot

variable {s : Slot} {g : Form} {es₁ es₂ : List (String × Form)} {k k' : String}

/-- An entry gets another key. -/
theorem renameKey_fill (hes : Form.entriesSound (es₁ ++ (k, g) :: es₂)) (hk' : Form.isKey k') :
    (s.fill (.map (es₁ ++ (k, g) :: es₂))).renameKey
      (s.line + 1 + (Form.mappingLines es₁).length) k' = s.fill (.map (es₁ ++ (k', g) :: es₂)) := by
  obtain ⟨-, hk, hg, h₂⟩ := sound_entry hes
  have hhead (t : Slot) : (if ((t.fill g).value t.line).isEmpty
      then Outline.renderString k' ++ [':']
      else Outline.keyed (Outline.renderString k') ((t.fill g).value t.line)) =
        Form.headLine k' g := by
    rw [value_fill hg, Form.renderString_of_isKey hk']
    cases g with
    | leaf l => rw [if_neg (by simpa [Form.written] using text_ne_nil hg)]; rfl
    | _ => rfl
  let t := s.inner es₁ es₂ k hk h₂
  let t' := s.inner es₁ es₂ k' hk' h₂
  have hlines : (t.fill g).lines.set t.line ((Form.headLine k' g).deeper t.column) =
      (t'.fill g).lines := by
    rw [lines_fill, lines_fill, line, List.set_append_right _ _ le_rfl, Nat.sub_self]
    rfl
  rw [← fill_inner hk h₂, ← fill_inner hk' h₂, ← line_inner hk h₂, Outline.renameKey]
  simp only [isItem_fill, Bool.false_eq_true, if_false, List.nil_append, depth_fill, hhead]
  rw [Outline.setLine, hlines]
  rfl

end Slot

namespace Form

open Scene (block isSound_block)

variable {fs fs₁ fs₂ xs xs' : List (String × Form)} {n : NodeDef} {owner key k k' : String}
  {ins ins' : Inputs} {e : InputExpr}

/-- What an input is called matters for messages only. -/
theorem loadValue_key {v : Yaml.Value} (h : Document.loadValue owner k v = .ok e) (k' : String) :
    Document.loadValue owner k' v = .ok e := by
  cases v with
  | map vs =>
    have hid (id : Option String) (h : Document.inlineId owner k vs = .ok id) :
        Document.inlineId owner k' vs = .ok id := by
      unfold Document.inlineId at h ⊢
      split at h
      · exact h
      · exact h
      · cases h
    rw [Document.loadValue] at h ⊢
    split at h
    · exact h
    · split at h
      · exact h
      · cases h
      · split at h
        · exact h
        · cases h
        · split at h
          · exact h
          · cases h
          · split at h
            · obtain ⟨id, hk, h⟩ := bind_eq_ok.mp h
              exact bind_eq_ok.mpr ⟨id, hid id hk, h⟩
            · cases h
            · cases h
  | seq items => cases h
  | _ => exact h

/-- The inputs of a node that has some stand in a block of their own. With other entries in it, the
node has other inputs. -/
theorem Loads.exists_inputs (h : Loads fs n) (hplain : PlainInputs fs) (hne : n.inputs ≠ []) :
    ∃ fs₁ xs fs₂, fs = fs₁ ++ ("inputs", .map xs) :: fs₂ ∧ "inputs" ∉ fs₁.map (·.1) ∧
      entriesSound xs ∧ (xs.map (·.1)).Nodup ∧ (Form.map xs).callsPlain ∧
      Document.loadInputs n.id (entryValues xs) = .ok n.inputs ∧
      ∀ xs' ins', entriesSound xs' → (xs'.map (·.1)).Nodup → (Form.map xs').callsPlain →
        Document.loadInputs n.id (entryValues xs') = .ok ins' →
          Loads (fs₁ ++ ("inputs", block xs') :: fs₂) { n with inputs := ins' } ∧
            PlainInputs (fs₁ ++ ("inputs", block xs') :: fs₂) := by
  obtain ⟨-, -, -, hinputs, -⟩ := Document.loadNode_map_eq_ok.mp h.load
  obtain ⟨xs, hfirst, hload⟩ := exists_map_of_loadSection hinputs hne
  obtain ⟨fs₁, fs₂, rfl, h₁⟩ := exists_split_of_firstOf? hfirst
  obtain ⟨hsound₁, hkey, hmap, hsound₂⟩ := Slot.sound_entry h.sound
  obtain ⟨-, hkeys, hxs⟩ := isSound_map.mp hmap
  refine ⟨fs₁, xs, fs₂, rfl, h₁, hxs, hkeys, hplain _ (firstOf?_append h₁), hload, ?_⟩
  intro xs' ins' hxs' hkeys' hcalls hload'
  have hsection : Document.loadSection n.id "inputs"
      (entryValues (fs₁ ++ ("inputs", block xs') :: fs₂)) = .ok ins' := by
    rw [Document.loadSection_eq_lookup, lookup_entryValues, firstOf?_append h₁, block]
    by_cases hnil : xs' = []
    · subst hnil
      cases hload'
      rfl
    · rw [if_neg hnil]
      exact hload'
  have hbeside : Beside "inputs" (fs₁ ++ ("inputs", .map xs) :: fs₂)
      (fs₁ ++ ("inputs", block xs') :: fs₂) := fun k hk => Slot.firstOf?_replace hk
  refine ⟨h.of_inputs ?_ (by simpa using h.nodup) hbeside hsection, fun g hg => ?_⟩
  · exact entriesSound_append.mpr ⟨hsound₁,
      entriesSound_cons.mpr ⟨hkey, isSound_block hxs' hkeys', hsound₂⟩⟩
  · rw [firstOf?_append h₁, Option.some.injEq] at hg
    rw [← hg, block]
    split
    · rfl
    · exact hcalls

end Form

namespace InputExpr

variable {key k' : String} {e : InputExpr} {ins ins₁ ins₂ : Inputs}

/-- Inputs without the one of a name. -/
def dropInput (key : String) (ins : Inputs) : Inputs := ins.filter fun i => i.1 ≠ key

/-- Inputs of which one has another name. -/
def renameInput (key k' : String) (ins : Inputs) : Inputs :=
  ins.map fun i => if i.1 = key then (k', i.2) else i

theorem dropInput_of_not_mem (h : key ∉ ins.map (·.1)) : dropInput key ins = ins := by
  refine List.filter_eq_self.mpr fun i hi => ?_
  have hne : i.1 ≠ key := fun heq => h (heq ▸ List.mem_map_of_mem hi)
  simpa using hne

variable (h : key ∉ ins₁.map (·.1) ∧ key ∉ ins₂.map (·.1))

include h

theorem dropInput_append : dropInput key (ins₁ ++ (key, e) :: ins₂) = ins₁ ++ ins₂ := by
  have h₁ := dropInput_of_not_mem h.1
  have h₂ := dropInput_of_not_mem h.2
  rw [dropInput] at h₁ h₂ ⊢
  rw [List.filter_append, List.filter_cons_of_neg (by simp), h₁, h₂]

theorem renameInput_append :
    renameInput key k' (ins₁ ++ (key, e) :: ins₂) = ins₁ ++ (k', e) :: ins₂ := map_ite_middle rfl h

end InputExpr

namespace Slot

open Form (Loads PlainInputs)

variable {s : Slot} {fs : List (String × Form)} {n : NodeDef} {key k' : String}
  (h : Loads fs n) (hplain : PlainInputs fs) (hkey : key ∈ n.inputs.map (·.1))

include h hplain hkey

/-- The node that is read once an input is left out. -/
theorem dropInput_fill : ∃ block fs', (s.fill (.map fs)).find? s.line "inputs" = some block ∧
    (s.fill (.map fs)).removeEntry block key = s.fill (.map fs') ∧
    Loads fs' { n with inputs := InputExpr.dropInput key n.inputs } ∧ PlainInputs fs' := by
  have hne : n.inputs ≠ [] := fun hnil => by simp [hnil] at hkey
  obtain ⟨fs₁, xs, fs₂, rfl, h₁, hxs, hkeys, hcalls, hload, hreplace⟩ := h.exists_inputs hplain hne
  obtain ⟨⟨key, e⟩, hmem, rfl⟩ := List.mem_map.mp hkey
  obtain ⟨xs₁, g, xs₂, ins₁, ins₂, rfl, hins, hfront, hback, hl₁, -, hl₂⟩ :=
    Form.exists_split_of_loadInputs hload hkeys hmem
  obtain ⟨-, hc, -, hsound₂⟩ := sound_entry h.sound
  obtain ⟨hx₁, -, -, hx₂⟩ := sound_entry hxs
  let t := s.inner fs₁ fs₂ "inputs" hc hsound₂
  have hremove := removeEntry_fill (s := t) (k := key) hxs hkeys
  have hfill : t.fill (Scene.block (xs₁ ++ xs₂)) = t.fill (.map (xs₁ ++ xs₂)) := Scene.fill_block
  rw [Form.erase_append hfront.1 hfront.2, ← hfill, fill_inner, fill_inner, line_inner] at hremove
  refine ⟨_, _, find?_fill_append h.sound h₁, hremove, ?_⟩
  rw [hins, InputExpr.dropInput_append hback]
  apply hreplace
  · exact Form.entriesSound_append.mpr ⟨hx₁, hx₂⟩
  · rw [List.map_append, List.map_cons] at hkeys
    rw [List.map_append]
    exact (List.nodup_middle.mp hkeys).of_cons
  · rw [Form.callsPlain_map] at hcalls ⊢
    simp only [List.map_append, List.map_cons, List.mem_append, List.mem_cons] at hcalls ⊢
    refine ⟨fun hcall hinputs => ?_, fun x hx => hcalls.2 x ?_⟩
    · exact hcalls.1 (hcall.imp_right .inr) (hinputs.imp_right .inr)
    · exact hx.imp_right .inr
  · exact Form.loadInputs_append hl₁ hl₂

/-- The node that is read once an input has another name. -/
theorem renameInput_fill (hk' : Form.isKey k') (hnew : k' ∉ n.inputs.map (·.1))
    (hcall : k' ≠ "workflow_call") (hother : k' ≠ "inputs") : ∃ block entry fs',
      (s.fill (.map fs)).find? s.line "inputs" = some block ∧
      (s.fill (.map fs)).find? block key = some entry ∧
      (s.fill (.map fs)).renameKey entry k' = s.fill (.map fs') ∧
      Loads fs' { n with inputs := InputExpr.renameInput key k' n.inputs } ∧ PlainInputs fs' := by
  have hne : n.inputs ≠ [] := fun hnil => by simp [hnil] at hkey
  obtain ⟨fs₁, xs, fs₂, rfl, h₁, hxs, hkeys, hcalls, hload, hreplace⟩ := h.exists_inputs hplain hne
  obtain ⟨⟨key, e⟩, hmem, rfl⟩ := List.mem_map.mp hkey
  obtain ⟨xs₁, g, xs₂, ins₁, ins₂, rfl, hins, hfront, hback, hl₁, hg, hl₂⟩ :=
    Form.exists_split_of_loadInputs hload hkeys hmem
  obtain ⟨-, hc, -, hsound₂⟩ := sound_entry h.sound
  obtain ⟨hx₁, -, hgSound, hx₂⟩ := sound_entry hxs
  let t := s.inner fs₁ fs₂ "inputs" hc hsound₂
  have hfind := find?_fill_append (s := t) hxs hfront.1
  have hrename := renameKey_fill (s := t) hxs hk'
  have hblock : Scene.block (xs₁ ++ (k', g) :: xs₂) = .map (xs₁ ++ (k', g) :: xs₂) :=
    if_neg (by simp)
  rw [← hblock, fill_inner, fill_inner] at hrename
  rw [fill_inner] at hfind
  refine ⟨t.line, _, _, ?_, hfind, hrename, ?_⟩
  · rw [line_inner]
    exact find?_fill_append h.sound h₁
  rw [Form.keys_of_loadInputs hload] at hnew
  simp only [List.map_append, List.map_cons, List.mem_append, List.mem_cons, not_or] at hnew
  rw [hins, InputExpr.renameInput_append hback]
  apply hreplace
  · exact Form.entriesSound_append.mpr ⟨hx₁, Form.entriesSound_cons.mpr ⟨hk', hgSound, hx₂⟩⟩
  · rw [List.map_append, List.map_cons, List.nodup_middle, List.nodup_cons] at hkeys ⊢
    rw [List.mem_append, not_or]
    exact ⟨⟨hnew.1, hnew.2.2⟩, hkeys.2⟩
  · rw [Form.callsPlain_map] at hcalls ⊢
    simp only [List.map_append, List.map_cons, List.mem_append, List.mem_cons] at hcalls ⊢
    refine ⟨fun hmem hinputs => ?_, fun x hx => ?_⟩
    · have hmem := hmem.imp_right (·.resolve_left (Ne.symm hcall))
      have hinputs := hinputs.imp_right (·.resolve_left (Ne.symm hother))
      exact hcalls.1 (hmem.imp_right .inr) (hinputs.imp_right .inr)
    · rcases hx with hx | rfl | hx
      · exact hcalls.2 x (.inl hx)
      · exact hcalls.2 (key, g) (.inr (.inl rfl))
      · exact hcalls.2 x (.inr (.inr hx))
  · exact Form.loadInputs_append hl₁ (Form.loadInputs_cons (Form.loadValue_key hg k') hl₂)

end Slot

end BlockFlow

import BlockFlow.Outline.Change
import BlockFlow.Edit.Variables
import Mathlib.Data.List.TakeWhile

/-!
What single lines say when they are moved, or written anew. Main statement: the key of a line that
is written is read back as that key.
-/

namespace BlockFlow

namespace Text

variable {c : Char} {cs ds es mark : List Char}

/-- The code points of the white space characters. -/
def blankCodes : List Nat :=
  [9, 10, 11, 12, 13, 0x20, 0x85, 0xA0, 0x1680, 0x2000, 0x2001, 0x2002, 0x2003, 0x2004, 0x2005,
    0x2006, 0x2007, 0x2008, 0x2009, 0x200A, 0x2028, 0x2029, 0x202F, 0x205F, 0x3000]

theorem toNat_mem_blankCodes (h : isBlank c) : c.toNat ∈ blankCodes := by
  simp only [isBlank, Bool.or_eq_true, Bool.and_eq_true, decide_eq_true_eq, beq_iff_eq] at h
  simp only [blankCodes, List.mem_cons, List.not_mem_nil, or_false]
  omega

theorem not_isBlank_of_isAlphanumeric (h : isAlphanumeric c) : isBlank c = false := by
  by_contra hblank
  have hnone : ∀ n ∈ blankCodes, inRanges n alphanumericRanges = false := by
    decide +kernel
  rw [isAlphanumeric, hnone _ (toNat_mem_blankCodes (by simpa using hblank))] at h
  cases h

theorem isBlank_space : isBlank ' ' = true := by decide

theorem trimStart_spaces (n : Nat) (cs : List Char) :
    trimStart (spaces n ++ cs) = trimStart cs := by
  induction n with
  | zero => rfl
  | succ n ih =>
    rw [spaces, List.replicate_succ, List.cons_append, trimStart,
      List.dropWhile_cons_of_pos isBlank_space]
    exact ih

theorem takeWhile_spaces (n : Nat) (cs : List Char) :
    (spaces n ++ cs).takeWhile isBlank = spaces n ++ cs.takeWhile isBlank := by
  induction n with
  | zero => rfl
  | succ n ih =>
    rw [spaces, List.replicate_succ, List.cons_append, List.takeWhile_cons_of_pos isBlank_space,
      List.cons_append]
    exact congrArg _ ih

theorem byteWidth_append (cs ds : List Char) :
    byteWidth (cs ++ ds) = byteWidth cs + byteWidth ds := by
  have hfold (n : Nat) (cs : List Char) :
      cs.foldl (fun n c => n + c.utf8Size) n = n + byteWidth cs := by
    rw [byteWidth]
    induction cs generalizing n with
    | nil => rfl
    | cons c cs ih =>
      rw [List.foldl_cons, List.foldl_cons, ih, ih (0 + c.utf8Size)]
      omega
  rw [byteWidth, List.foldl_append, hfold]
  rfl

theorem byteWidth_spaces (n : Nat) : byteWidth (spaces n) = n := by
  induction n with
  | zero => rfl
  | succ n ih =>
    have hcons : spaces (n + 1) = [' '] ++ spaces n := rfl
    rw [hcons, byteWidth_append, ih, Nat.add_comm]
    rfl

theorem trimStart_eq_nil (h : trim cs = []) : trimStart cs = [] := by
  rw [trim, trimEnd, List.reverse_eq_nil_iff, List.dropWhile_eq_nil_iff] at h
  have hall : ∀ c ∈ trimStart cs, isBlank c = true := fun c hc => h c (List.mem_reverse.mpr hc)
  by_contra hne
  have hblank : isBlank ((cs.dropWhile isBlank).head hne) = true := hall _ (List.head_mem hne)
  rw [List.head_dropWhile_not isBlank hne] at hblank
  cases hblank

theorem trimStart_of_head (h : ∀ c ∈ cs.head?, isBlank c = false) : trimStart cs = cs := by
  cases cs with
  | nil => rfl
  | cons c cs => exact List.dropWhile_cons_of_neg (by simp [h c rfl])

theorem trimEnd_of_last (h : ∀ c ∈ cs.getLast?, isBlank c = false) : trimEnd cs = cs := by
  have hdrop : trimStart cs.reverse = cs.reverse :=
    trimStart_of_head (by simpa using h)
  rw [trimEnd, show cs.reverse.dropWhile isBlank = cs.reverse from hdrop, List.reverse_reverse]

/-- What is split is the text before the mark, the mark and the text after it. -/
theorem splitFirst?_eq (h : splitFirst? mark cs = some (ds, es)) : cs = ds ++ mark ++ es := by
  induction cs generalizing ds with
  | nil =>
    rw [splitFirst?] at h
    split at h
    · rename_i hmark
      cases h
      simpa using hmark
    · cases h
  | cons c cs ih =>
    rw [splitFirst?] at h
    split at h
    · rename_i hmark
      cases h
      obtain ⟨rest, hrest⟩ := List.isPrefixOf_iff_prefix.mp hmark
      rw [← hrest]
      simp
    · obtain ⟨⟨before, after⟩, hsplit, heq⟩ := Option.map_eq_some_iff.mp h
      cases heq
      rw [ih hsplit]
      rfl

/-- A text is split at the first place where the mark can begin. -/
theorem splitFirst?_of_not_mem {m : Char} (h : m ∉ ds) :
    splitFirst? (m :: mark) (ds ++ m :: mark ++ es) = some (ds, es) := by
  induction ds with
  | nil =>
    rw [List.nil_append, List.cons_append, splitFirst?, if_pos]
    · simp
    · exact List.isPrefixOf_iff_prefix.mpr (List.prefix_append _ _)
  | cons c ds ih =>
    simp only [List.mem_cons, not_or] at h
    rw [List.cons_append, List.cons_append, splitFirst?, if_neg]
    · rw [ih h.2]
      rfl
    · rw [List.isPrefixOf_iff_prefix]
      intro hpre
      exact h.1 (List.cons_prefix_cons.mp hpre).1

end Text

namespace Line

variable {l : Line} {n d : Nat}

/-- A line with content stands deeper than `n`. -/
def DeeperThan (n : Nat) (l : Line) : Prop := ∀ d, l.indent? = some d → n < d

theorem indent?_of_trimStart (h : Text.trimStart l = []) : l.indent? = none := by
  rw [indent?, h]

theorem deeperThan_of_indent? (h : l.indent? = none) : l.DeeperThan n := by
  intro d hd
  rw [h] at hd
  cases hd

theorem indent?_deeper (d : Nat) (l : Line) : (deeper d l).indent? = l.indent?.map (d + ·) := by
  unfold indent? deeper
  rw [Text.trimStart_spaces, Text.takeWhile_spaces, Text.byteWidth_append, Text.byteWidth_spaces]
  split <;> rfl

theorem isItem_deeper (d : Nat) (l : Line) : (deeper d l).isItem = l.isItem := by
  rw [isItem, deeper, Text.trimStart_spaces, isItem]

theorem key?_deeper (d : Nat) (l : Line) : (deeper d l).key? = l.key? := by
  rw [key?, deeper, Text.trimStart_spaces, key?]

theorem deeperThan_deeper (h : n < d) : (deeper d l).DeeperThan n := by
  intro k hk
  rw [indent?_deeper] at hk
  obtain ⟨m, -, rfl⟩ := Option.map_eq_some_iff.mp hk
  omega

theorem deeperThan_indentAll {ls : List Line} (h : n < d) :
    ∀ l ∈ indentAll d ls, DeeperThan n l := by
  intro l hl
  obtain ⟨m, -, rfl⟩ := List.mem_map.mp hl
  split
  · rename_i hempty
    rw [List.isEmpty_iff.mp hempty]
    exact deeperThan_of_indent? rfl
  · exact deeperThan_deeper h

/-- A line with a key is no item. -/
theorem not_isItem_of_key? {key : Line} (h : l.key? = some key) : l.isItem = false := by
  obtain ⟨p, hp, -⟩ := Option.map_eq_some_iff.mp h
  unfold isItem
  by_contra hitem
  rw [Bool.not_eq_false] at hitem
  unfold startsItem at hitem
  split at hitem
  · rename_i heq
    rw [heq] at hp
    simp [pair?, startsItem] at hp
  · rename_i heq
    rw [heq] at hp
    simp [pair?, startsItem] at hp
  · cases hitem

theorem indent?_of_key? {key : Line} (h : l.key? = some key) : ∃ d, l.indent? = some d := by
  obtain ⟨p, hp, -⟩ := Option.map_eq_some_iff.mp h
  unfold indent?
  split
  · rename_i heq
    rw [heq] at hp
    simp [pair?] at hp
  · rename_i heq
    rw [heq] at hp
    simp [pair?] at hp
  · exact ⟨_, rfl⟩

end Line

namespace Outline

open Text

variable {c : Char} {key text name rest : Line} {d : Nat}

theorem isPlainChar_special : ∀ c ∈ ['"', '\'', '{', '[', '#', ':'], isPlainChar c = false := by
  have hall : (['"', '\'', '{', '[', '#', ':'].all fun c => !isPlainChar c) = true := by
    decide +kernel
  simpa only [List.all_eq_true, Bool.not_eq_true'] using hall

theorem not_isBlank_of_isPlainChar (h : isPlainChar c) (hc : c ≠ ' ') : isBlank c = false := by
  simp only [isPlainChar, Bool.or_eq_true, decide_eq_true_eq] at h
  rcases h with (((((halpha | rfl) | rfl) | rfl) | rfl) | rfl)
  · exact not_isBlank_of_isAlphanumeric halpha
  all_goals first | rfl | exact absurd rfl hc

/-- What a key needs to be written without quotes. -/
structure PlainKey (key : Line) : Prop where
  nonempty : key ≠ []
  chars : ∀ c ∈ key, isPlainChar c
  first : key.head? ≠ some ' '
  dash : key.head? ≠ some '-'
  last : key.getLast? ≠ some ' '

theorem plainKey_of_isPlain (h : isPlain key) : PlainKey key := by
  simp only [isPlain, Bool.and_eq_true, Bool.not_eq_true', List.isEmpty_eq_false_iff,
    decide_eq_true_eq, List.all_eq_true] at h
  obtain ⟨⟨⟨⟨⟨hne, hfirst⟩, hdash⟩, hlast⟩, hall⟩, -⟩ := h
  exact ⟨hne, hall, hfirst, hdash, hlast⟩

theorem PlainKey.not_mem (h : PlainKey key) (hc : isPlainChar c = false) : c ∉ key := by
  intro hmem
  rw [h.chars c hmem] at hc
  cases hc

/-- A key without quotes is read back as it is. -/
theorem PlainKey.pair? (h : PlainKey key) :
    Line.pair? (keyed key text) = some (key, trim text) := by
  have hcolon : ':' ∉ key := h.not_mem (isPlainChar_special _ (by simp))
  have hsplit : Line.splitColon? (keyed key text) = some (key, text) := by
    have hfirst : splitFirst? [':', ' '] (key ++ [':', ' '] ++ text) = some (key, text) :=
      splitFirst?_of_not_mem hcolon
    rw [Line.splitColon?, keyed]
    simp only [List.append_assoc, List.cons_append, List.nil_append] at hfirst
    rw [hfirst]
  have hlast : trimEnd key = key := by
    refine trimEnd_of_last fun c hc => ?_
    refine not_isBlank_of_isPlainChar (h.chars c (List.mem_of_getLast? hc)) fun heq => ?_
    exact h.last (heq ▸ hc)
  obtain ⟨c, rest, hkey⟩ := List.exists_cons_of_ne_nil h.nonempty
  have hmem : c ∈ key := by simp [hkey]
  have hspecial : ∀ x ∈ ['"', '\'', '{', '[', '#', ':'], c ≠ x := by
    intro x hx heq
    exact h.not_mem (isPlainChar_special x hx) (heq ▸ hmem)
  have hdash : c ≠ '-' := by
    intro heq
    exact h.dash (by rw [hkey, heq, List.head?_cons])
  have hstart : keyed key text = c :: (rest ++ ':' :: ' ' :: text) := by
    rw [keyed, hkey, List.cons_append]
  have hitem : Line.startsItem (keyed key text) = false := by
    rw [hstart]
    unfold Line.startsItem
    split <;> simp_all
  unfold Line.pair?
  split
  · rename_i heq
    simp [hstart] at heq
  all_goals try
    rename_i heq
    rw [hstart, List.cons.injEq] at heq
    exact absurd heq.1 (hspecial _ (by simp))
  rw [hitem, hsplit]
  simp [hlast, h.nonempty]

theorem PlainKey.trimStart (h : PlainKey key) :
    Text.trimStart (keyed key text) = keyed key text := by
  refine trimStart_of_head fun c hc => ?_
  obtain ⟨k, rest, hkey⟩ := List.exists_cons_of_ne_nil h.nonempty
  have hck : k = c := by simpa [keyed, hkey] using hc
  subst hck
  refine not_isBlank_of_isPlainChar (h.chars k (by simp [hkey])) fun heq => ?_
  exact h.first (by rw [hkey, heq, List.head?_cons])

theorem PlainKey.key? (h : PlainKey key) : (keyed key text).key? = some key := by
  rw [Line.key?, h.trimStart, h.pair?]
  rfl

theorem encodeChar_cases (c : Char) : (Quoted.encodeChar c = [c] ∧ c ≠ '"') ∨
    ∃ rest, Quoted.encodeChar c = '\\' :: rest := by
  unfold Quoted.encodeChar
  split_ifs with h
  all_goals first | exact .inr ⟨_, rfl⟩ | exact .inl ⟨rfl, h⟩

/-- A word without quotes and escapes stands for itself between quotes. -/
theorem eq_of_encode (hname : ∀ c ∈ name, c ≠ '"' ∧ c ≠ '\\')
    (h : key.flatMap Quoted.encodeChar ++ '"' :: text = name ++ '"' :: rest) : key = name := by
  induction key generalizing name with
  | nil =>
    cases name with
    | nil => rfl
    | cons n name => exact absurd (List.cons.inj h).1.symm (hname n (by simp)).1
  | cons c key ih =>
    rw [List.flatMap_cons, List.append_assoc] at h
    rcases encodeChar_cases c with ⟨hc, hquote⟩ | ⟨escape, hc⟩
    · rw [hc] at h
      cases name with
      | nil => exact absurd (List.cons.inj h).1 hquote
      | cons n name =>
        obtain ⟨rfl, hrest⟩ := List.cons.inj h
        rw [ih (fun x hx => hname x (List.mem_cons_of_mem _ hx)) hrest]
    · rw [hc] at h
      cases name with
      | nil => exact absurd (List.cons.inj h).1 (by decide)
      | cons n name => exact absurd (List.cons.inj h).1.symm (hname n (by simp)).2

theorem pair?_quoted (key text : Line) : (keyed (Quoted.encode key) text).key? =
    (Line.quotedPair? '"' (key.flatMap Quoted.encodeChar ++ '"' :: ':' :: ' ' :: text)).map
      (·.1) := by
  have hline : keyed (Quoted.encode key) text =
      '"' :: (key.flatMap Quoted.encodeChar ++ '"' :: ':' :: ' ' :: text) := by
    simp [keyed, Quoted.encode]
  have hstart : Text.trimStart (keyed (Quoted.encode key) text) =
      keyed (Quoted.encode key) text := by
    refine Text.trimStart_of_head fun c hc => ?_
    rw [hline, List.head?_cons] at hc
    cases hc
    rfl
  rw [Line.key?, hstart, hline, Line.pair?]

/-- The key of a line that was written is the word it is read as. -/
theorem key?_keyed_renderChars (hname : (name.all fun c => c ≠ '"' && c ≠ '\\') = true)
    (h : (keyed (renderChars key) text).key? = some name) : key = name := by
  unfold renderChars at h
  split at h
  · rename_i hplain
    rw [(plainKey_of_isPlain hplain).key?] at h
    exact Option.some.inj h
  · rw [pair?_quoted] at h
    obtain ⟨⟨k, v⟩, hpair, rfl⟩ := Option.map_eq_some_iff.mp h
    obtain ⟨⟨k', after⟩, hsplit, hvalue⟩ := Option.bind_eq_some_iff.mp hpair
    obtain ⟨value, -, heq⟩ := Option.bind_eq_some_iff.mp hvalue
    cases heq
    have hwhole := splitFirst?_eq hsplit
    rw [List.append_assoc, List.singleton_append] at hwhole
    exact eq_of_encode (by simpa using hname) hwhole

theorem indent?_of_head {cs : Line} (hblank : isBlank c = false) (hc : c ≠ '#') :
    Line.indent? (c :: cs) = some 0 := by
  have hstart : Text.trimStart (c :: cs) = c :: cs := trimStart_of_head (by simpa using hblank)
  unfold Line.indent?
  rw [hstart, List.takeWhile_cons_of_neg (by simp [hblank])]
  split
  · rename_i heq
    cases heq
  · rename_i heq
    exact absurd (List.cons.inj heq).1 hc
  · rfl

/-- A line that is written begins with its key. -/
theorem indent?_renderChars (key text : Line) : (renderChars key ++ text).indent? = some 0 := by
  unfold renderChars
  split
  · rename_i hplain
    have h := plainKey_of_isPlain hplain
    obtain ⟨c, rest, hkey⟩ := List.exists_cons_of_ne_nil h.nonempty
    have hmem : c ∈ key := by simp [hkey]
    have hspace : c ≠ ' ' := fun heq => h.first (by rw [hkey, heq, List.head?_cons])
    rw [hkey, List.cons_append]
    refine indent?_of_head (not_isBlank_of_isPlainChar (h.chars c hmem) hspace) fun heq => ?_
    exact h.not_mem (isPlainChar_special '#' (by simp)) (heq ▸ hmem)
  · exact indent?_of_head rfl (by decide)

end Outline

namespace Line

variable {old new : String} {l : Line} {n : Nat}

/-- The line of the entry `name` of an item at depth `base`. -/
def isTitle (base : Nat) (l : Line) : Bool :=
  l.indent? = some (base + 2) && !l.isItem && l.key? = some "name".toList

theorem isTitle_iff {base : Nat} : l.isTitle base ↔
    l.indent? = some (base + 2) ∧ l.isItem = false ∧ l.key? = some "name".toList := by
  simp [isTitle, and_assoc]

/-- Renaming a variable writes a line anew, at its depth and with its key, or leaves it. -/
theorem renameVariable_cases (old new : String) (l : Line) : l.renameVariable old new = l ∨
    ∃ d key text, l.indent? = some d ∧ l.key? = some key ∧
      l.renameVariable old new = deeper d (Outline.keyed (Outline.renderChars key) text) := by
  have hvariable : Outline.renderChars "variable".toList = "variable".toList := by decide +kernel
  unfold renameVariable
  split
  · exact .inl rfl
  · rename_i key hkey
    obtain ⟨d, hd⟩ := indent?_of_key? hkey
    split
    · rename_i hname
      split
      · refine .inr ⟨d, key, Outline.renderString new, hd, hkey, ?_⟩
        rw [hname, hvariable, hd, Option.getD_some]
      · exact .inl rfl
    · split
      · split
        · rw [hd, Option.getD_some]
          exact .inr ⟨d, key, _, rfl, hkey, rfl⟩
        · exact .inl rfl
      · exact .inl rfl

theorem deeperThan_renameVariable (h : l.DeeperThan n) :
    (l.renameVariable old new).DeeperThan n := by
  rcases renameVariable_cases old new l with heq | ⟨d, key, text, hd, -, heq⟩
  · rwa [heq]
  · rw [heq]
    exact deeperThan_deeper (h d hd)

theorem isTitle_of_renameVariable {base : Nat} (h : (l.renameVariable old new).isTitle base) :
    l.isTitle base := by
  rcases renameVariable_cases old new l with heq | ⟨d, key, text, hd, hkey, heq⟩
  · rwa [heq] at h
  · rw [heq, isTitle_iff, indent?_deeper, key?_deeper, Outline.keyed,
      Outline.indent?_renderChars] at h
    obtain ⟨hindent, -, hname⟩ := h
    have hd' : d = base + 2 := by simpa using hindent
    have hk := Outline.key?_keyed_renderChars (by decide) hname
    exact isTitle_iff.mpr ⟨hd' ▸ hd, not_isItem_of_key? hkey, hk ▸ hkey⟩

theorem renameVariable_of_key?_none (h : l.key? = none) : l.renameVariable old new = l := by
  rw [renameVariable, h]

/-- The line of a name stays unless a mapping is written behind it. -/
theorem renameVariable_of_isTitle {base : Nat} (h : l.isTitle base)
    (hflow : l.flowMapping? = none) : l.renameVariable old new = l := by
  rw [renameVariable, (isTitle_iff.mp h).2.2]
  simp only [hflow]
  rw [if_neg (by decide)]

theorem key?_of_isItem (h : l.isItem) : l.key? = none := by
  cases hkey : l.key? with
  | none => rfl
  | some key =>
    rw [not_isItem_of_key? hkey] at h
    cases h

end Line

end BlockFlow

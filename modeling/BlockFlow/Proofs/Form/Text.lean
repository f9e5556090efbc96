import BlockFlow.Outline.Basic
import BlockFlow.Proofs.Form.Scan
import BlockFlow.Proofs.Text.Lines

/-!
The text of a written value. Main statements: its lines are those of the form, and its tokens are
those of the form.
-/

namespace BlockFlow.Form

open Yaml Yaml.Scanner

/-- The text of a form, all of whose lines are ended. -/
def chars (f : Form) : List Char := Text.joinLines f.lines ++ ['\n']

/-- The characters of a line of a text. -/
def isLineChar (c : Char) : Bool := isAllowed c && !isBreak c

variable {f : Form}

theorem isLineChar_space : isLineChar ' ' := by decide

theorem isLineChar_dash : isLineChar '-' := by decide

theorem isLineChar_colon : isLineChar ':' := by decide

theorem isLineChar_of_isTextChar {c : Char} (h : isTextChar c) : isLineChar c := by
  by_cases hc : c = ' '
  · subst hc
    decide
  · have hblank := isBlankOrBreak_of_isTextChar h hc
    simp only [isBlankOrBreak, Bool.or_eq_false_iff] at hblank
    simp only [isTextChar, Bool.and_eq_true, decide_eq_true_eq] at h
    simp [isLineChar, h.1.1.1.1, hblank.2]

theorem all_isLineChar_of_isPlainText {cs : List Char} (h : isPlainText cs) :
    ∀ c ∈ cs, isLineChar c := by
  intro c hc
  have hall := (chars_of_isPlainText h).1
  exact isLineChar_of_isTextChar ((List.all_eq_true.mp hall) c hc)

theorem isLineChar_control : ∀ n < 32,
    (Text.Quoted.encodeChar (Char.ofNat n)).all isLineChar := by decide

theorem all_isLineChar_encodeChar {c : Char} (h : isQuotable c) :
    ∀ d ∈ Text.Quoted.encodeChar c, isLineChar d := by
  by_cases hlow : c.toNat < 32
  · have hcontrol := isLineChar_control c.toNat hlow
    rw [Char.ofNat_toNat] at hcontrol
    exact List.all_eq_true.mp hcontrol
  · have hchar : isLineChar c := by simpa [isQuotable, hlow, isLineChar] using h
    unfold Text.Quoted.encodeChar
    split_ifs
    all_goals first | exact List.all_eq_true.mp (by decide) | simpa using hchar

theorem all_isLineChar_leaf {l : Leaf} (h : l.isSound) : ∀ c ∈ l.text, isLineChar c := by
  cases l with
  | plain cs => exact all_isLineChar_of_isPlainText h
  | quoted cs =>
    have hcs : ∀ c ∈ cs, isQuotable c := by simpa using List.all_eq_true.mp h
    intro c hc
    simp only [Leaf.text, Text.Quoted.encode, List.mem_cons, List.mem_append, List.mem_flatMap,
      List.not_mem_nil, or_false] at hc
    rcases hc with rfl | ⟨d, hd, hc⟩ | rfl
    · decide
    · exact all_isLineChar_encodeChar (hcs d hd) c hc
    · decide
  | noItems => exact List.all_eq_true.mp (by decide)
  | noEntries => exact List.all_eq_true.mp (by decide)

theorem all_isLineChar_deeper {ls : List Line} {n : Nat} (h : ∀ l ∈ ls, ∀ c ∈ l, isLineChar c) :
    ∀ l ∈ ls.map (·.deeper n), ∀ c ∈ l, isLineChar c := by
  intro l hl c hc
  obtain ⟨m, hm, rfl⟩ := List.mem_map.mp hl
  rcases List.mem_append.mp hc with hspace | hc
  · rw [List.eq_of_mem_replicate hspace]
    exact isLineChar_space
  · exact h m hm c hc

theorem all_isLineChar_entryLines {key : String} (hkey : isKey key)
    (h : ∀ l ∈ f.lines, ∀ c ∈ l, isLineChar c) :
    ∀ l ∈ entryLines key f f.lines, ∀ c ∈ l, isLineChar c := by
  have hchars := all_isLineChar_of_isPlainText (isPlainText_of_isKey hkey)
  have hhead : ∀ c ∈ key.toList ++ [':'], isLineChar c := by
    simpa [isLineChar_colon, or_imp, forall_and] using hchars
  cases f with
  | leaf l =>
    have hleaf : ∀ c ∈ l.text, isLineChar c := h l.text (List.mem_singleton_self _)
    simp only [entryLines, Outline.keyed, List.mem_singleton, forall_eq]
    intro c hc
    simp only [List.mem_append, List.mem_cons] at hc
    rcases hc with hc | rfl | rfl | hc
    · exact hchars c hc
    · exact isLineChar_colon
    · exact isLineChar_space
    · exact hleaf c hc
  | _ => exact List.forall_mem_cons.mpr ⟨hhead, all_isLineChar_deeper h⟩

theorem all_isLineChar_itemLines (h : ∀ l ∈ f.lines, ∀ c ∈ l, isLineChar c) :
    ∀ l ∈ itemLines f f.lines, ∀ c ∈ l, isLineChar c := by
  have hdash {l : Line} (hl : ∀ c ∈ l, isLineChar c) : ∀ c ∈ '-' :: ' ' :: l, isLineChar c :=
    List.forall_mem_cons.mpr ⟨isLineChar_dash, List.forall_mem_cons.mpr ⟨isLineChar_space, hl⟩⟩
  unfold itemLines
  split
  · rename_i _ l
    simpa using hdash (h l.text (List.mem_singleton_self _))
  · simp [isLineChar_dash]
  · rename_i first rest _ heq
    rw [heq] at h
    obtain ⟨hfirst, hrest⟩ := List.forall_mem_cons.mp h
    exact List.forall_mem_cons.mpr ⟨hdash hfirst, all_isLineChar_deeper hrest⟩

mutual

theorem all_isLineChar_lines : (f : Form) → f.isSound → ∀ l ∈ f.lines, ∀ c ∈ l, isLineChar c
  | leaf l, h => by simpa [lines] using all_isLineChar_leaf (l := l) h
  | bare, _ => by simp [lines]
  | map entries, h => all_isLineChar_mappingLines entries (isSound_map.mp h).2.2
  | seq items, h => all_isLineChar_sequenceLines items (isSound_seq.mp h).2

theorem all_isLineChar_mappingLines : (entries : List (String × Form)) → entriesSound entries →
    ∀ l ∈ mappingLines entries, ∀ c ∈ l, isLineChar c
  | [], _ => by simp [mappingLines]
  | (key, f) :: entries, h => by
    obtain ⟨hkey, hf, hrest⟩ := entriesSound_cons.mp h
    exact List.forall_mem_append.mpr ⟨all_isLineChar_entryLines hkey (all_isLineChar_lines f hf),
      all_isLineChar_mappingLines entries hrest⟩

theorem all_isLineChar_sequenceLines : (items : List Form) → itemsSound items →
    ∀ l ∈ sequenceLines items, ∀ c ∈ l, isLineChar c
  | [], _ => by simp [sequenceLines]
  | f :: items, h => by
    obtain ⟨hf, hrest⟩ := itemsSound_cons.mp h
    exact List.forall_mem_append.mpr ⟨all_isLineChar_itemLines (all_isLineChar_lines f hf),
      all_isLineChar_sequenceLines items hrest⟩

end

theorem isLine_of_all {l : Line} (h : ∀ c ∈ l, isLineChar c) : Text.IsLine l :=
  ⟨fun hmem => absurd (h _ hmem) (by decide), fun hmem => absurd (h _ hmem) (by decide)⟩

theorem outline_of_isLineChar (h : ∀ l ∈ f.lines, ∀ c ∈ l, isLineChar c) (hne : f.lines ≠ []) :
    Outline.ofChars f.chars = ⟨f.lines, true⟩ := by
  have hlines : Text.lines f.chars = f.lines :=
    Text.lines_joinLines hne (fun l hl => isLine_of_all (h l hl)) fun h : true = false => nomatch h
  have hended : Text.isEnded f.chars = true := by simp [Text.isEnded, chars]
  rw [Outline.ofChars, hlines, hended]

/-- The lines of the text are the lines of the form. -/
theorem outline_chars (hf : f.isSound) (hne : f.lines ≠ []) :
    Outline.ofChars f.chars = ⟨f.lines, true⟩ :=
  outline_of_isLineChar (all_isLineChar_lines f hf) hne

theorem toChars_lines (hne : f.lines ≠ []) : Outline.toChars ⟨f.lines, true⟩ = f.chars := by
  have hempty : f.lines.isEmpty = false := by simpa using hne
  simp [Outline.toChars, hempty, chars]

theorem chars_eq_entered (hne : f.lines ≠ []) : f.chars = entered 0 f.lines ++ ['\n'] := by
  have hjoin (l : Line) (ls : List Line) : Text.joinLines (l :: ls) = l ++ chunk 0 ls := by
    induction ls generalizing l with
    | nil => simp [Text.joinLines, chunk]
    | cons m ls ih =>
      rw [Text.joinLines, ih]
      · simp [chunk, Text.spaces]
      · simp
  obtain ⟨l, ls, hls⟩ := List.exists_cons_of_ne_nil hne
  rw [chars, hls, hjoin]
  rfl

theorem all_isAllowed_chars (h : ∀ l ∈ f.lines, ∀ c ∈ l, isLineChar c) : f.chars.all isAllowed := by
  have hjoin (ls : List Line) (h : ∀ l ∈ ls, ∀ c ∈ l, isLineChar c) :
      ∀ c ∈ Text.joinLines ls, isAllowed c := by
    have hallowed {c : Char} (hc : isLineChar c) : isAllowed c := by
      simp only [isLineChar, Bool.and_eq_true] at hc
      exact hc.1
    fun_induction Text.joinLines ls with
    | case1 => simp
    | case2 l => exact fun c hc => hallowed (h l (by simp) c hc)
    | case3 l ls _ ih =>
      obtain ⟨hl, hls⟩ := List.forall_mem_cons.mp h
      intro c hc
      simp only [List.mem_append, List.mem_cons] at hc
      rcases hc with hc | rfl | hc
      · exact hallowed (hl c hc)
      · decide
      · exact ih hls c hc
  rw [List.all_eq_true]
  intro c hc
  rcases List.mem_append.mp hc with hc | hc
  · exact hjoin f.lines h c hc
  · obtain rfl := List.mem_singleton.mp hc
    decide

theorem scansBlock_lines {limit : Nat} (hf : f.isSound) (hblock : f.isBlock) :
    ScansBlock limit f.lines f.tokens := by
  cases f with
  | map entries =>
    obtain ⟨hne, -, hsound⟩ := isSound_map.mp hf
    exact (scansEntries entries hne hsound).block
  | seq items =>
    obtain ⟨hne, hsound⟩ := isSound_seq.mp hf
    exact (scansItems items hne hsound).block
  | _ => cases hblock

/-- At the start of a text. -/
theorem arrives_start (limit : Nat) {cs : List Char} (h : Starts cs) (hlimit : 0 < limit) :
    Arrives limit (Scanner.start cs) cs 0 true ⟨-1, [], []⟩ := by
  have hspaces : (Cursor.start cs).rest = Text.spaces 0 ++ cs := rfl
  exact arrives_spaces (k := true) (b := ⟨-1, [], []⟩) hspaces h hlimit

theorem tokens?_of_leads {cs : List Char} {s : Scanner} {ts : List Token} (hne : cs ≠ [])
    (hcs : cs.all isAllowed) (h : Leads (cs.length + 1) (Scanner.start cs) s)
    (hend : ∀ fuel, s.cursor.rest.length < fuel →
      ∃ s', proceed (cs.length + 1) fuel s = some s' ∧ s'.tokens = ts.reverse) :
    tokens? cs = some ts := by
  obtain ⟨fuel, hfuel, hproceed⟩ := h.2 (cs.length + 1) (Nat.lt_succ_self _)
  obtain ⟨s', hs', htokens⟩ := hend fuel hfuel
  have hrun : run? (cs.length + 1) (cs.length + 1) (Scanner.start cs) = some s' := by
    rw [← hs', ← hproceed, proceed, if_neg]
    simpa [Scanner.start, Cursor.start] using hne
  rw [tokens?, if_pos hcs]
  simp [hrun, htokens]

theorem tokens?_of_scansBlock {ts : List Token} (hlined : Lined f)
    (hchars : ∀ l ∈ f.lines, ∀ c ∈ l, isLineChar c) (h : ∀ limit, ScansBlock limit f.lines ts) :
    tokens? f.chars = some ts := by
  have htext := chars_eq_entered hlined.lines
  let limit := f.chars.length + 1
  have hstart : Arrives limit (Scanner.start f.chars) (entered 0 f.lines ++ ['\n']) 0 true
      ⟨-1, [], []⟩ := by
    have h := arrives_start limit (hlined.starts 0 ['\n']) (Nat.succ_pos _)
    rwa [← htext] at h ⊢
  obtain ⟨s, b, hleads, hend, hclosed⟩ := h limit 0 0 _ _ ['\n'] [] ⟨rfl, nofun⟩ hstart le_rfl
    (by decide) (by rw [← htext]; exact Nat.lt_succ_self _)
  refine tokens?_of_leads (by simp [chars]) (all_isAllowed_chars hchars) hleads fun fuel hfuel => ?_
  obtain ⟨s', hs', htokens⟩ := exists_proceed_end hend hfuel
  refine ⟨s', hs', ?_⟩
  rw [htokens, hclosed (-1) (by decide)]
  simp [Blocks.pushAll, Blocks.close, Blocks.closeFrom]

/-- The tokens of the text are those of the form. -/
theorem tokens?_chars (hf : f.isSound) (hblock : f.isBlock) : tokens? f.chars = some f.tokens :=
  tokens?_of_scansBlock (lined_of_isBlock hf hblock) (all_isLineChar_lines f hf)
    fun _ => scansBlock_lines hf hblock

theorem tokens?_of_step {cs : List Char} {c : Cursor} {k : Bool} {place : Option KeyPlace}
    {line : Nat} {ts : List Token} (hne : cs ≠ []) (hcs : cs.all isAllowed)
    (hstep : step? (cs.length + 1) (Scanner.start cs) =
      some (behind c k place ⟨-1, [], ts.reverse⟩))
    (hplace : Lapses line place) (hc : c.rest = []) : tokens? cs = some ts := by
  have hlen : (behind c k place ⟨-1, [], ts.reverse⟩).cursor.rest.length = 0 := by simp [behind, hc]
  refine tokens?_of_leads hne hcs (leads_step hstep ?_) fun fuel _ => ?_
  · rw [hlen]
    exact List.length_pos_iff.mpr hne
  · obtain ⟨s', hs', htokens⟩ := leaveBlocks?_behind (c := c) (k := k) (b := ⟨-1, [], ts.reverse⟩)
      hplace
    refine ⟨s', ?_, by rw [htokens]; rfl⟩
    rw [proceed, if_pos (List.isEmpty_iff.mpr (List.length_eq_zero_iff.mp hlen))]
    exact hs'

/-- The tokens of a scalar or an empty collection by itself. -/
theorem tokens?_leaf {l : Leaf} (hl : l.isSound) : tokens? l.text = some l.tokens := by
  have hallowed : l.text.all isAllowed := by
    refine List.all_eq_true.mpr fun c hc => ?_
    have hchar := all_isLineChar_leaf hl c hc
    simp only [isLineChar, Bool.and_eq_true] at hchar
    exact hchar.1
  have hstart (cs : List Char) (hcs : Starts cs) := arrives_start (cs.length + 1) hcs
    (Nat.succ_pos _)
  cases l with
  | plain cs =>
    have hhere : Arrives (cs.length + 1) (Scanner.start cs) (cs ++ []) 0 true ⟨-1, [], []⟩ := by
      simpa using hstart cs (by simpa using starts_of_isPlainText hl [])
    obtain ⟨c, hc, hcolumn, hstep⟩ := step?_plain hhere hl (by simp)
    obtain ⟨place, hplace, hsave⟩ := savePlace?_resting (k := true) (b := ⟨-1, [], []⟩) (c := c)
      (by simp)
    have hscalar : plainScalar? (cs.length + 1) false 0 (cs.length + 1) [] Gap.none c =
        some (cs, false, c.past cs []) :=
      plainScalar?_stop hl (fun _ _ => rfl) (Nat.lt_succ_self _) (Nat.lt_succ_self _) hc (.inl rfl)
        (.inr (by omega)) (not_atDocumentMark hl (by simp) hc)
    refine tokens?_of_step (isPlainText_ne_nil hl) hallowed (c := c.past cs []) (k := false) ?_
      hplace rfl
    rw [Leaf.text, hstep, show Blocks.close _ ⟨-1, [], []⟩ = ⟨-1, [], []⟩ from rfl, hsave,
      Option.bind_some,
      show ((behind c true place ⟨-1, [], []⟩).indent + 1).toNat = 0 from rfl, hscalar]
    rfl
  | quoted cs =>
    let body := cs.flatMap Text.Quoted.encodeChar
    let limit := ('"' :: (body ++ ['"'])).length + 1
    have hlen : cs.length < limit := by
      have hbody : cs.length ≤ body.length := length_le_flatMap_encodeChar cs
      simp only [limit, List.length_cons, List.length_append]
      omega
    obtain ⟨c, hc, hcolumn, hstep⟩ := step?_quoted (hstart ('"' :: (body ++ ['"']))
      (by simpa [Leaf.text, Text.Quoted.encode] using starts_of_leaf hl []))
    obtain ⟨place, hplace, hsave⟩ := savePlace?_resting (k := true) (b := ⟨-1, [], []⟩) (c := c)
      (by simp)
    let c₁ := c.past ['"'] (body ++ ['"'])
    have hscalar : quotedScalar? limit false limit [] (c.skip 1) =
        some (cs, c₁.past (body ++ ['"']) []) := by
      rw [Cursor.skip_one hc]
      exact quotedScalar?_chars hl hlen hlen rfl (by simp [Cursor.past])
    refine tokens?_of_step (by simp [Leaf.text, Text.Quoted.encode]) hallowed
      (c := c₁.past (body ++ ['"']) []) (k := false) ?_ hplace rfl
    refine hstep.trans ?_
    rw [show Blocks.close _ ⟨-1, [], []⟩ = ⟨-1, [], []⟩ from rfl, hsave, Option.bind_some, hscalar]
    rfl
  | noItems => decide
  | noEntries => decide

end BlockFlow.Form

import BlockFlow.Proofs.Yaml.Scalars

/-!
Steps of the scanner on texts in block style. The scanner rests in front of a token; blocks that end
there are closed with the next step.
-/

namespace BlockFlow.Yaml.Scanner

/-- The columns of the open blocks, the innermost apart, and the tokens so far. -/
structure Blocks where
  indent : Int
  outer : List Int
  tokens : List Token

namespace Blocks

variable {x y : Int} {b : Blocks}

/-- Closes the blocks deeper than `column`. -/
def closeFrom (column : Int) (indent : Int) : List Int → List Token → Blocks
  | [], t => ⟨indent, [], t⟩
  | next :: outer, t =>
    if column < indent then closeFrom column next outer (.blockEnd :: t)
    else ⟨indent, next :: outer, t⟩

def close (column : Int) (b : Blocks) : Blocks := closeFrom column b.indent b.outer b.tokens

/-- Opens a block at `column` when that is deeper than the innermost one. -/
def enter (column : Int) (start : Token) (b : Blocks) : Blocks :=
  if b.indent < column then ⟨column, b.indent :: b.outer, start :: b.tokens⟩ else b

def push (t : Token) (b : Blocks) : Blocks := { b with tokens := t :: b.tokens }

/-- Adds tokens, the first one first. -/
def pushAll (ts : List Token) (b : Blocks) : Blocks := { b with tokens := ts.reverse ++ b.tokens }

theorem close_of_le (h : b.indent ≤ x) : b.close x = b := by
  obtain ⟨i, outer, t⟩ := b
  cases outer with
  | nil => rfl
  | cons next outer =>
    have hi : ¬ x < i := Int.not_lt.mpr h
    rw [close, closeFrom, if_neg hi]

theorem close_of_lt {i next : Int} {outer : List Int} {t : List Token} (h : x < i) :
    close x ⟨i, next :: outer, t⟩ = close x ⟨next, outer, .blockEnd :: t⟩ := by
  rw [close, closeFrom, if_pos h]
  rfl

theorem close_close (h : x ≤ y) : (b.close y).close x = b.close x := by
  obtain ⟨i, outer, t⟩ := b
  induction outer generalizing i t with
  | nil => rfl
  | cons next outer ih =>
    by_cases hy : y < i
    · rw [close_of_lt hy, close_of_lt (by omega), ih]
    · rw [close_of_le (x := y) (Int.not_lt.mp hy)]

theorem enter_of_eq {start : Token} (h : b.indent = x) : b.enter x start = b :=
  if_neg (by omega)

theorem enter_indent {start : Token} (h : b.indent ≤ x) : (b.enter x start).indent = x := by
  by_cases hx : b.indent < x
  · rw [enter, if_pos hx]
  · rw [enter, if_neg hx]
    omega

end Blocks

/-- The scanner outside brackets, with the open place for a key. -/
def behind (c : Cursor) (k : Bool) (place : Option KeyPlace) (b : Blocks) : Scanner :=
  ⟨c, b.indent, b.outer, k, [place], b.tokens, b.tokens.length⟩

/-- The scanner outside brackets, with no place for a key open. -/
def resting (c : Cursor) (k : Bool) (b : Blocks) : Scanner :=
  ⟨c, b.indent, b.outer, k, [none], b.tokens, b.tokens.length⟩

variable {limit fuel : Nat} {s : Scanner} {c : Cursor} {k : Bool} {b : Blocks} {x : Int}
  {rest : List Char}

@[simp] theorem resting_cursor : (resting c k b).cursor = c := rfl

@[simp] theorem resting_inFlow : (resting c k b).inFlow = false := rfl

@[simp] theorem resting_keyAllowed : (resting c k b).keyAllowed = k := rfl

@[simp] theorem resting_dropPlace? : (resting c k b).dropPlace? = some (resting c k b) := rfl

theorem closeBlocks_behind {place : Option KeyPlace} :
    (behind c k place b).closeBlocks x = behind c k place (b.close x) := by
  obtain ⟨i, outer, t⟩ := b
  have hclose (i₀ : Int) (outer₀ : List Int) :
      closeBlocks.close x i outer (behind c k place ⟨i₀, outer₀, t⟩) =
        behind c k place (Blocks.closeFrom x i outer t) := by
    induction outer generalizing i t i₀ outer₀ with
    | nil => rfl
    | cons next outer ih =>
      rw [closeBlocks.close, Blocks.closeFrom]
      split
      · exact ih (i := next) (t := .blockEnd :: t) i₀ outer₀
      · rfl
  exact hclose i outer

theorem closeBlocks_resting : (resting c k b).closeBlocks x = resting c k (b.close x) :=
  closeBlocks_behind

theorem closeBlocks_of_le (hflow : s.inFlow = false) (h : s.indent ≤ x) : s.closeBlocks x = s := by
  obtain ⟨c, i, outer, k, places, t, count⟩ := s
  have hi : ¬ x < i := Int.not_lt.mpr h
  rw [closeBlocks, hflow, if_neg Bool.false_ne_true]
  cases outer with
  | nil => rfl
  | cons next outer => rw [closeBlocks.close, if_neg hi]

theorem openBlock_resting {column : Nat} {t : Token} :
    (resting c k b).openBlock column (resting c k b).count t = resting c k (b.enter column t) := by
  simp only [openBlock, Blocks.enter, resting, inFlow, List.length_singleton, lt_irrefl,
    decide_false, Bool.not_false, Bool.true_and, insert, Nat.sub_self, List.take_zero,
    List.nil_append, List.drop_zero]
  by_cases h : b.indent < column <;> simp [h]

theorem takeWhile_blanks {n : Nat} {p : Char → Bool} (hspace : p ' ') (hp : ∀ c, p c → isBlank c)
    (h : Starts rest) : (Text.spaces n ++ rest).takeWhile p = Text.spaces n := by
  induction n with
  | zero =>
    cases rest with
    | nil => rfl
    | cons d rest =>
      have hd : p d = false := by
        by_contra hnot
        rw [Bool.not_eq_false] at hnot
        simpa [isBlankOrBreak, hp d hnot] using h.head.1
      simp [Text.spaces, hd]
  | succ n ih =>
    have hcons : Text.spaces (n + 1) = ' ' :: Text.spaces n := rfl
    rw [hcons, List.cons_append, List.takeWhile_cons_of_pos hspace, ih]

/-- Spaces before a token are skipped. -/
theorem skipToToken_spaces {n : Nat} (hrest : s.cursor.rest = Text.spaces n ++ rest)
    (h : Starts rest) : skipToToken (fuel + 1) s =
      { s with cursor := s.cursor.past (Text.spaces n) rest } := by
  have hmark : ¬ ((decide (s.cursor.column = 0) &&
      decide (s.cursor.rest.head? = some (Char.ofNat 0xFEFF))) = true) := by
    rw [Bool.and_eq_true, decide_eq_true_eq, decide_eq_true_eq, hrest]
    rintro ⟨-, hhead⟩
    cases n with
    | zero => exact (h _ hhead).2.2 rfl
    | succ n => simp [Text.spaces, List.replicate_succ] at hhead
  have hspan : (s.cursor.span fun b => b = ' ' || ((s.inFlow || !s.keyAllowed) && b = '\t')).2 =
      s.cursor.past (Text.spaces n) rest := by
    have htake : s.cursor.rest.takeWhile
        (fun b => b = ' ' || ((s.inFlow || !s.keyAllowed) && b = '\t')) = Text.spaces n := by
      rw [hrest]
      apply takeWhile_blanks (by simp) _ h
      intro d hd
      simp only [Bool.or_eq_true, Bool.and_eq_true, decide_eq_true_eq] at hd
      rcases hd with rfl | ⟨-, rfl⟩ <;> rfl
    rw [Cursor.span]
    simp only [htake]
    exact Cursor.skip_eq_past hrest
  have hhash : ¬ ((s.cursor.past (Text.spaces n) rest).rest.head? = some '#') :=
    fun hhead => (h _ hhead).2.1 rfl
  have hbreak : (s.cursor.past (Text.spaces n) rest).atBreak = false := by
    cases rest with
    | nil => rfl
    | cons d rest =>
      have hd := h.head.1
      simp only [isBlankOrBreak, Bool.or_eq_false_iff] at hd
      exact hd.2
  rw [skipToToken]
  simp only [hmark, hspan, hhash, hbreak, if_false, Bool.false_eq_true]

/-- The end of a line and the indentation of the next are skipped; a key may start there. -/
theorem skipToToken_line {n : Nat} (hrest : s.cursor.rest = '\n' :: (Text.spaces n ++ rest))
    (h : Starts rest) (hflow : s.inFlow = false) : ∃ offset, skipToToken (fuel + 2) s =
      { s with cursor := ⟨rest, offset, s.cursor.line + 1, n⟩, keyAllowed := true } := by
  obtain ⟨⟨text, offset, line, column⟩, i, o, allowed, places, t, count⟩ := s
  obtain rfl : text = '\n' :: (Text.spaces n ++ rest) := hrest
  let next : Scanner := ⟨⟨Text.spaces n ++ rest, offset + 1, line + 1, 0⟩, i, o, true, places, t,
    count⟩
  have hbreak : skipToToken (fuel + 2) ⟨⟨'\n' :: (Text.spaces n ++ rest), offset, line, column⟩, i, o,
      allowed, places, t, count⟩ = skipToToken (fuel + 1) next := by
    rw [skipToToken]
    simp [Cursor.span, Cursor.skip, Cursor.atBreak, isBreak, Cursor.skipBreak, Text.byteWidth, hflow,
      next]
    rfl
  rw [hbreak, skipToToken_spaces (n := n) rfl h]
  exact ⟨_, by simp [next, Cursor.past, Text.spaces]; rfl⟩

/-- Scanning goes on, or ends where nothing is left. -/
def proceed (limit fuel : Nat) (s : Scanner) : Option Scanner :=
  if s.cursor.rest.isEmpty then s.leaveBlocks? else run? limit fuel s

/-- Steps lead from one state to another, so scanning from the first ends as from the second. -/
def Leads (limit : Nat) (s s' : Scanner) : Prop :=
  s'.cursor.rest.length ≤ s.cursor.rest.length ∧ ∀ fuel, s.cursor.rest.length < fuel →
    ∃ fuel', s'.cursor.rest.length < fuel' ∧ proceed limit fuel s = proceed limit fuel' s'

theorem Leads.refl (s : Scanner) : Leads limit s s := ⟨le_rfl, fun fuel h => ⟨fuel, h, rfl⟩⟩

theorem Leads.trans {s s₁ s₂ : Scanner} (h : Leads limit s s₁) (h' : Leads limit s₁ s₂) :
    Leads limit s s₂ := by
  refine ⟨h'.1.trans h.1, fun fuel hfuel => ?_⟩
  obtain ⟨fuel₁, hfuel₁, heq₁⟩ := h.2 fuel hfuel
  obtain ⟨fuel₂, hfuel₂, heq₂⟩ := h'.2 fuel₁ hfuel₁
  exact ⟨fuel₂, hfuel₂, heq₁.trans heq₂⟩

theorem leads_step {s' : Scanner} (h : step? limit s = some s')
    (hless : s'.cursor.rest.length < s.cursor.rest.length) : Leads limit s s' := by
  refine ⟨hless.le, fun fuel hfuel => ?_⟩
  obtain ⟨fuel, rfl⟩ : ∃ m, fuel = m + 1 := ⟨fuel - 1, by omega⟩
  have hne : s.cursor.rest.isEmpty = false := by
    cases hrest : s.cursor.rest with
    | nil => simp [hrest] at hless
    | cons _ _ => rfl
  refine ⟨fuel, by omega, ?_⟩
  rw [proceed, hne, if_neg Bool.false_ne_true, run?, h]
  rfl

/-- The open place for a key does not count on a later line. -/
def Lapses (line : Nat) (place : Option KeyPlace) : Prop :=
  ∀ p, place = some p → p.required = false ∧ p.line ≤ line

theorem lapses_none (line : Nat) : Lapses line none := nofun

/-- The scanner comes to rest in front of `rest`, at column `column`. -/
structure Arrives (limit : Nat) (s : Scanner) (rest : List Char) (column : Nat) (k : Bool)
    (b : Blocks) : Prop where
  reached : ∃ c, c.rest = rest ∧ c.column = column ∧
    (skipToToken limit s).dropStale? = some (resting c k b)
  shorter : rest.length ≤ s.cursor.rest.length
  lapses : ∃ c k place line, Lapses line place ∧ s = behind c k place b

section Step

variable {column : Nat}

theorem blockEntry?_resting (hc : c.rest = '-' :: rest) : Scanner.blockEntry? (resting c true b) =
    some (resting (c.past ['-'] rest) true
      ((b.enter c.column .blockSequenceStart).push .blockEntry)) := by
  unfold blockEntry?
  simp only [resting_inFlow, resting_keyAllowed, resting_cursor, openBlock_resting,
    resting_dropPlace?, Bool.not_true, Bool.and_false, Bool.false_eq_true, if_false,
    Option.bind_eq_bind, Option.bind_some]
  rw [← Cursor.skip_one hc]
  rfl

/-- The mark of an item. -/
theorem step?_item (h : Arrives limit s ('-' :: rest) column true b) (hblank : startsBlank rest) :
    ∃ c, c.rest = rest ∧ c.column = column + 1 ∧ step? limit s = some (resting c true
      (((b.close column).enter column .blockSequenceStart).push .blockEntry)) := by
  obtain ⟨⟨c, hrest, hcolumn, hreached⟩, -, -⟩ := h
  have hdash : rest.take 2 ≠ ['-', '-'] := by
    cases rest with
    | nil => simp
    | cons d rest =>
      intro heq
      obtain ⟨rfl, -⟩ := List.cons.inj heq
      cases hblank
  refine ⟨c.past ['-'] rest, rfl, by simp [Cursor.past, hcolumn], ?_⟩
  rw [step?]
  simp only [hreached, Option.bind_eq_bind, Option.bind_some, closeBlocks_resting, resting_cursor,
    resting_inFlow]
  simp [Cursor.atMark, hrest, hblank, hdash, blockEntry?_resting hrest, hcolumn]

/-- The characters that do not begin a plain scalar, the dash apart. -/
def marks : List Char :=
  ['%', '[', '{', ']', '}', ',', '?', ':', '*', '&', '!', '|', '>', '\'', '"', '#']

theorem isIndicator_of_mem_marks : ∀ d ∈ marks, isIndicator d ∧ d ≠ '-' := by
  have hall : marks.all fun d => isIndicator d && d != '-' := by decide
  simpa using hall

theorem startsPlain_of_isPlainText {d : Char} {cs : List Char} (h : Form.isPlainText (d :: cs))
    (flow : Bool) (rest : List Char) : d ∉ marks ∧ (d = '-' → startsBlank (cs ++ rest) = false) ∧
      startsPlain flow d (cs ++ rest) := by
  obtain ⟨hall, hfirst, -⟩ := chars_of_isPlainText h
  have hspace : d ≠ ' ' := by simpa using hfirst
  have hblank : isBlankOrBreak d = false :=
    isBlankOrBreak_of_isTextChar ((List.all_eq_true.mp hall) d List.mem_cons_self) hspace
  simp only [Form.isPlainText, Bool.and_eq_true, Bool.or_eq_true, decide_eq_true_eq,
    Bool.not_eq_true'] at h
  rcases h.1.1.1.1.1.1 with hnot | ⟨rfl, hcs⟩
  · refine ⟨fun hmem => ?_, fun hd => ?_, by simp [startsPlain, hblank, hnot]⟩
    · rw [(isIndicator_of_mem_marks d hmem).1] at hnot
      cases hnot
    · subst hd
      cases hnot
  · cases cs with
    | nil => cases hcs
    | cons e cs =>
      have hnext : isBlank e = false := by
        simp only [startsBlank, isBlankOrBreak, Bool.or_eq_false_iff] at hcs
        exact hcs.1
      exact ⟨fun hmem => (isIndicator_of_mem_marks '-' hmem).2 rfl, fun _ => hcs,
        by simp [startsPlain, hnext]⟩

/-- A plain scalar is no mark between documents. -/
theorem atMark_of_isPlainText {text : List Char} (h : Form.isPlainText text)
    (hrest : ∀ e ∈ rest.head?, e ≠ '-' ∧ e ≠ '.') (hc : c.rest = text ++ rest) :
    c.atMark ['-', '-', '-'] = false ∧ c.atMark ['.', '.', '.'] = false := by
  have hmark (e : Char) (hne : text.take 3 ≠ [e, e, e]) (hstop : ∀ d ∈ rest.head?, d ≠ e) :
      (text ++ rest).take 3 ≠ [e, e, e] := by
    intro heq
    by_cases hlen : 3 ≤ text.length
    · exact hne (by rwa [List.take_append_of_le_length hlen] at heq)
    · have hget := congrArg (·[text.length]?) heq
      simp only [List.getElem?_take, show text.length < 3 by omega, if_true,
        List.getElem?_append_right le_rfl, Nat.sub_self] at hget
      have hlt : text.length < [e, e, e].length := by simpa using hlen
      rw [List.getElem?_eq_getElem hlt, ← List.head?_eq_getElem?] at hget
      refine hstop _ hget ?_
      have hall : ∀ d ∈ [e, e, e], d = e := by simp
      exact hall _ (List.getElem_mem hlt)
  cases text with
  | nil => cases h
  | cons d cs =>
    simp only [Form.isPlainText, Bool.and_eq_true, decide_eq_true_eq] at h
    have hdash := hmark '-' h.1.1.2 fun e he => (hrest e he).1
    have hdot := hmark '.' h.1.2 fun e he => (hrest e he).2
    simp only [Cursor.atMark, hc, hdash, hdot, decide_false, Bool.and_false, Bool.false_and,
      and_self]

/-- A plain scalar ahead, up to where it is read. -/
theorem step?_plain_of_reached {s₁ s₂ : Scanner} {text : List Char}
    (hreached : (skipToToken limit s).dropStale? = some s₁)
    (hclose : s₁.closeBlocks s₁.cursor.column = s₂) (hc : s₂.cursor.rest = text ++ rest)
    (htext : Form.isPlainText text) (hrest : ∀ e ∈ rest.head?, e ≠ '-' ∧ e ≠ '.') :
    step? limit s = s₂.savePlace?.bind fun s =>
      (plainScalar? limit s₂.inFlow (s.indent + 1).toNat limit [] Gap.none s₂.cursor).bind fun p =>
        some { s.finish (.scalar true p.1) p.2.2 with keyAllowed := p.2.1 } := by
  obtain ⟨hdash, hdot⟩ := atMark_of_isPlainText htext hrest hc
  cases text with
  | nil => cases htext
  | cons d text =>
    obtain ⟨hmarks, hnot, hplain⟩ := startsPlain_of_isPlainText htext s₂.inFlow rest
    simp only [marks, List.mem_cons, not_or] at hmarks
    rw [List.cons_append] at hc
    rw [step?]
    simp only [hreached, Option.bind_eq_bind, Option.bind_some, hclose, hc, hdash, hdot]
    simp only [hmarks, hplain, decide_false, Bool.and_false, Bool.false_and, Bool.or_self,
      Bool.false_eq_true, if_false, if_true]
    by_cases hd : d = '-'
    · rw [hnot hd]
      simp
    · simp [hd]

/-- A plain scalar, up to where it is read. -/
theorem step?_plain {text : List Char} (h : Arrives limit s (text ++ rest) column k b)
    (htext : Form.isPlainText text) (hrest : ∀ e ∈ rest.head?, e ≠ '-' ∧ e ≠ '.') :
    ∃ c, c.rest = text ++ rest ∧ c.column = column ∧ step? limit s =
      (resting c k (b.close column)).savePlace?.bind fun s =>
        (plainScalar? limit false (s.indent + 1).toNat limit [] Gap.none c).bind fun p =>
          some { s.finish (.scalar true p.1) p.2.2 with keyAllowed := p.2.1 } := by
  obtain ⟨⟨c, hc, rfl, hreached⟩, -, -⟩ := h
  exact ⟨c, hc, rfl, step?_plain_of_reached hreached closeBlocks_resting hc htext hrest⟩

theorem not_atDocumentMark {text : List Char} (h : Form.isPlainText text)
    (hrest : ∀ e ∈ rest.head?, e ≠ '-' ∧ e ≠ '.') (hc : c.rest = text ++ rest) :
    c.atDocumentMark = false := by
  obtain ⟨hdash, hdot⟩ := atMark_of_isPlainText h hrest hc
  rw [Cursor.atDocumentMark, hdash, hdot]
  rfl

/-- The scanner behind a scalar that may be a key. -/
def awaiting (c : Cursor) (place : KeyPlace) (t : Token) (b : Blocks) : Scanner :=
  ⟨c, b.indent, b.outer, false, [some place], t :: b.tokens, b.tokens.length + 1⟩

theorem value?_awaiting {place : KeyPlace} {t : Token} (hplace : place.token = b.tokens.length)
    (hc : c.rest = ':' :: rest) : (awaiting c place t b).value? =
      some (resting (c.past [':'] rest) false
        ((((b.enter place.column .blockMappingStart).push .key).push t).push .value)) := by
  have hlater : b.tokens.length + 1 - b.tokens.length = 1 := by omega
  have hlatest : b.tokens.length + 2 - b.tokens.length = 2 := by omega
  rw [value?, awaiting]
  simp only [insert, openBlock, inFlow, hplace, hlater, List.length_singleton, lt_irrefl,
    decide_false, Bool.not_false, Bool.true_and]
  by_cases hdeeper : b.indent < place.column
  · simp [hdeeper, hlatest, take, push, resting, Blocks.enter, Blocks.push, Cursor.skip_one hc]
  · simp [hdeeper, take, push, resting, Blocks.enter, Blocks.push, Cursor.skip_one hc]

theorem step?_awaiting {place : KeyPlace} {t : Token} (hplace : place.token = b.tokens.length)
    (hc : c.rest = ':' :: rest) (hblank : startsBlank rest) (hlimit : 0 < limit)
    (hline : place.line = c.line) (hwidth : c.offset ≤ place.offset + 1024)
    (hcolumn : b.indent ≤ c.column) : step? limit (awaiting c place t b) =
      some (resting (c.past [':'] rest) false
        ((((b.enter place.column .blockMappingStart).push .key).push t).push .value)) := by
  have hskip : skipToToken limit (awaiting c place t b) = awaiting c place t b := by
    obtain ⟨m, rfl⟩ : ∃ m, limit = m + 1 := ⟨limit - 1, by omega⟩
    have hstarts : Starts (':' :: rest) := by
      intro d hd
      obtain rfl : ':' = d := Option.some.inj hd
      decide
    rw [skipToToken_spaces (n := 0) hc hstarts]
    simp [awaiting, Text.spaces, ← hc, Cursor.past_nil]
  have hstale : (awaiting c place t b).dropStale? = some (awaiting c place t b) := by
    simp [dropStale?, awaiting, hline, Nat.not_lt.mpr hwidth]
  have hclose : (awaiting c place t b).closeBlocks c.column = awaiting c place t b :=
    closeBlocks_of_le rfl hcolumn
  rw [step?]
  simp only [hskip, hstale, Option.bind_eq_bind, Option.bind_some]
  rw [show (awaiting c place t b).cursor = c from rfl, hclose,
    show (awaiting c place t b).cursor = c from rfl, hc, ← value?_awaiting hplace hc]
  simp [Cursor.atMark, hc, hblank]

/-- A key and its colon. -/
theorem leads_key {key : List Char} (hkey : Form.isPlainText key) (hwidth : Text.byteWidth key ≤ 1024)
    (hblank : startsBlank rest) (hlimit : key.length < limit)
    (h : Arrives limit s (key ++ ':' :: rest) column true b)
    (hcolumn : (b.close column).indent ≤ column) :
    ∃ c, c.rest = rest ∧ c.column = column + key.length + 1 ∧ Leads limit s (resting c false
      (((((b.close column).enter column .blockMappingStart).push .key).push
        (.scalar true key)).push .value)) := by
  obtain ⟨c, hc, hcol, hstep⟩ := step?_plain h hkey (by simp)
  generalize b.close column = b at hstep hcolumn ⊢
  have hscalar : plainScalar? limit false (b.indent + 1).toNat limit [] Gap.none c =
      some (key, false, c.past key (':' :: rest)) :=
    plainScalar?_stop hkey (fun _ _ => rfl) hlimit hlimit hc (.inr (.inl ⟨rest, rfl, hblank⟩))
      (.inr (by omega)) (not_atDocumentMark hkey (by simp) hc)
  let place : KeyPlace := ⟨b.indent == c.column, b.tokens.length, c.offset, c.line, c.column⟩
  have hfirst : step? limit s =
      some (awaiting (c.past key (':' :: rest)) place (.scalar true key) b) := by
    rw [hstep, savePlace?]
    simp only [resting_keyAllowed, if_true, resting_dropPlace?, Option.bind_eq_bind,
      Option.bind_some, resting_cursor, resting_inFlow, Bool.not_false, Bool.true_and]
    simp [resting, hscalar, finish, push, awaiting, place]
  have hsecond : step? limit (awaiting (c.past key (':' :: rest)) place (.scalar true key) b) =
      some (resting ((c.past key (':' :: rest)).past [':'] rest) false
        ((((b.enter column .blockMappingStart).push .key).push (.scalar true key)).push .value)) := by
    rw [← hcol]
    exact step?_awaiting rfl rfl hblank (by omega) rfl
      (by simpa [place, Cursor.past] using hwidth) (by simp only [Cursor.past, hcol]; omega)
  have hlen := h.shorter
  rw [List.length_append, List.length_cons] at hlen
  have hne : 0 < key.length := List.length_pos_iff.mpr (isPlainText_ne_nil hkey)
  refine ⟨_, rfl, ?_, (leads_step hfirst ?_).trans (leads_step hsecond ?_)⟩
  · simp [Cursor.past, hcol]
  · simp only [awaiting, Cursor.past, List.length_cons]
    omega
  · simp [awaiting, Cursor.past]

theorem dropStale?_behind {place : Option KeyPlace} {line : Nat} (h : Lapses line place)
    (hline : line < c.line) : (behind c k place b).dropStale? = some (resting c k b) := by
  cases place with
  | none => rfl
  | some p =>
    obtain ⟨hrequired, hle⟩ := h p rfl
    have hlt : p.line < c.line := Nat.lt_of_le_of_lt hle hline
    simp [dropStale?, behind, resting, hrequired, hlt]

theorem arrives_line {place : Option KeyPlace} {n : Nat} (h : Lapses c.line place)
    (hc : c.rest = '\n' :: (Text.spaces n ++ rest)) (hrest : Starts rest) (hlimit : 1 < limit) :
    Arrives limit (behind c k place b) rest n true b := by
  obtain ⟨m, rfl⟩ : ∃ m, limit = m + 2 := ⟨limit - 2, by omega⟩
  obtain ⟨offset, hskip⟩ := skipToToken_line (s := behind c k place b) hc hrest rfl
  refine ⟨⟨⟨rest, offset, c.line + 1, n⟩, rfl, rfl, ?_⟩, ?_, ⟨c, k, place, c.line, h, rfl⟩⟩
  · rw [hskip]
    exact dropStale?_behind h (Nat.lt_succ_self _)
  · simp only [behind, hc, List.length_cons, List.length_append]
    omega

theorem arrives_spaces {n : Nat} (hc : c.rest = Text.spaces n ++ rest) (hrest : Starts rest)
    (hlimit : 0 < limit) : Arrives limit (resting c k b) rest (c.column + n) k b := by
  obtain ⟨m, rfl⟩ : ∃ m, limit = m + 1 := ⟨limit - 1, by omega⟩
  refine ⟨⟨c.past (Text.spaces n) rest, rfl, by simp [Cursor.past, Text.spaces], ?_⟩, ?_,
    ⟨c, k, none, 0, lapses_none 0, rfl⟩⟩
  · rw [skipToToken_spaces hc hrest]
    rfl
  · rw [resting_cursor, hc, List.length_append]
    omega

/-- Behind a plain scalar the next line has been entered. -/
theorem arrives_here {place : Option KeyPlace} {line : Nat} (h : Lapses line place)
    (hline : line < c.line) (hrest : Starts c.rest) (hlimit : 0 < limit) :
    Arrives limit (behind c k place b) c.rest c.column k b := by
  obtain ⟨m, rfl⟩ : ∃ m, limit = m + 1 := ⟨limit - 1, by omega⟩
  refine ⟨⟨c, rfl, rfl, ?_⟩, le_rfl, ⟨c, k, place, line, h, rfl⟩⟩
  have hnone : (behind c k place b).cursor.rest = Text.spaces 0 ++ c.rest := rfl
  rw [skipToToken_spaces hnone hrest]
  exact dropStale?_behind h hline

theorem savePlace?_resting (h : b.indent ≠ c.column) : ∃ place, Lapses c.line place ∧
    (resting c k b).savePlace? = some (behind c k place b) := by
  cases k with
  | false => exact ⟨none, lapses_none _, rfl⟩
  | true =>
    refine ⟨some ⟨false, b.tokens.length, c.offset, c.line, c.column⟩, ?_, ?_⟩
    · rintro p ⟨⟩
      exact ⟨rfl, le_rfl⟩
    · simp [savePlace?, resting, behind, dropPlace?, inFlow, h]

theorem step?_quoted_of_reached {s₁ s₂ : Scanner}
    (hreached : (skipToToken limit s).dropStale? = some s₁)
    (hclose : s₁.closeBlocks s₁.cursor.column = s₂) (hc : s₂.cursor.rest = '"' :: rest) :
    step? limit s = s₂.savePlace?.bind fun s =>
      (quotedScalar? limit false limit [] (s₂.cursor.skip 1)).bind fun p =>
        some (s.finish (.scalar false p.1) p.2) := by
  rw [step?]
  simp only [hreached, Option.bind_eq_bind, Option.bind_some, hclose]
  simp [Cursor.atMark, hc]

theorem step?_quoted (h : Arrives limit s ('"' :: rest) column k b) :
    ∃ c, c.rest = '"' :: rest ∧ c.column = column ∧ step? limit s =
      (resting c k (b.close column)).savePlace?.bind fun s =>
        (quotedScalar? limit false limit [] (c.skip 1)).bind fun p =>
          some (s.finish (.scalar false p.1) p.2) := by
  obtain ⟨⟨c, hc, rfl, hreached⟩, -, -⟩ := h
  exact ⟨c, hc, rfl, step?_quoted_of_reached hreached closeBlocks_resting hc⟩

/-- The brackets of an empty collection and their tokens. -/
def brackets : List (Char × Token × Char × Token) :=
  [('[', .flowSequenceStart, ']', .flowSequenceEnd), ('{', .flowMappingStart, '}', .flowMappingEnd)]

theorem step?_open {first last : Char} {t t' : Token} (hmem : (first, t, last, t') ∈ brackets)
    (h : Arrives limit s (first :: rest) column k b) :
    ∃ c, c.rest = first :: rest ∧ c.column = column ∧
      step? limit s = (resting c k (b.close column)).openFlow? t := by
  obtain ⟨⟨c, hc, hcolumn, hreached⟩, -, -⟩ := h
  refine ⟨c, hc, hcolumn, ?_⟩
  rw [step?]
  simp only [hreached, Option.bind_eq_bind, Option.bind_some, closeBlocks_resting, resting_cursor,
    resting_inFlow]
  simp only [brackets, List.mem_cons, Prod.mk.injEq, List.not_mem_nil, or_false] at hmem
  rcases hmem with ⟨rfl, rfl, -⟩ | ⟨rfl, rfl, -⟩ <;> simp [Cursor.atMark, hc, hcolumn]

/-- The scanner between brackets. -/
def between (c : Cursor) (place : Option KeyPlace) (b : Blocks) : Scanner :=
  ⟨c, b.indent, b.outer, true, [none, place], b.tokens, b.tokens.length⟩

theorem exists_dropStale?_between {place : Option KeyPlace} {line : Nat} (h : Lapses line place) :
    ∃ place', Lapses line place' ∧ (between c place b).dropStale? = some (between c place' b) := by
  cases place with
  | none => exact ⟨none, lapses_none _, rfl⟩
  | some p =>
    have hrequired := (h p rfl).1
    by_cases hstale : p.line < c.line ∨ p.offset + 1024 < c.offset
    · refine ⟨none, lapses_none _, ?_⟩
      rcases hstale with hold | hlong
      · simp [dropStale?, between, hrequired, hold]
      · simp [dropStale?, between, hrequired, hlong]
    · refine ⟨some p, h, ?_⟩
      obtain ⟨hline, hlong⟩ := not_or.mp hstale
      simp [dropStale?, between, hline, hlong]

theorem step?_close {first last : Char} {t t' : Token} {place : Option KeyPlace} {line : Nat}
    (hmem : (first, t, last, t') ∈ brackets) (hc : c.rest = last :: rest) (h : Lapses line place)
    (hlimit : 0 < limit) : ∃ place', Lapses line place' ∧ step? limit (between c place b) =
      some (behind (c.past [last] rest) false place' (b.push t')) := by
  simp only [brackets, List.mem_cons, Prod.mk.injEq, List.not_mem_nil, or_false] at hmem
  have hskip : skipToToken limit (between c place b) = between c place b := by
    obtain ⟨m, rfl⟩ : ∃ m, limit = m + 1 := ⟨limit - 1, by omega⟩
    have hstarts : Starts (last :: rest) := by
      intro d hd
      obtain rfl : last = d := Option.some.inj hd
      rcases hmem with ⟨-, -, rfl, -⟩ | ⟨-, -, rfl, -⟩ <;> decide
    rw [skipToToken_spaces (n := 0) hc hstarts]
    simp [between, Text.spaces, ← hc, Cursor.past_nil]
  obtain ⟨place', hplace', hstale⟩ := exists_dropStale?_between (c := c) (b := b) h
  refine ⟨place', hplace', ?_⟩
  have hclosed (t' : Token) : (between c place' b).closeFlow? t' =
      some (behind (c.past [last] rest) false place' (b.push t')) := by
    rw [← Cursor.skip_one hc]
    rfl
  have hblocks (x : Int) : (between c place' b).closeBlocks x = between c place' b := rfl
  rw [step?]
  simp only [hskip, hstale, Option.bind_eq_bind, Option.bind_some, hblocks]
  rw [← hclosed, show (between c place' b).cursor = c from rfl]
  rcases hmem with ⟨-, -, rfl, rfl⟩ | ⟨-, -, rfl, rfl⟩ <;> simp [Cursor.atMark, hc]

/-- Brackets with nothing between them. -/
theorem exists_leads_brackets {first last : Char} {t t' : Token}
    (hmem : (first, t, last, t') ∈ brackets)
    (h : Arrives limit s (first :: last :: rest) column k b) (hlimit : 0 < limit)
    (hin : b.indent < column) : ∃ c place, Lapses c.line place ∧ c.rest = rest ∧
      Leads limit s (behind c false place (b.pushAll [t, t'])) := by
  have hclose : b.close column = b := Blocks.close_of_le (Int.le_of_lt hin)
  obtain ⟨c, hc, hcolumn, hstep⟩ := step?_open hmem h
  obtain ⟨place, hplace, hsave⟩ := savePlace?_resting (k := k) (b := b) (c := c) (by omega)
  have hopen : step? limit s = some (between (c.past [first] (last :: rest)) place (b.push t)) := by
    rw [hstep, hclose, openFlow?, hsave, ← Cursor.skip_one hc]
    rfl
  obtain ⟨place', hplace', hend⟩ := step?_close (c := c.past [first] (last :: rest)) (b := b.push t)
    hmem rfl hplace hlimit
  have hshort := h.shorter
  refine ⟨(c.past [first] (last :: rest)).past [last] rest, place', hplace', rfl,
    (leads_step hopen ?_).trans (leads_step hend ?_)⟩
  · simp only [between, Cursor.past, List.length_cons] at hshort ⊢
    omega
  · simp [behind, between, Cursor.past]

/-- A scalar or an empty collection at the end of a line. -/
theorem exists_leads_leaf {l : Form.Leaf} {n : Nat} (hl : l.isSound)
    (h : Arrives limit s (l.text ++ '\n' :: (Text.spaces n ++ rest)) column k b)
    (hrest : Starts rest) (hlimit : (l.text ++ '\n' :: (Text.spaces n ++ rest)).length < limit)
    (hin : b.indent < column) (hn : (n : Int) ≤ b.indent) :
    ∃ s', Leads limit s s' ∧ Arrives limit s' rest n true (b.pushAll l.tokens) := by
  have hclose : b.close column = b := Blocks.close_of_le (Int.le_of_lt hin)
  have hshort := h.shorter
  simp only [List.length_append, List.length_cons, Text.spaces, List.length_replicate] at hlimit hshort
  cases l with
  | plain text =>
    have hstop : ∀ e ∈ ('\n' :: (Text.spaces n ++ rest)).head?, e ≠ '-' ∧ e ≠ '.' := by simp
    obtain ⟨c, hc, hcolumn, hstep⟩ := step?_plain h hl hstop
    obtain ⟨place, hplace, hsave⟩ := savePlace?_resting (k := k) (b := b) (c := c) (by omega)
    have hblank : ∀ d ∈ rest.head?, isBlankOrBreak d = false := fun d hd => (hrest d hd).1
    obtain ⟨offset, hscalar⟩ : ∃ offset,
        plainScalar? limit false (b.indent + 1).toNat limit [] Gap.none c =
          some (text, true, ⟨rest, offset, c.line + 1, n⟩) :=
      exists_plainScalar?_line hl (by simp only [Form.Leaf.text] at hlimit; omega)
        (by simp only [Form.Leaf.text] at hlimit; omega) hc hblank (by omega)
        (not_atDocumentMark hl hstop hc) (by omega)
    let c' : Cursor := ⟨rest, offset, c.line + 1, n⟩
    have hstep : step? limit s = some (behind c' true place (b.pushAll [.scalar true text])) := by
      rw [hstep, hclose, hsave, Option.bind_some]
      rw [show (behind c k place b).indent = b.indent from rfl, hscalar]
      rfl
    have hne : 0 < text.length := List.length_pos_iff.mpr (isPlainText_ne_nil hl)
    refine ⟨_, leads_step hstep ?_, arrives_here hplace (Nat.lt_succ_self _) hrest (by omega)⟩
    simp only [behind, c']
    omega
  | quoted text =>
    let body := text.flatMap Text.Quoted.encodeChar
    have hquotes : Arrives limit s ('"' :: (body ++ '"' :: '\n' :: (Text.spaces n ++ rest)))
        column k b := by
      simpa [Form.Leaf.text, Text.Quoted.encode] using h
    have hlen : text.length ≤ body.length := length_le_flatMap_encodeChar text
    have hbody : (Form.Leaf.quoted text).text.length = body.length + 2 := by
      simp [Form.Leaf.text, Text.Quoted.encode, body]
    obtain ⟨c, hc, hcolumn, hstep⟩ := step?_quoted hquotes
    obtain ⟨place, hplace, hsave⟩ := savePlace?_resting (k := k) (b := b) (c := c) (by omega)
    let c₁ := c.past ['"'] (body ++ '"' :: '\n' :: (Text.spaces n ++ rest))
    let c₂ := c₁.past (body ++ ['"']) ('\n' :: (Text.spaces n ++ rest))
    have hscalar : quotedScalar? limit false limit [] (c.skip 1) = some (text, c₂) := by
      rw [Cursor.skip_one hc]
      exact quotedScalar?_chars hl (by omega) (by omega) rfl (by simp [Cursor.past])
    have hstep : step? limit s =
        some (behind c₂ false place (b.pushAll [.scalar false text])) := by
      rw [hstep, hclose, hsave, Option.bind_some, hscalar]
      rfl
    refine ⟨_, leads_step hstep ?_, arrives_line hplace rfl hrest (by omega)⟩
    simp only [behind, c₂, Cursor.past, List.length_cons, List.length_append, Text.spaces,
      List.length_replicate]
    omega
  | noItems =>
    have hmem : ('[', Token.flowSequenceStart, ']', Token.flowSequenceEnd) ∈ brackets := by
      simp [brackets]
    obtain ⟨c, place, hplace, hc, hleads⟩ := exists_leads_brackets hmem h (by omega) hin
    exact ⟨_, hleads, arrives_line hplace hc hrest (by omega)⟩
  | noEntries =>
    have hmem : ('{', Token.flowMappingStart, '}', Token.flowMappingEnd) ∈ brackets := by
      simp [brackets]
    obtain ⟨c, place, hplace, hc, hleads⟩ := exists_leads_brackets hmem h (by omega) hin
    exact ⟨_, hleads, arrives_line hplace hc hrest (by omega)⟩

theorem leaveBlocks?_behind {place : Option KeyPlace} {line : Nat} (h : Lapses line place) :
    ∃ s', (behind c k place b).leaveBlocks? = some s' ∧ s'.tokens = (b.close (-1)).tokens := by
  rw [leaveBlocks?, closeBlocks_behind]
  cases place with
  | none => exact ⟨_, rfl, rfl⟩
  | some p =>
    have hrequired := (h p rfl).1
    exact ⟨_, by simp [behind, dropPlace?, hrequired]; rfl, rfl⟩

/-- At the end of the text all blocks are closed. -/
theorem exists_proceed_end (h : Arrives limit s [] 0 true b) {fuel : Nat}
    (hfuel : s.cursor.rest.length < fuel) :
    ∃ s', proceed limit fuel s = some s' ∧ s'.tokens = (b.close (-1)).tokens := by
  obtain ⟨⟨c, hc, hcolumn, hreached⟩, -, c₀, k, place, line, hplace, rfl⟩ := h
  by_cases hrest : (behind c₀ k place b).cursor.rest.isEmpty
  · rw [proceed, if_pos hrest]
    exact leaveBlocks?_behind hplace
  · obtain ⟨fuel, rfl⟩ : ∃ m, fuel = m + 1 := ⟨fuel - 1, by omega⟩
    have hstep : step? limit (behind c₀ k place b) = some (resting c true (b.close 0)) := by
      rw [step?]
      simp only [hreached, Option.bind_eq_bind, Option.bind_some, closeBlocks_resting,
        resting_cursor, hc, hcolumn]
      rfl
    obtain ⟨s', hs', htokens⟩ := leaveBlocks?_behind (c := c) (k := true) (b := b.close 0)
      (lapses_none line)
    refine ⟨s', ?_, ?_⟩
    · rw [proceed, if_neg hrest, run?, hstep]
      have hend : (resting c true (b.close 0)).cursor.rest.isEmpty := by simp [hc]
      rw [Option.bind_eq_bind, Option.bind_some, if_pos hend]
      exact hs'
    · rw [htokens, Blocks.close_close (by omega)]

end Step

end BlockFlow.Yaml.Scanner

import BlockFlow.Proofs.Yaml.Scanning
import Mathlib.Tactic.Tauto

/-!
The tokens of a text in block style. Main statement: the scanner splits it into the tokens of its
form.
-/

namespace BlockFlow.Form

open Yaml Yaml.Scanner

/-- Lines at column `c`, each behind a line break. -/
def chunk (c : Nat) (ls : List Line) : List Char :=
  ls.flatMap fun l => '\n' :: (Text.spaces c ++ l)

/-- Lines at column `c`, the first of which has been entered. -/
def entered (c : Nat) : List Line → List Char
  | [] => []
  | l :: ls => l ++ chunk c ls

/-- What stands behind the colon of an entry at column `c`. -/
def behindColon (c : Nat) : Form → List Char
  | leaf l => ' ' :: l.text
  | f => chunk (c + 2) f.lines

/-- What stands behind the dash of an item at column `c`. -/
def behindDash (c : Nat) : Form → List Char
  | leaf l => ' ' :: l.text
  | bare => []
  | f => ' ' :: entered (c + 2) f.lines

theorem chunk_append (c : Nat) (ls ms : List Line) : chunk c (ls ++ ms) = chunk c ls ++ chunk c ms := by
  simp [chunk]

theorem chunk_deeper (c : Nat) (ls : List Line) :
    chunk c (ls.map (·.deeper 2)) = chunk (c + 2) ls := by
  have hspaces : Text.spaces (c + 2) = Text.spaces c ++ Text.spaces 2 :=
    List.replicate_append_replicate.symm
  simp [chunk, List.flatMap_map, Line.deeper, hspaces]

theorem chunk_eq_entered {c : Nat} {ls : List Line} (h : ls ≠ []) :
    chunk c ls = '\n' :: (Text.spaces c ++ entered c ls) := by
  cases ls with
  | nil => exact absurd rfl h
  | cons l ls => simp [chunk, entered]

theorem entered_append {c : Nat} {ls ms : List Line} (h : ls ≠ []) :
    entered c (ls ++ ms) = entered c ls ++ chunk c ms := by
  cases ls with
  | nil => exact absurd rfl h
  | cons l ls => simp [entered, chunk_append]

theorem entryLines_ne_nil (key : String) (f : Form) (inside : List Line) :
    entryLines key f inside ≠ [] := by
  cases f <;> simp [entryLines]

theorem itemLines_ne_nil (f : Form) (inside : List Line) : itemLines f inside ≠ [] := by
  cases f <;> cases inside <;> simp [itemLines]

theorem mappingLines_ne_nil {entries : List (String × Form)} (h : entries ≠ []) :
    mappingLines entries ≠ [] := by
  cases entries with
  | nil => exact absurd rfl h
  | cons e entries => simp [mappingLines, entryLines_ne_nil]

theorem sequenceLines_ne_nil {items : List Form} (h : items ≠ []) : sequenceLines items ≠ [] := by
  cases items with
  | nil => exact absurd rfl h
  | cons f items => simp [sequenceLines, itemLines_ne_nil]

theorem entered_mappingLines (c : Nat) (key : String) (f : Form) (entries : List (String × Form)) :
    entered c (mappingLines ((key, f) :: entries)) =
      key.toList ++ ':' :: (behindColon c f ++ chunk c (mappingLines entries)) := by
  rw [mappingLines, entered_append (entryLines_ne_nil key f f.lines)]
  cases f with
  | leaf l => simp [entryLines, entered, Outline.keyed, chunk, behindColon]
  | bare => simp [entryLines, entered, chunk, behindColon, lines]
  | map _ => simp [entryLines, entered, behindColon, chunk_deeper]
  | seq _ => simp [entryLines, entered, behindColon, chunk_deeper]

/-- What is written takes a line, unless it is nothing. -/
theorem eq_bare_or_lines_ne_nil {f : Form} (h : f.isSound) : f = bare ∨ f.lines ≠ [] := by
  cases f with
  | leaf l => exact .inr (List.cons_ne_nil _ _)
  | bare => exact .inl rfl
  | map entries =>
    refine .inr (mappingLines_ne_nil ?_)
    rintro rfl
    cases h
  | seq items =>
    refine .inr (sequenceLines_ne_nil ?_)
    rintro rfl
    cases h

theorem entered_sequenceLines (c : Nat) (f : Form) (items : List Form)
    (h : f = bare ∨ f.lines ≠ []) : entered c (sequenceLines (f :: items)) =
      '-' :: (behindDash c f ++ chunk c (sequenceLines items)) := by
  rw [sequenceLines, entered_append (itemLines_ne_nil f f.lines)]
  cases f with
  | leaf l => simp [itemLines, entered, chunk, behindDash]
  | bare => simp [itemLines, entered, chunk, behindDash, lines]
  | map entries =>
    obtain ⟨first, rest, hls⟩ := List.exists_cons_of_ne_nil (h.resolve_left nofun)
    simp [itemLines, entered, behindDash, hls, chunk_deeper]
  | seq inner =>
    obtain ⟨first, rest, hls⟩ := List.exists_cons_of_ne_nil (h.resolve_left nofun)
    simp [itemLines, entered, behindDash, hls, chunk_deeper]

/-- A text goes on, or ends, on the line below at column `n`. -/
structure Follows (next : List Char) (n : Nat) (more : List Char) : Prop where
  eq : next = '\n' :: (Text.spaces n ++ more)
  starts : Starts more

theorem starts_of_isPlainText {text : List Char} (h : isPlainText text) (rest : List Char) :
    Starts (text ++ rest) := by
  obtain ⟨hall, hfirst, -⟩ := chars_of_isPlainText h
  cases text with
  | nil => cases h
  | cons c text =>
    intro d hd
    obtain rfl : c = d := Option.some.inj hd
    have hchar : isTextChar c := (List.all_eq_true.mp hall) c List.mem_cons_self
    have hspace : c ≠ ' ' := by simpa using hfirst
    refine ⟨isBlankOrBreak_of_isTextChar hchar hspace, ?_⟩
    simp only [isTextChar, Bool.and_eq_true, decide_eq_true_eq] at hchar
    exact ⟨hchar.1.2, hchar.2⟩

theorem starts_of_leaf {l : Leaf} (h : l.isSound) (rest : List Char) : Starts (l.text ++ rest) := by
  have hmark : ∀ d ∈ ['"', '[', '{'], isBlankOrBreak d = false ∧ d ≠ '#' ∧
      d ≠ Char.ofNat 0xFEFF := by
    simp only [List.forall_mem_cons, List.not_mem_nil, false_imp_iff, implies_true, and_true]
    decide
  cases l with
  | plain text => exact starts_of_isPlainText h rest
  | quoted text =>
    intro d hd
    obtain rfl : '"' = d := Option.some.inj hd
    exact hmark _ (by simp)
  | noItems =>
    intro d hd
    obtain rfl : '[' = d := Option.some.inj hd
    exact hmark _ (by simp)
  | noEntries =>
    intro d hd
    obtain rfl : '{' = d := Option.some.inj hd
    exact hmark _ (by simp)

/-- What stands at the end of a line is split into tokens. -/
structure ScansText (limit : Nat) (text : Line) (ts : List Token) : Prop where
  starts : ∀ rest, Starts (text ++ rest)
  leads : ∀ (s : Scanner) (column n : Nat) (k : Bool) (b : Blocks) (rest : List Char),
    Arrives limit s (text ++ '\n' :: (Text.spaces n ++ rest)) column k b → Starts rest →
    (text ++ '\n' :: (Text.spaces n ++ rest)).length < limit → b.indent < column →
    (n : Int) ≤ b.indent → ∃ s', Leads limit s s' ∧ Arrives limit s' rest n true (b.pushAll ts)

/-- The value behind a colon is split into tokens. -/
def ScansValue (limit : Nat) (f : Form) (ts : List Token) : Prop :=
  ∀ (c n : Nat) (b : Blocks) (p : Cursor) (next more : List Char), Follows next n more →
    p.rest = behindColon c f ++ next → n ≤ c → b.indent = c → c ≤ p.column →
    p.rest.length < limit → ∃ s' b', Leads limit (resting p false b) s' ∧
      Arrives limit s' more n true b' ∧ b'.close c = b.pushAll ts

/-- The item behind a dash is split into tokens. -/
def ScansItem (limit : Nat) (f : Form) (ts : List Token) : Prop :=
  ∀ (c n : Nat) (b : Blocks) (p : Cursor) (next more : List Char), Follows next n more →
    p.rest = behindDash c f ++ next → n ≤ c → b.indent = c → p.column = c + 1 →
    p.rest.length < limit → ∃ s' b', Leads limit (resting p true b) s' ∧
      Arrives limit s' more n true b' ∧ b'.close c = b.pushAll ts

/-- A block is split into its tokens. It may stay open in the end. -/
def ScansBlock (limit : Nat) (ls : List Line) (ts : List Token) : Prop :=
  ∀ (c n : Nat) (s : Scanner) (b : Blocks) (next more : List Char), Follows next n more →
    Arrives limit s (entered c ls ++ next) c true b → n ≤ c → b.indent < c →
    (entered c ls ++ next).length < limit → ∃ s' b', Leads limit s s' ∧
      Arrives limit s' more n true b' ∧ ∀ x < (c : Int), b'.close x = (b.pushAll ts).close x

/-- The lines of a block, or its later lines, are split into tokens. -/
def ScansLines (limit : Nat) (ls : List Line) (start : Token) (ts : List Token) : Prop :=
  ∀ (c n : Nat) (s : Scanner) (b : Blocks) (next more : List Char), Follows next n more →
    Arrives limit s (entered c ls ++ next) c true b → n ≤ c → (b.close c).indent ≤ c →
    (entered c ls ++ next).length < limit → ∃ s' b', Leads limit s s' ∧
      Arrives limit s' more n true b' ∧ b'.close c = ((b.close c).enter c start).pushAll ts

variable {limit : Nat} {f : Form} {ts : List Token}

theorem ScansLines.block {ls : List Line} {start : Token}
    (h : ScansLines limit ls start ts) : ScansBlock limit ls (start :: (ts ++ [.blockEnd])) := by
  intro c n s b next more hnext harrives hn hb hlimit
  have hclose : b.close c = b := Blocks.close_of_le (Int.le_of_lt hb)
  obtain ⟨s', b', hleads, hend, hclosed⟩ :=
    h c n s b next more hnext harrives hn (by rw [hclose]; exact Int.le_of_lt hb) hlimit
  refine ⟨s', b', hleads, hend, fun x hx => ?_⟩
  rw [← Blocks.close_close (Int.le_of_lt hx), hclosed, hclose, Blocks.enter, if_pos hb]
  have hlast : Blocks.close x ⟨c, b.indent :: b.outer, ts.reverse ++ start :: b.tokens⟩ =
      Blocks.close x ⟨b.indent, b.outer, .blockEnd :: (ts.reverse ++ start :: b.tokens)⟩ :=
    Blocks.close_of_lt hx
  simpa [Blocks.pushAll] using hlast

theorem scansText_leaf {l : Leaf} (h : l.isSound) : ScansText limit l.text l.tokens :=
  ⟨starts_of_leaf h, fun _ _ _ _ _ _ harrives hrest hlimit hin hn =>
    exists_leads_leaf h harrives hrest hlimit hin hn⟩

theorem scansValue_leaf {l : Leaf} (h : ScansText limit l.text ts) : ScansValue limit (.leaf l) ts := by
  intro c n b p next more hnext hp hn hb hcolumn hlimit
  obtain ⟨rfl, hmore⟩ := hnext
  have hspaces : p.rest = Text.spaces 1 ++ (l.text ++ '\n' :: (Text.spaces n ++ more)) := hp
  have harrives : Arrives limit (resting p false b) (l.text ++ '\n' :: (Text.spaces n ++ more))
      (p.column + 1) false b := arrives_spaces hspaces (h.starts _) (by omega)
  have hlength : (l.text ++ '\n' :: (Text.spaces n ++ more)).length < limit := by
    rw [hspaces, List.length_append] at hlimit
    omega
  obtain ⟨s', hleads, hend⟩ := h.leads _ _ _ _ _ _ harrives hmore hlength (by omega) (by omega)
  exact ⟨s', _, hleads, hend, Blocks.close_of_le (by simp [Blocks.pushAll, hb])⟩

theorem scansValue_bare : ScansValue limit .bare [] := by
  intro c n b p next more hnext hp hn hb hcolumn hlimit
  obtain ⟨rfl, hmore⟩ := hnext
  have hp : p.rest = '\n' :: (Text.spaces n ++ more) := hp
  have harrives : Arrives limit (resting p false b) more n true b :=
    arrives_line (lapses_none _) hp hmore (by simp [hp] at hlimit; omega)
  exact ⟨_, b, .refl _, harrives, Blocks.close_of_le (by omega)⟩

theorem scansItem_leaf {l : Leaf} (h : ScansText limit l.text ts) : ScansItem limit (.leaf l) ts := by
  intro c n b p next more hnext hp hn hb hcolumn hlimit
  obtain ⟨rfl, hmore⟩ := hnext
  have hspaces : p.rest = Text.spaces 1 ++ (l.text ++ '\n' :: (Text.spaces n ++ more)) := hp
  have harrives : Arrives limit (resting p true b) (l.text ++ '\n' :: (Text.spaces n ++ more))
      (p.column + 1) true b := arrives_spaces hspaces (h.starts _) (by omega)
  have hlength : (l.text ++ '\n' :: (Text.spaces n ++ more)).length < limit := by
    rw [hspaces, List.length_append] at hlimit
    omega
  obtain ⟨s', hleads, hend⟩ := h.leads _ _ _ _ _ _ harrives hmore hlength (by omega) (by omega)
  exact ⟨s', _, hleads, hend, Blocks.close_of_le (by simp [Blocks.pushAll, hb])⟩

theorem scansItem_bare : ScansItem limit .bare [] := by
  intro c n b p next more hnext hp hn hb hcolumn hlimit
  obtain ⟨rfl, hmore⟩ := hnext
  have hp : p.rest = '\n' :: (Text.spaces n ++ more) := hp
  have harrives : Arrives limit (resting p true b) more n true b :=
    arrives_line (lapses_none _) hp hmore (by simp [hp] at hlimit; omega)
  exact ⟨_, b, .refl _, harrives, Blocks.close_of_le (by omega)⟩

/-- A collection that has lines, and how they begin. -/
structure Lined (f : Form) : Prop where
  lines : f.lines ≠ []
  colon : ∀ c, behindColon c f = chunk (c + 2) f.lines
  dash : ∀ c, behindDash c f = ' ' :: entered (c + 2) f.lines
  starts : ∀ c rest, Starts (entered c f.lines ++ rest)

theorem ScansBlock.value (h : ScansBlock limit f.lines ts) (hf : Lined f) : ScansValue limit f ts := by
  intro c n b p next more hnext hp hn hb hcolumn hlimit
  have hp : p.rest = '\n' :: (Text.spaces (c + 2) ++ (entered (c + 2) f.lines ++ next)) := by
    rw [hp, hf.colon, chunk_eq_entered hf.lines]
    simp
  rw [hp] at hlimit
  simp only [List.length_cons, List.length_append] at hlimit
  have harrives : Arrives limit (resting p false b) (entered (c + 2) f.lines ++ next) (c + 2) true b :=
    arrives_line (lapses_none _) hp (hf.starts _ _) (by omega)
  obtain ⟨s', b', hleads, hend, hclosed⟩ := h (c + 2) n _ b next more hnext harrives (by omega)
    (by omega) (by simp only [List.length_append]; omega)
  refine ⟨s', b', hleads, hend, ?_⟩
  rw [hclosed c (by omega)]
  exact Blocks.close_of_le (by simp [Blocks.pushAll, hb])

theorem ScansBlock.item (h : ScansBlock limit f.lines ts) (hf : Lined f) : ScansItem limit f ts := by
  intro c n b p next more hnext hp hn hb hcolumn hlimit
  have hp : p.rest = Text.spaces 1 ++ (entered (c + 2) f.lines ++ next) := by
    rw [hp, hf.dash]
    rfl
  rw [hp, List.length_append] at hlimit
  have harrives : Arrives limit (resting p true b) (entered (c + 2) f.lines ++ next) (c + 2) true b := by
    have hspaces : Arrives limit (resting p true b) (entered (c + 2) f.lines ++ next)
        (p.column + 1) true b := arrives_spaces hp (hf.starts _ _) (by omega)
    rwa [hcolumn] at hspaces
  obtain ⟨s', b', hleads, hend, hclosed⟩ := h (c + 2) n _ b next more hnext harrives (by omega)
    (by omega) (by omega)
  refine ⟨s', b', hleads, hend, ?_⟩
  rw [hclosed c (by omega)]
  exact Blocks.close_of_le (by simp [Blocks.pushAll, hb])

theorem not_isPlainChar : ∀ c ∈ Char.ofNat 0xFEFF :: ':' :: '@' :: '\x60' :: marks,
    Outline.isPlainChar c = false := by
  have hall : ((Char.ofNat 0xFEFF :: ':' :: '@' :: '\x60' :: marks).all
      fun c => !Outline.isPlainChar c) = true := by decide +kernel
  simpa only [List.all_eq_true, Bool.not_eq_true'] using hall

theorem isTextChar_of_isPlainChar {c : Char} (h : Outline.isPlainChar c) (hc : isAllowed c) :
    isTextChar c := by
  have hne (d : Char) (hd : d ∈ Char.ofNat 0xFEFF :: ':' :: '@' :: '\x60' :: marks) : c ≠ d := by
    rintro rfl
    rw [not_isPlainChar c hd] at h
    cases h
  have hblank : c = ' ' ∨ Text.isBlank c = false := by
    by_cases hspace : c = ' '
    · exact .inl hspace
    · exact .inr (Outline.not_isBlank_of_isPlainChar h hspace)
  have hmarks : c ≠ ':' ∧ c ≠ '#' ∧ c ≠ Char.ofNat 0xFEFF :=
    ⟨hne _ (by simp), hne _ (by simp [marks]), hne _ (by simp)⟩
  simpa [isTextChar, hc, hmarks] using hblank

theorem isPlainText_of_isKey {key : String} (h : isKey key) : isPlainText key.toList := by
  simp only [isKey, Bool.and_eq_true, decide_eq_true_eq, Option.any_eq_true] at h
  obtain ⟨⟨⟨⟨hplain, hallowed⟩, hdot⟩, v, hvalue, -⟩, -⟩ := h
  obtain ⟨hne, hall, hspace, hdash, hlast⟩ := Outline.plainKey_of_isPlain hplain
  have htext : key.toList.all isTextChar := List.all_eq_true.mpr fun c hc =>
    isTextChar_of_isPlainChar (hall c hc) ((List.all_eq_true.mp hallowed) c hc)
  generalize key.toList = cs at *
  cases cs with
  | nil => exact absurd rfl hne
  | cons c cs =>
    simp only [List.head?_cons, ne_eq, Option.some.injEq] at hspace hdash hdot
    have hindicator : Scanner.isIndicator c = false := by
      by_contra hnot
      have hmem : c ∈ Char.ofNat 0xFEFF :: ':' :: '@' :: '\x60' :: marks := by
        simp only [Scanner.isIndicator, isFlowIndicator, Bool.not_eq_false, Bool.or_eq_true,
          decide_eq_true_eq] at hnot
        simp only [marks, List.mem_cons]
        grind
      have hchar := hall c List.mem_cons_self
      rw [not_isPlainChar c hmem] at hchar
      cases hchar
    simp [isPlainText, hindicator, hspace, hlast, htext, hvalue, hdash, hdot]

theorem Follows.startsBlank {n : Nat} {next more : List Char} (h : Follows next n more) :
    startsBlank next := by
  obtain ⟨rfl, -⟩ := h
  rfl

theorem startsBlank_chunk (c : Nat) (ls : List Line) {next : List Char} (h : startsBlank next) :
    startsBlank (chunk c ls ++ next) := by
  cases ls with
  | nil => exact h
  | cons l ls => rfl

theorem startsBlank_behindColon (c : Nat) (f : Form) {next : List Char} (h : startsBlank next) :
    startsBlank (behindColon c f ++ next) := by
  cases f with
  | leaf l => rfl
  | bare => exact h
  | map entries => exact startsBlank_chunk _ _ h
  | seq items => exact startsBlank_chunk _ _ h

theorem startsBlank_behindDash (c : Nat) (f : Form) {next : List Char} (h : startsBlank next) :
    startsBlank (behindDash c f ++ next) := by
  cases f with
  | bare => exact h
  | _ => rfl

/-- Lines that begin with a token can be entered. -/
def Startable (ls : List Line) : Prop := ∀ c rest, Starts (entered c ls ++ rest)

/-- The first entry or item of a block, and then the others. -/
theorem exists_leads_lines {c n : Nat} {s : Scanner} {b : Blocks} {next more : List Char}
    {ls : List Line} {start : Token} {ts : List Token} (hnext : Follows next n more) (hn : n ≤ c)
    (hb : b.indent = c) (hlimit : (chunk c ls ++ next).length < limit)
    (hfirst : ∀ n' more', Follows (chunk c ls ++ next) n' more' → n' ≤ c → ∃ s₁ b₁,
      Leads limit s s₁ ∧ Arrives limit s₁ more' n' true b₁ ∧ b₁.close c = b)
    (hempty : ls = [] → ts = []) (hrest : ls ≠ [] → ScansLines limit ls start ts)
    (hstarts : ls ≠ [] → Startable ls) : ∃ s' b', Leads limit s s' ∧
      Arrives limit s' more n true b' ∧ b'.close c = b.pushAll ts := by
  by_cases hls : ls = []
  · subst hls
    obtain ⟨s₁, b₁, hleads, hend, hclosed⟩ := hfirst n more hnext hn
    refine ⟨s₁, b₁, hleads, hend, ?_⟩
    rw [hclosed, hempty rfl]
    rfl
  · have hlines : chunk c ls ++ next = '\n' :: (Text.spaces c ++ (entered c ls ++ next)) := by
      rw [chunk_eq_entered hls]
      simp
    obtain ⟨s₁, b₁, hleads, hend, hclosed⟩ :=
      hfirst c (entered c ls ++ next) ⟨hlines, hstarts hls c next⟩ le_rfl
    rw [hlines] at hlimit
    simp only [List.length_cons, List.length_append] at hlimit
    obtain ⟨s', b', hleads', hend', hclosed'⟩ := hrest hls c n s₁ b₁ next more hnext hend hn
      (by rw [hclosed]; omega) (by simp only [List.length_append]; omega)
    refine ⟨s', b', hleads.trans hleads', hend', ?_⟩
    rw [hclosed', hclosed, Blocks.enter_of_eq hb]

theorem scansLines_mapping {key : String} {entries : List (String × Form)} {more : List Token}
    (hkey : isKey key) (hf : ScansValue limit f ts) (hrest : mappingLines entries ≠ [] →
      ScansLines limit (mappingLines entries) .blockMappingStart more)
    (hempty : mappingLines entries = [] → more = [])
    (hstarts : mappingLines entries ≠ [] → Startable (mappingLines entries)) :
    ScansLines limit (mappingLines ((key, f) :: entries)) .blockMappingStart
      (.key :: .scalar true key.toList :: .value :: (ts ++ more)) := by
  intro c n s b next below hnext harrives hn hb hlimit
  rw [entered_mappingLines] at harrives hlimit
  simp only [List.append_assoc, List.cons_append] at harrives
  simp only [List.length_append, List.length_cons] at hlimit
  have hwidth : Text.byteWidth key.toList ≤ 1024 := by
    simp only [isKey, Bool.and_eq_true, decide_eq_true_eq] at hkey
    exact hkey.2
  obtain ⟨p, hp, hcolumn, hleads⟩ := leads_key (isPlainText_of_isKey hkey) hwidth
    (startsBlank_behindColon c f (startsBlank_chunk _ _ hnext.startsBlank)) (by omega) harrives hb
  let b₀ := ((((b.close c).enter c .blockMappingStart).push .key).push
    (.scalar true key.toList)).push .value
  have hb₀ : b₀.indent = c := Blocks.enter_indent hb
  have hfirst : ∀ n' more', Follows (chunk c (mappingLines entries) ++ next) n' more' → n' ≤ c →
      ∃ s₁ b₁, Leads limit s s₁ ∧ Arrives limit s₁ more' n' true b₁ ∧
        b₁.close c = b₀.pushAll ts := by
    intro n' more' hfollows hn'
    obtain ⟨s₁, b₁, hleads₁, hend, hclosed⟩ := hf c n' b₀ p _ more' hfollows hp hn' hb₀ (by omega)
      (by rw [hp]; simp only [List.length_append]; omega)
    exact ⟨s₁, b₁, hleads.trans hleads₁, hend, hclosed⟩
  obtain ⟨s', b', hleads', hend', hclosed'⟩ := exists_leads_lines hnext hn
    (by simpa [Blocks.pushAll] using hb₀) (by simp only [List.length_append]; omega) hfirst hempty
    hrest hstarts
  refine ⟨s', b', hleads', hend', ?_⟩
  rw [hclosed']
  simp [b₀, Blocks.pushAll, Blocks.push]

theorem scansLines_sequence {items : List Form} {more : List Token} (hlines : f = bare ∨ f.lines ≠ [])
    (hf : ScansItem limit f ts) (hrest : sequenceLines items ≠ [] →
      ScansLines limit (sequenceLines items) .blockSequenceStart more)
    (hempty : sequenceLines items = [] → more = [])
    (hstarts : sequenceLines items ≠ [] → Startable (sequenceLines items)) :
    ScansLines limit (sequenceLines (f :: items)) .blockSequenceStart (.blockEntry :: (ts ++ more)) := by
  intro c n s b next below hnext harrives hn hb hlimit
  rw [entered_sequenceLines c f items hlines] at harrives hlimit
  simp only [List.append_assoc, List.cons_append] at harrives
  simp only [List.cons_append, List.length_append, List.length_cons] at hlimit
  obtain ⟨p, hp, hcolumn, hstep⟩ := step?_item harrives
    (startsBlank_behindDash c f (startsBlank_chunk _ _ hnext.startsBlank))
  let b₀ := ((b.close c).enter c .blockSequenceStart).push .blockEntry
  have hb₀ : b₀.indent = c := Blocks.enter_indent hb
  have hleads : Leads limit s (resting p true b₀) := by
    have hshort := harrives.shorter
    refine leads_step hstep ?_
    rw [resting_cursor, hp]
    simp only [List.length_cons, List.length_append] at hshort ⊢
    omega
  have hfirst : ∀ n' more', Follows (chunk c (sequenceLines items) ++ next) n' more' → n' ≤ c →
      ∃ s₁ b₁, Leads limit s s₁ ∧ Arrives limit s₁ more' n' true b₁ ∧
        b₁.close c = b₀.pushAll ts := by
    intro n' more' hfollows hn'
    obtain ⟨s₁, b₁, hleads₁, hend, hclosed⟩ := hf c n' b₀ p _ more' hfollows hp hn' hb₀ hcolumn
      (by rw [hp]; simp only [List.length_append]; omega)
    exact ⟨s₁, b₁, hleads.trans hleads₁, hend, hclosed⟩
  obtain ⟨s', b', hleads', hend', hclosed'⟩ := exists_leads_lines hnext hn
    (by simpa [Blocks.pushAll] using hb₀) (by simp only [List.length_append]; omega) hfirst hempty
    hrest hstarts
  refine ⟨s', b', hleads', hend', ?_⟩
  rw [hclosed']
  simp [b₀, Blocks.pushAll, Blocks.push]

theorem startable_mappingLines {key : String} {entries : List (String × Form)} (h : isKey key) :
    Startable (mappingLines ((key, f) :: entries)) := by
  intro c rest
  rw [entered_mappingLines, List.append_assoc]
  exact starts_of_isPlainText (isPlainText_of_isKey h) _

theorem startable_sequenceLines {items : List Form} (h : f = bare ∨ f.lines ≠ []) :
    Startable (sequenceLines (f :: items)) := by
  intro c rest
  rw [entered_sequenceLines c f items h]
  intro d hd
  obtain rfl : '-' = d := Option.some.inj hd
  decide

theorem entriesSound_cons {key : String} {entries : List (String × Form)} :
    entriesSound ((key, f) :: entries) ↔ isKey key ∧ f.isSound ∧ entriesSound entries := by
  simp [entriesSound, and_assoc]

theorem itemsSound_cons {items : List Form} :
    itemsSound (f :: items) ↔ f.isSound ∧ itemsSound items := by
  simp [itemsSound]

theorem isSound_map {entries : List (String × Form)} : (Form.map entries).isSound ↔
    entries ≠ [] ∧ (entries.map (·.1)).Nodup ∧ entriesSound entries := by
  simp [isSound, and_assoc]

theorem isSound_seq {items : List Form} : (Form.seq items).isSound ↔
    items ≠ [] ∧ itemsSound items := by
  simp [isSound]

theorem startable_of_entriesSound {entries : List (String × Form)} (hne : entries ≠ [])
    (h : entriesSound entries) : Startable (mappingLines entries) := by
  cases entries with
  | nil => exact absurd rfl hne
  | cons e entries => exact startable_mappingLines (entriesSound_cons.mp h).1

theorem startable_of_itemsSound {items : List Form} (hne : items ≠ []) (h : itemsSound items) :
    Startable (sequenceLines items) := by
  cases items with
  | nil => exact absurd rfl hne
  | cons f items =>
    exact startable_sequenceLines (eq_bare_or_lines_ne_nil (itemsSound_cons.mp h).1)

theorem lined_map {entries : List (String × Form)} (hne : entries ≠ [])
    (h : Startable (mappingLines entries)) : Lined (.map entries) :=
  ⟨mappingLines_ne_nil hne, fun _ => rfl, fun _ => rfl, h⟩

theorem lined_seq {items : List Form} (hne : items ≠ []) (h : Startable (sequenceLines items)) :
    Lined (.seq items) :=
  ⟨sequenceLines_ne_nil hne, fun _ => rfl, fun _ => rfl, h⟩

/-- Collections that span lines. -/
def isBlock : Form → Bool
  | map _ => true
  | seq _ => true
  | _ => false

theorem lined_of_isBlock (hf : f.isSound) (hblock : f.isBlock) : Lined f := by
  cases f with
  | map entries =>
    obtain ⟨hne, -, hsound⟩ := isSound_map.mp hf
    exact lined_map hne (startable_of_entriesSound hne hsound)
  | seq items =>
    obtain ⟨hne, hsound⟩ := isSound_seq.mp hf
    exact lined_seq hne (startable_of_itemsSound hne hsound)
  | _ => cases hblock

mutual

theorem scansValue : (f : Form) → f.isSound → ScansValue limit f f.tokens
  | leaf _, h => scansValue_leaf (scansText_leaf h)
  | bare, _ => scansValue_bare
  | map entries, h =>
    have hentries := isSound_map.mp h
    (scansEntries entries hentries.1 hentries.2.2).block.value (lined_of_isBlock h rfl)
  | seq items, h =>
    have hitems := isSound_seq.mp h
    (scansItems items hitems.1 hitems.2).block.value (lined_of_isBlock h rfl)

theorem scansItem : (f : Form) → f.isSound → ScansItem limit f f.tokens
  | leaf _, h => scansItem_leaf (scansText_leaf h)
  | bare, _ => scansItem_bare
  | map entries, h =>
    have hentries := isSound_map.mp h
    (scansEntries entries hentries.1 hentries.2.2).block.item (lined_of_isBlock h rfl)
  | seq items, h =>
    have hitems := isSound_seq.mp h
    (scansItems items hitems.1 hitems.2).block.item (lined_of_isBlock h rfl)

theorem scansEntries : (entries : List (String × Form)) → entries ≠ [] → entriesSound entries →
    ScansLines limit (mappingLines entries) .blockMappingStart (entryTokens entries)
  | [], hne, _ => absurd rfl hne
  | (_, f) :: entries, _, h => by
    obtain ⟨hkey, hf, hrest⟩ := entriesSound_cons.mp h
    have hne (hlines : mappingLines entries ≠ []) : entries ≠ [] := by
      rintro rfl
      exact hlines rfl
    refine scansLines_mapping hkey (scansValue f hf)
      (fun hlines => scansEntries entries (hne hlines) hrest)
      (fun hlines => ?_) (fun hlines => startable_of_entriesSound (hne hlines) hrest)
    cases entries with
    | nil => rfl
    | cons e entries => exact absurd hlines (mappingLines_ne_nil (List.cons_ne_nil _ _))

theorem scansItems : (items : List Form) → items ≠ [] → itemsSound items →
    ScansLines limit (sequenceLines items) .blockSequenceStart (itemTokens items)
  | [], hne, _ => absurd rfl hne
  | f :: items, _, h => by
    obtain ⟨hf, hrest⟩ := itemsSound_cons.mp h
    have hne (hlines : sequenceLines items ≠ []) : items ≠ [] := by
      rintro rfl
      exact hlines rfl
    refine scansLines_sequence (eq_bare_or_lines_ne_nil hf) (scansItem f hf)
      (fun hlines => scansItems items (hne hlines) hrest)
      (fun hlines => ?_) (fun hlines => startable_of_itemsSound (hne hlines) hrest)
    cases items with
    | nil => rfl
    | cons f items => exact absurd hlines (sequenceLines_ne_nil (List.cons_ne_nil _ _))

end

end BlockFlow.Form

import BlockFlow.Proofs.Form.Basic
import BlockFlow.Proofs.Outline.Line
import BlockFlow.Yaml.Scanner
import Mathlib.Tactic.SplitIfs

/-!
How scalars on one line are read: plain ones up to a colon or the end of the line, and quoted ones
up to the closing quote.
-/

namespace BlockFlow.Yaml

/-- Whether a token or the end of a text comes first. -/
def Starts (cs : List Char) : Prop :=
  ∀ c ∈ cs.head?, isBlankOrBreak c = false ∧ c ≠ '#' ∧ c ≠ Char.ofNat 0xFEFF

theorem Starts.head {c : Char} {cs : List Char} (h : Starts (c :: cs)) :
    isBlankOrBreak c = false ∧ c ≠ '#' ∧ c ≠ Char.ofNat 0xFEFF := h c rfl

theorem isBlankOrBreak_of_isTextChar {c : Char} (h : Form.isTextChar c) (hc : c ≠ ' ') :
    isBlankOrBreak c = false := by
  have hblank : Text.isBlank c = false := by
    simp only [Form.isTextChar, Bool.and_eq_true, Bool.or_eq_true, decide_eq_true_eq, hc,
      false_or, Bool.not_eq_true'] at h
    exact h.1.1.1.2
  by_contra hnot
  rw [Bool.not_eq_false] at hnot
  simp only [isBlankOrBreak, isBlank, isBreak, Bool.or_eq_true, decide_eq_true_eq, hc,
    false_or, or_assoc] at hnot
  rcases hnot with rfl | rfl | rfl | h | h | h
  · simp [Text.isBlank] at hblank
  · simp [Text.isBlank] at hblank
  · simp [Text.isBlank] at hblank
  · simp [Text.isBlank, h] at hblank
  · simp [Text.isBlank, h] at hblank
  · simp [Text.isBlank, h] at hblank

namespace Cursor

/-- A place after going past some text of a line. -/
def past (c : Cursor) (cs rest : List Char) : Cursor :=
  ⟨rest, c.offset + Text.byteWidth cs, c.line, c.column + cs.length⟩

theorem skip_eq_past {c : Cursor} {cs rest : List Char} (h : c.rest = cs ++ rest) :
    c.skip cs.length = c.past cs rest := by
  simp [skip, past, h]

theorem skip_one {c : Cursor} {b : Char} {rest : List Char} (h : c.rest = b :: rest) :
    c.skip 1 = c.past [b] rest := skip_eq_past (List.singleton_append ▸ h)

theorem past_past (c : Cursor) (cs ds rest more : List Char) :
    (c.past cs rest).past ds more = c.past (cs ++ ds) more := by
  simp [past, Text.byteWidth_append, Nat.add_assoc]

theorem past_nil (c : Cursor) : c.past [] c.rest = c := rfl

end Cursor

namespace Gap

/-- The blanks of a line belong to a gap within it. -/
theorem take?_spaces {indent fuel : Nat} {g : Gap} {c : Cursor} {rest : List Char} (n : Nat)
    (hg : g.broken = false) (hc : c.rest = Text.spaces n ++ rest) :
    take? indent (n + fuel) g c =
      take? indent fuel { g with blanks := g.blanks ++ Text.spaces n } (c.past (Text.spaces n) rest)
      := by
  induction n generalizing g c with
  | zero =>
    simp only [Text.spaces, List.replicate_zero, List.nil_append] at hc
    simp [Text.spaces, ← hc, c.past_nil]
  | succ n ih =>
    have hcons : c.rest = ' ' :: (Text.spaces n ++ rest) := by
      simpa [Text.spaces, List.replicate_succ] using hc
    rw [Nat.add_right_comm, take?]
    simp only [hcons, isBlank, decide_true, Bool.true_or, if_true, hg, Bool.false_eq_true, if_false]
    rw [Cursor.skip_one hcons, ih rfl rfl, Cursor.past_past]
    simp [Text.spaces, List.replicate_succ]

/-- The indentation of a later line does not count. -/
theorem take?_indentation {indent fuel : Nat} {g : Gap} {c : Cursor} {rest : List Char} (n : Nat)
    (hg : g.broken = true) (hc : c.rest = Text.spaces n ++ rest) :
    take? indent (n + fuel) g c = take? indent fuel g (c.past (Text.spaces n) rest) := by
  induction n generalizing c with
  | zero =>
    simp only [Text.spaces, List.replicate_zero, List.nil_append] at hc
    simp [Text.spaces, ← hc, c.past_nil]
  | succ n ih =>
    have hcons : c.rest = ' ' :: (Text.spaces n ++ rest) := by
      simpa [Text.spaces, List.replicate_succ] using hc
    rw [Nat.add_right_comm, take?]
    have htab : ¬ ((decide (c.column < indent) && decide (' ' = '\t')) = true) := by simp
    simp only [hcons, isBlank, decide_true, Bool.true_or, if_true, hg, htab]
    rw [if_neg (by simp), Cursor.skip_one hcons, ih rfl, Cursor.past_past]
    simp [Text.spaces, List.replicate_succ]

/-- A gap ends in front of anything else. -/
theorem take?_eq_self {indent fuel : Nat} {g : Gap} {c : Cursor}
    (h : ∀ b ∈ c.rest.head?, isBlankOrBreak b = false) : take? indent fuel g c = some (g, c) := by
  cases fuel with
  | zero => rfl
  | succ fuel =>
    rw [take?]
    cases hc : c.rest with
    | nil => rfl
    | cons b rest =>
      rw [hc] at h
      have hb := h b rfl
      simp only [isBlankOrBreak, Bool.or_eq_false_iff] at hb
      simp [hb.1, hb.2]

/-- Blanks between words. -/
theorem take?_between {indent limit n : Nat} {w rest : List Char} {c : Cursor} (hn : n ≤ limit)
    (hrest : ∀ b ∈ rest.head?, isBlankOrBreak b = false) :
    take? indent limit none (c.past w (Text.spaces n ++ rest)) =
      some ({ none with blanks := Text.spaces n }, c.past (w ++ Text.spaces n) rest) := by
  obtain ⟨k, rfl⟩ : ∃ k, limit = n + k := ⟨limit - n, by omega⟩
  rw [take?_spaces n rfl rfl, take?_eq_self hrest, Cursor.past_past]
  rfl

end Gap

section Plain

/-- The spaces in front of a text that does not end in a space. -/
theorem exists_spaces {cs : List Char} (hne : cs ≠ []) (hlast : cs.getLast? ≠ some ' ') :
    ∃ n text, cs = Text.spaces n ++ text ∧ text ≠ [] ∧ text.head? ≠ some ' ' ∧
      text.getLast? ≠ some ' ' := by
  induction cs with
  | nil => exact absurd rfl hne
  | cons c cs ih =>
    by_cases hc : c = ' '
    · have hcs : cs ≠ [] := by
        intro hnil
        simp [hc, hnil] at hlast
      rw [List.getLast?_cons_of_ne_nil hcs] at hlast
      obtain ⟨n, text, rfl, htext⟩ := ih hcs hlast
      exact ⟨n + 1, text, by simp [hc, Text.spaces, List.replicate_succ], htext⟩
    · exact ⟨0, c :: cs, rfl, by simp, by simpa using hc, hlast⟩

/-- The first word of a text, and what comes behind the spaces after it. -/
theorem exists_word {text : List Char} (hne : text ≠ []) (hfirst : text.head? ≠ some ' ')
    (hlast : text.getLast? ≠ some ' ') : (∀ c ∈ text, c ≠ ' ') ∨
      ∃ w n rest, text = w ++ (' ' :: Text.spaces n ++ rest) ∧ w ≠ [] ∧ (∀ c ∈ w, c ≠ ' ') ∧
        rest ≠ [] ∧ rest.head? ≠ some ' ' ∧ rest.getLast? ≠ some ' ' := by
  induction text with
  | nil => exact absurd rfl hne
  | cons c cs ih =>
    have hc : c ≠ ' ' := by simpa using hfirst
    cases cs with
    | nil => exact .inl (by simpa using hc)
    | cons d cs =>
      rw [List.getLast?_cons_of_ne_nil (by simp)] at hlast
      by_cases hd : d = ' '
      · have hcs : cs ≠ [] := by
          intro hnil
          simp [hd, hnil] at hlast
        rw [List.getLast?_cons_of_ne_nil hcs] at hlast
        obtain ⟨n, rest, rfl, hrest⟩ := exists_spaces hcs hlast
        exact .inr ⟨[c], n, rest, by simp [hd], by simp, by simpa using hc, hrest⟩
      · rcases ih (by simp) (by simpa using hd) hlast with hall | ⟨w, n, rest, heq, -, hw, hrest⟩
        · exact .inl (List.forall_mem_cons.mpr ⟨hc, hall⟩)
        · exact .inr ⟨c :: w, n, rest, by simp [heq], by simp,
            List.forall_mem_cons.mpr ⟨hc, hw⟩, hrest⟩

/-- What ends a part of a plain scalar. Inside brackets (`flow`) their indicators do, too. -/
def EndsPart (flow : Bool) (cs : List Char) : Prop :=
  cs = [] ∨ (∃ c rest, cs = c :: rest ∧ isBlankOrBreak c) ∨
    (∃ rest, cs = ':' :: rest ∧ startsBlank rest) ∨
    flow = true ∧ ∃ c rest, cs = c :: rest ∧ isFlowIndicator c

/-- The characters inside a part of a plain scalar. -/
def IsPartChar (flow : Bool) (c : Char) : Prop :=
  isBlankOrBreak c = false ∧ c ≠ ':' ∧ (flow && isFlowIndicator c) = false

variable {flow : Bool}

theorem not_isFlowIndicator_of_isBlankOrBreak {d : Char} (h : isBlankOrBreak d) :
    isFlowIndicator d = false ∧ d ≠ '?' := by
  have hne (e : Char) (he : isBlankOrBreak e = false) : d ≠ e := by
    rintro rfl
    simp [he] at h
  refine ⟨?_, hne '?' (by decide)⟩
  simp [isFlowIndicator, hne ',' (by decide), hne '[' (by decide), hne ']' (by decide),
    hne '{' (by decide), hne '}' (by decide)]

theorem plainPart?_append {w rest : List Char} (hw : ∀ c ∈ w, IsPartChar flow c)
    (hrest : EndsPart flow rest) : plainPart? flow (w ++ rest) = some w := by
  induction w with
  | nil =>
    rcases hrest with rfl | ⟨c, rest, rfl, hc⟩ | ⟨rest, rfl, hblank⟩ | ⟨rfl, c, rest, rfl, hc⟩
    · rfl
    · simp [plainPart?, hc]
    · cases rest with
      | nil => simp [plainPart?, startsBlank]
      | cons d rest =>
        obtain ⟨hd, hquestion⟩ := not_isFlowIndicator_of_isBlankOrBreak hblank
        simp [plainPart?, hblank, hd, hquestion]
    · have hcolon : c ≠ ':' := by
        rintro rfl
        cases hc
      simp [plainPart?, hc, hcolon]
  | cons c w ih =>
    have ih := ih fun c hc => hw c (List.mem_cons_of_mem _ hc)
    obtain ⟨hblank, hcolon, hflow⟩ := hw c List.mem_cons_self
    simp [plainPart?, hblank, hcolon, hflow, ih]

variable {limit indent : Nat}

/-- Goes on with a plain scalar behind one of its words. -/
def afterWord (limit : Nat) (flow : Bool) (indent fuel : Nat) (done : List Char) (c : Cursor) :
    Option (List Char × Bool × Cursor) :=
  if c.atBlank || c.atBreak then do
    let (gap, c) ← Gap.take? indent limit Gap.none c
    if !flow && c.column < indent then some (done, gap.broken, c)
    else plainScalar? limit flow indent fuel done gap c
  else some (done, false, c)

theorem plainScalar?_word {fuel : Nat} {done w rest : List Char} {gap : Gap} {c : Cursor}
    (hc : c.rest = w ++ rest) (hw : ∀ c ∈ w, IsPartChar flow c) (hne : w ≠ [])
    (hhash : w.head? ≠ some '#') (hmark : c.atDocumentMark = false) (hrest : EndsPart flow rest) :
    plainScalar? limit flow indent (fuel + 1) done gap c =
      afterWord limit flow indent fuel (done ++ gap.fold ++ w) (c.past w rest) := by
  have hhead : ¬ (c.rest.head? = some '#') := by
    rw [hc]
    cases w with
    | nil => exact absurd rfl hne
    | cons b w => exact hhash
  have hempty : w.isEmpty = false := by simpa using hne
  have hpart : plainPart? flow c.rest = some w := by
    rw [hc]
    exact plainPart?_append hw hrest
  have hskip : c.skip w.length = c.past w rest := Cursor.skip_eq_past hc
  rw [plainScalar?, if_neg (by simp [hmark, hhead])]
  simp only [hpart, Option.bind_eq_bind, Option.bind_some, hempty, Bool.false_eq_true, if_false,
    hskip, afterWord]
  rfl

/-- A text is read word by word. -/
theorem exists_plainScalar?_eq {text rest : List Char} (htext : text.all Form.isTextChar)
    (hflow : ∀ d ∈ text, (flow && isFlowIndicator d) = false)
    (hne : text ≠ []) (hfirst : text.head? ≠ some ' ') (hlast : text.getLast? ≠ some ' ')
    (hrest : EndsPart flow rest) {fuel : Nat} (hfuel : text.length < fuel)
    (hlimit : text.length < limit) {done : List Char} {gap : Gap} {c : Cursor}
    (hc : c.rest = text ++ rest) (hindent : flow = true ∨ indent ≤ c.column + 1)
    (hmark : c.atDocumentMark = false) :
    ∃ fuel', plainScalar? limit flow indent fuel done gap c =
      afterWord limit flow indent fuel' (done ++ gap.fold ++ text) (c.past text rest) := by
  induction fuel generalizing text done gap c with
  | zero => omega
  | succ fuel ih =>
    have hchar : ∀ d ∈ text, Form.isTextChar d := by simpa using htext
    have hword {d : Char} (hd : d ∈ text) (hspace : d ≠ ' ') : IsPartChar flow d := by
      refine ⟨isBlankOrBreak_of_isTextChar (hchar d hd) hspace, ?_, hflow d hd⟩
      rintro rfl
      simpa [Form.isTextChar] using hchar ':' hd
    have hhash {cs : List Char} (hcs : ∀ d ∈ cs, d ∈ text) : cs.head? ≠ some '#' := by
      intro hhead
      simpa [Form.isTextChar] using hchar '#' (hcs _ (List.mem_of_head? hhead))
    rcases exists_word hne hfirst hlast with hall | ⟨w, n, more, rfl, hw, hspace, hmore⟩
    · exact ⟨fuel, plainScalar?_word hc (fun d hd => hword hd (hall d hd)) hne
        (hhash fun _ => id) hmark hrest⟩
    · obtain ⟨hmore, hmorefirst, hmorelast⟩ := hmore
      have hstep : plainScalar? limit flow indent (fuel + 1) done gap c =
          afterWord limit flow indent fuel (done ++ gap.fold ++ w)
            (c.past w (Text.spaces (n + 1) ++ (more ++ rest))) :=
        plainScalar?_word (by simpa [Text.spaces, List.replicate_succ] using hc)
          (fun d hd => hword (List.mem_append_left _ hd) (hspace d hd)) hw
          (hhash fun d hd => List.mem_append_left _ hd) hmark
          (.inr (.inl ⟨' ', _, rfl, by decide⟩))
      have hlen : 0 < w.length := List.length_pos_iff.mpr hw
      simp only [List.length_append, List.length_cons, Text.spaces,
        List.length_replicate] at hfuel hlimit
      have hgap : Gap.take? indent limit Gap.none
          (c.past w (Text.spaces (n + 1) ++ (more ++ rest))) =
          some ({ Gap.none with blanks := Text.spaces (n + 1) },
            (c.past (w ++ Text.spaces (n + 1)) (more ++ rest))) := by
        refine Gap.take?_between (by omega) fun b hb => ?_
        cases more with
        | nil => exact absurd rfl hmore
        | cons d more =>
          obtain rfl : d = b := Option.some.inj hb
          exact (hword (by simp) (by simpa using hmorefirst)).1
      have hcolumn : 0 < (c.past (w ++ Text.spaces (n + 1)) (more ++ rest)).column := by
        simp only [Cursor.past, List.length_append]
        omega
      obtain ⟨fuel', hrec⟩ : ∃ fuel', plainScalar? limit flow indent fuel (done ++ gap.fold ++ w)
          { Gap.none with blanks := Text.spaces (n + 1) }
          (c.past (w ++ Text.spaces (n + 1)) (more ++ rest)) =
          afterWord limit flow indent fuel' (done ++ gap.fold ++ w ++ Text.spaces (n + 1) ++ more)
            ((c.past (w ++ Text.spaces (n + 1)) (more ++ rest)).past more rest) :=
        ih (List.all_eq_true.mpr fun d hd => hchar d (by simp [hd]))
          (fun d hd => hflow d (by simp [hd])) hmore hmorefirst hmorelast
          (by omega) (by omega) rfl
          (hindent.imp_right fun h => by simp only [Cursor.past, List.length_append]; omega)
          (by simp [Cursor.atDocumentMark, Cursor.atMark, hcolumn.ne'])
      refine ⟨fuel', ?_⟩
      rw [hstep, afterWord, if_pos (by simp [Cursor.atBlank, Cursor.past, Text.spaces,
        List.replicate_succ, isBlank])]
      have hinside : ¬ ((!flow && decide ((c.past (w ++ Text.spaces (n + 1)) (more ++ rest)).column <
          indent)) = true) := by
        simp only [Cursor.past, List.length_append, Bool.and_eq_true, Bool.not_eq_true',
          decide_eq_true_eq, not_and]
        intro hnot
        have hle := hindent.resolve_left (by simp [hnot])
        omega
      simp only [hgap, Option.bind_eq_bind, Option.bind_some]
      rw [if_neg hinside, hrec, Cursor.past_past]
      simp [Text.spaces, List.replicate_succ]

theorem isPlainText_ne_nil {text : List Char} (h : Form.isPlainText text) : text ≠ [] := by
  rintro rfl
  cases h

theorem chars_of_isPlainText {text : List Char} (h : Form.isPlainText text) :
    text.all Form.isTextChar ∧ text.head? ≠ some ' ' ∧ text.getLast? ≠ some ' ' := by
  cases text with
  | nil => cases h
  | cons c cs =>
    simp only [Form.isPlainText, Bool.and_eq_true, decide_eq_true_eq] at h
    obtain ⟨⟨⟨⟨⟨⟨-, hfirst⟩, hlast⟩, hall⟩, -⟩, -⟩, -⟩ := h
    exact ⟨hall, by simpa using hfirst, hlast⟩

/-- A plain scalar ends at the end of its line when less indentation follows. -/
theorem exists_plainScalar?_line {text rest : List Char} {n : Nat} (h : Form.isPlainText text)
    {fuel : Nat} (hfuel : text.length < fuel) (hlimit : text.length + n < limit) {c : Cursor}
    (hc : c.rest = text ++ '\n' :: (Text.spaces n ++ rest))
    (hrest : ∀ b ∈ rest.head?, isBlankOrBreak b = false) (hindent : indent ≤ c.column + 1)
    (hmark : c.atDocumentMark = false) (hn : n < indent) :
    ∃ offset, plainScalar? limit false indent fuel [] Gap.none c =
      some (text, true, ⟨rest, offset, c.line + 1, n⟩) := by
  obtain ⟨hall, hfirst, hlast⟩ := chars_of_isPlainText h
  obtain ⟨fuel', heq⟩ : ∃ fuel', plainScalar? limit false indent fuel [] Gap.none c =
      afterWord limit false indent fuel' text (c.past text ('\n' :: (Text.spaces n ++ rest))) :=
    exists_plainScalar?_eq hall (fun _ _ => rfl) (isPlainText_ne_nil h) hfirst hlast
      (.inr (.inl ⟨'\n', _, rfl, by decide⟩)) hfuel (by omega) hc (.inr hindent) hmark
  obtain ⟨k, rfl⟩ : ∃ k, limit = n + k + 1 := ⟨limit - (n + 1), by omega⟩
  have hgap : Gap.take? indent (n + k + 1) Gap.none
      (c.past text ('\n' :: (Text.spaces n ++ rest))) =
      some (⟨[], ['\n'], [], true⟩,
        (⟨Text.spaces n ++ rest, (c.past text []).offset + 1, c.line + 1, 0⟩ : Cursor).past
          (Text.spaces n) rest) := by
    have hbreak : Gap.take? indent (n + k + 1) Gap.none
        (c.past text ('\n' :: (Text.spaces n ++ rest))) = Gap.take? indent (n + k)
          ⟨[], ['\n'], [], true⟩
          ⟨Text.spaces n ++ rest, (c.past text []).offset + 1, c.line + 1, 0⟩ := rfl
    rw [hbreak, Gap.take?_indentation n rfl rfl, Gap.take?_eq_self hrest]
  refine ⟨(c.past text []).offset + 1 + Text.byteWidth (Text.spaces n), ?_⟩
  rw [heq, afterWord, if_pos (by simp [Cursor.atBreak, Cursor.past, isBreak])]
  simp only [hgap, Option.bind_eq_bind, Option.bind_some]
  rw [if_pos (by simpa [Cursor.past, Text.spaces] using hn)]
  simp [Cursor.past, Text.spaces]

/-- A plain scalar ends in front of a colon and at the end of the text, and inside brackets in front
of their indicators. -/
theorem plainScalar?_stop {text rest : List Char} (h : Form.isPlainText text)
    (hflow : ∀ d ∈ text, (flow && isFlowIndicator d) = false)
    {fuel : Nat} (hfuel : text.length < fuel) (hlimit : text.length < limit) {c : Cursor}
    (hc : c.rest = text ++ rest)
    (hrest : rest = [] ∨ (∃ more, rest = ':' :: more ∧ startsBlank more) ∨
      flow = true ∧ ∃ d more, rest = d :: more ∧ isFlowIndicator d)
    (hindent : flow = true ∨ indent ≤ c.column + 1) (hmark : c.atDocumentMark = false) :
    plainScalar? limit flow indent fuel [] Gap.none c = some (text, false, c.past text rest) := by
  obtain ⟨hall, hfirst, hlast⟩ := chars_of_isPlainText h
  obtain ⟨fuel', heq⟩ : ∃ fuel', plainScalar? limit flow indent fuel [] Gap.none c =
      afterWord limit flow indent fuel' text (c.past text rest) :=
    exists_plainScalar?_eq hall hflow (isPlainText_ne_nil h) hfirst hlast (hrest.imp_right .inr)
      hfuel hlimit hc hindent hmark
  have hstop : ((c.past text rest).atBlank || (c.past text rest).atBreak) = false := by
    rcases hrest with rfl | ⟨more, rfl, -⟩ | ⟨-, d, more, rfl, hd⟩
    · rfl
    · simp [Cursor.atBlank, Cursor.atBreak, Cursor.past, isBlank, isBreak]
    · have hall : [',', '[', ']', '{', '}'].all fun e => !isBlank e && !isBreak e := by decide
      have hmem : d ∈ [',', '[', ']', '{', '}'] := by
        simpa [isFlowIndicator, or_assoc] using hd
      have hmark : isBlank d = false ∧ isBreak d = false := by
        simpa using List.all_eq_true.mp hall d hmem
      simp [Cursor.atBlank, Cursor.atBreak, Cursor.past, hmark]
  rw [heq, afterWord, if_neg (by simp [hstop])]

end Plain

section Quoted

open Text.Quoted

/-- What an escape spells does not depend on the text behind it. -/
theorem readEscape?_append {e rest : List Char} {c : Char}
    (h : readEscape? e = some (c, e.length)) : readEscape? (e ++ rest) = some (c, e.length) := by
  cases e with
  | nil => cases h
  | cons b e =>
    simp only [readEscape?, List.cons_append] at h ⊢
    cases hwidth : escapeWidth? b with
    | none => simpa [hwidth] using h
    | some width =>
      simp only [hwidth] at h ⊢
      split at h
      · cases h
      · rename_i hlen
        rw [if_neg (by simp only [List.length_append]; omega),
          List.take_append_of_le_length (by omega)]
        exact h

/-- Whether a character is written as an escape that reads as the character. -/
def isEscaped (c : Char) : Bool :=
  match encodeChar c with
  | '\\' :: e => e.head?.all (!isBreak ·) && readEscape? e = some (c, e.length)
  | _ => false

theorem isEscaped_control : ∀ n < 32, isEscaped (Char.ofNat n) := by decide

/-- A character other than a space stands for itself between quotes, or it is escaped. -/
theorem encodeChar_read {c : Char} (h : Form.isQuotable c) (hc : c ≠ ' ') :
    (encodeChar c = [c] ∧ c ≠ '"' ∧ c ≠ '\\' ∧ isBlankOrBreak c = false) ∨ isEscaped c := by
  by_cases hlow : c.toNat < 32
  · have hcontrol := isEscaped_control c.toNat hlow
    rw [Char.ofNat_toNat] at hcontrol
    exact .inr hcontrol
  · by_cases hquote : c = '"'
    · subst hquote
      exact .inr (by decide)
    · by_cases hslash : c = '\\'
      · subst hslash
        exact .inr (by decide)
      · have hother (d : Char) (hd : d.toNat < 32) : c ≠ d := by
          rintro rfl
          exact hlow hd
        have hbreak : isBreak c = false := by
          simp only [Form.isQuotable, hlow, decide_false, Bool.false_or, Bool.and_eq_true,
            Bool.not_eq_true'] at h
          exact h.2
        refine .inl ⟨?_, hquote, hslash, ?_⟩
        · simp only [encodeChar, hquote, hslash, hother '\n' (by decide), hother '\r' (by decide),
            hother '\t' (by decide), if_false, hlow]
          rw [if_neg (by omega), if_neg (by omega)]
        · simp [isBlankOrBreak, isBlank, hc, hother '\t' (by decide), hbreak]

/-- A quoted text is read character by character. -/
theorem quotedPart?_char {c : Char} (h : Form.isQuotable c) (hc : c ≠ ' ') {fuel : Nat}
    {done rest : List Char} {p : Cursor} (hp : p.rest = encodeChar c ++ rest) :
    quotedPart? false (fuel + 1) done p =
      quotedPart? false fuel (c :: done) (p.past (encodeChar c) rest) := by
  rcases encodeChar_read h hc with ⟨hself, hquote, hslash, hblank⟩ | hescaped
  · have hskip : p.skip 1 = p.past [c] rest := Cursor.skip_eq_past (hself ▸ hp)
    rw [hself] at hp ⊢
    rw [quotedPart?]
    simp [hp, hblank, hquote, hslash, hskip]
  · unfold isEscaped at hescaped
    split at hescaped
    · rename_i e he
      simp only [Bool.and_eq_true, decide_eq_true_eq] at hescaped
      obtain ⟨hhead, hread⟩ := hescaped
      have hskip : p.skip (e.length + 1) = p.past ('\\' :: e) rest :=
        Cursor.skip_eq_past (he ▸ hp)
      rw [he] at hp ⊢
      have hread' : readEscape? (e ++ rest) = some (c, e.length) := readEscape?_append hread
      cases e with
      | nil => cases hread
      | cons d e =>
        have hbreak : isBreak d = false := by simpa using hhead
        rw [quotedPart?]
        simp only [hp, List.cons_append]
        rw [if_neg (by decide), if_neg (by decide), if_neg (by decide), if_pos trivial,
          if_neg (by simp [hbreak])]
        simp only [List.cons_append] at hread'
        simp [hread', ← hskip]
    · cases hescaped

/-- The part of a quoted text up to a blank or the closing quote. -/
theorem quotedPart?_word {w rest : List Char} (hw : ∀ c ∈ w, Form.isQuotable c ∧ c ≠ ' ')
    (hrest : ∃ b more, rest = b :: more ∧ (b = ' ' ∨ b = '"')) {fuel : Nat}
    (hfuel : w.length < fuel) {done : List Char} {p : Cursor}
    (hp : p.rest = w.flatMap encodeChar ++ rest) : quotedPart? false fuel done p =
      some (w.reverse ++ done, false, p.past (w.flatMap encodeChar) rest) := by
  induction w generalizing fuel done p with
  | nil =>
    obtain ⟨b, more, rfl, hb⟩ := hrest
    obtain ⟨fuel, rfl⟩ : ∃ k, fuel = k + 1 := ⟨fuel - 1, by simp at hfuel; omega⟩
    have hp : p.rest = b :: more := by simpa using hp
    have hpast : p.past [] (b :: more) = p := by rw [← hp, Cursor.past_nil]
    rw [quotedPart?]
    rcases hb with rfl | rfl
    · simp [hp, hpast, isBlankOrBreak, isBlank]
    · simp [hp, hpast, isBlankOrBreak, isBlank, isBreak]
  | cons c w ih =>
    obtain ⟨⟨hc, hspace⟩, hw⟩ := List.forall_mem_cons.mp hw
    obtain ⟨fuel, rfl⟩ : ∃ k, fuel = k + 1 := ⟨fuel - 1, by simp at hfuel; omega⟩
    have hp : p.rest = encodeChar c ++ (w.flatMap encodeChar ++ rest) := by simpa using hp
    rw [quotedPart?_char hc hspace hp, ih hw (by simpa using hfuel) rfl, Cursor.past_past]
    simp

/-- A text up to its first space, and what comes behind the spaces there. -/
theorem exists_word_spaces (cs : List Char) : ∃ w n more, cs = w ++ (Text.spaces n ++ more) ∧
    (∀ c ∈ w, c ≠ ' ') ∧ (n = 0 → more = []) ∧ more.head? ≠ some ' ' := by
  let tail := cs.dropWhile (· ≠ ' ')
  have hspaces : tail.takeWhile (· = ' ') =
      Text.spaces (tail.takeWhile (· = ' ')).length := by
    apply List.eq_replicate_of_mem
    intro c hc
    simpa using List.mem_takeWhile_imp hc
  refine ⟨cs.takeWhile (· ≠ ' '), (tail.takeWhile (· = ' ')).length, tail.dropWhile (· = ' '),
    ?_, ?_, ?_, ?_⟩
  · rw [← hspaces, List.takeWhile_append_dropWhile, List.takeWhile_append_dropWhile]
  · intro c hc
    simpa using List.mem_takeWhile_imp hc
  · intro hn
    cases htail : tail with
    | nil => rfl
    | cons c rest =>
      have hc : c = ' ' := by
        have hhead := List.head?_dropWhile_not (fun c => decide (c ≠ ' ')) cs
        rw [show cs.dropWhile (fun c => decide (c ≠ ' ')) = c :: rest from htail] at hhead
        simpa using hhead
      simp [htail, hc] at hn
  · intro hhead
    have hnot := List.head?_dropWhile_not (fun c => decide (c = ' ')) tail
    rw [hhead] at hnot
    simp at hnot

theorem encodeChar_ne_nil (c : Char) : encodeChar c ≠ [] := by
  unfold encodeChar
  split_ifs <;> simp

theorem length_le_flatMap_encodeChar (cs : List Char) :
    cs.length ≤ (cs.flatMap encodeChar).length := by
  induction cs with
  | nil => simp
  | cons c cs ih =>
    have hc : 0 < (encodeChar c).length := List.length_pos_iff.mpr (encodeChar_ne_nil c)
    simp only [List.flatMap_cons, List.length_cons, List.length_append]
    omega

theorem isBlankOrBreak_encodeChar {c : Char} (h : Form.isQuotable c) (hc : c ≠ ' ') :
    ∀ b ∈ (encodeChar c).head?, isBlankOrBreak b = false := by
  rcases encodeChar_read h hc with ⟨hself, -, -, hblank⟩ | hescaped
  · simpa [hself] using hblank
  · unfold isEscaped at hescaped
    split at hescaped
    · rename_i he
      simp only [he, List.head?_cons, Option.mem_some_iff, forall_eq']
      decide
    · cases hescaped

theorem flatMap_spaces (n : Nat) : (Text.spaces n).flatMap encodeChar = Text.spaces n := by
  have hspace : encodeChar ' ' = [' '] := by decide
  induction n with
  | zero => rfl
  | succ n ih =>
    rw [Text.spaces, List.replicate_succ, List.flatMap_cons, hspace]
    exact congrArg (' ' :: ·) ih

/-- The words and the spaces of a text are read back from between quotes. -/
theorem quotedScalar?_chars {limit : Nat} {cs rest : List Char} (hcs : cs.all Form.isQuotable)
    {fuel : Nat} (hfuel : cs.length < fuel) (hlimit : cs.length < limit) {done : List Char}
    {p : Cursor} (hp : p.rest = cs.flatMap encodeChar ++ '"' :: rest) (hcolumn : 0 < p.column) :
    quotedScalar? limit false fuel done p =
      some (done.reverse ++ cs, p.past (cs.flatMap encodeChar ++ ['"']) rest) := by
  induction fuel generalizing cs done p with
  | zero => omega
  | succ fuel ih =>
    have hchar : ∀ c ∈ cs, Form.isQuotable c := by simpa using hcs
    have hmark : (p.atDocumentMark || p.rest.isEmpty) = false := by
      simp [Cursor.atDocumentMark, Cursor.atMark, hcolumn.ne', hp]
    obtain ⟨w, n, more, rfl, hw, hn, hmore⟩ := exists_word_spaces cs
    have hspaces : (Text.spaces n).flatMap encodeChar = Text.spaces n := flatMap_spaces n
    have hp : p.rest = w.flatMap encodeChar ++
        (Text.spaces n ++ (more.flatMap encodeChar ++ '"' :: rest)) := by
      simpa [hspaces] using hp
    have hpart : quotedPart? false limit done p = some (w.reverse ++ done, false,
        p.past (w.flatMap encodeChar)
          (Text.spaces n ++ (more.flatMap encodeChar ++ '"' :: rest))) := by
      refine quotedPart?_word (fun c hc => ⟨hchar c (by simp [hc]), hw c hc⟩) ?_ ?_ hp
      · cases n with
        | zero => exact ⟨'"', rest, by simp [hn rfl, Text.spaces], .inr rfl⟩
        | succ n => exact ⟨' ', _, rfl, .inl rfl⟩
      · simp only [List.length_append] at hlimit
        omega
    rw [quotedScalar?, if_neg (by simp [hmark])]
    simp only [hpart, Option.bind_eq_bind, Option.bind_some]
    cases n with
    | zero =>
      obtain rfl := hn rfl
      rw [if_pos (by simp [Cursor.past, Text.spaces])]
      have hskip (q : Cursor) (hq : q.rest = '"' :: rest) : q.skip 1 = q.past ['"'] rest :=
        Cursor.skip_one hq
      rw [hskip _ rfl, Cursor.past_past]
      simp [Text.spaces]
    | succ n =>
      have hgap : Gap.take? 0 limit Gap.none (p.past (w.flatMap encodeChar)
          (Text.spaces (n + 1) ++ (more.flatMap encodeChar ++ '"' :: rest))) =
          some ({ Gap.none with blanks := Text.spaces (n + 1) },
            p.past (w.flatMap encodeChar ++ Text.spaces (n + 1))
              (more.flatMap encodeChar ++ '"' :: rest)) := by
        simp only [List.length_append, Text.spaces, List.length_replicate] at hlimit
        refine Gap.take?_between (by omega) fun b hb => ?_
        cases more with
        | nil =>
          obtain rfl : '"' = b := Option.some.inj hb
          decide
        | cons d more =>
          have hd : d ≠ ' ' := by simpa using hmore
          refine isBlankOrBreak_encodeChar (hchar d (by simp)) hd b ?_
          cases he : encodeChar d with
          | nil => exact absurd he (encodeChar_ne_nil d)
          | cons e es => simpa [he] using hb
      rw [if_neg (by simp [Cursor.past, Text.spaces, List.replicate_succ])]
      simp only [Bool.false_eq_true, if_false, hgap, Option.bind_some]
      simp only [List.length_append, Text.spaces, List.length_replicate] at hfuel hlimit
      rw [ih (List.all_eq_true.mpr fun c hc => hchar c (by simp [hc])) (by omega) (by omega) rfl
        (by simp only [Cursor.past]; omega), Cursor.past_past]
      simp [Gap.fold, Gap.none, hspaces]

end Quoted

end BlockFlow.Yaml

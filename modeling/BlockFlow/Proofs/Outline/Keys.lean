import BlockFlow.Proofs.Outline.Line

/-!
Which keys are read back as they were written. Main statement: these are the keys in which nothing
is escaped, for the reader of a line does not undo escapes.
-/

namespace BlockFlow

namespace Text

theorem not_mem_of_splitFirst? {m : Char} {cs ds es : List Char}
    (h : splitFirst? [m] cs = some (ds, es)) : m ∉ ds := by
  induction cs generalizing ds with
  | nil => cases h
  | cons c cs ih =>
    rw [splitFirst?] at h
    split at h
    · cases h
      exact List.not_mem_nil
    · rename_i hmark
      obtain ⟨⟨before, after⟩, hsplit, heq⟩ := Option.map_eq_some_iff.mp h
      cases heq
      have hne : m ≠ c := by
        rintro rfl
        exact hmark (by simp)
      simp [hne, ih hsplit]

namespace Quoted

variable {c : Char} {cs : List Char}

/-- A character stands for itself between quotes. -/
def IsBare (c : Char) : Prop := c ≠ '"' ∧ c ≠ '\\' ∧ 32 ≤ c.toNat

instance : DecidablePred IsBare := fun _ => inferInstanceAs (Decidable (_ ∧ _ ∧ _))

theorem encodeChar_of_isBare (h : IsBare c) : encodeChar c = [c] := by
  obtain ⟨hquote, hslash, hcode⟩ := h
  have hcontrol : ∀ d : Char, d.toNat < 32 → c ≠ d := by
    rintro _ hlt rfl
    omega
  rw [encodeChar, if_neg hquote, if_neg hslash, if_neg (hcontrol _ (by decide)),
    if_neg (hcontrol _ (by decide)), if_neg (hcontrol _ (by decide)), if_neg (by omega),
    if_neg (by omega), if_neg (by omega)]

/-- An escape is longer than the character it stands for. -/
theorem length_encodeChar (c : Char) : IsBare c ∨ 2 ≤ (encodeChar c).length := by
  by_cases h : IsBare c
  · exact .inl h
  · right
    unfold encodeChar
    split_ifs with h₁ h₂ h₃ h₄ h₅ h₆ h₇ h₈
    case neg => exact absurd ⟨h₁, h₂, by omega⟩ h
    all_goals simp

theorem length_le_flatMap_encodeChar (cs : List Char) :
    cs.length ≤ (cs.flatMap encodeChar).length := by
  induction cs with
  | nil => exact Nat.le_refl 0
  | cons c cs ih =>
    rw [List.flatMap_cons, List.length_append, List.length_cons]
    rcases length_encodeChar c with hbare | hlong
    · rw [encodeChar_of_isBare hbare, List.length_singleton]
      omega
    · omega

/-- A text is its own written form exactly when nothing in it is escaped. -/
theorem flatMap_encodeChar_eq_self : cs.flatMap encodeChar = cs ↔ ∀ c ∈ cs, IsBare c := by
  constructor
  · intro h
    induction cs with
    | nil => simp
    | cons c cs ih =>
      rw [List.flatMap_cons] at h
      rcases length_encodeChar c with hbare | hlong
      · rw [encodeChar_of_isBare hbare, List.singleton_append, List.cons.injEq] at h
        exact List.forall_mem_cons.mpr ⟨hbare, ih h.2⟩
      · have hlength := congrArg List.length h
        have hrest := length_le_flatMap_encodeChar cs
        rw [List.length_append, List.length_cons] at hlength
        omega
  · intro h
    induction cs with
    | nil => rfl
    | cons c cs ih =>
      obtain ⟨hc, hcs⟩ := List.forall_mem_cons.mp h
      rw [List.flatMap_cons, encodeChar_of_isBare hc, ih hcs, List.singleton_append]

/-- Escapes bring in no quotes. -/
theorem quote_not_mem_flatMap (h : '"' ∉ cs) : '"' ∉ cs.flatMap encodeChar := by
  have hdigit : ∀ n < 16, hexDigit n ≠ '"' := by decide
  rw [List.mem_flatMap]
  rintro ⟨c, hc, hmem⟩
  have hquote : '"' ≠ c := fun heq => h (heq ▸ hc)
  unfold encodeChar at hmem
  split_ifs at hmem with h₁ h₂ h₃ h₄ h₅ h₆ h₇ h₈
  case pos => exact hquote h₁.symm
  all_goals simp at hmem
  · rcases hmem with heq | heq
    · exact hdigit _ (by omega) heq.symm
    · exact hdigit _ (by omega) heq.symm
  · exact hquote hmem

end Quoted

end Text

namespace Outline

open Text.Quoted (IsBare)

variable {c : Char} {key text : Line}

theorem isBare_of_isPlainChar (h : isPlainChar c) : IsBare c := by
  have hcontrol : ∀ n < 32, isPlainChar (Char.ofNat n) = false := by decide +kernel
  have hslash : isPlainChar '\\' = false := by decide +kernel
  refine ⟨?_, ?_, ?_⟩
  · rintro rfl
    exact absurd (isPlainChar_special '"' (by simp)) (by simp [h])
  · rintro rfl
    exact absurd hslash (by simp [h])
  · by_contra hlt
    have hfalse := hcontrol c.toNat (by omega)
    rw [Char.ofNat_toNat, h] at hfalse
    cases hfalse

/-- A key between quotes is read as it is written there: escapes are not undone. -/
theorem key?_quoted (h : '"' ∉ key) :
    (keyed (Text.Quoted.encode key) text).key? = some (key.flatMap Text.Quoted.encodeChar) := by
  have hsplit : Text.splitFirst? ['"']
      (key.flatMap Text.Quoted.encodeChar ++ '"' :: ':' :: ' ' :: text) =
        some (key.flatMap Text.Quoted.encodeChar, ':' :: ' ' :: text) := by
    have hfirst : Text.splitFirst? ['"'] (key.flatMap Text.Quoted.encodeChar ++ ['"'] ++
        (':' :: ' ' :: text)) = some (key.flatMap Text.Quoted.encodeChar, ':' :: ' ' :: text) :=
      Text.splitFirst?_of_not_mem (Text.Quoted.quote_not_mem_flatMap h)
    rwa [List.append_assoc] at hfirst
  rw [pair?_quoted, Line.quotedPair?, hsplit]
  rfl

theorem quote_not_mem_key?_quoted {k : Line}
    (h : (keyed (Text.Quoted.encode key) text).key? = some k) : '"' ∉ k := by
  rw [pair?_quoted] at h
  obtain ⟨⟨k', v⟩, hpair, rfl⟩ := Option.map_eq_some_iff.mp h
  obtain ⟨⟨k'', after⟩, hsplit, hvalue⟩ := Option.bind_eq_some_iff.mp hpair
  obtain ⟨value, -, heq⟩ := Option.bind_eq_some_iff.mp hvalue
  cases heq
  exact Text.not_mem_of_splitFirst? hsplit

/-- The key of a line that was written is read back exactly when nothing in it is escaped. -/
theorem key?_written_iff (key text : Line) :
    (keyed (renderChars key) text).key? = some key ↔ ∀ c ∈ key, IsBare c := by
  unfold renderChars
  split
  · rename_i hplain
    have h := plainKey_of_isPlain hplain
    simp only [h.key?, true_iff]
    exact fun c hc => isBare_of_isPlainChar (h.chars c hc)
  · constructor
    · intro h
      rw [key?_quoted (quote_not_mem_key?_quoted h), Option.some.injEq] at h
      exact Text.Quoted.flatMap_encodeChar_eq_self.mp h
    · intro h
      have hquote : '"' ∉ key := fun hmem => (h _ hmem).1 rfl
      rw [key?_quoted hquote, Text.Quoted.flatMap_encodeChar_eq_self.mpr h]

end Outline

end BlockFlow

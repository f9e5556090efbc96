import BlockFlow.Decimal.Reader
import BlockFlow.Decimal.Style
import BlockFlow.Proofs.Decimal.Shortest

/-!
Written numbers read back. Main statement: a finite number is read back with its sign and the value
of its shortest decimal, so its text determines its bits.
-/

namespace BlockFlow.Decimal

open Text (isDigit natOfDigits? decimalDigits)

/-- The value of a fraction without its sign. -/
def Fraction.magnitude (f : Fraction) : ℚ := f.coefficient * 10 ^ f.exponent

section Digits

variable {c : Char} {cs : List Char} {n : ℕ}

theorem isDigit_iff : isDigit c ↔ c.isDigit := by
  simp [isDigit, Char.isDigit, Char.le_def, UInt32.le_iff_toNat_le]

theorem isDigit_of_mem (h : c ∈ decimalDigits n) : isDigit c :=
  isDigit_iff.mpr (Nat.isDigit_of_mem_toDigits (by norm_num) (by norm_num) h)

theorem decimalDigits_ne_nil : decimalDigits n ≠ [] := Nat.toDigits_ne_nil

theorem digitValue?_of_isDigit (h : isDigit c) :
    Text.digitValue? c = some (c.toNat - 48) ∧ c.toNat - 48 < 10 := by
  simp only [isDigit, Bool.and_eq_true, decide_eq_true_eq] at h
  refine ⟨by simp [Text.digitValue?, h], ?_⟩
  have hle := Char.le_def.mp h.2
  rw [UInt32.le_iff_toNat_le] at hle
  change c.toNat ≤ 57 at hle
  omega

/-- What holds of ten characters holds of every digit. -/
theorem of_isDigit {p : Char → Bool} (hp : ∀ d : Fin 10, p (Char.ofNat (48 + d)))
    (h : isDigit c) : p c := by
  obtain ⟨-, hlt⟩ := digitValue?_of_isDigit h
  have hle : 48 ≤ c.toNat := by
    simp only [isDigit, Bool.and_eq_true, decide_eq_true_eq] at h
    exact UInt32.le_iff_toNat_le.mp (Char.le_def.mp h.1)
  have hc : Char.ofNat (48 + (c.toNat - 48)) = c := by
    rw [Nat.add_sub_cancel' hle, Char.ofNat_toNat]
  rw [← hc]
  exact hp ⟨c.toNat - 48, hlt⟩

theorem natOfDigits?_eq (hne : cs ≠ []) (h : ∀ c ∈ cs, isDigit c) :
    natOfDigits? 10 cs = some (Nat.ofDigitChars 10 cs 0) := by
  have hfold (start : ℕ) : cs.foldl (fun acc c => do
      let value ← acc
      let d ← Text.digitValue? c
      if d < 10 then some (value * 10 + d) else none) (some start) =
        some (Nat.ofDigitChars 10 cs start) := by
    clear hne
    induction cs generalizing start with
    | nil => simp
    | cons c cs ih =>
      rw [List.forall_mem_cons] at h
      obtain ⟨hvalue, hlt⟩ := digitValue?_of_isDigit h.1
      rw [List.foldl_cons, Nat.ofDigitChars_cons, ← ih h.2]
      simp [hvalue, hlt, Nat.mul_comm]
  unfold natOfDigits?
  split
  · exact absurd rfl hne
  · exact hfold 0

theorem natOfDigits?_decimalDigits : natOfDigits? 10 (decimalDigits n) = some n := by
  rw [natOfDigits?_eq decimalDigits_ne_nil fun c => isDigit_of_mem]
  exact congrArg some Nat.ofDigitChars_ten_toDigits

end Digits

section Parse

variable {whole fraction rest : List Char} {p : ℤ}

/-- What may follow the digits of a fraction. -/
def EndsDigits (cs : List Char) : Prop := ∀ c ∈ cs.head?, ¬ isDigit c ∧ c ≠ '.'

theorem takeWhile_digits (hw : ∀ c ∈ whole, isDigit c) (hr : ∀ c ∈ rest.head?, ¬ isDigit c) :
    (whole ++ rest).takeWhile isDigit = whole ∧ (whole ++ rest).dropWhile isDigit = rest := by
  rw [List.takeWhile_append_of_pos hw, List.dropWhile_append_of_pos hw]
  cases rest with
  | nil => simp
  | cons c rest =>
    have hc : isDigit c = false := by simpa using hr c
    simp [hc]

theorem takeSign_of_digits {cs : List Char} (h : ∀ c ∈ cs.head?, isDigit c) :
    takeSign cs = (false, cs) := by
  cases cs with
  | nil => rfl
  | cons c cs =>
    have hc : isDigit c := h c rfl
    unfold takeSign
    split
    · simp_all [isDigit]
    · simp_all [isDigit]
    · rfl

/-- Reads digits around a point. -/
theorem parse?_point (hw : ∀ c ∈ whole, isDigit c) (hne : whole ≠ [])
    (hf : ∀ c ∈ fraction, isDigit c) (he : EndsDigits rest) (hp : readPower? rest = some p) :
    Fraction.parse? (whole ++ '.' :: (fraction ++ rest)) =
      some ⟨false, Nat.ofDigitChars 10 (whole ++ fraction) 0, p - fraction.length⟩ := by
  have hsign : takeSign (whole ++ '.' :: (fraction ++ rest)) =
      (false, whole ++ '.' :: (fraction ++ rest)) := by
    refine takeSign_of_digits fun c hc => ?_
    rw [List.head?_append_of_ne_nil _ hne] at hc
    exact hw c (List.mem_of_head? hc)
  have hstop : ∀ c ∈ ('.' :: (fraction ++ rest)).head?, ¬ isDigit c := by
    rintro c ⟨⟩
    decide
  obtain ⟨hwhole, hpoint⟩ := takeWhile_digits hw hstop
  obtain ⟨hfraction, hrest⟩ := takeWhile_digits hf fun c hc => (he c hc).1
  have hdigits : ∀ c ∈ whole ++ fraction, isDigit c := List.forall_mem_append.mpr ⟨hw, hf⟩
  have hcoefficient := natOfDigits?_eq (List.append_ne_nil_of_left_ne_nil hne fraction) hdigits
  unfold Fraction.parse?
  simp only [hsign, hwhole, hpoint, hfraction, hrest, hcoefficient, hp]
  rfl

/-- Reads digits without a point. -/
theorem parse?_whole (hw : ∀ c ∈ whole, isDigit c) (hne : whole ≠ []) (he : EndsDigits rest)
    (hp : readPower? rest = some p) : Fraction.parse? (whole ++ rest) =
      some ⟨false, Nat.ofDigitChars 10 whole 0, p⟩ := by
  have hsign : takeSign (whole ++ rest) = (false, whole ++ rest) := by
    refine takeSign_of_digits fun c hc => ?_
    rw [List.head?_append_of_ne_nil _ hne] at hc
    exact hw c (List.mem_of_head? hc)
  obtain ⟨hwhole, hrest⟩ := takeWhile_digits hw fun c hc => (he c hc).1
  have hcoefficient := natOfDigits?_eq hne hw
  unfold Fraction.parse?
  simp only [hsign, hwhole, hrest]
  split
  · exact absurd rfl (he _ rfl).2
  · simp [hcoefficient, hp]

/-- A minus before digits only turns the sign. -/
theorem parse?_minus {cs : List Char} {f : Fraction} (hc : ∀ c ∈ cs.head?, isDigit c)
    (h : Fraction.parse? cs = some f) :
    Fraction.parse? ('-' :: cs) = some { f with negative := true } := by
  have hsign := takeSign_of_digits hc
  unfold Fraction.parse? at h ⊢
  simp only [hsign] at h
  simp only [takeSign]
  obtain ⟨coefficient, hcoefficient, h⟩ := Option.bind_eq_some_iff.mp h
  obtain ⟨power, hpower, h⟩ := Option.bind_eq_some_iff.mp h
  cases h
  simp only [hcoefficient, hpower]
  rfl

theorem readPower?_exponent {sign : List Char} {n : ℕ} {p : ℤ}
    (h : sign = [] ∧ p = n ∨ sign = ['+'] ∧ p = n ∨ sign = ['-'] ∧ p = -n) :
    readPower? ('e' :: (sign ++ decimalDigits n)) = some p := by
  have hdigits : (decimalDigits n).all isDigit := List.all_eq_true.mpr fun c => isDigit_of_mem
  have hplain : takeSign (decimalDigits n) = (false, decimalDigits n) :=
    takeSign_of_digits fun c hc => isDigit_of_mem (List.mem_of_head? hc)
  rw [readPower?]
  rcases h with ⟨rfl, rfl⟩ | ⟨rfl, rfl⟩ | ⟨rfl, rfl⟩
  · simp [hplain, hdigits, natOfDigits?_decimalDigits]
  · simp [takeSign, hdigits, natOfDigits?_decimalDigits]
  · simp [takeSign, hdigits, natOfDigits?_decimalDigits]

end Parse

/-- The text begins with a digit and is read as a magnitude of the given value. -/
structure Reads (cs : List Char) (v : ℚ) : Prop where
  head : ∀ c ∈ cs.head?, isDigit c
  parse : ∃ f, Fraction.parse? cs = some f ∧ f.negative = false ∧ f.magnitude = v

section Texts

variable {ds whole rest : List Char} {p : ℤ} {mark : String}

theorem reads_point (fraction : List Char) (hw : ∀ c ∈ whole, isDigit c) (hne : whole ≠ [])
    (hf : ∀ c ∈ fraction, isDigit c) (he : EndsDigits rest) (hp : readPower? rest = some p) :
    Reads (whole ++ '.' :: (fraction ++ rest))
      (Nat.ofDigitChars 10 (whole ++ fraction) 0 * 10 ^ (p - fraction.length)) := by
  refine ⟨fun c hc => ?_, _, parse?_point hw hne hf he hp, rfl, rfl⟩
  rw [List.head?_append_of_ne_nil _ hne] at hc
  exact hw c (List.mem_of_head? hc)

theorem reads_whole (hw : ∀ c ∈ whole, isDigit c) (hne : whole ≠ []) (he : EndsDigits rest)
    (hp : readPower? rest = some p) :
    Reads (whole ++ rest) (Nat.ofDigitChars 10 whole 0 * 10 ^ p) := by
  refine ⟨fun c hc => ?_, _, parse?_whole hw hne he hp, rfl, rfl⟩
  rw [List.head?_append_of_ne_nil _ hne] at hc
  exact hw c (List.mem_of_head? hc)

theorem endsDigits_nil : EndsDigits [] := by simp [EndsDigits]

theorem isDigit_of_mem_zero : ∀ c ∈ ['0'], isDigit c := List.forall_mem_singleton.mpr (by decide)

theorem isDigit_of_mem_replicate {n : ℕ} : ∀ c ∈ List.replicate n '0', isDigit c := by
  intro c hc
  rw [List.eq_of_mem_replicate hc]
  decide

theorem reads_zerosBefore {point : ℤ} (hds : ∀ c ∈ ds, isDigit c) (hpoint : point ≤ 0) :
    Reads ('0' :: '.' :: (List.replicate (-point).toNat '0' ++ ds))
      (Nat.ofDigitChars 10 ds 0 * 10 ^ (point - ds.length)) := by
  have hzeros : ∀ c ∈ List.replicate (-point).toNat '0' ++ ds, isDigit c :=
    List.forall_mem_append.mpr ⟨isDigit_of_mem_replicate, hds⟩
  have hreads := reads_point _ isDigit_of_mem_zero (by decide) hzeros endsDigits_nil rfl
  have hvalue : Nat.ofDigitChars 10 (['0'] ++ (List.replicate (-point).toNat '0' ++ ds)) 0 =
      Nat.ofDigitChars 10 ds 0 := by
    simp [Nat.ofDigitChars_append, Nat.ofDigitChars_cons]
  have hexponent : (0 : ℤ) - (List.replicate (-point).toNat '0' ++ ds).length =
      point - ds.length := by
    simp only [List.length_append, List.length_replicate]
    omega
  rw [List.append_nil, hvalue, hexponent] at hreads
  exact hreads

theorem reads_zerosBehind {point : ℤ} (hds : ∀ c ∈ ds, isDigit c) (hne : ds ≠ [])
    (hpoint : ds.length ≤ point) (hmark : mark = "" ∨ mark = ".0") :
    Reads (ds ++ List.replicate (point.toNat - ds.length) '0' ++ mark.toList)
      (Nat.ofDigitChars 10 ds 0 * 10 ^ (point - ds.length)) := by
  set zeros := List.replicate (point.toNat - ds.length) '0' with hz
  have hwhole : ∀ c ∈ ds ++ zeros, isDigit c :=
    List.forall_mem_append.mpr ⟨hds, isDigit_of_mem_replicate⟩
  have hne' : ds ++ zeros ≠ [] := List.append_ne_nil_of_left_ne_nil hne zeros
  have hvalue : (Nat.ofDigitChars 10 (ds ++ zeros) 0 : ℚ) =
      Nat.ofDigitChars 10 ds 0 * 10 ^ (point - ds.length) := by
    have hpower : point - ds.length = (point.toNat - ds.length : ℕ) := by omega
    rw [hz, Nat.ofDigitChars_append, Nat.ofDigitChars_replicate_zero, hpower, zpow_natCast]
    push_cast
    ring
  rcases hmark with rfl | rfl
  · have hreads := reads_whole hwhole hne' endsDigits_nil rfl
    rw [hvalue, zpow_zero, mul_one] at hreads
    simpa using hreads
  · have hreads := reads_point _ hwhole hne' isDigit_of_mem_zero endsDigits_nil rfl
    have htenth : (Nat.ofDigitChars 10 (ds ++ zeros ++ ['0']) 0 : ℚ) *
        10 ^ ((0 : ℤ) - ['0'].length) = Nat.ofDigitChars 10 (ds ++ zeros) 0 := by
      rw [Nat.ofDigitChars_append, Nat.ofDigitChars_cons, Nat.ofDigitChars_nil]
      norm_num
      ring
    rw [htenth, hvalue] at hreads
    exact hreads

theorem reads_pointInside {point : ℤ} (hds : ∀ c ∈ ds, isDigit c) (hne : ds ≠ [])
    (hpoint : 0 < point) (hlength : point < ds.length) :
    Reads (ds.take point.toNat ++ '.' :: ds.drop point.toNat)
      (Nat.ofDigitChars 10 ds 0 * 10 ^ (point - ds.length)) := by
  have hwhole : ∀ c ∈ ds.take point.toNat, isDigit c :=
    fun c hc => hds c (List.mem_of_mem_take hc)
  have hfraction : ∀ c ∈ ds.drop point.toNat, isDigit c :=
    fun c hc => hds c (List.mem_of_mem_drop hc)
  have hne' : ds.take point.toNat ≠ [] := by
    rw [Ne, List.take_eq_nil_iff]
    exact not_or.mpr ⟨by omega, hne⟩
  have hreads := reads_point _ hwhole hne' hfraction endsDigits_nil rfl
  have hexponent : (0 : ℤ) - (ds.drop point.toNat).length = point - ds.length := by
    rw [List.length_drop]
    omega
  rw [List.append_nil, List.take_append_drop, hexponent] at hreads
  exact hreads

theorem reads_positionalText (point : ℤ) (hds : ∀ c ∈ ds, isDigit c) (hne : ds ≠ [])
    (hmark : mark = "" ∨ mark = ".0") :
    Reads (positionalText ds point mark)
      (Nat.ofDigitChars 10 ds 0 * 10 ^ (point - ds.length)) := by
  unfold positionalText
  split
  · rename_i hpoint
    exact reads_zerosBefore hds hpoint
  · rename_i hpoint
    split
    · rename_i hlength
      exact reads_zerosBehind hds hne hlength hmark
    · rename_i hlength
      exact reads_pointInside hds hne (not_le.mp hpoint) (not_le.mp hlength)

/-- Writing with an exponent. -/
theorem reads_exponentText (point : ℤ) (hds : ∀ c ∈ ds, isDigit c) (hne : ds ≠ [])
    (hmark : mark = "" ∨ mark = "+") :
    Reads (exponentText ds point mark)
      (Nat.ofDigitChars 10 ds 0 * 10 ^ (point - ds.length)) := by
  have hpower : readPower? ('e' :: ((if point - 1 < 0 then ['-'] else mark.toList) ++
      decimalDigits (point - 1).natAbs)) = some (point - 1) := by
    refine readPower?_exponent ?_
    split
    · exact .inr (.inr ⟨rfl, by omega⟩)
    · rcases hmark with rfl | rfl
      · exact .inl ⟨rfl, by omega⟩
      · exact .inr (.inl ⟨rfl, by omega⟩)
  have hends (cs : List Char) : EndsDigits ('e' :: cs) := by
    rintro c ⟨⟩
    decide
  have hfirst : ∀ c ∈ ds.take 1, isDigit c := fun c hc => hds c (List.mem_of_mem_take hc)
  have hne' : ds.take 1 ≠ [] := by
    rw [Ne, List.take_eq_nil_iff]
    exact not_or.mpr ⟨by omega, hne⟩
  have hlength := List.length_pos_iff.mpr hne
  unfold exponentText
  dsimp only
  split
  · rename_i hone
    have hall : ds.take 1 = ds := List.take_of_length_le hone
    have hexponent : point - 1 = point - ds.length := by omega
    have hreads := reads_whole hfirst hne' (hends _) hpower
    rw [List.append_nil, ← hexponent]
    rwa [hall] at hreads ⊢
  · have hrest : ∀ c ∈ ds.drop 1, isDigit c := fun c hc => hds c (List.mem_of_mem_drop hc)
    have hreads := reads_point _ hfirst hne' hrest (hends _) hpower
    have hexponent : point - 1 - (ds.drop 1).length = point - ds.length := by
      rw [List.length_drop]
      omega
    rw [List.take_append_drop, hexponent] at hreads
    rw [List.append_assoc]
    exact hreads

/-- How the styles mark whole numbers and powers of ten. -/
structure Style.Standard (s : Style) : Prop where
  whole : s.wholeMark = "" ∨ s.wholeMark = ".0"
  power : s.powerMark = "" ∨ s.powerMark = "+"

theorem reads_magnitude {s : Style} (hs : s.Standard) (d : Digits) :
    Reads (s.magnitude d) d.toRat := by
  unfold Style.magnitude
  split
  · rename_i hzero
    have hvalue : d.toRat = 0 := by simp [Digits.toRat, hzero]
    rw [hvalue]
    rcases hs.whole with hmark | hmark
    · rw [hmark]
      have hreads := reads_whole isDigit_of_mem_zero (by decide) endsDigits_nil rfl
      simpa [Nat.ofDigitChars_cons] using hreads
    · rw [hmark]
      have hreads := reads_point _ isDigit_of_mem_zero (by decide) isDigit_of_mem_zero
        endsDigits_nil rfl
      simpa [Nat.ofDigitChars_cons] using hreads
  · have hds : ∀ c ∈ decimalDigits d.digits, isDigit c := fun c => isDigit_of_mem
    have hvalue : Nat.ofDigitChars 10 (decimalDigits d.digits) 0 *
        (10 : ℚ) ^ ((decimalDigits d.digits).length + d.exponent -
          (decimalDigits d.digits).length) = d.toRat := by
      rw [decimalDigits, Nat.ofDigitChars_ten_toDigits, add_sub_cancel_left]
      rfl
    have hpositional := reads_positionalText ((decimalDigits d.digits).length + d.exponent) hds
      decimalDigits_ne_nil hs.whole
    have hexponent := reads_exponentText ((decimalDigits d.digits).length + d.exponent) hds
      decimalDigits_ne_nil hs.power
    rw [hvalue] at hpositional hexponent
    dsimp only
    split
    · exact hpositional
    · split
      · exact hpositional
      · exact hexponent

end Texts

section Floats

variable {x y : Float}

theorem float_eq_of_toBits (h : x.toBits = y.toBits) : x = y := by
  obtain ⟨⟨_, _⟩⟩ := x
  obtain ⟨⟨_, _⟩⟩ := y
  cases h
  rfl

theorem float_beq_self (h : x.isNaN = false) : (x == x) = true := by
  change (x.toModel.unpack.compare x.toModel.unpack == some .eq) = true
  change x.toModel.unpack.isNaN = false at h
  cases hx : x.toModel.unpack with
  | notANumber =>
    rw [hx] at h
    exact absurd h.symm Bool.false_ne_true
  | infinity s => cases s <;> rfl
  | zero s => cases s <;> rfl
  | finite s m e hm =>
    cases s with
    | positive =>
      change (some ((compare e e).then (compare m m)) == some .eq) = true
      rw [Std.compare_self, Std.compare_self]
      rfl
    | negative =>
      change (some ((compare e e).then (compare m m)).swap == some .eq) = true
      rw [Std.compare_self, Std.compare_self]
      rfl

theorem float_lt_iff : x < y ↔ x.toModel.unpack.lt y.toModel.unpack = true := by
  change Float.lt x y = true ↔ _
  unfold Float.lt
  exact decide_eq_true_iff

theorem unpack_of_isInf (h : x.isInf) : ∃ s, x.toModel.unpack = .infinity s := by
  change x.toModel.unpack.isInf = true at h
  cases hx : x.toModel.unpack with
  | infinity s => exact ⟨s, rfl⟩
  | _ =>
    rw [hx] at h
    exact absurd h Bool.false_ne_true

theorem float_beq_of_isInf (hx : x.isInf) (hy : y.isInf) (h : x < 0 ↔ y < 0) :
    (x == y) = true := by
  obtain ⟨s, hs⟩ := unpack_of_isInf hx
  obtain ⟨t, ht⟩ := unpack_of_isInf hy
  have hzero : (0 : Float).toModel.unpack = .zero .positive := rfl
  rw [float_lt_iff, float_lt_iff, hzero, hs, ht] at h
  change (x.toModel.unpack.compare y.toModel.unpack == some .eq) = true
  rw [hs, ht]
  cases s <;> cases t <;> revert h <;> decide

theorem float_eq_of_shortest (hsign : x.toBits.toNat / 2 ^ 63 = 1 ↔ y.toBits.toNat / 2 ^ 63 = 1)
    (h : (Binary.ofBits x.toBits.toNat).shortest.toRat =
      (Binary.ofBits y.toBits.toNat).shortest.toRat) : x = y := by
  have hbinary := shortest_injective (canonical_ofBits x.toBits.toNat)
    (canonical_ofBits y.toBits.toNat) h
  have hrest := ofBits_injective hbinary
  have hx := x.toBits.toNat_lt
  have hy := y.toBits.toNat_lt
  exact float_eq_of_toBits (UInt64.toNat_inj.mp (by omega))

end Floats

section Write

variable {x y : Float}

theorem documentStyle_standard : documentStyle.Standard := ⟨.inr rfl, .inl rfl⟩

theorem write_of_isNaN (h : x.isNaN) : documentStyle.write x = ".nan".toList := if_pos h

theorem write_of_isInf (hnan : ¬ x.isNaN) (h : x.isInf) :
    documentStyle.write x = if x < 0 then "-.inf".toList else ".inf".toList := by
  unfold Style.write
  rw [if_neg hnan, if_pos h]
  rfl

theorem write_of_finite (h : ¬ (x.isNaN ∨ x.isInf)) : documentStyle.write x =
    (if x.toBits.toNat / 2 ^ 63 = 1 then ['-'] else []) ++
      documentStyle.magnitude (Binary.ofBits x.toBits.toNat).shortest := by
  unfold Style.write
  rw [if_neg (not_or.mp h).1, if_neg (not_or.mp h).2]
  rfl

theorem parse?_write_special (h : x.isNaN ∨ x.isInf) :
    Fraction.parse? (documentStyle.write x) = none := by
  by_cases hnan : x.isNaN
  · rw [write_of_isNaN hnan]
    decide
  · rw [write_of_isInf hnan (h.resolve_left hnan)]
    split <;> decide

/-- A finite number is read back with its sign and the value of its shortest decimal. -/
theorem parse?_write_finite (h : ¬ (x.isNaN ∨ x.isInf)) :
    ∃ f, Fraction.parse? (documentStyle.write x) = some f ∧
      (f.negative ↔ x.toBits.toNat / 2 ^ 63 = 1) ∧
      f.magnitude = (Binary.ofBits x.toBits.toNat).shortest.toRat := by
  obtain ⟨hhead, f, hparse, hsign, hvalue⟩ :=
    reads_magnitude documentStyle_standard (Binary.ofBits x.toBits.toNat).shortest
  rw [write_of_finite h]
  split
  · rename_i hminus
    exact ⟨_, parse?_minus hhead hparse, iff_of_true rfl hminus, hvalue⟩
  · rename_i hplus
    exact ⟨f, hparse, iff_of_false (by simp [hsign]) hplus, hvalue⟩

theorem special_of_write_eq (h : documentStyle.write x = documentStyle.write y)
    (hx : x.isNaN ∨ x.isInf) : y.isNaN ∨ y.isInf := by
  by_contra hy
  obtain ⟨f, hf, -⟩ := parse?_write_finite hy
  rw [← h, parse?_write_special hx] at hf
  cases hf

theorem isNaN_of_write_eq (h : documentStyle.write x = documentStyle.write y) (hx : x.isNaN) :
    y.isNaN := by
  by_contra hy
  have hinf := (special_of_write_eq h (.inl hx)).resolve_left hy
  rw [write_of_isNaN hx, write_of_isInf hy hinf] at h
  split at h <;> exact absurd h (by decide)

/-- Numbers with one text in documents are equal or both not numbers. -/
theorem beq_or_isNaN_of_write_eq (h : documentStyle.write x = documentStyle.write y) :
    (x == y) = true ∨ x.isNaN ∧ y.isNaN := by
  by_cases hnan : x.isNaN
  · exact .inr ⟨hnan, isNaN_of_write_eq h hnan⟩
  have hnan' : ¬ y.isNaN := fun hy => hnan (isNaN_of_write_eq h.symm hy)
  refine .inl ?_
  by_cases hinf : x.isInf
  · have hinf' := (special_of_write_eq h (.inr hinf)).resolve_left hnan'
    refine float_beq_of_isInf hinf hinf' ?_
    rw [write_of_isInf hnan hinf, write_of_isInf hnan' hinf'] at h
    by_contra hsign
    split at h <;> split at h <;> first | exact absurd h (by decide) | tauto
  · have hx : ¬ (x.isNaN ∨ x.isInf) := not_or.mpr ⟨hnan, hinf⟩
    have hy : ¬ (y.isNaN ∨ y.isInf) := fun hy => hx (special_of_write_eq h.symm hy)
    -- both are read back from the one text, so they have one sign and one shortest decimal
    obtain ⟨f, hf, hsx, hvx⟩ := parse?_write_finite hx
    obtain ⟨g, hg, hsy, hvy⟩ := parse?_write_finite hy
    rw [h, hg] at hf
    cases hf
    rw [float_eq_of_shortest (hsx.symm.trans hsy) (hvx.symm.trans hvy)]
    exact float_beq_self (by simpa using hnan')

theorem point_mem_write_special (h : x.isNaN ∨ x.isInf) : '.' ∈ documentStyle.write x := by
  by_cases hnan : x.isNaN
  · rw [write_of_isNaN hnan]
    decide
  · rw [write_of_isInf hnan (h.resolve_left hnan)]
    split <;> decide

theorem point_mem_positionalText (ds : List Char) (point : ℤ) :
    '.' ∈ positionalText ds point ".0" := by
  unfold positionalText
  split
  · simp
  · split <;> simp

theorem power_mem_exponentText (ds : List Char) (point : ℤ) (mark : String) :
    'e' ∈ exponentText ds point mark := by
  simp [exponentText]

theorem mark_mem_magnitude (d : Digits) :
    '.' ∈ documentStyle.magnitude d ∨ 'e' ∈ documentStyle.magnitude d := by
  unfold Style.magnitude
  split
  · exact .inl (by decide)
  · dsimp only [documentStyle]
    split
    · exact .inl (point_mem_positionalText _ _)
    · exact .inr (power_mem_exponentText _ _ _)

/-- The text of a number has a point or a power of ten. -/
theorem mark_mem_write (x : Float) :
    '.' ∈ documentStyle.write x ∨ 'e' ∈ documentStyle.write x := by
  by_cases hspecial : x.isNaN ∨ x.isInf
  · exact .inl (point_mem_write_special hspecial)
  · rw [write_of_finite hspecial]
    exact (mark_mem_magnitude _).imp (List.mem_append_right _) (List.mem_append_right _)

end Write

end BlockFlow.Decimal

import BlockFlow.Document.Load
import BlockFlow.Proofs.Decimal.Style
import BlockFlow.Proofs.Yaml.Distinct

/-!
Names of keys. Distinct keys may be written alike: the integer 1 and the string "1" have one name.
Main statement: apart from that the names of distinct keys differ.
-/

namespace BlockFlow

namespace Yaml.Value

theorem decimalDigits_injective : Function.Injective Text.decimalDigits := by
  intro m n h
  have hread := congrArg (Text.natOfDigits? 10) h
  simpa only [Decimal.natOfDigits?_decimalDigits, Option.some.injEq] using hread

theorem mem_jsonIntText {i : Int} {c : Char} (h : c ∈ Json.intText i) :
    c = '-' ∨ Text.isDigit c := by
  unfold Json.intText at h
  split at h
  · exact (List.mem_cons.mp h).imp_right Decimal.isDigit_of_mem
  · exact .inr (Decimal.isDigit_of_mem h)

theorem minus_not_mem (n : ℕ) : '-' ∉ Text.decimalDigits n := fun h =>
  absurd (Decimal.isDigit_of_mem h) (by decide)

theorem intText_injective : Function.Injective intText := by
  intro i j h
  have htext : Json.intText i = Json.intText j := String.ofList_injective h
  unfold Json.intText at htext
  split at htext <;> split at htext
  · have habs := decimalDigits_injective (List.cons.inj htext).2
    omega
  · exact absurd (htext ▸ List.mem_cons_self) (minus_not_mem _)
  · exact absurd (htext ▸ List.mem_cons_self) (minus_not_mem _)
  · have habs := decimalDigits_injective htext
    omega

theorem intText_ne_floatText (i : Int) (x : Float) : intText i ≠ floatText x := by
  intro h
  have htext : Json.intText i = Decimal.documentStyle.write x := String.ofList_injective h
  rcases Decimal.mark_mem_write x with hmark | hmark
  · exact absurd (mem_jsonIntText (htext ▸ hmark)) (by decide)
  · exact absurd (mem_jsonIntText (htext ▸ hmark)) (by decide)

theorem toList_of_ofList_eq {cs : List Char} {s : String} (h : String.ofList cs = s) :
    cs = s.toList := by
  rw [← h, String.toList_ofList]

theorem intText_ne_boolText (i : Int) (b : Bool) : intText i ≠ boolText b := by
  intro h
  have hdigits : ∀ c ∈ (boolText b).toList, c = '-' ∨ Text.isDigit c := by
    rw [← toList_of_ofList_eq h]
    exact fun c => mem_jsonIntText
  cases b with
  | false => exact absurd (hdigits 'f' (by decide)) (by decide)
  | true => exact absurd (hdigits 't' (by decide)) (by decide)

theorem floatText_ne_boolText (x : Float) (b : Bool) : floatText x ≠ boolText b := by
  intro h
  have htext := toList_of_ofList_eq h
  have hread : Decimal.Fraction.parse? (Decimal.documentStyle.write x) = none := by
    rw [htext]
    cases b <;> decide
  by_cases hspecial : x.isNaN ∨ x.isInf
  · have hpoint := Decimal.point_mem_write_special hspecial
    rw [htext] at hpoint
    cases b <;> exact absurd hpoint (by decide)
  · obtain ⟨f, hf, -⟩ := Decimal.parse?_write_finite hspecial
    rw [hread] at hf
    cases hf

theorem boolText_injective : Function.Injective boolText := by
  intro a b
  revert a b
  decide

theorem sameFloat_of_floatText {x y : Float} (h : floatText x = floatText y) : sameFloat x y := by
  have htext := String.ofList_injective h
  simpa [sameFloat] using Decimal.beq_or_isNaN_of_write_eq htext

end Yaml.Value

namespace Document

open Yaml (Value)

/-- The name is the written form of a number or a truth value. -/
inductive Spelled : String → Prop
  | int (i : Int) : Spelled (Value.intText i)
  | float (x : Float) : Spelled (Value.floatText x)
  | bool (b : Bool) : Spelled (Value.boolText b)

/-- Whether the key is a string. -/
def isStringKey : Value → Bool
  | .str _ => true
  | _ => false

variable {owner name : String}

theorem spelled_of_keyName {k : Value} (h : keyName owner k = .ok name)
    (hk : isStringKey k = false) : Spelled name := by
  cases k with
  | int i =>
    cases h
    exact .int i
  | float x =>
    cases h
    exact .float x
  | bool b =>
    cases h
    exact .bool b
  | str s => cases hk
  | _ => cases h

/-- Keys of one name are the same, unless one of them is a string and the other is not. -/
theorem same_of_keyName {k k' : Value} (h : keyName owner k = .ok name)
    (h' : keyName owner k' = .ok name) (hk : isStringKey k = isStringKey k') : k.same k' := by
  have htext := h.trans h'.symm
  cases k <;> cases k' <;>
    simp only [keyName, isStringKey, Except.ok.injEq, reduceCtorEq] at h h' hk htext
  · exact beq_iff_eq.mpr (Value.boolText_injective htext)
  · exact absurd htext.symm (Value.intText_ne_boolText _ _)
  · exact absurd htext.symm (Value.floatText_ne_boolText _ _)
  · exact absurd htext (Value.intText_ne_boolText _ _)
  · exact beq_iff_eq.mpr (Value.intText_injective htext)
  · exact absurd htext (Value.intText_ne_floatText _ _)
  · exact absurd htext (Value.floatText_ne_boolText _ _)
  · exact absurd htext.symm (Value.intText_ne_floatText _ _)
  · exact Value.sameFloat_of_floatText htext
  · exact beq_iff_eq.mpr htext

/-- A name occurs once, or twice when it is also the written form of a scalar. -/
def OnceUnlessSpelled (names : List String) : Prop :=
  ∀ name, names.count name ≤ 1 ∨ names.count name = 2 ∧ Spelled name

/-- No key that is a string has the name of a key that is none. -/
def KindsApart (entries : List (Value × Value)) : Prop :=
  ∀ owner name, ∀ e ∈ entries, ∀ e' ∈ entries, keyName owner e.1 = .ok name →
    keyName owner e'.1 = .ok name → isStringKey e.1 = isStringKey e'.1

/-- The names are those of the keys, in order. -/
def NamesOf (entries : List (Value × Value)) (names : List String) : Prop :=
  ∃ owner, List.Forall₂ (fun e name => keyName owner e.1 = .ok name) entries names

/-- Names with the kinds of their keys are distinct. -/
theorem exists_kinds {entries : List (Value × Value)} {names : List String}
    (hkeys : Value.DistinctKeys entries)
    (hnames : List.Forall₂ (fun e name => keyName owner e.1 = .ok name) entries names) :
    ∃ kinds : List (Bool × String), kinds.map Prod.snd = names ∧ kinds.Nodup ∧
      ∀ p ∈ kinds, ∃ e ∈ entries, isStringKey e.1 = p.1 ∧ keyName owner e.1 = .ok p.2 := by
  induction hnames with
  | nil => exact ⟨[], rfl, .nil, List.forall_mem_nil _⟩
  | @cons e name entries names hname _ ih =>
    obtain ⟨hnew, hrest⟩ := List.pairwise_cons.mp hkeys
    obtain ⟨kinds, rfl, hnodup, hfrom⟩ := ih hrest
    refine ⟨(isStringKey e.1, name) :: kinds, rfl, List.nodup_cons.mpr ⟨fun hmem => ?_, hnodup⟩,
      List.forall_mem_cons.mpr ⟨⟨e, List.mem_cons_self, rfl, hname⟩, fun p hp => ?_⟩⟩
    · -- a pair that comes again would be a key that is the same
      obtain ⟨e', he', hkind, hname'⟩ := hfrom _ hmem
      have hsame := same_of_keyName hname hname' hkind.symm
      rw [hnew e' he'] at hsame
      cases hsame
    · obtain ⟨e', he', hkind, hname'⟩ := hfrom p hp
      exact ⟨e', List.mem_cons_of_mem _ he', hkind, hname'⟩

theorem count_map_snd (kinds : List (Bool × String)) (name : String) :
    (kinds.map Prod.snd).count name = kinds.count (true, name) + kinds.count (false, name) := by
  induction kinds with
  | nil => rfl
  | cons p kinds ih =>
    obtain ⟨kind, other⟩ := p
    rw [List.map_cons, List.count_cons, List.count_cons, List.count_cons, ih]
    cases kind <;> by_cases hname : other = name <;> simp [hname] <;> omega

theorem onceUnlessSpelled_of_distinctKeys {entries : List (Value × Value)} {names : List String}
    (hkeys : Value.DistinctKeys entries) (hnames : NamesOf entries names) :
    OnceUnlessSpelled names := by
  obtain ⟨owner, hnames⟩ := hnames
  obtain ⟨kinds, rfl, hnodup, hfrom⟩ := exists_kinds hkeys hnames
  intro name
  rw [count_map_snd]
  have hstring := List.nodup_iff_count_le_one.mp hnodup (true, name)
  have hscalar := List.nodup_iff_count_le_one.mp hnodup (false, name)
  by_cases hmem : (false, name) ∈ kinds
  · obtain ⟨e, -, hkind, hname⟩ := hfrom _ hmem
    have hspelled := spelled_of_keyName hname hkind
    by_cases hboth : kinds.count (true, name) + kinds.count (false, name) ≤ 1
    · exact .inl hboth
    · exact .inr ⟨by omega, hspelled⟩
  · rw [List.count_eq_zero_of_not_mem hmem]
    exact .inl hstring

theorem nodup_of_kindsApart {entries : List (Value × Value)} {names : List String}
    (hkeys : Value.DistinctKeys entries ∧ KindsApart entries) (hnames : NamesOf entries names) :
    names.Nodup := by
  obtain ⟨owner, hnames⟩ := hnames
  obtain ⟨kinds, rfl, hnodup, hfrom⟩ := exists_kinds hkeys.1 hnames
  refine hnodup.map_on fun p hp q hq hpq => Prod.ext ?_ hpq
  obtain ⟨e, he, hkind, hname⟩ := hfrom p hp
  obtain ⟨e', he', hkind', hname'⟩ := hfrom q hq
  rw [← hpq] at hname'
  rw [← hkind, ← hkind']
  exact hkeys.2 owner p.2 e he e' he' hname hname'

end Document

end BlockFlow

import BlockFlow.Proofs.Decimal.Style
import BlockFlow.Proofs.FreshId
import Mathlib.Order.Bounds.Defs

/-!
Ids handed out in turn. Main statement: each is the stem of its name with the least number that
makes it new, neither in use in the document of its text nor handed out before.
-/

namespace BlockFlow

variable {stem : String} {taken : List String}

theorem le_freeNumber (fuel n : Nat) : n ≤ freeNumber stem taken fuel n := by
  induction fuel generalizing n with
  | zero => exact Nat.le_refl n
  | succ fuel ih =>
    rw [freeNumber]
    split
    · have hnext := ih (n + 1)
      omega
    · exact Nat.le_refl n

/-- All numbers that a search passes over are those of ids that are taken. -/
theorem idOf_mem_of_lt_freeNumber (fuel n : Nat) {m : Nat} (hn : n ≤ m)
    (hm : m < freeNumber stem taken fuel n) : idOf stem m ∈ taken := by
  induction fuel generalizing n with
  | zero =>
    rw [freeNumber] at hm
    omega
  | succ fuel ih =>
    rw [freeNumber] at hm
    split at hm
    · rename_i htaken
      rcases Nat.eq_or_lt_of_le hn with rfl | hlt
      · simpa using htaken
      · exact ih (n + 1) hlt hm
    · omega

/-- The id that is made from a name has the least number that makes it new. -/
theorem exists_isLeast_freeId (taken : List String) (name : String) :
    ∃ n, freeId taken name = idOf (idStem name) n ∧
      IsLeast {n | 1 ≤ n ∧ idOf (idStem name) n ∉ taken} n := by
  refine ⟨_, rfl, ⟨le_freeNumber _ _, freeId_not_mem taken name⟩, fun m hm => ?_⟩
  by_contra hlt
  exact hm.2 (idOf_mem_of_lt_freeNumber taken.length 1 hm.1 (Nat.lt_of_not_le hlt))

theorem idChar_idChar (c : Char) : idChar (idChar c) = idChar c := by
  by_cases h : Text.isAsciiAlphanumeric c || c = '_'
  · have hself : idChar c = c := if_pos h
    rw [hself, hself]
  · have hline : idChar c = '_' := if_neg h
    rw [hline]
    rfl

theorem idChar_of_isDigit {c : Char} (h : Text.isDigit c) : idChar c = c := by
  refine if_pos ?_
  simp only [Text.isDigit, Bool.and_eq_true, decide_eq_true_eq] at h
  simp [Text.isAsciiAlphanumeric, h]

theorem dropNumber_subset (cs : List Char) : dropNumber cs ⊆ cs := by
  intro c hc
  unfold dropNumber at hc
  simp only at hc
  split at hc
  · rename_i head rest hdrop
    split at hc
    · exact hc
    · have hmem : c ∈ cs.reverse.dropWhile Text.isDigit := by
        rw [hdrop]
        exact List.mem_cons_of_mem _ (List.mem_reverse.mp hc)
      exact List.mem_reverse.mp ((List.dropWhile_sublist _).subset hmem)
  · exact hc

/-- A number and the underscore before it are dropped from what they stand behind. -/
theorem dropNumber_append {cs digits : List Char} (hcs : cs ≠ []) (hdigits : digits ≠ [])
    (hall : ∀ c ∈ digits, Text.isDigit c) : dropNumber (cs ++ '_' :: digits) = cs := by
  have hrev : (cs ++ '_' :: digits).reverse = digits.reverse ++ '_' :: cs.reverse := by simp
  have hall' : ∀ c ∈ digits.reverse, Text.isDigit c = true := fun c hc =>
    hall c (List.mem_reverse.mp hc)
  obtain ⟨last, front, hfront⟩ := List.exists_cons_of_ne_nil (mt List.reverse_eq_nil_iff.mp hcs)
  have htake : (digits.reverse ++ '_' :: cs.reverse).takeWhile Text.isDigit = digits.reverse := by
    rw [List.takeWhile_append_of_pos hall', List.takeWhile_cons_of_neg (by decide),
      List.append_nil]
  have hdrop : (digits.reverse ++ '_' :: cs.reverse).dropWhile Text.isDigit =
      '_' :: last :: front := by
    rw [List.dropWhile_append_of_pos hall', List.dropWhile_cons_of_neg (by decide), hfront]
  have hsome : digits.reverse.isEmpty = false := by simpa using hdigits
  unfold dropNumber
  simp only [hrev, htake, hdrop, hsome]
  rw [if_neg (by decide), ← hfront, List.reverse_reverse]

theorem idStem_toList_ne_nil (name : String) : (idStem name).toList ≠ [] := by
  unfold idStem
  split
  · decide
  · rename_i hne
    simpa using hne

theorem idChar_of_mem_idStem {name : String} {c : Char} (h : c ∈ (idStem name).toList) :
    idChar c = c := by
  unfold idStem at h
  split at h
  · have hnode : ("node".toList.all fun c => idChar c = c) = true := by decide +kernel
    simpa using List.all_eq_true.mp hnode c h
  · rw [String.toList_ofList] at h
    obtain ⟨b, -, rfl⟩ := List.mem_map.mp (dropNumber_subset _ h)
    exact idChar_idChar b

/-- An id has the stem that it was made from. -/
theorem idStem_idOf (name : String) (n : Nat) : idStem (idOf (idStem name) n) = idStem name := by
  have hchars : (idOf (idStem name) n).toList.map idChar =
      (idStem name).toList ++ '_' :: Text.decimalDigits n := by
    have hstem : (idStem name).toList.map idChar = (idStem name).toList :=
      (List.map_congr_left fun c hc => idChar_of_mem_idStem hc).trans (List.map_id _)
    have hdigits : (Text.decimalDigits n).map idChar = Text.decimalDigits n :=
      (List.map_congr_left fun c hc =>
        idChar_of_isDigit (Decimal.isDigit_of_mem hc)).trans (List.map_id _)
    simp only [idOf, String.toList_append, String.toList_ofList, List.map_append, hstem, hdigits,
      List.append_assoc]
    rfl
  have hdrop := dropNumber_append (idStem_toList_ne_nil name) Decimal.decimalDigits_ne_nil
    fun c hc => Decimal.isDigit_of_mem (n := n) hc
  conv_lhs => rw [idStem, hchars, hdrop]
  split
  · rename_i hnil
    exact absurd hnil (idStem_toList_ne_nil name)
  · exact String.ofList_toList

namespace IdSource

/-- The answer to a request for the document of a text and a name. A request that fails leaves the
source. -/
def answer (s : IdSource) (call : String × String) : Except EditError String × IdSource :=
  match s.takeFor call.1 call.2 with
  | .ok (id, s') => (.ok id, s')
  | .error e => (.error e, s)

/-- The answers to requests in turn, and the source behind them. -/
def run (s : IdSource) : List (String × String) → List (Except EditError String) × IdSource
  | [] => ([], s)
  | call :: rest =>
    let (first, s') := s.answer call
    let (answers, last) := s'.run rest
    (first :: answers, last)

/-- The ids among answers. -/
def handedOut (answers : List (Except EditError String)) : List String :=
  answers.filterMap Except.toOption

variable {s : IdSource} {call : String × String} {text : String} {d : Document}

theorem answer_of_load (name : String) (h : Document.load text = .ok d) :
    s.answer (text, name) = (.ok (s.take d name).1, (s.take d name).2) := by
  simp only [answer, takeFor, h]

theorem answer_of_error {e : ParseError} (name : String) (h : Document.load text = .error e) :
    s.answer (text, name) = (.error (.document e), s) := by
  simp only [answer, takeFor, h]

/-- A source remembers what it handed out, and nothing else. -/
theorem given_answer (s : IdSource) (call : String × String) :
    (s.answer call).2.given = handedOut [(s.answer call).1] ++ s.given := by
  obtain ⟨text, name⟩ := call
  cases h : Document.load text with
  | ok d =>
    rw [answer_of_load name h, given_take]
    rfl
  | error e =>
    rw [answer_of_error name h]
    rfl

theorem nodup_answer (h : s.given.Nodup) : (s.answer call).2.given.Nodup := by
  obtain ⟨text, name⟩ := call
  cases hload : Document.load text with
  | ok d =>
    rw [answer_of_load name hload, given_take]
    exact List.nodup_cons.mpr ⟨(s.take_new d name).2, h⟩
  | error e =>
    rw [answer_of_error name hload]
    exact h

theorem run_append (s : IdSource) (calls : List (String × String)) (call : String × String) :
    s.run (calls ++ [call]) =
      ((s.run calls).1 ++ [((s.run calls).2.answer call).1], ((s.run calls).2.answer call).2) := by
  induction calls generalizing s with
  | nil => rfl
  | cons first calls ih =>
    simp only [List.cons_append, run, ih]

theorem given_run (s : IdSource) (calls : List (String × String)) :
    (s.run calls).2.given = (handedOut (s.run calls).1).reverse ++ s.given := by
  induction calls using List.reverseRecOn with
  | nil => rfl
  | append_singleton calls call ih =>
    rw [run_append, given_answer, ih]
    unfold handedOut
    rw [List.filterMap_append, List.reverse_append]
    cases h : ((s.run calls).2.answer call).1 <;> rfl

theorem nodup_run (h : s.given.Nodup) (calls : List (String × String)) :
    (s.run calls).2.given.Nodup := by
  induction calls using List.reverseRecOn with
  | nil => exact h
  | append_singleton calls call ih =>
    rw [run_append]
    exact nodup_answer ih

/-- Requests to a new source: each is answered by the stem of its name with the least number that
makes the id new, or, if its text holds no document, by that fault and without a trace in the
source. All ids are distinct, each has the stem it was made from, and the first is the one that is
made without a source. -/
theorem run_handsOut (calls : List (String × String)) (text name : String) :
    (match Document.load text with
      | .ok d => ∃ n, (run {} (calls ++ [(text, name)])).1 =
            (run {} calls).1 ++ [.ok (idOf (idStem name) n)] ∧
          IsLeast {n | 1 ≤ n ∧ idOf (idStem name) n ∉ d.allIds ∧
            idOf (idStem name) n ∉ handedOut (run {} calls).1} n ∧
          idStem (idOf (idStem name) n) = idStem name
      | .error e => run {} (calls ++ [(text, name)]) =
          ((run {} calls).1 ++ [.error (.document e)], (run {} calls).2)) ∧
    (handedOut (run {} calls).1).Nodup ∧
    (run {} [(text, name)]).1 = [freshId text name] := by
  have hgiven : (run {} calls).2.given = (handedOut (run {} calls).1).reverse := by
    rw [given_run, List.append_nil]
  refine ⟨?_, ?_, ?_⟩
  · rw [run_append]
    cases hload : Document.load text with
    | ok d =>
      obtain ⟨n, hid, hleast⟩ := exists_isLeast_freeId (d.allIds ++ (run {} calls).2.given) name
      rw [answer_of_load name hload]
      refine ⟨n, by simp only [take, hid], ?_, idStem_idOf name n⟩
      simpa [hgiven, not_or] using hleast
    | error e => rw [answer_of_error name hload]
  · have hnodup := nodup_run (s := {}) List.nodup_nil calls
    rw [hgiven] at hnodup
    exact List.nodup_reverse.mp hnodup
  · simp only [run, freshId]
    cases hload : Document.load text with
    | ok d =>
      rw [answer_of_load name hload, take, List.append_nil]
    | error e => rw [answer_of_error name hload]

end IdSource

end BlockFlow

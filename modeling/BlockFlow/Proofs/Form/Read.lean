import BlockFlow.Proofs.Form.Text
import BlockFlow.Yaml.Load

/-!
Reading the text of a form. Main statement: it loads as the value of the form.
-/

namespace BlockFlow.Form

open Yaml Yaml.Node

/-- The node of a scalar or an empty collection. -/
def Leaf.node : Leaf → Node
  | plain cs => .scalar none none true cs
  | quoted cs => .scalar none none false cs
  | noItems => .seq none none []
  | noEntries => .map none none []

mutual

/-- The node that the tokens of a form spell. -/
def node : Form → Node
  | leaf l => l.node
  | bare => Node.empty
  | map entries => .map none none (entryNodes entries)
  | seq items => .seq none none (itemNodes items)

def entryNodes : List (String × Form) → List (Node × Node)
  | [] => []
  | (key, f) :: rest => (.scalar none none true key.toList, f.node) :: entryNodes rest

def itemNodes : List Form → List Node
  | [] => []
  | f :: rest => f.node :: itemNodes rest

end

/-- Reading gives `x`, and what is left begins with `rest`. -/
def Gives {α : Type} (m : Read α) (ts : List Token) (x : α) (rest : List Token) : Prop :=
  ∀ anchors handles, m ⟨ts, anchors, handles⟩ = some (x, ⟨rest, anchors, handles⟩)

theorem gives_leaf (l : Leaf) (fuel : Nat) (p : Position) (rest : List Token) :
    Gives (read (fuel + 2) p) (l.tokens ++ rest) l.node rest := by
  intro anchors handles
  cases l <;> cases p <;> rfl

variable {fuel : Nat} {p : Position} {ts rest more : List Token}

theorem gives_map {entries : List (Node × Node)} (hp : p ≠ .flow)
    (h : Gives (readBlockMapping fuel) ts entries rest) :
    Gives (read (fuel + 1) p) (.blockMappingStart :: ts) (.map none none entries) rest := by
  intro anchors handles
  have hread : read (fuel + 1) p ⟨.blockMappingStart :: ts, anchors, handles⟩ =
      (readBlockMapping fuel ⟨ts, anchors, handles⟩).bind
        fun (entries, r) => some (.map none none entries, r) := by
    cases p <;> first | rfl | exact absurd rfl hp
  rw [hread, h]
  rfl

theorem gives_seq {items : List Node} (hp : p ≠ .flow)
    (h : Gives (readBlockSequence fuel) ts items rest) :
    Gives (read (fuel + 1) p) (.blockSequenceStart :: ts) (.seq none none items) rest := by
  intro anchors handles
  have hread : read (fuel + 1) p ⟨.blockSequenceStart :: ts, anchors, handles⟩ =
      (readBlockSequence fuel ⟨ts, anchors, handles⟩).bind
        fun (items, r) => some (.seq none none items, r) := by
    cases p <;> first | rfl | exact absurd rfl hp
  rw [hread, h]
  rfl

theorem gives_entry {key : List Char} {value : Node} {entries : List (Node × Node)}
    (hvalue : Gives (readUnless (fuel + 3) .entry [.key, .value, .blockEnd]) ts value rest)
    (hrest : Gives (readBlockMapping (fuel + 3)) rest entries more) :
    Gives (readBlockMapping (fuel + 4)) (.key :: .scalar true key :: .value :: ts)
      ((.scalar none none true key, value) :: entries) more := by
  intro anchors handles
  have hread : readBlockMapping (fuel + 4)
      ⟨.key :: .scalar true key :: .value :: ts, anchors, handles⟩ =
      (readUnless (fuel + 3) .entry [.key, .value, .blockEnd] ⟨ts, anchors, handles⟩).bind
        fun v => (readBlockMapping (fuel + 3) v.2).bind
          fun es => some ((.scalar none none true key, v.1) :: es.1, es.2) := rfl
  rw [hread, hvalue, Option.bind_some, hrest]
  rfl

theorem gives_item {item : Node} {items : List Node}
    (hitem : Gives (readUnless fuel .block [.blockEntry, .blockEnd]) ts item rest)
    (hrest : Gives (readBlockSequence fuel) rest items more) :
    Gives (readBlockSequence (fuel + 1)) (.blockEntry :: ts) (item :: items) more := by
  intro anchors handles
  have hread : readBlockSequence (fuel + 1) ⟨.blockEntry :: ts, anchors, handles⟩ =
      (readUnless fuel .block [.blockEntry, .blockEnd] ⟨ts, anchors, handles⟩).bind
        fun n => (readBlockSequence fuel n.2).bind fun ns => some (n.1 :: ns.1, ns.2) := rfl
  rw [hread, hitem, Option.bind_some, hrest]
  rfl

/-- The tokens in front of which nothing is an empty node. -/
def stops : List Token := [.key, .value, .blockEnd, .blockEntry]

theorem gives_nothing {t : Token} {ends : List Token} (ht : t ∈ ends) :
    Gives (readUnless (fuel + 1) p ends) (t :: rest) Node.empty (t :: rest) := by
  intro anchors handles
  have hread : readUnless (fuel + 1) p ends ⟨t :: rest, anchors, handles⟩ =
      (if ends.contains t then pure Node.empty else read fuel p)
        (⟨t :: rest, anchors, handles⟩ : Reading) := rfl
  rw [hread, if_pos (by simpa using ht)]
  rfl

theorem gives_unless {t : Token} {ends : List Token} {n : Node} (ht : t ∉ ends)
    (h : Gives (read fuel p) (t :: ts) n rest) :
    Gives (readUnless (fuel + 1) p ends) (t :: ts) n rest := by
  intro anchors handles
  have hread : readUnless (fuel + 1) p ends ⟨t :: ts, anchors, handles⟩ =
      (if ends.contains t then pure Node.empty else read fuel p)
        (⟨t :: ts, anchors, handles⟩ : Reading) := rfl
  have hnot : ¬ ends.contains t = true := fun hmem => ht (by simpa using hmem)
  rw [hread, if_neg hnot, h]

/-- The tokens that a node begins with. -/
def opensNode : Token → Bool
  | .scalar _ _ => true
  | .flowSequenceStart => true
  | .flowMappingStart => true
  | .blockSequenceStart => true
  | .blockMappingStart => true
  | _ => false

theorem not_mem_of_opensNode {t : Token} {ends : List Token} (hends : ends ⊆ stops)
    (ht : opensNode t) : t ∉ ends := by
  intro hmem
  have hstop : ∀ t ∈ stops, opensNode t = false := by simp [stops, opensNode]
  rw [hstop t (hends hmem)] at ht
  cases ht

/-- The first token of anything that is written. -/
theorem exists_tokens_cons {f : Form} (h : f ≠ bare) : ∃ t ts, f.tokens = t :: ts ∧ opensNode t := by
  cases f with
  | leaf l => cases l <;> exact ⟨_, _, rfl, rfl⟩
  | bare => exact absurd rfl h
  | map entries => exact ⟨_, _, rfl, rfl⟩
  | seq items => exact ⟨_, _, rfl, rfl⟩

theorem gives_value {n : Node} {ends : List Token} (hends : ends ⊆ stops)
    (hnil : ts = [] → n = Node.empty) (hcons : ts ≠ [] → ∃ t ts', ts = t :: ts' ∧ opensNode t)
    (h : ts ≠ [] → Gives (read fuel p) (ts ++ rest) n rest)
    (hrest : ∃ t ∈ ends, ∃ more, rest = t :: more) :
    Gives (readUnless (fuel + 1) p ends) (ts ++ rest) n rest := by
  by_cases hts : ts = []
  · obtain ⟨t, ht, more, rfl⟩ := hrest
    rw [hnil hts, hts]
    exact gives_nothing ht
  · obtain ⟨t, ts', rfl, ht⟩ := hcons hts
    exact gives_unless (not_mem_of_opensNode hends ht) (h hts)

theorem tokens_eq_nil {f : Form} (h : f.tokens = []) : f = bare := by
  by_contra hf
  obtain ⟨t, ts, htokens, -⟩ := exists_tokens_cons hf
  rw [h] at htokens
  cases htokens

mutual

theorem gives_form : (f : Form) → f ≠ bare → ∀ fuel p rest, p ≠ .flow →
    2 * f.tokens.length + 2 ≤ fuel → Gives (read fuel p) (f.tokens ++ rest) f.node rest
  | leaf l, _, fuel, p, rest, _, hfuel => by
    obtain ⟨fuel, rfl⟩ : ∃ m, fuel = m + 2 := ⟨fuel - 2, by omega⟩
    exact gives_leaf l fuel p rest
  | bare, h, _, _, _, _, _ => absurd rfl h
  | map entries, _, fuel, p, rest, hp, hfuel => by
    simp only [tokens, List.length_cons, List.length_append] at hfuel
    obtain ⟨fuel, rfl⟩ : ∃ m, fuel = m + 1 := ⟨fuel - 1, by omega⟩
    have hentries := gives_entries entries fuel rest (by omega)
    simpa [tokens, node] using gives_map hp hentries
  | seq items, _, fuel, p, rest, hp, hfuel => by
    simp only [tokens, List.length_cons, List.length_append] at hfuel
    obtain ⟨fuel, rfl⟩ : ∃ m, fuel = m + 1 := ⟨fuel - 1, by omega⟩
    have hitems := gives_items items fuel rest (by omega)
    simpa [tokens, node] using gives_seq hp hitems

theorem gives_entries : (entries : List (String × Form)) → ∀ fuel rest,
    2 * (entryTokens entries).length + 2 ≤ fuel → Gives (readBlockMapping fuel)
      (entryTokens entries ++ .blockEnd :: rest) (entryNodes entries) rest
  | [], fuel, rest, hfuel => by
    obtain ⟨fuel, rfl⟩ : ∃ m, fuel = m + 1 := ⟨fuel - 1, by omega⟩
    exact fun _ _ => rfl
  | (key, f) :: entries, fuel, rest, hfuel => by
    simp only [entryTokens, List.length_cons, List.length_append] at hfuel
    obtain ⟨fuel, rfl⟩ : ∃ m, fuel = m + 4 := ⟨fuel - 4, by omega⟩
    have hends : ([.key, .value, .blockEnd] : List Token) ⊆ stops := by simp [stops]
    have hrest : ∃ t ∈ ([.key, .value, .blockEnd] : List Token), ∃ more,
        entryTokens entries ++ .blockEnd :: rest = t :: more := by
      cases entries with
      | nil => exact ⟨.blockEnd, by simp, rest, rfl⟩
      | cons e entries => exact ⟨.key, by simp, _, rfl⟩
    have hf (hne : f.tokens ≠ []) : f ≠ bare := by
      rintro rfl
      exact hne rfl
    have hvalue := gives_value hends (fun hnil => by rw [tokens_eq_nil hnil, node])
      (fun hne => exists_tokens_cons (hf hne))
      (fun hne => gives_form f (hf hne) (fuel + 2) .entry _ (by decide) (by omega)) hrest
    have hmore := gives_entries entries (fuel + 3) rest (by omega)
    simpa [entryTokens, entryNodes] using gives_entry hvalue hmore

theorem gives_items : (items : List Form) → ∀ fuel rest,
    2 * (itemTokens items).length + 2 ≤ fuel → Gives (readBlockSequence fuel)
      (itemTokens items ++ .blockEnd :: rest) (itemNodes items) rest
  | [], fuel, rest, hfuel => by
    obtain ⟨fuel, rfl⟩ : ∃ m, fuel = m + 1 := ⟨fuel - 1, by omega⟩
    exact fun _ _ => rfl
  | f :: items, fuel, rest, hfuel => by
    simp only [itemTokens, List.length_cons, List.length_append] at hfuel
    obtain ⟨fuel, rfl⟩ : ∃ m, fuel = m + 2 := ⟨fuel - 2, by omega⟩
    have hends : ([.blockEntry, .blockEnd] : List Token) ⊆ stops := by simp [stops]
    have hrest : ∃ t ∈ ([.blockEntry, .blockEnd] : List Token), ∃ more,
        itemTokens items ++ .blockEnd :: rest = t :: more := by
      cases items with
      | nil => exact ⟨.blockEnd, by simp, rest, rfl⟩
      | cons e items => exact ⟨.blockEntry, by simp, _, rfl⟩
    have hf (hne : f.tokens ≠ []) : f ≠ bare := by
      rintro rfl
      exact hne rfl
    have hitem := gives_value hends (fun hnil => by rw [tokens_eq_nil hnil, node])
      (fun hne => exists_tokens_cons (hf hne))
      (fun hne => gives_form f (hf hne) fuel .block _ (by decide) (by omega)) hrest
    have hmore := gives_items items (fuel + 1) rest (by omega)
    simpa [itemTokens, itemNodes] using gives_item hitem hmore

end

/-- A document is read when nothing is left behind it. -/
def endDocument (n : Node) : Read Node := do
  match ← peek with
  | none => return n
  | some _ => failure

theorem ofTokens?_of_gives {n : Node} {t : Token} (ht : opensNode t)
    (h : Gives (read (4 * (t :: ts).length + 8) .block) (t :: ts) n []) :
    Node.ofTokens? (t :: ts) = some n := by
  have hdocument (fuel : Nat) : readDocument fuel ⟨t :: ts, [], []⟩ =
      (read fuel .block ⟨t :: ts, [], standardHandles⟩).bind fun n =>
        endDocument n.1 { n.2 with tokens := n.2.tokens.dropWhile (· = .documentEnd) } := by
    cases t <;> first | (cases ht; done) | rfl
  have hrun := congrArg (·.map (·.1)) (hdocument (4 * (t :: ts).length + 8))
  rw [h] at hrun
  exact hrun

/-- The tokens of a form spell its node. -/
theorem ofTokens?_tokens {f : Form} (h : f ≠ bare) : Node.ofTokens? f.tokens = some f.node := by
  have hread := gives_form f h (4 * f.tokens.length + 8) .block [] (by decide) (by omega)
  obtain ⟨t, ts, htokens, ht⟩ := exists_tokens_cons h
  rw [List.append_nil, htokens] at hread
  rw [htokens]
  exact ofTokens?_of_gives ht hread

section Value

variable {scope : Scope} {depth n : Nat}

/-- Adds the value of an entry. -/
def addEntry (scope : Scope) (depth : Nat) (done : List (Value × Value)) (e : Node × Node) :
    Work (List (Value × Value)) := do
  let key ← Node.value scope depth false e.1
  let _ ← StateT.lift (checkNew? done key)
  let value ← Node.value scope depth false e.2
  pure (done ++ [(key, value)])

theorem value_map_succ (entries : List (Node × Node)) :
    Node.value scope (depth + 1) false (.map none none entries) n =
      ((entries.foldlM (addEntry scope depth) []) n).bind fun r => some (.map r.1, r.2) := by
  rw [Node.value]
  rfl

theorem value_seq_succ (items : List Node) :
    Node.value scope (depth + 1) false (.seq none none items) n =
      ((items.mapM fun item => Node.value scope depth false item) n).bind
        fun r => some (.seq r.1, r.2) := by
  rw [Node.value]
  rfl

theorem value_map_zero (entries : List (Node × Node)) :
    Node.value scope 0 false (.map none none entries) n = none := by
  rw [Node.value]
  rfl

theorem value_seq_zero (items : List Node) :
    Node.value scope 0 false (.seq none none items) n = none := by
  rw [Node.value]
  rfl

theorem value_scalar (plain : Bool) (text : List Char) :
    Node.value scope depth false (.scalar none none plain text) n =
      (if plain then Plain.value? text else some (.str (String.ofList text))).map (·, n) := by
  have hvalue : Node.value scope depth false (.scalar none none plain text) n =
      ((scalarValue? false none plain text).bind fun v => some (v, n)).bind
        fun r => some (r.1, r.2) := by
    rw [Node.value]
    rfl
  have hscalar : scalarValue? false none plain text =
      if plain then Plain.value? text else some (.str (String.ofList text)) := rfl
  rw [hvalue, hscalar]
  generalize (if plain then Plain.value? text else some (.str (String.ofList text))) = v
  cases v <;> rfl

theorem value?_of_isPlainText {text : List Char} (h : isPlainText text) :
    Plain.value? text = some (Leaf.plain text).value := by
  cases text with
  | nil => cases h
  | cons c cs =>
    simp only [isPlainText, Bool.and_eq_true, Option.isSome_iff_exists] at h
    obtain ⟨-, v, hv⟩ := h
    rw [Leaf.value, hv]
    rfl

theorem value?_of_isKey {key : String} (h : isKey key) :
    Plain.value? key.toList = some (.str key) := by
  simp only [isKey, Bool.and_eq_true, Option.any_eq_true] at h
  obtain ⟨⟨-, v, hv, hstr⟩, -⟩ := h
  rw [hv]
  unfold Value.isStr at hstr
  split at hstr
  · rw [of_decide_eq_true hstr]
  · cases hstr

theorem value_leaf {l : Leaf} (hl : l.isSound) : Node.value scope depth false l.node n =
    if l.height ≤ depth then some (l.value, n) else none := by
  cases l with
  | plain text =>
    have hheight : (Leaf.plain text).height ≤ depth := Nat.zero_le _
    rw [Leaf.node, value_scalar, if_pos rfl, value?_of_isPlainText hl, if_pos hheight]
    rfl
  | quoted text =>
    have hheight : (Leaf.quoted text).height ≤ depth := Nat.zero_le _
    rw [Leaf.node, value_scalar, if_neg Bool.false_ne_true, if_pos hheight]
    rfl
  | noItems =>
    cases depth with
    | zero => exact value_seq_zero []
    | succ depth =>
      rw [Leaf.node, value_seq_succ, if_pos (by simp [Leaf.height])]
      rfl
  | noEntries =>
    cases depth with
    | zero => exact value_map_zero []
    | succ depth =>
      rw [Leaf.node, value_map_succ, if_pos (by simp [Leaf.height])]
      rfl

/-- The key of a further entry is new. -/
theorem checkNew?_of_not_mem {done : List (Value × Value)} {keys : List String} {key : String}
    (hdone : done.map (·.1) = keys.map .str) (h : key ∉ keys) :
    checkNew? done (.str key) = some () := by
  rw [checkNew?, if_neg]
  simp only [List.any_eq_true, not_exists, not_and]
  rintro ⟨k, v⟩ hmem hsame
  have hk : k ∈ done.map (·.1) := List.mem_map.mpr ⟨_, hmem, rfl⟩
  rw [hdone] at hk
  obtain ⟨other, hother, rfl⟩ := List.mem_map.mp hk
  have heq : other = key := by simpa [Value.same] using hsame
  exact h (heq ▸ hother)

theorem addEntry_key {done : List (Value × Value)} {keys : List String} {key : String} {v : Node}
    (hdone : done.map (·.1) = keys.map .str) (h : key ∉ keys) (hkey : isKey key) :
    addEntry scope depth done (.scalar none none true key.toList, v) n =
      (Node.value scope depth false v n).map fun r => (done ++ [(.str key, r.1)], r.2) := by
  have hname : Node.value scope depth false (.scalar none none true key.toList) n =
      some (.str key, n) := by
    rw [value_scalar, if_pos rfl, value?_of_isKey hkey]
    rfl
  have hadd : addEntry scope depth done (.scalar none none true key.toList, v) n =
      (Node.value scope depth false (.scalar none none true key.toList) n).bind fun k =>
        ((checkNew? done k.1).bind fun u => some (u, k.2)).bind fun u =>
          (Node.value scope depth false v u.2).bind fun r =>
            some (done ++ [(k.1, r.1)], r.2) := by
    rw [addEntry]
    rfl
  rw [hadd, hname, Option.bind_some, checkNew?_of_not_mem hdone h, Option.bind_some,
    Option.bind_some]
  cases Node.value scope depth false v n <;> rfl

mutual

/-- The value of a node of a form, if it is not nested too deep. -/
theorem value_node : (f : Form) → f.isSound → ∀ depth n, Node.value scope depth false f.node n =
    if f.height ≤ depth then some (f.value, n) else none
  | leaf _, h, _, _ => value_leaf h
  | bare, _, depth, n => by
    have hheight : bare.height ≤ depth := Nat.zero_le _
    rw [node, Node.empty, value_scalar, if_pos rfl, if_pos hheight]
    rfl
  | map entries, h, 0, n => value_map_zero _
  | seq items, h, 0, n => value_seq_zero _
  | map entries, h, depth + 1, n => by
    obtain ⟨-, hnodup, hsound⟩ := isSound_map.mp h
    have hentries := value_entries entries hsound hnodup depth n [] [] rfl (by simp)
    have hheight : (map entries).height ≤ depth + 1 ↔ entriesHeight entries ≤ depth :=
      Nat.succ_le_succ_iff
    rw [node, value_map_succ, hentries]
    simp only [hheight]
    split <;> rfl
  | seq items, h, depth + 1, n => by
    have hitems := value_items items (isSound_seq.mp h).2 depth n
    have hheight : (seq items).height ≤ depth + 1 ↔ itemsHeight items ≤ depth :=
      Nat.succ_le_succ_iff
    rw [node, value_seq_succ, hitems]
    simp only [hheight]
    split <;> rfl

theorem value_entries : (entries : List (String × Form)) → entriesSound entries →
    (entries.map (·.1)).Nodup → ∀ depth n (done : List (Value × Value)) (keys : List String),
    done.map (·.1) = keys.map .str → (∀ key ∈ entries.map (·.1), key ∉ keys) →
    (entryNodes entries).foldlM (addEntry scope depth) done n =
      if entriesHeight entries ≤ depth then some (done ++ entryValues entries, n) else none
  | [], _, _, depth, n, done, _, _, _ => by
    rw [entriesHeight, if_pos (Nat.zero_le _), entryValues, List.append_nil]
    rfl
  | (key, f) :: entries, h, hnodup, depth, n, done, keys, hdone, hnew => by
    obtain ⟨hkey, hf, hrest⟩ := entriesSound_cons.mp h
    obtain ⟨hfresh, hnodup⟩ := List.nodup_cons.mp hnodup
    have hfirst := value_node f hf depth n
    have hmore := value_entries entries hrest hnodup depth n (done ++ [(.str key, f.value)])
      (keys ++ [key]) (by simp [hdone]) (by
        intro k hk
        have hne : k ≠ key := by
          rintro rfl
          exact hfresh hk
        simpa [hne] using hnew k (List.mem_cons_of_mem _ hk))
    have hstep : (entryNodes ((key, f) :: entries)).foldlM (addEntry scope depth) done n =
        (addEntry scope depth done (.scalar none none true key.toList, f.node) n).bind
          fun r => (entryNodes entries).foldlM (addEntry scope depth) r.1 r.2 := by
      rw [entryNodes, List.foldlM_cons]
      rfl
    rw [hstep, addEntry_key hdone (hnew key List.mem_cons_self) hkey, hfirst, entriesHeight]
    simp only [Nat.max_le]
    by_cases hheight : f.height ≤ depth
    · simp [hheight, hmore, entryValues]
    · simp [hheight]

theorem value_items : (items : List Form) → itemsSound items → ∀ depth n,
    ((itemNodes items).mapM fun item => Node.value scope depth false item) n =
      if itemsHeight items ≤ depth then some (itemValues items, n) else none
  | [], _, depth, n => by
    rw [itemsHeight, if_pos (Nat.zero_le _)]
    rfl
  | f :: items, h, depth, n => by
    obtain ⟨hf, hrest⟩ := itemsSound_cons.mp h
    have hfirst := value_node f hf depth n
    have hmore := value_items items hrest depth n
    have hstep : ((itemNodes (f :: items)).mapM fun item => Node.value scope depth false item) n =
        (Node.value scope depth false f.node n).bind fun r =>
          (((itemNodes items).mapM fun item => Node.value scope depth false item) r.2).bind
            fun rs => some (r.1 :: rs.1, rs.2) := by
      rw [itemNodes, List.mapM_cons]
      rfl
    rw [hstep, hfirst, itemsHeight]
    simp only [Nat.max_le]
    by_cases hheight : f.height ≤ depth
    · by_cases hheights : itemsHeight items ≤ depth
      · simp [hheight, hheights, hmore, itemValues]
      · simp [hheight, hheights, hmore]
    · simp [hheight]

end

end Value

variable {f : Form} {cs : List Char}

theorem load?_of_tokens? {ts : List Token} (h : tokens? cs = some ts)
    (hread : Node.ofTokens? ts = some f.node) (hf : f.isSound) :
    load? cs = if f.height ≤ 128 then some f.value else none := by
  have hvalue : Node.toValue? f.node = if f.height ≤ 128 then some f.value else none := by
    have hrun : Node.value ⟨f.node.anchored, f.node.size * 100⟩ 128 false f.node 0 =
        if f.height ≤ 128 then some (f.value, 0) else none := value_node f hf 128 0
    rw [toValue?, StateT.run, hrun]
    split <;> rfl
  rw [load?, h]
  simp [hread, hvalue]

/-- The text of a form loads as its value, if it is not nested too deep. -/
theorem load?_chars (hf : f.isSound) (hblock : f.isBlock) :
    load? f.chars = if f.height ≤ 128 then some f.value else none := by
  refine load?_of_tokens? (tokens?_chars hf hblock) (ofTokens?_tokens ?_) hf
  rintro rfl
  cases hblock

/-- A scalar or an empty collection loads as its value. -/
theorem load?_leaf {l : Leaf} (hl : l.isSound) : load? l.text = some l.value := by
  have hload := load?_of_tokens? (f := .leaf l) (tokens?_leaf hl)
    (ofTokens?_tokens (f := .leaf l) nofun) hl
  rwa [if_pos] at hload
  cases l <;> simp [height, Leaf.height]

end BlockFlow.Form

import BlockFlow.Proofs.Form.Scan

/-!
Steps of the scanner between brackets, on one line.
-/

namespace BlockFlow.Yaml

/-- What becomes of an open place for a key. -/
def Cursor.stillOpen (c : Cursor) (place : Option KeyPlace) : Option KeyPlace :=
  place.filter fun p => !(decide (p.line < c.line) || decide (p.offset + 1024 < c.offset))

namespace Scanner

variable {limit line depth n : Nat} {c : Cursor} {k : Bool} {b : Blocks} {rest : List Char}
  {places : List (Option KeyPlace)}

/-- The scanner with the open places for keys, the innermost first. -/
def facing (c : Cursor) (k : Bool) (places : List (Option KeyPlace)) (b : Blocks) : Scanner :=
  ⟨c, b.indent, b.outer, k, places, b.tokens, b.tokens.length⟩

/-- A place on a line with brackets around it, and the open places for keys. -/
structure Level (line depth : Nat) (c : Cursor) (places : List (Option KeyPlace)) : Prop where
  here : c.line = line
  inside : 0 < c.column
  length : places.length = depth
  lapses : ∀ p ∈ places, Lapses line p

theorem lapses_stillOpen {place : Option KeyPlace} (h : Lapses line place) :
    Lapses line (c.stillOpen place) := by
  intro p hp
  exact h p (Option.filter_eq_some_iff.mp hp).1

theorem mapM_eq_some_map {α β : Type} {f : α → Option β} {g : α → β} {xs : List α}
    (h : ∀ x ∈ xs, f x = some (g x)) : xs.mapM f = some (xs.map g) := by
  induction xs with
  | nil => rfl
  | cons x xs ih =>
    obtain ⟨hx, hxs⟩ := List.forall_mem_cons.mp h
    rw [List.mapM_cons, hx, ih hxs]
    rfl

theorem dropStale?_facing (h : ∀ p ∈ places, Lapses line p) :
    (facing c k places b).dropStale? = some (facing c k (places.map c.stillOpen) b) := by
  rw [dropStale?]
  refine congrArg (Option.bind · _) (mapM_eq_some_map (g := c.stillOpen) fun p hp => ?_)
  cases p with
  | none => rfl
  | some p =>
    have hrequired := (h _ hp p rfl).1
    have hplace : (if p.line < c.line || p.offset + 1024 < c.offset then
        if p.required then none else some none
      else some (some p)) = some (c.stillOpen (some p)) := by
      by_cases hstale : (decide (p.line < c.line) || decide (p.offset + 1024 < c.offset)) = true
      · simp [Cursor.stillOpen, hstale, hrequired, Option.filter]
      · simp [Cursor.stillOpen, hstale, Option.filter]
    exact hplace

theorem inFlow_facing : (facing c k places b).inFlow = decide (1 < places.length) := rfl

theorem closeBlocks_facing (h : 1 < places.length) (x : Int) :
    (facing c k places b).closeBlocks x = facing c k places b := by
  rw [closeBlocks, inFlow_facing, if_pos (decide_eq_true h)]

/-- The scanner goes to the next token. -/
theorem reached_facing (hlevel : Level line depth c places) (hc : c.rest = Text.spaces n ++ rest)
    (hrest : Starts rest) (hlimit : 0 < limit) : ∃ c' places', c'.rest = rest ∧
      Level line depth c' places' ∧ c'.offset = c.offset + Text.byteWidth (Text.spaces n) ∧
      (∀ p outer, places = p :: outer → ∃ outer', places' = c'.stillOpen p :: outer') ∧
      (skipToToken limit (facing c k places b)).dropStale? = some (facing c' k places' b) := by
  obtain ⟨m, rfl⟩ : ∃ m, limit = m + 1 := ⟨limit - 1, by omega⟩
  let c' := c.past (Text.spaces n) rest
  have hskip : skipToToken (m + 1) (facing c k places b) = facing c' k places b :=
    skipToToken_spaces (s := facing c k places b) hc hrest
  refine ⟨c', places.map c'.stillOpen, rfl, ⟨hlevel.here, ?_, ?_, ?_⟩, rfl, ?_, ?_⟩
  · simp only [c', Cursor.past]
    have hcolumn := hlevel.inside
    omega
  · rw [List.length_map, hlevel.length]
  · intro p hp
    obtain ⟨q, hq, rfl⟩ := List.mem_map.mp hp
    exact lapses_stillOpen (hlevel.lapses q hq)
  · rintro p outer rfl
    exact ⟨_, rfl⟩
  · rw [hskip]
    exact dropStale?_facing hlevel.lapses

/-- Steps lead in front of `rest`, between as many brackets as before or others. -/
def Reaches (limit line depth : Nat) (s : Scanner) (k : Bool) (rest : List Char) (b : Blocks) : Prop :=
  ∃ c places, c.rest = rest ∧ Level line depth c places ∧ Leads limit s (facing c k places b)

theorem Level.exists_cons (h : Level line depth c places) (hdepth : 0 < depth) :
    ∃ p outer, places = p :: outer := by
  refine List.exists_cons_of_ne_nil ?_
  rintro rfl
  have hlength := h.length
  simp only [List.length_nil] at hlength
  omega

theorem Level.past {cs : List Char} (h : Level line depth c places) :
    Level line depth (c.past cs rest) places := by
  refine ⟨h.here, ?_, h.length, h.lapses⟩
  have hinside := h.inside
  simp only [Cursor.past]
  omega

/-- With another innermost place. -/
theorem Level.head {p q : Option KeyPlace} {outer : List (Option KeyPlace)}
    (h : Level line depth c (p :: outer)) (hq : Lapses line q) : Level line depth c (q :: outer) :=
  ⟨h.here, h.inside, h.length, List.forall_mem_cons.mpr ⟨hq, (List.forall_mem_cons.mp h.lapses).2⟩⟩

theorem Level.opened (h : Level line depth c places) : Level line (depth + 1) c (none :: places) :=
  ⟨h.here, h.inside, congrArg (· + 1) h.length, List.forall_mem_cons.mpr ⟨lapses_none _, h.lapses⟩⟩

theorem Level.closed {p : Option KeyPlace} {outer : List (Option KeyPlace)}
    (h : Level line (depth + 1) c (p :: outer)) : Level line depth c outer :=
  ⟨h.here, h.inside, Nat.succ.inj h.length, (List.forall_mem_cons.mp h.lapses).2⟩

theorem dropPlace?_facing {p : Option KeyPlace} {outer : List (Option KeyPlace)} (h : Lapses line p) :
    (facing c k (p :: outer) b).dropPlace? = some (facing c k (none :: outer) b) := by
  cases p with
  | none => rfl
  | some p => simp [dropPlace?, facing, (h p rfl).1]

/-- The place of a key that starts here, between brackets. -/
def keyPlace (c : Cursor) (b : Blocks) : KeyPlace :=
  ⟨false, b.tokens.length, c.offset, c.line, c.column⟩

theorem lapses_keyPlace : Lapses c.line (some (keyPlace c b)) := by
  rintro p ⟨⟩
  exact ⟨rfl, le_rfl⟩

theorem savePlace?_facing {p : Option KeyPlace} {outer : List (Option KeyPlace)} (h : Lapses line p)
    (houter : outer ≠ []) : (facing c k (p :: outer) b).savePlace? =
      some (facing c k ((if k then some (keyPlace c b) else p) :: outer) b) := by
  cases k with
  | false => rfl
  | true =>
    have hflow : 1 < (none :: outer : List (Option KeyPlace)).length := by
      simpa using List.length_pos_iff.mpr houter
    have hdrop : (facing c true (p :: outer) b).dropPlace? = some (facing c true (none :: outer) b) :=
      dropPlace?_facing h
    rw [savePlace?, if_pos rfl]
    simp only [hdrop, Option.bind_eq_bind, Option.bind_some, inFlow_facing, decide_eq_true hflow]
    rfl

/-- The place in front of a token is remembered where a key may start. -/
theorem exists_savePlace?_facing {p : Option KeyPlace} {outer : List (Option KeyPlace)}
    (hlevel : Level line depth c (p :: outer)) (houter : outer ≠ []) : ∃ q,
      Level line depth c (q :: outer) ∧ (k = true → q = some (keyPlace c b)) ∧
        (facing c k (p :: outer) b).savePlace? = some (facing c k (q :: outer) b) := by
  have hp := (List.forall_mem_cons.mp hlevel.lapses).1
  refine ⟨_, hlevel.head ?_, fun hk => if_pos hk, savePlace?_facing hp houter⟩
  split
  · rw [← hlevel.here]
    exact lapses_keyPlace
  · exact hp

/-- The token in front of which the scanner comes to rest. -/
theorem exists_reached (hlevel : Level line depth c places) (hdepth : 1 < depth)
    (hc : c.rest = Text.spaces n ++ rest) (hrest : Starts rest) (hlimit : 0 < limit) :
    ∃ c' p outer, c'.rest = rest ∧ outer ≠ [] ∧ Level line depth c' (p :: outer) ∧
      (skipToToken limit (facing c k places b)).dropStale? = some (facing c' k (p :: outer) b) ∧
      (facing c' k (p :: outer) b).closeBlocks c'.column = facing c' k (p :: outer) b := by
  obtain ⟨c', places', hc', hlevel', -, -, hreached⟩ := reached_facing hlevel hc hrest hlimit
  obtain ⟨p, outer, rfl⟩ := hlevel'.exists_cons (by omega)
  have hlength := hlevel'.length
  refine ⟨c', p, outer, hc', ?_, hlevel', hreached, closeBlocks_facing (by omega) _⟩
  rintro rfl
  simp only [List.length_singleton] at hlength
  omega

theorem atMark_of_inside (h : 0 < c.column) (mark : List Char) : c.atMark mark = false := by
  simp [Cursor.atMark, Nat.ne_of_gt h]

theorem reaches_comma (hlevel : Level line depth c places) (hdepth : 1 < depth)
    (hc : c.rest = ',' :: rest) (hlimit : 0 < limit) :
    Reaches limit line depth (facing c k places b) true rest (b.push .flowEntry) := by
  have hstarts : Starts (',' :: rest) := by
    intro d hd
    obtain rfl : ',' = d := Option.some.inj hd
    decide
  obtain ⟨c', p, outer, hc', -, hlevel', hreached, hclose⟩ :=
    exists_reached (n := 0) (k := k) (b := b) hlevel hdepth hc hstarts hlimit
  have hp := (List.forall_mem_cons.mp hlevel'.lapses).1
  have hstep : step? limit (facing c k places b) =
      some (facing (c'.past [','] rest) true (none :: outer) (b.push .flowEntry)) := by
    have hcursor : (facing c' k (p :: outer) b).cursor = c' := rfl
    rw [step?]
    simp only [hreached, Option.bind_eq_bind, Option.bind_some, hcursor, hclose]
    simp [hc', hlevel'.inside.ne', atMark_of_inside hlevel'.inside, dropPlace?_facing hp, take, push]
    rw [← Cursor.skip_one hc']
    rfl
  refine ⟨_, _, rfl, (hlevel'.head (lapses_none _)).past, leads_step hstep ?_⟩
  simp [facing, Cursor.past, hc]

section Brackets

variable {first last : Char} {t t' : Token}

theorem starts_of_brackets (hmem : (first, t, last, t') ∈ brackets) (rest : List Char) :
    Starts (first :: rest) ∧ Starts (last :: rest) := by
  have hboth : ∀ p ∈ brackets, Starts (p.1 :: rest) ∧ Starts (p.2.2.1 :: rest) := by
    simp only [brackets, List.forall_mem_cons, List.not_mem_nil, false_imp_iff, implies_true,
      and_true]
    refine ⟨⟨?_, ?_⟩, ?_, ?_⟩
    all_goals
      rintro d ⟨⟩
      decide
  exact hboth _ hmem

theorem reaches_open (hmem : (first, t, last, t') ∈ brackets) (hlevel : Level line depth c places)
    (hdepth : 1 < depth) (hc : c.rest = Text.spaces n ++ first :: rest) (hlimit : 0 < limit) :
    Reaches limit line (depth + 1) (facing c k places b) true rest (b.push t) := by
  obtain ⟨c', p, outer, hc', houter, hlevel', hreached, hclose⟩ :=
    exists_reached (k := k) (b := b) hlevel hdepth hc (starts_of_brackets hmem rest).1 hlimit
  obtain ⟨q, hq, -, hsave⟩ := exists_savePlace?_facing (k := k) (b := b) hlevel' houter
  have hopen : (facing c' k (p :: outer) b).openFlow? t =
      some (facing (c'.past [first] rest) true (none :: q :: outer) (b.push t)) := by
    rw [openFlow?, hsave, ← Cursor.skip_one hc']
    rfl
  have hstep : step? limit (facing c k places b) =
      some (facing (c'.past [first] rest) true (none :: q :: outer) (b.push t)) := by
    have hcursor : (facing c' k (p :: outer) b).cursor = c' := rfl
    rw [← hopen, step?]
    simp only [hreached, Option.bind_eq_bind, Option.bind_some, hcursor, hclose]
    simp only [brackets, List.mem_cons, Prod.mk.injEq, List.not_mem_nil, or_false] at hmem
    rcases hmem with ⟨rfl, rfl, -⟩ | ⟨rfl, rfl, -⟩ <;>
      simp [hc', atMark_of_inside hlevel'.inside]
  refine ⟨_, _, rfl, hq.opened.past, leads_step hstep ?_⟩
  simp [facing, Cursor.past, hc]
  omega

theorem reaches_close (hmem : (first, t, last, t') ∈ brackets)
    (hlevel : Level line (depth + 1) c places) (hdepth : 0 < depth) (hc : c.rest = last :: rest)
    (hlimit : 0 < limit) : Reaches limit line depth (facing c k places b) false rest (b.push t') := by
  obtain ⟨c', p, outer, hc', houter, hlevel', hreached, hclose⟩ :=
    exists_reached (n := 0) (k := k) (b := b) hlevel (by omega) hc (starts_of_brackets hmem rest).2
      hlimit
  have hp := (List.forall_mem_cons.mp hlevel'.lapses).1
  have hend : (facing c' k (p :: outer) b).closeFlow? t' =
      some (facing (c'.past [last] rest) false outer (b.push t')) := by
    have hflow : 1 < (none :: outer : List (Option KeyPlace)).length := by
      simpa using List.length_pos_iff.mpr houter
    rw [closeFlow?, dropPlace?_facing hp, ← Cursor.skip_one hc']
    simp only [Option.bind_eq_bind, Option.bind_some, inFlow_facing, decide_eq_true hflow]
    rfl
  have hstep : step? limit (facing c k places b) =
      some (facing (c'.past [last] rest) false outer (b.push t')) := by
    have hcursor : (facing c' k (p :: outer) b).cursor = c' := rfl
    rw [← hend, step?]
    simp only [hreached, Option.bind_eq_bind, Option.bind_some, hcursor, hclose]
    simp only [brackets, List.mem_cons, Prod.mk.injEq, List.not_mem_nil, or_false] at hmem
    rcases hmem with ⟨-, -, rfl, rfl⟩ | ⟨-, -, rfl, rfl⟩ <;>
      simp [hc', atMark_of_inside hlevel'.inside]
  refine ⟨_, _, rfl, hlevel'.closed.past, leads_step hstep ?_⟩
  simp [facing, Cursor.past, hc]

end Brackets

section Scalars

variable {text key : List Char}

/-- A plain scalar, up to its end. -/
theorem exists_step?_plain (hlevel : Level line depth c places) (hdepth : 1 < depth)
    (hc : c.rest = Text.spaces n ++ (text ++ rest)) (h : Form.isPlainText text)
    (hflow : ∀ d ∈ text, isFlowIndicator d = false)
    (hstop : (∃ more, rest = ':' :: more ∧ startsBlank more) ∨
      ∃ d more, rest = d :: more ∧ isFlowIndicator d)
    (hlimit : text.length < limit) : ∃ c' q outer, c'.rest = text ++ rest ∧ outer ≠ [] ∧
      Level line depth c' (q :: outer) ∧ (k = true → q = some (keyPlace c' b)) ∧
      step? limit (facing c k places b) =
        some (facing (c'.past text rest) false (q :: outer) (b.push (.scalar true text))) := by
  obtain ⟨c', p, outer, hc', houter, hlevel', hreached, hclose⟩ :=
    exists_reached (k := k) (b := b) hlevel hdepth hc (Form.starts_of_isPlainText h rest)
      (Nat.zero_lt_of_lt hlimit)
  obtain ⟨q, hq, hkey, hsave⟩ := exists_savePlace?_facing (k := k) (b := b) hlevel' houter
  have hrest : ∀ e ∈ rest.head?, e ≠ '-' ∧ e ≠ '.' := by
    rcases hstop with ⟨more, rfl, -⟩ | ⟨d, more, rfl, hd⟩
    · simp
    · intro e he
      obtain rfl : d = e := Option.some.inj he
      constructor
      all_goals
        rintro rfl
        cases hd
  have hscalar : plainScalar? limit true (b.indent + 1).toNat limit [] Gap.none c' =
      some (text, false, c'.past text rest) :=
    plainScalar?_stop h (fun d hd => by simp [hflow d hd]) hlimit hlimit hc'
      (.inr (hstop.imp_right fun h => ⟨rfl, h⟩)) (.inl rfl) (not_atDocumentMark h hrest hc')
  have hinside : 1 < (p :: outer).length := by
    simpa using List.length_pos_iff.mpr houter
  refine ⟨c', q, outer, hc', houter, hq, hkey, ?_⟩
  rw [step?_plain_of_reached hreached hclose hc' h hrest, hsave, Option.bind_some, inFlow_facing,
    decide_eq_true hinside]
  rw [show (facing c' k (q :: outer) b).indent = b.indent from rfl,
    show (facing c' k (p :: outer) b).cursor = c' from rfl, hscalar]
  rfl

theorem reaches_plain (hlevel : Level line depth c places) (hdepth : 1 < depth)
    (hc : c.rest = Text.spaces n ++ (text ++ rest)) (h : Form.isPlainText text)
    (hflow : ∀ d ∈ text, isFlowIndicator d = false)
    (hstop : ∃ d more, rest = d :: more ∧ isFlowIndicator d) (hlimit : text.length < limit) :
    Reaches limit line depth (facing c k places b) false rest (b.push (.scalar true text)) := by
  obtain ⟨c', q, outer, -, -, hq, -, hstep⟩ :=
    exists_step?_plain (k := k) (b := b) hlevel hdepth hc h hflow (.inr hstop) hlimit
  have hne : 0 < text.length := List.length_pos_iff.mpr (isPlainText_ne_nil h)
  refine ⟨_, _, rfl, hq.past, leads_step hstep ?_⟩
  simp only [facing, Cursor.past, hc, List.length_append]
  omega

theorem reaches_quoted (hlevel : Level line depth c places) (hdepth : 1 < depth)
    (hc : c.rest = Text.spaces n ++ (Text.Quoted.encode text ++ rest)) (h : text.all Form.isQuotable)
    (hlimit : text.length < limit) : Reaches limit line depth (facing c k places b) false rest
      (b.push (.scalar false text)) := by
  let body := text.flatMap Text.Quoted.encodeChar
  have hquotes : c.rest = Text.spaces n ++ '"' :: (body ++ '"' :: rest) := by
    simpa [Text.Quoted.encode, body] using hc
  have hstarts : Starts ('"' :: (body ++ '"' :: rest)) := by
    intro d hd
    obtain rfl : '"' = d := Option.some.inj hd
    decide
  obtain ⟨c', p, outer, hc', houter, hlevel', hreached, hclose⟩ :=
    exists_reached (k := k) (b := b) hlevel hdepth hquotes hstarts (Nat.zero_lt_of_lt hlimit)
  obtain ⟨q, hq, -, hsave⟩ := exists_savePlace?_facing (k := k) (b := b) hlevel' houter
  let c₁ := c'.past ['"'] (body ++ '"' :: rest)
  have hscalar : quotedScalar? limit false limit [] (c'.skip 1) =
      some (text, c₁.past (body ++ ['"']) rest) := by
    rw [Cursor.skip_one hc']
    exact quotedScalar?_chars h hlimit hlimit rfl (by simp [Cursor.past])
  have hstep : step? limit (facing c k places b) =
      some (facing (c₁.past (body ++ ['"']) rest) false (q :: outer) (b.push (.scalar false text))) := by
    rw [step?_quoted_of_reached hreached hclose hc', hsave, Option.bind_some,
      show (facing c' k (p :: outer) b).cursor = c' from rfl, hscalar]
    rfl
  refine ⟨_, _, rfl, hq.past.past, leads_step hstep ?_⟩
  simp only [facing, Cursor.past, hquotes, List.length_append, List.length_cons]
  omega

theorem value?_facing {outer : List (Option KeyPlace)} (c₀ : Cursor) (t : Token) (houter : outer ≠ [])
    (hc : c.rest = ':' :: rest) :
    (facing c k (some (keyPlace c₀ b) :: outer) (b.push t)).value? =
      some (facing (c.past [':'] rest) false (none :: outer) (((b.push .key).push t).push .value)) := by
  have hinside : 1 < (none :: outer : List (Option KeyPlace)).length := by
    simpa using List.length_pos_iff.mpr houter
  have hlater : (b.push t).tokens.length - b.tokens.length = 1 := by simp [Blocks.push]
  have hlevel : outer.length ≠ 0 := by simpa using houter
  simp [value?, facing, insert, openBlock, inFlow, keyPlace, take, push, Blocks.push,
    Cursor.skip_one hc, hlevel]

/-- A key and its colon. -/
theorem reaches_key (hlevel : Level line depth c places) (hdepth : 1 < depth)
    (hc : c.rest = Text.spaces n ++ (key ++ ':' :: rest)) (h : Form.isPlainText key)
    (hflow : ∀ d ∈ key, isFlowIndicator d = false) (hwidth : Text.byteWidth key ≤ 1024)
    (hblank : startsBlank rest) (hlimit : key.length < limit) :
    Reaches limit line depth (facing c true places b) false rest
      (((b.push .key).push (.scalar true key)).push .value) := by
  obtain ⟨c', q, outer, hc', houter, hq, hkey, hstep⟩ :=
    exists_step?_plain (k := true) (b := b) hlevel hdepth hc h hflow (.inl ⟨rest, rfl, hblank⟩) hlimit
  obtain rfl := hkey rfl
  have hstarts : Starts (':' :: rest) := by
    intro d hd
    obtain rfl : ':' = d := Option.some.inj hd
    decide
  have hbehind : Level line depth (c'.past key (':' :: rest)) (some (keyPlace c' b) :: outer) := hq.past
  obtain ⟨c₂, places₂, hc₂, hlevel₂, hoffset, hhead, hreached⟩ := reached_facing (n := 0) (k := false)
    (b := b.push (.scalar true key)) hbehind rfl hstarts (Nat.zero_lt_of_lt hlimit)
  obtain ⟨outer₂, rfl⟩ := hhead _ _ rfl
  have hopen : c₂.stillOpen (some (keyPlace c' b)) = some (keyPlace c' b) := by
    have hline : ¬ (keyPlace c' b).line < c₂.line := by
      rw [hlevel₂.here, keyPlace, hq.here]
      exact Nat.lt_irrefl _
    have hnear : ¬ (keyPlace c' b).offset + 1024 < c₂.offset := by
      have hspaces : Text.byteWidth (Text.spaces 0) = 0 := rfl
      rw [hoffset, hspaces]
      simp only [Cursor.past, keyPlace]
      omega
    simp [Cursor.stillOpen, Option.filter, hline, hnear]
  rw [hopen] at hlevel₂ hreached
  have hlength := hlevel₂.length
  rw [List.length_cons] at hlength
  have houter₂ : outer₂ ≠ [] := by
    rintro rfl
    simp only [List.length_nil] at hlength
    omega
  let s₁ := facing (c'.past key (':' :: rest)) false (some (keyPlace c' b) :: outer)
    (b.push (.scalar true key))
  have hvalue : step? limit s₁ = some (facing (c₂.past [':'] rest) false (none :: outer₂)
      (((b.push .key).push (.scalar true key)).push .value)) := by
    have hinside : 1 < (some (keyPlace c' b) :: outer₂).length := by
      rw [List.length_cons]
      omega
    rw [← value?_facing (k := false) c' (.scalar true key) houter₂ hc₂, step?]
    simp only [s₁, hreached, Option.bind_eq_bind, Option.bind_some, closeBlocks_facing hinside,
      inFlow_facing, decide_eq_true hinside]
    rw [show (facing c₂ false (some (keyPlace c' b) :: outer₂) (b.push (.scalar true key))).cursor =
      c₂ from rfl, hc₂]
    simp [atMark_of_inside hlevel₂.inside]
  have hne : 0 < key.length := List.length_pos_iff.mpr (isPlainText_ne_nil h)
  refine ⟨_, _, rfl, (hlevel₂.head (lapses_none _)).past, (leads_step hstep ?_).trans
    (leads_step hvalue ?_)⟩
  · simp only [facing, Cursor.past, hc, List.length_append, List.length_cons]
    omega
  · simp [facing, Cursor.past]

end Scalars

end Scanner

end BlockFlow.Yaml

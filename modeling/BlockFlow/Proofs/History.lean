import BlockFlow.History
import Mathlib.Data.List.Chain

/-!
A history as a zipper: the texts before the current one, the current one, and those that were
undone. Main statement: after any run of commands a history shows what the zipper shows, keeps no
more texts than it may, and never holds the same text twice in a row.
-/

namespace BlockFlow

namespace History

/-- What can be done to a history. -/
inductive Command where
  | push (text : String)
  | undo
  | redo

/-- Carries out a command. The answer is the text that it returns. -/
def step (h : History) : Command → Option String × History
  | .push text => (none, h.push text)
  | .undo =>
    match h.undo with
    | some (text, back) => (some text, back)
    | none => (none, h)
  | .redo =>
    match h.redo with
    | some (text, onward) => (some text, onward)
    | none => (none, h)

/-- Carries out commands one after the other and collects the answers. -/
def run {σ : Type} (step : σ → Command → Option String × σ) (s : σ) :
    List Command → List (Option String) × σ
  | [] => ([], s)
  | c :: rest =>
    let (answer, s) := step s c
    let (answers, s) := run step s rest
    (answer :: answers, s)

/-- What can be seen of a history. -/
structure View where
  current : String
  size : Nat
  canUndo : Bool
  canRedo : Bool
  deriving DecidableEq

def view (h : History) : View := ⟨h.current, h.size, h.canUndo, h.canRedo⟩

/-- Goes back `k` times. -/
def back : (k : Nat) → History → Option History
  | 0, h => some h
  | k + 1, h => h.undo.bind (back k ·.2)

/-- Goes forward `k` times. -/
def onward : (k : Nat) → History → Option History
  | 0, h => some h
  | k + 1, h => h.redo.bind (onward k ·.2)

section Moves

variable {h h' : History} {text : String}

theorem undo_eq_some : h.undo = some (text, h') ↔
    0 < h.index ∧ h' = { h with index := h.index - 1 } ∧ text = h'.current := by
  unfold undo canUndo
  by_cases hcan : 0 < h.index
  · simp only [hcan, decide_true, if_true, Option.some.injEq, Prod.mk.injEq, true_and]
    constructor
    · intro hex
      obtain ⟨rfl, rfl⟩ := hex
      exact ⟨rfl, rfl⟩
    · intro hex
      obtain ⟨rfl, rfl⟩ := hex
      exact ⟨rfl, rfl⟩
  · simp [hcan]

theorem redo_eq_some : h.redo = some (text, h') ↔
    h.index + 1 < h.snapshots.length ∧ h' = { h with index := h.index + 1 } ∧
      text = h'.current := by
  unfold redo canRedo
  by_cases hcan : h.index + 1 < h.snapshots.length
  · simp only [hcan, decide_true, if_true, Option.some.injEq, Prod.mk.injEq, true_and]
    constructor
    · intro hex
      obtain ⟨rfl, rfl⟩ := hex
      exact ⟨rfl, rfl⟩
    · intro hex
      obtain ⟨rfl, rfl⟩ := hex
      exact ⟨rfl, rfl⟩
  · simp [hcan]

theorem back_eq_some {k : Nat} :
    back k h = some h' ↔ k ≤ h.index ∧ h' = { h with index := h.index - k } := by
  induction k generalizing h with
  | zero => simp [back, eq_comm]
  | succ k ih =>
    simp only [back, Option.bind_eq_some_iff, Prod.exists, undo_eq_some]
    constructor
    · intro hex
      obtain ⟨_, m, ⟨hcan, rfl, -⟩, hback⟩ := hex
      obtain ⟨hk, rfl⟩ := ih.mp hback
      dsimp only at hk
      exact ⟨by omega, by simp [Nat.sub_sub, Nat.add_comm]⟩
    · intro hex
      obtain ⟨hk, rfl⟩ := hex
      refine ⟨_, _, ⟨by omega, rfl, rfl⟩, ih.mpr ⟨?_, ?_⟩⟩
      · dsimp only
        omega
      · simp [Nat.sub_sub, Nat.add_comm]

theorem onward_of_le {k : Nat} (hk : h.index + k < h.snapshots.length) :
    onward k h = some { h with index := h.index + k } := by
  induction k generalizing h with
  | zero => rfl
  | succ k ih =>
    have hredo : h.redo = some (_, { h with index := h.index + 1 }) :=
      redo_eq_some.mpr ⟨by omega, rfl, rfl⟩
    have hrest := ih (h := { h with index := h.index + 1 }) (by dsimp only; omega)
    rw [onward, hredo, Option.bind_some, hrest]
    dsimp only
    rw [Nat.add_assoc, Nat.add_comm 1 k]

end Moves

/-- The current text between the texts before it, the newest first, and the texts that were undone,
the next one first. -/
structure Zipper where
  past : List String
  current : String
  future : List String

namespace Zipper

def start (text : String) : Zipper := ⟨[], text, []⟩

/-- A new text drops what was undone, and the oldest texts beyond the capacity. -/
def push (capacity : Nat) (z : Zipper) (text : String) : Zipper :=
  if z.current = text then z
  else ⟨(z.current :: z.past).take (max capacity 1 - 1), text, []⟩

def step (capacity : Nat) (z : Zipper) : Command → Option String × Zipper
  | .push text => (none, z.push capacity text)
  | .undo =>
    match z.past with
    | [] => (none, z)
    | text :: past => (some text, ⟨past, text, z.current :: z.future⟩)
  | .redo =>
    match z.future with
    | [] => (none, z)
    | text :: future => (some text, ⟨z.current :: z.past, text, future⟩)

def view (z : Zipper) : View :=
  ⟨z.current, z.past.length + 1 + z.future.length, !z.past.isEmpty, !z.future.isEmpty⟩

/-- All texts, the oldest first. -/
def texts (z : Zipper) : List String := z.past.reverse ++ z.current :: z.future

end Zipper

/-- A history holds the texts of a zipper, with its cursor on the current one. There are no more
than it may keep, and neighbours differ. -/
structure Zips (limit : Nat) (h : History) (z : Zipper) : Prop where
  texts : h.snapshots = z.texts
  index : h.index = z.past.length
  capacity : h.capacity = limit
  bounded : z.texts.length ≤ limit
  differ : z.texts.IsChain (· ≠ ·)

section Zips

variable {capacity limit : Nat} {h : History} {z : Zipper} {text : String}

theorem zips_start (text : String) (capacity : Nat) :
    Zips (max capacity 1) (start text capacity) (Zipper.start text) := by
  refine ⟨rfl, rfl, rfl, ?_, List.isChain_singleton _⟩
  exact le_max_right ..

theorem Zips.current (hz : Zips limit h z) : h.current = z.current := by
  simp [History.current, hz.texts, hz.index, Zipper.texts]

theorem Zips.size (hz : Zips limit h z) :
    h.snapshots.length = z.past.length + 1 + z.future.length := by
  rw [hz.texts, Zipper.texts, List.length_append, List.length_reverse, List.length_cons]
  omega

theorem Zips.view (hz : Zips limit h z) : h.view = z.view := by
  have hundo : h.canUndo = !z.past.isEmpty := by
    rw [canUndo, hz.index]
    cases z.past <;> simp
  have hredo : h.canRedo = !z.future.isEmpty := by
    rw [canRedo, hz.index, hz.size]
    cases z.future <;> simp
  rw [History.view, hz.current, History.size, hz.size, hundo, hredo, Zipper.view]

/-- The texts up to the current one. -/
theorem Zips.take (hz : Zips limit h z) :
    h.snapshots.take (h.index + 1) = (z.current :: z.past).reverse := by
  have hlen : h.index + 1 = (z.past.reverse ++ [z.current]).length := by simp [hz.index]
  have htexts : h.snapshots = (z.past.reverse ++ [z.current]) ++ z.future := by
    simp [hz.texts, Zipper.texts]
  rw [htexts, hlen, List.take_left, List.reverse_cons]

/-- Dropping the oldest texts beyond the limit keeps the newest and the new one. -/
theorem drop_oldest (hlimit : 1 ≤ limit) (before : List String) (text : String) :
    (before.reverse ++ [text]).drop ((before.reverse ++ [text]).length - limit) =
      (before.take (limit - 1)).reverse ++ [text] := by
  have hlen : (before.reverse ++ [text]).length - limit = before.length - (limit - 1) := by
    simp
    omega
  rw [hlen, List.reverse_take, List.drop_append_of_le_length (by simp)]

theorem Zips.push (hz : Zips (max capacity 1) h z) (text : String) :
    Zips (max capacity 1) (h.push text) (z.push capacity text) := by
  unfold History.push Zipper.push
  rw [hz.current]
  split
  · exact hz
  · rename_i hnew
    have hone : 1 ≤ max capacity 1 := le_max_right ..
    have hkept := drop_oldest hone (z.current :: z.past) text
    rw [← hz.take, ← hz.capacity] at hkept
    dsimp only
    rw [hkept, hz.capacity]
    refine ⟨rfl, ?_, rfl, ?_, ?_⟩
    · simp
    · simp only [Zipper.texts, List.length_append, List.length_reverse, List.length_take,
        List.length_singleton]
      omega
    · have hbefore : (z.current :: z.past).reverse.IsChain (· ≠ ·) := by
        refine hz.differ.prefix ⟨z.future, ?_⟩
        simp [Zipper.texts]
      have hall : ((z.current :: z.past).reverse ++ [text]).IsChain (· ≠ ·) := by
        refine List.isChain_append.mpr ⟨hbefore, List.isChain_singleton _, ?_⟩
        simpa using hnew
      refine hall.suffix ?_
      rw [Zipper.texts, List.reverse_take]
      obtain ⟨old, hold⟩ := List.drop_suffix
        ((z.current :: z.past).length - (max capacity 1 - 1)) (z.current :: z.past).reverse
      exact ⟨old, by rw [← List.append_assoc, hold]⟩

/-- Moving the cursor to where another zipper of the same texts has its current one. -/
theorem Zips.move (hz : Zips limit h z) {z' : Zipper} (htexts : z'.texts = z.texts) {i : Nat}
    (hi : i = z'.past.length) : Zips limit { h with index := i } z' where
  texts := by rw [htexts, hz.texts]
  index := hi
  capacity := hz.capacity
  bounded := by
    rw [htexts]
    exact hz.bounded
  differ := by
    rw [htexts]
    exact hz.differ

/-- A command has the same answer in both, and afterwards they hold the same texts. -/
theorem Zips.step (hz : Zips (max capacity 1) h z) (c : Command) :
    (h.step c).1 = (z.step capacity c).1 ∧
      Zips (max capacity 1) (h.step c).2 (z.step capacity c).2 := by
  cases c with
  | push text => exact ⟨rfl, hz.push text⟩
  | undo =>
    cases hpast : z.past with
    | nil =>
      have hundo : h.undo = none := by simp [History.undo, canUndo, hz.index, hpast]
      simp only [History.step, Zipper.step, hundo, hpast]
      exact ⟨trivial, hz⟩
    | cons text past =>
      have hindex : h.index = past.length + 1 := by simp [hz.index, hpast]
      have hback : Zips (max capacity 1) { h with index := h.index - 1 }
          ⟨past, text, z.current :: z.future⟩ :=
        hz.move (by simp [Zipper.texts, hpast]) (by simp [hindex])
      have hundo := undo_eq_some.mpr ⟨by omega, rfl, hback.current.symm⟩
      simp only [History.step, Zipper.step, hundo, hpast]
      exact ⟨trivial, hback⟩
  | redo =>
    cases hfuture : z.future with
    | nil =>
      have hredo : h.redo = none := by simp [History.redo, canRedo, hz.index, hz.size, hfuture]
      simp only [History.step, Zipper.step, hredo, hfuture]
      exact ⟨trivial, hz⟩
    | cons text future =>
      have hcan : h.index + 1 < h.snapshots.length := by simp [hz.index, hz.size, hfuture]
      have honward : Zips (max capacity 1) { h with index := h.index + 1 }
          ⟨z.current :: z.past, text, future⟩ :=
        hz.move (by simp [Zipper.texts, hfuture]) (by simp [hz.index])
      have hredo := redo_eq_some.mpr ⟨hcan, rfl, honward.current.symm⟩
      simp only [History.step, Zipper.step, hredo, hfuture]
      exact ⟨trivial, honward⟩

theorem Zips.run (hz : Zips (max capacity 1) h z) (cs : List Command) :
    (History.run History.step h cs).1 = (History.run (Zipper.step capacity) z cs).1 ∧
      Zips (max capacity 1) (History.run History.step h cs).2
        (History.run (Zipper.step capacity) z cs).2 := by
  induction cs generalizing h z with
  | nil => exact ⟨rfl, hz⟩
  | cons c rest ih =>
    obtain ⟨hanswer, hnext⟩ := hz.step c
    obtain ⟨hanswers, hend⟩ := ih hnext
    exact ⟨congrArg₂ List.cons hanswer hanswers, hend⟩

end Zips

/-- A history in good order: its cursor stands on one of its texts, it keeps at least one text and
no more than it may, going back or forward changes the text, and going forward as often as one went
back leads to where one was. -/
structure InOrder (capacity : Nat) (h : History) : Prop where
  index : h.index < h.snapshots.length
  nonempty : 1 ≤ h.size
  bounded : h.size ≤ max capacity 1
  differ : h.snapshots.IsChain (· ≠ ·)
  undo_changes : ∀ text h', h.undo = some (text, h') → text ≠ h.current
  redo_changes : ∀ text h', h.redo = some (text, h') → text ≠ h.current
  restores : ∀ k h', back k h = some h' → onward k h' = some h

section InOrder

variable {capacity : Nat} {h h' : History} {z : Zipper} {text : String}

theorem Zips.inOrder (hz : Zips (max capacity 1) h z) : InOrder capacity h := by
  have hindex : h.index < h.snapshots.length := by
    rw [hz.index, hz.size]
    omega
  have hdiffer : h.snapshots.IsChain (· ≠ ·) := by
    rw [hz.texts]
    exact hz.differ
  have hneighbours (i : Nat) (hi : i + 1 < h.snapshots.length) :
      h.snapshots.getD i "" ≠ h.snapshots.getD (i + 1) "" := by
    have hne := List.isChain_iff_getElem.mp hdiffer i hi
    simpa [List.getD_eq_getElem?_getD, hi, Nat.lt_of_succ_lt hi] using hne
  have hsize : h.size = z.texts.length := by rw [History.size, hz.texts]
  refine ⟨hindex, Nat.one_le_of_lt hindex, hsize ▸ hz.bounded, hdiffer, ?_, ?_, ?_⟩
  · intro text h' hundo
    obtain ⟨hcan, rfl, rfl⟩ := undo_eq_some.mp hundo
    have hne := hneighbours (h.index - 1) (by omega)
    rwa [Nat.sub_add_cancel hcan] at hne
  · intro text h' hredo
    obtain ⟨hcan, rfl, rfl⟩ := redo_eq_some.mp hredo
    exact (hneighbours h.index hcan).symm
  · intro k h' hback
    obtain ⟨hk, rfl⟩ := back_eq_some.mp hback
    rw [onward_of_le (by dsimp only; omega)]
    simp [Nat.sub_add_cancel hk]

end InOrder

/-- However a history is used, it answers and shows what the zipper does, and it stays in order. -/
theorem run_start (text : String) (capacity : Nat) (cs : List Command) :
    let (answers, h) := run step (start text capacity) cs
    let (expected, z) := run (Zipper.step capacity) (Zipper.start text) cs
    answers = expected ∧ h.view = z.view ∧ InOrder capacity h := by
  obtain ⟨hanswers, hz⟩ := (zips_start text capacity).run cs
  exact ⟨hanswers, hz.view, hz.inOrder⟩

/-- A history of at most two texts forgets the first one, and a capacity of zero counts as one. -/
example : (run step (start "a" 2) [.push "b", .push "c", .undo, .undo]).1 =
    [none, none, some "b", none] ∧
    (run step (start "a" 0) [.push "b", .undo]).1 = [none, none] := by decide

end History

end BlockFlow

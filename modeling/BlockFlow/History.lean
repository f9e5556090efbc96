/-!
Undo and redo over whole texts.
-/

namespace BlockFlow

/-- The texts that can be gone back and forth between, with a cursor on the current one. -/
structure History where
  /-- The texts, the oldest first. -/
  snapshots : List String
  /-- The index of the current text. -/
  index : Nat
  /-- How many texts are kept at most. -/
  capacity : Nat
  deriving DecidableEq, Repr

namespace History

def defaultCapacity : Nat := 50

/-- A history of one text. At least one text is kept. -/
def start (text : String) (capacity : Nat) : History := ⟨[text], 0, max capacity 1⟩

def current (h : History) : String := h.snapshots.getD h.index ""

def canUndo (h : History) : Bool := 0 < h.index

def canRedo (h : History) : Bool := h.index + 1 < h.snapshots.length

def size (h : History) : Nat := h.snapshots.length

def isEmpty (h : History) : Bool := h.snapshots.isEmpty

/-- Records a text, unless it is the current one. What could be redone is dropped, and so are the
oldest texts beyond the capacity. -/
def push (h : History) (text : String) : History :=
  if h.current = text then h
  else
    let all := h.snapshots.take (h.index + 1) ++ [text]
    let kept := all.drop (all.length - h.capacity)
    { h with snapshots := kept, index := kept.length - 1 }

/-- Goes back by one text. -/
def undo (h : History) : Option (String × History) :=
  if h.canUndo then
    let h := { h with index := h.index - 1 }
    some (h.current, h)
  else none

/-- Goes forward by one text. -/
def redo (h : History) : Option (String × History) :=
  if h.canRedo then
    let h := { h with index := h.index + 1 }
    some (h.current, h)
  else none

end History

end BlockFlow

import BlockFlow.History
import BlockFlow.Layout.Decode
import BlockFlow.Layout.Encode

/-!
The settings of an editor.
-/

namespace BlockFlow

open Json

structure Settings where
  layout : LayoutConfig Float
  historyCapacity : Nat
  deriving Inhabited

namespace Settings

def standard : Settings := ⟨LayoutConfig.standard, History.defaultCapacity⟩

def decode? (s : Source) : Option Settings := do
  match ← s.fields? ["layout", "historyCapacity"] with
  | [layout, historyCapacity] =>
    some ⟨← orElse? standard.layout LayoutConfig.decode? layout,
      ← orElse? standard.historyCapacity Source.nat? historyCapacity⟩
  | _ => none

/-- Reads settings; what is absent is standard. -/
def ofJson? (text : String) : Option Settings := do decode? (← Source.parse? text.toList)

/-- A history that keeps as many texts as the settings say. -/
def history (s : Settings) (text : String) : History := History.start text s.historyCapacity

def toJson (s : Settings) : Json :=
  .obj [("layout", s.layout.toJson), ("historyCapacity", .ofNat s.historyCapacity)]

end Settings

end BlockFlow

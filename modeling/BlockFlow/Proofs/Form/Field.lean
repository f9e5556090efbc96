import BlockFlow.Proofs.Form.Read
import BlockFlow.Proofs.Form.Value

/-!
Entries as edits write them. Main statement: the lines of an entry are read back as the entry, for
values whose keys are strings that need no quotes and whose scalars are read back one by one.
-/

namespace BlockFlow

open Yaml (Value)

namespace Form

variable {k : String} {v : Value}

/-- An entry is written in the lines of its form. -/
theorem lines_field (hk : isKey k) (hv : isFaithful v) :
    Outline.field k v = (map [(k, ofValue v)]).lines := by
  have hkey := renderKey_str hk
  have hlines := lines_ofEntries [(.str k, v)] (entriesFaithful_cons.mpr ⟨⟨k, rfl, hk⟩, hv, rfl⟩)
  simp only [ofEntries, hkey, Outline.mappingLines, List.append_nil] at hlines
  exact hlines.symm

theorem isSound_field (hk : isKey k) (hv : isFaithful v) : (map [(k, ofValue v)]).isSound :=
  isSound_map.mpr ⟨List.cons_ne_nil _ _, List.nodup_singleton _,
    entriesSound_cons.mpr ⟨hk, (ofValue_faithful v hv).1, rfl⟩⟩

theorem height_field : (map [(k, ofValue v)]).height = (ofValue v).height + 1 := by
  simp [height, entriesHeight]

/-- The lines of an entry are read back as the entry, up to the depth that a text may have. -/
theorem reads_field (k : String) (v : Value) (hk : isKey k) (hv : isFaithful v) :
    Yaml.load? (Outline.toChars ⟨Outline.field k v, true⟩) =
      if (ofValue v).height < 128 then some (.map [(.str k, v)]) else none := by
  have hsound := isSound_field hk hv
  have hvalue : (map [(k, ofValue v)]).value = .map [(.str k, v)] := by
    rw [value, entryValues, (ofValue_faithful v hv).2, entryValues]
  have hne : (map [(k, ofValue v)]).lines ≠ [] := mappingLines_ne_nil (List.cons_ne_nil _ _)
  rw [lines_field hk hv, toChars_lines hne, load?_chars hsound rfl, height_field, hvalue]
  rfl

/-- Numbers, a text that needs quotes and an empty list, inside each other. -/
def mixed : Value :=
  .map [(.str "a", .seq [.int (-7), .str "- b: #", .seq [.null, .bool true]]), (.str "c d", .seq [])]

theorem reads_mixed : isKey "x" ∧ isFaithful mixed ∧
    Yaml.load? (Outline.toChars ⟨Outline.field "x" mixed, true⟩) =
      if (ofValue mixed).height < 128 then some (.map [(.str "x", mixed)]) else none := by
  have hk : isKey "x" := by decide +kernel
  have hv : isFaithful mixed := by decide +kernel
  exact ⟨hk, hv, reads_field "x" mixed hk hv⟩

/-- A mapping with a tag begins on the line of its key, and its entries stand at the left margin. -/
theorem misreads_tagged : ¬ ∀ v : Value,
    Yaml.load? (Outline.toChars ⟨Outline.field "x" v, true⟩) = some (.map [(.str "x", v)]) := by
  intro h
  have hcheck : ((Yaml.load? (Outline.toChars ⟨Outline.field "x"
      (.tagged "!t" (.map [(.str "a", .int 1)])), true⟩)).bind (·.get? "a")).isSome := by
    decide +kernel
  rw [h] at hcheck
  cases hcheck

end Form

end BlockFlow

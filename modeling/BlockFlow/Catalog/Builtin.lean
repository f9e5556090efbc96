import BlockFlow.Catalog.Basic

/-!
The opcodes that every editor knows.
-/

namespace BlockFlow.Catalog

/-- An operator on a left and a right operand. -/
private def binary (opcode returns : String) : OpcodeSpec :=
  { opcode := opcode, category := .operator
    params := [⟨"LEFT", "any", true⟩, ⟨"RIGHT", "any", true⟩], returns := some returns }

private def workflowSpecs : List OpcodeSpec :=
  [{ opcode := "workflow_start", category := .workflowOp },
   { opcode := "workflow_return", category := .workflowOp, params := [⟨"VALUE", "any", false⟩] },
   { opcode := "workflow_call", category := .workflowOp, params := [⟨"CALL", "any", true⟩]
     extraInputs := true, returns := some "any" }]

private def ioSpecs : List OpcodeSpec :=
  [{ opcode := "io_print", category := .io, params := [⟨"STRING", "str", true⟩] },
   { opcode := "io_input", category := .io, params := [⟨"PROMPT", "str", false⟩]
     returns := some "str" }]

private def dataSpecs : List OpcodeSpec :=
  [{ opcode := "data_set_variable", category := .data
     params := [⟨"VARIABLE", "str", true⟩, ⟨"VALUE", "any", true⟩], assigns := some "VARIABLE" },
   { opcode := "data_get_variable", category := .data, params := [⟨"VARIABLE", "str", true⟩]
     returns := some "any" },
   { opcode := "data_list_create", category := .data, numberedInputs := some ⟨"ITEM", "any", 0⟩
     returns := some "list" },
   { opcode := "data_dict_create", category := .data, extraInputs := true
     returns := some "dict" },
   { opcode := "data_list_append", category := .data
     params := [⟨"LIST", "list", true⟩, ⟨"VALUE", "any", true⟩] }]

private def operatorSpecs : List OpcodeSpec :=
  [binary "operator_add" "number", binary "operator_subtract" "number",
   binary "operator_multiply" "number", binary "operator_divide" "number",
   binary "operator_modulo" "number", binary "operator_equals" "bool",
   binary "operator_less_than" "bool", binary "operator_greater_than" "bool",
   binary "operator_and" "bool", binary "operator_or" "bool",
   { opcode := "operator_not", category := .operator, params := [⟨"VALUE", "bool", true⟩]
     returns := some "bool" },
   { opcode := "str_concat", category := .operator, numberedInputs := some ⟨"PART", "str", 2⟩
     returns := some "str" },
   { opcode := "str_length", category := .operator, params := [⟨"STRING", "str", true⟩]
     returns := some "int" }]

private def controlSpecs : List OpcodeSpec :=
  [{ opcode := "control_if", category := .controlFlow, params := [⟨"CONDITION", "bool", true⟩]
     branches := some (.fixed ["THEN"]) },
   { opcode := "control_if_else", category := .controlFlow
     params := [⟨"CONDITION", "bool", true⟩], branches := some (.fixed ["THEN", "ELSE"]) },
   { opcode := "control_while", category := .controlFlow, params := [⟨"CONDITION", "bool", true⟩]
     branches := some (.fixed ["BODY"]) },
   { opcode := "control_for", category := .controlFlow
     params := [⟨"VAR", "str", true⟩, ⟨"START", "int", true⟩, ⟨"END", "int", true⟩,
       ⟨"STEP", "int", false⟩]
     branches := some (.fixed ["BODY"]), assigns := some "VAR" },
   { opcode := "control_foreach", category := .controlFlow
     params := [⟨"VAR", "str", true⟩, ⟨"ITERABLE", "list", true⟩]
     branches := some (.fixed ["BODY"]), assigns := some "VAR" },
   { opcode := "control_try", category := .controlFlow
     branches := some (.numbered ["TRY"] "CATCH" 1 ["FINALLY"]) },
   { opcode := "control_switch", category := .controlFlow, params := [⟨"VALUE", "any", true⟩]
     branches := some (.numbered [] "CASE" 1 ["DEFAULT"]) },
   { opcode := "control_break", category := .controlFlow },
   { opcode := "control_continue", category := .controlFlow }]

/-- The catalog of the opcodes that come with the editor. -/
def builtin : Catalog :=
  ofList (workflowSpecs ++ ioSpecs ++ dataSpecs ++ operatorSpecs ++ controlSpecs)

end BlockFlow.Catalog

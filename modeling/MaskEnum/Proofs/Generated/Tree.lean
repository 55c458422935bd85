import MaskEnum.Proofs.Generated.Skeleton
import MaskEnum.Proofs.Generated.Syntax
set_option autoImplicit false

/-!
# Generated modules as trees

Every line of a generated module is one of a tree of statements, so the names that the module binds
and looks up can be told from the tree.

## Main definitions

* `MaskEnum.Formula.pieces`, `MaskEnum.Generated.Source.pieces` — values of constants.
* `MaskEnum.Generated.Class.members`, `MaskEnum.Generated.Class.body` — the statements of a class.
* `MaskEnum.Generated.Item.tree`, `MaskEnum.Generated.Module.tree` — those of items and modules.

## Main results

* `MaskEnum.Generated.Module.linesOf_tree` — the lines of a module are those of its tree.
-/

namespace MaskEnum

/-! ## Values of constants -/

/-- An integer type in generated code. -/
def IntType.pieces (t : IntType) : List Generated.Piece :=
  [.name arithmeticName, .member "INTEGER_TYPES", .mark "[", .quoted t.name, .mark "]"]

/-- A formula in generated code. -/
def Formula.pieces : Formula → List Generated.Piece
  | int value => [.number value]
  | constant name => [.constant name]
  | apply op left right type =>
    [.name arithmeticName, .member "const_op", .mark "(", .quoted op.symbol, .mark ", "]
      ++ left.pieces ++ [.mark ", "] ++ right.pieces ++ [.mark ", "] ++ type.pieces ++ [.mark ")"]
  | cast inner source target =>
    [.name arithmeticName, .member "const_cast", .mark "("]
      ++ inner.pieces ++ [.mark ", "] ++ source.pieces ++ [.mark ", "] ++ target.pieces
      ++ [.mark ")"]

namespace Generated

/-- An integer type as written. -/
@[simp]
theorem codeText_type (t : IntType) : codeText t.pieces = t.reference := by
  simp [IntType.pieces, IntType.reference, ← String.toList_inj]

/-- A formula as written. -/
theorem codeText_formula (f : Formula) : codeText f.pieces = f.text := by
  induction f with
  | int value => exact String.append_empty
  | constant name => exact String.append_empty
  | apply op left right type ihl ihr =>
    simp [Formula.pieces, Formula.text, ihl, ihr, ← String.toList_inj]
  | cast inner source target ih =>
    simp [Formula.pieces, Formula.text, ih, ← String.toList_inj]

/-- The value of a constant in generated code. -/
def Source.pieces : Source → List Piece
  | .formula f => f.pieces
  | .member companion table name =>
    [.name companion, .member table, .member name, .member "value"]

/-- The value of a constant as written. -/
@[simp]
theorem codeText_source (s : Source) : codeText s.pieces = s.text := by
  cases s with
  | formula f => exact codeText_formula f
  | member companion table name =>
    simp [Source.pieces, Source.text, ← String.toList_inj]

/-- Parts with commas between them. -/
def separated (parts : List (List Piece)) : List Piece := [Piece.mark ", "].intercalate parts

/-- Parts with commas between them, as written. -/
theorem codeText_separated (parts : List (List Piece)) :
    codeText (separated parts) = ", ".intercalate (parts.map codeText) := by
  unfold separated
  induction parts with
  | nil => rfl
  | cons first parts ih =>
    cases parts with
    | nil => rw [List.intercalate_singleton, List.map_singleton, String.intercalate_singleton]
    | cons next parts =>
      rw [List.intercalate_cons_cons, codeText_append, codeText_append, ih]
      exact String.intercalate_cons_cons.symm

/-- The names in parts with commas between them. -/
theorem namesIn_separated (parts : List (List Piece)) :
    namesIn (separated parts) = parts.flatMap namesIn := by
  unfold separated namesIn
  induction parts with
  | nil => rfl
  | cons first parts ih =>
    cases parts with
    | nil => rw [List.intercalate_singleton, List.flatMap_singleton]
    | cons next parts =>
      rw [List.intercalate_cons_cons, List.filterMap_append, List.filterMap_append, ih]
      simp only [List.flatMap_cons, List.append_assoc]
      rfl

/-- Quoted names with commas between them. -/
def quotedPieces (names : List String) : List Piece := separated (names.map fun n => [.quoted n])

/-- They are written so. -/
@[simp]
theorem codeText_quotedPieces (names : List String) :
    codeText (quotedPieces names) = quotedList names := by
  rw [quotedPieces, codeText_separated, List.map_map]
  refine congrArg (", ".intercalate ·) (List.map_congr_left fun n _ => ?_)
  exact String.append_empty

/-- They look nothing up. -/
theorem namesIn_quotedPieces (names : List String) : namesIn (quotedPieces names) = [] := by
  rw [quotedPieces, namesIn_separated, List.flatMap_map]
  exact List.flatMap_eq_nil_iff.mpr fun _ _ => rfl

/-! ## Functions of a class -/

/-- An operator with blanks around it. -/
def operatorPieces (op : Operator) : List Piece :=
  [.mark " ", .mark op.symbol (by cases op <;> decide), .mark " "]

/-- The field of an operand. -/
def operandPieces (operand field : String) : List Piece := [.name operand, .member field]

/-- A call of the arithmetic of a type. -/
def callPieces (function : String) (arguments : List Piece) : List Piece :=
  [.name arithmeticName, .member function, .mark "("] ++ arguments
    ++ [.mark ", ", .name "self", .member typeAttribute, .mark ")"]

/-- A wrapping operator on the fields of two operands. -/
def operationPieces (op : Operator) (field : String) : List Piece :=
  let left := operandPieces "self" field
  let right := operandPieces "other" field
  match op with
  | .div => callPieces "div" (left ++ [.mark ", "] ++ right)
  | .rem => callPieces "rem" (left ++ [.mark ", "] ++ right)
  | .shl => callPieces "shl" (left ++ [.mark ", "] ++ right)
  | .shr => callPieces "shr" (left ++ [.mark ", "] ++ right)
  | op => callPieces "wrap" (left ++ operatorPieces op ++ right)

/-- A parameter without annotation. -/
def untyped (name : String) : Parameter := ⟨name, []⟩

/-- A parameter that is an integer. -/
def integer (name : String) : Parameter := ⟨name, [.name "int"]⟩

/-- The line that ends a function with a value. -/
def returning (code : List Piece) : Step := ⟨0, none, .word "return" :: .mark " " :: code⟩

/-- The range check of every new value. -/
def checkFunction (c : Class) : Function where
  decorators := []
  name := "__post_init__"
  parameters := [untyped "self"]
  result := []
  steps :=
    [⟨0, none, [.word "if", .mark " ", .word "not", .mark " ", .name "self", .member typeAttribute,
        .member "contains", .mark "(", .name "self", .member c.field, .mark "):"]⟩,
      ⟨1, some "msg", [.literal "f'\x7b", .name "self", .member c.field,
        .literal ("\x7d out of range for " ++ c.type.name ++ "'")]⟩,
      ⟨1, none, [.word "raise", .mark " ", .name "OverflowError", .mark "(", .name "msg",
        .mark ")"]⟩]

/-- The function that makes a value from any integer. -/
def fromRawFunction (c : Class) : Function where
  decorators := [[.name "classmethod"]]
  name := "from_raw"
  parameters := [untyped "cls", integer "raw"]
  result := []
  steps :=
    [⟨0, none, [.literal ("\"\"\"Build a value from any integer, wrapping it to " ++ c.type.name
        ++ ".\"\"\"")]⟩,
      returning [.name "cls", .mark "(", .name arithmeticName, .member "wrap", .mark "(",
        .name "raw", .mark ", ", .name "cls", .member typeAttribute, .mark "))"]]

/-- The function that lists the values of the constants. -/
def iterFunction : Function where
  decorators := [[.name "classmethod"]]
  name := "iter"
  parameters := [untyped "cls"]
  result := []
  steps :=
    [⟨0, none, [.literal
        "\"\"\"Iterate over the raw value of every variant in declaration order.\"\"\""]⟩,
      returning [.name "iter", .mark "(", .name "cls", .member "_VALUES", .mark ")"]]

/-- The function that makes a value from an integer of the type. -/
def newFunction : Function where
  decorators := [[.name "classmethod"]]
  name := "new"
  parameters := [untyped "cls", integer "raw"]
  result := []
  steps := [returning [.name "cls", .mark "(", .name "raw", .mark ")"]]

/-- The function that tells a bit. -/
def bitFunction (c : Class) : Function where
  decorators := []
  name := "get_bit"
  parameters := [untyped "self", integer "index"]
  result := [.name "bool"]
  steps :=
    [returning [.mark "(", .name "self", .member c.field, .mark " & (", .number 1, .mark " << ",
      .name "index", .mark ")) != ", .number 0]]

/-- The lines that refuse an operand of another type. -/
def guardSteps : List Step :=
  [⟨0, none, [.word "if", .mark " ", .name "type", .mark "(", .name "other", .mark ") ", .word "is",
      .mark " ", .word "not", .mark " ", .name "type", .mark "(", .name "self", .mark "):"]⟩,
    ⟨1, none, [.word "return", .mark " ", .name "NotImplemented"]⟩]

/-- A new value of the type of an operand. -/
def rewrapped (code : List Piece) : Step :=
  returning ([.name "type", .mark "(", .name "self", .mark ")("] ++ code ++ [.mark ")"])

/-- The function of a binary operator. -/
def binaryFunction (field : String) (method : String × Operator) : Function where
  decorators := []
  name := "__" ++ method.1 ++ "__"
  parameters := [untyped "self", untyped "other"]
  result := []
  steps := guardSteps ++ [rewrapped (operationPieces method.2 field)]

/-- The function of a binary operator that changes its first operand. -/
def inPlaceFunction (field : String) (method : String × Operator) : Function where
  decorators := []
  name := "__i" ++ method.1 ++ "__"
  parameters := [untyped "self", untyped "other"]
  result := []
  steps := guardSteps
    ++ [⟨0, none, operandPieces "self" field ++ [.mark " = "] ++ operationPieces method.2 field⟩,
      returning [.name "self"]]

/-- The function of a unary operator. -/
def unaryFunction (name call : String) (argument : List Piece) : Function where
  decorators := []
  name := name
  parameters := [untyped "self"]
  result := []
  steps := [rewrapped (callPieces call argument)]

/-! ## Classes -/

/-- An empty line. -/
def gap : Stmt := .remark [""]

/-- The field and the attributes of a class. -/
def Class.fields (c : Class) : List Stmt :=
  [.annotate c.field [.name "int"], gap, .assign typeAttribute c.type.pieces,
    .assign "__type_visibility__" [.quoted c.access.label],
    .assign "__field_visibility__" [.quoted c.fieldAccess.label], gap]

/-- A constant with the comments before it. -/
def Constant.tree (depth : Nat) (k : Constant) : List Stmt :=
  [.remark (commentLines depth k.notes), .remark (docLines depth k.notes),
    .assign k.name ([.name arithmeticName, .member "VariantConstant", .mark "("] ++ k.source.pieces
      ++ [.mark ")"])]

/-- The names and the values of the constants. -/
def Class.listing (c : Class) : List Stmt :=
  [gap, .assign "_NAMES" ([.mark "("] ++ quotedPieces (c.constants.map (·.name)) ++ [.mark ",)"]),
    .assign "_VALUES" ([.mark "("]
      ++ separated (c.constants.map fun k => [.name k.name, .member "raw"]) ++ [.mark ",)"]), gap]

/-- The functions of a class, with empty lines between them. -/
def Class.functions (c : Class) : List Stmt :=
  [.function (checkFunction c), gap, .function (fromRawFunction c), gap, .function iterFunction,
      gap]
    ++ (if c.isOpen then [.function newFunction, gap, .function (bitFunction c), gap] else [])
    ++ methods.flatMap (fun m => [.function (binaryFunction c.field m), gap,
      .function (inPlaceFunction c.field m), gap])
    ++ [.function (unaryFunction "__invert__" "invert" (operandPieces "self" c.field))]
    ++ (if c.type.signed then [gap, .function (unaryFunction "__neg__" "wrap"
      ([.number 0, .mark " - "] ++ operandPieces "self" c.field))] else [])

/-- The statements of a class at a depth. -/
def Class.body (depth : Nat) (c : Class) : List Stmt :=
  [.remark (if c.notes.docs.isEmpty then [] else docstringLines depth c.notes.docs ++ [""])]
    ++ c.fields ++ c.constants.flatMap (Constant.tree depth) ++ c.listing ++ c.functions

/-- The decorator of a class. -/
def dataclassPieces : List Piece :=
  [.name "_dc", .member "dataclass", .mark "(", .label "order", .word "True", .mark ", ",
    .label "unsafe_hash", .word "True", .mark ", ", .label "slots", .word "True", .mark ")"]

/-- A class at a depth, with the comments before it. -/
def Class.tree (depth : Nat) (c : Class) : List Stmt :=
  [.remark (commentLines depth c.notes), .class [dataclassPieces] c.name (c.body (depth + 1))]

/-! ## Items and modules -/

/-- A table of ordinals. -/
def OrdinalTable.tree (t : OrdinalTable) : Stmt :=
  .assign t.name ([.name "_enum", .member "IntEnum", .mark "(", .quoted t.name, .mark ", ["]
    ++ quotedPieces t.members ++ [.mark "], ", .label "start", .number 0, .mark ")"])

/-- The companion of a module, if it has tables. -/
def companionTree (module : String) (tables : List OrdinalTable) : List Stmt :=
  if tables.isEmpty then []
  else [gap, gap, .class [] (companionName module) (tables.map OrdinalTable.tree)]

/-- An item. -/
def Item.tree : Item → List Stmt
  | .single c => [gap, gap] ++ c.tree 0
  | .group name notes tables classes =>
    companionTree name tables ++ [gap, gap, .remark (commentLines 0 notes),
      .class [] name (.remark (if notes.docs.isEmpty then
          [pad 1 ++ "\"\"\"Namespace of module " ++ name ++ ".\"\"\""]
        else docstringLines 1 notes.docs) :: classes.flatMap fun c => gap :: c.tree 1)]

/-- The statements of a module before its items, without preamble. -/
def Module.headTree (m : Module) : List Stmt :=
  [.remark [headline m.source, ""], .importAs "dataclasses" "_dc"]
    ++ (if m.items.any Item.needsTables then [.importAs "enum" "_enum"] else [])
    ++ [gap, .importAs "encapenum.runtime" arithmeticName, gap,
      .assign "__all__" ([.mark "["] ++ quotedPieces m.exports ++ [.mark "]"])]

/-- A module without preamble. -/
def Module.tree (m : Module) : List Stmt := m.headTree ++ m.items.flatMap Item.tree

/-! ## Lines -/

/-- The indentation of one level. -/
@[simp]
theorem pad_one : pad 1 = "    " := rfl

/-- The indentation of two levels. -/
@[simp]
theorem pad_two : pad 2 = "        " := rfl

/-- A line that is not empty stands behind the indentation. -/
theorem indented_singleton {depth : Nat} {line : String} (h : line.isEmpty = false) :
    indented depth [line] = [pad depth ++ line] := by
  rw [indented, List.map_singleton, h]
  rfl

/-- At depth zero there is no indentation. -/
theorem indented_zero (lines : List String) : indented 0 lines = lines := by
  have hpad : pad 0 = "" := rfl
  refine (List.map_congr_left fun line _ => ?_).trans (List.map_id _)
  rw [hpad, String.empty_append, ite_self]
  rfl

/-- The lines of the fields. -/
theorem linesOf_fields (depth : Nat) (c : Class) :
    linesOf depth c.fields = indented depth (fieldLines c) := by
  have hlines : fieldLines c = [c.field ++ ": " ++ codeText [.name "int"], "",
      typeAttribute ++ " = " ++ codeText c.type.pieces,
      "__type_visibility__" ++ " = " ++ codeText [.quoted c.access.label],
      "__field_visibility__" ++ " = " ++ codeText [.quoted c.fieldAccess.label], ""] := by
    simp [fieldLines, ← String.toList_inj]
  rw [hlines]
  rfl

/-- The lines of a constant. -/
theorem linesOf_constant (depth : Nat) (k : Constant) :
    linesOf depth (k.tree depth) = k.lines depth := by
  have hcode : k.name ++ " = " ++ codeText ([.name arithmeticName, .member "VariantConstant",
      .mark "("] ++ k.source.pieces ++ [.mark ")"]) =
        k.name ++ " = " ++ arithmeticName ++ ".VariantConstant(" ++ k.source.text ++ ")" := by
    simp [← String.toList_inj]
  have hne : (k.name ++ " = " ++ arithmeticName ++ ".VariantConstant(" ++ k.source.text
      ++ ")").isEmpty = false := by
    simp
  have hline : Stmt.lines depth (.assign k.name ([.name arithmeticName, .member "VariantConstant",
      .mark "("] ++ k.source.pieces ++ [.mark ")"])) =
        [pad depth ++ k.name ++ " = " ++ arithmeticName ++ ".VariantConstant(" ++ k.source.text
          ++ ")"] := by
    rw [Stmt.lines, hcode, indented_singleton hne]
    simp only [String.append_assoc]
  rw [Constant.tree, linesOf, linesOf, linesOf, linesOf, hline, List.append_nil, Constant.lines,
    List.append_assoc]
  rfl

/-- The lines of the lists. -/
theorem linesOf_listing (depth : Nat) (c : Class) :
    linesOf depth c.listing = indented depth (listLines c) := by
  have hraws : codeText (separated (c.constants.map fun k => [.name k.name, .member "raw"])) =
      ", ".intercalate (c.constants.map (·.name ++ ".raw")) := by
    rw [codeText_separated, List.map_map]
    refine congrArg (", ".intercalate ·) (List.map_congr_left fun k _ => ?_)
    simp
  have hlines : listLines c = ["",
      "_NAMES" ++ " = " ++ codeText ([.mark "("] ++ quotedPieces (c.constants.map (·.name))
        ++ [.mark ",)"]),
      "_VALUES" ++ " = " ++ codeText ([.mark "("]
        ++ separated (c.constants.map fun k => [.name k.name, .member "raw"]) ++ [.mark ",)"]),
      ""] := by
    simp [listLines, hraws, ← String.toList_inj]
  rw [hlines]
  rfl

/-- The lines of the range check. -/
theorem lines_checkFunction (c : Class) : (checkFunction c).lines ++ [""] = checkLines c := by
  simp [checkFunction, checkLines, untyped, ← String.toList_inj]

/-- The lines of the functions that make values and list them. -/
theorem lines_accessFunctions (c : Class) :
    (fromRawFunction c).lines ++ [""] ++ iterFunction.lines ++ [""] = accessLines c := by
  simp [fromRawFunction, iterFunction, accessLines, untyped, integer, returning,
    ← String.toList_inj]

/-- The lines of the functions for a public field. -/
theorem lines_openFunctions (c : Class) :
    newFunction.lines ++ [""] ++ (bitFunction c).lines ++ [""] = openLines c := by
  have hzero : Int.repr 0 = "0" := rfl
  have hone : Int.repr 1 = "1" := rfl
  simp [newFunction, bitFunction, openLines, untyped, integer, returning, hzero, hone,
    ← String.toList_inj]

/-- An operator as written. -/
theorem codeText_operation (op : Operator) (field : String) :
    codeText (operationPieces op field) = operation op ("self." ++ field) ("other." ++ field) := by
  cases op <;> simp [operationPieces, operation, callPieces, operandPieces, operatorPieces,
    Operator.symbol, ← String.toList_inj]

/-- The lines of the two functions of a binary operator. -/
theorem lines_operatorFunctions (field : String) (m : String × Operator) :
    (binaryFunction field m).lines ++ [""] ++ (inPlaceFunction field m).lines ++ [""] =
      operatorLines field m := by
  simp [binaryFunction, inPlaceFunction, operatorLines, guardSteps, rewrapped, returning, untyped,
    operandPieces, codeText_operation, ← String.toList_inj]

/-- The lines of the functions of the unary operators. -/
theorem lines_unaryFunctions (c : Class) :
    (unaryFunction "__invert__" "invert" (operandPieces "self" c.field)).lines
        ++ (if c.type.signed then "" :: (unaryFunction "__neg__" "wrap"
          ([.number 0, .mark " - "] ++ operandPieces "self" c.field)).lines else []) =
      unaryLines c := by
  have hzero : Int.repr 0 = "0" := rfl
  unfold unaryLines
  split_ifs <;> simp [unaryFunction, rewrapped, returning, callPieces, operandPieces, untyped,
    hzero, ← String.toList_inj]

/-- The lines of the functions of a class. -/
theorem linesOf_functions (depth : Nat) (c : Class) :
    linesOf depth c.functions = indented depth (checkLines c ++ accessLines c
      ++ (if c.isOpen then openLines c else []) ++ methods.flatMap (operatorLines c.field)
      ++ unaryLines c) := by
  have hfunction : ∀ f ss, linesOf depth (.function f :: ss) =
      indented depth f.lines ++ linesOf depth ss := fun _ _ => rfl
  have hgap : ∀ ss, linesOf depth (gap :: ss) = indented depth [""] ++ linesOf depth ss :=
    fun _ => rfl
  have hnil : linesOf depth [] = indented depth [] := rfl
  have hopen : linesOf depth (if c.isOpen then [.function newFunction, gap,
      .function (bitFunction c), gap] else []) =
        indented depth (if c.isOpen then openLines c else []) := by
    split_ifs
    · simp only [hfunction, hgap, hnil, ← indented_append, ← lines_openFunctions]
      simp only [List.append_assoc, List.append_nil]
    · rfl
  have hmethod : ∀ m, linesOf depth [.function (binaryFunction c.field m), gap,
      .function (inPlaceFunction c.field m), gap] = indented depth (operatorLines c.field m) := by
    intro m
    simp only [hfunction, hgap, hnil, ← indented_append, ← lines_operatorFunctions]
    simp only [List.append_assoc, List.append_nil]
  have hmethods : linesOf depth (methods.flatMap fun m =>
      [.function (binaryFunction c.field m), gap, .function (inPlaceFunction c.field m), gap]) =
        indented depth (methods.flatMap (operatorLines c.field)) := by
    rw [linesOf_flatMap, indented, List.map_flatMap]
    exact List.flatMap_congr fun m _ => hmethod m
  have hneg : linesOf depth (if c.type.signed then [gap, .function (unaryFunction "__neg__" "wrap"
      ([.number 0, .mark " - "] ++ operandPieces "self" c.field))] else []) =
        indented depth (if c.type.signed then "" :: (unaryFunction "__neg__" "wrap"
          ([.number 0, .mark " - "] ++ operandPieces "self" c.field)).lines else []) := by
    split_ifs
    · simp only [hfunction, hgap, hnil, ← indented_append]
      rw [List.append_nil]
      rfl
    · rfl
  rw [Class.functions, linesOf_append, linesOf_append, linesOf_append, linesOf_append, hopen,
    hmethods, hneg]
  simp only [hfunction, hgap, hnil, ← indented_append, ← lines_unaryFunctions,
    ← lines_checkFunction, ← lines_accessFunctions, List.append_assoc, List.append_nil]

/-- The lines of the statements of a class. -/
theorem linesOf_body (depth : Nat) (c : Class) : linesOf depth (c.body depth) =
    (if c.notes.docs.isEmpty then [] else docstringLines depth c.notes.docs ++ [""])
      ++ indented depth (fieldLines c) ++ c.constants.flatMap (Constant.lines depth)
      ++ indented depth (memberLines c) := by
  have hdocs : ∀ lines, linesOf depth [.remark lines] = lines := fun lines => List.append_nil lines
  have hconstants : linesOf depth (c.constants.flatMap (Constant.tree depth)) =
      c.constants.flatMap (Constant.lines depth) := by
    rw [linesOf_flatMap]
    exact List.flatMap_congr fun k _ => linesOf_constant depth k
  rw [Class.body, linesOf_append, linesOf_append, linesOf_append, linesOf_append, hdocs,
    linesOf_fields, hconstants, linesOf_listing, linesOf_functions, memberLines]
  simp only [indented_append, List.append_assoc]

/-- **Classes.** The lines of a class are those of its tree. -/
theorem linesOf_class (depth : Nat) (c : Class) : linesOf depth (c.tree depth) = c.lines depth := by
  have hopening : indented depth (["@" ++ codeText dataclassPieces] ++ ["class " ++ c.name ++ ":"])
      = c.opening depth := by
    have hdecorator : "@" ++ codeText dataclassPieces =
        "@_dc.dataclass(order=True, unsafe_hash=True, slots=True)" := by decide
    rw [hdecorator, indented_append, indented_singleton rfl, indented_singleton (by simp)]
    simp only [Class.opening, String.append_assoc]
    rfl
  have hclass : c.lines depth = commentLines depth c.notes ++ (c.opening depth
      ++ linesOf (depth + 1) (c.body (depth + 1))) := by
    rw [linesOf_body]
    simp only [Class.lines, Class.opening, memberLines, List.append_assoc]
  rw [hclass, ← hopening]
  exact congrArg (commentLines depth c.notes ++ ·) (List.append_nil _)

/-! ## Items and modules -/

/-- The line of a table. -/
theorem lines_table (t : OrdinalTable) : t.tree.lines 1 = [t.line] := by
  have hzero : Int.repr 0 = "0" := rfl
  rw [OrdinalTable.tree, Stmt.lines, indented_singleton (by simp)]
  simp [OrdinalTable.line, hzero, ← String.toList_inj]

/-- The lines of a companion. -/
theorem linesOf_companion (module : String) (tables : List OrdinalTable) :
    linesOf 0 (companionTree module tables) = companionLines module tables := by
  have htables : linesOf 1 (tables.map OrdinalTable.tree) = tables.map OrdinalTable.line := by
    rw [linesOf_eq, List.flatMap_map, List.map_eq_flatMap]
    exact List.flatMap_congr fun t _ => lines_table t
  unfold companionTree companionLines
  split_ifs
  · rfl
  · simp only [linesOf, Stmt.lines, gap, htables, indented_zero, List.append_nil]
    rfl

/-- **Items.** The lines of an item are those of its tree. -/
theorem linesOf_item (item : Item) : linesOf 0 item.tree = item.lines := by
  cases item with
  | single c => exact congrArg (["", ""] ++ ·) (linesOf_class 0 c)
  | group name notes tables classes =>
    have hclasses : linesOf 1 (classes.flatMap fun c => gap :: c.tree 1) =
        classes.flatMap fun c => "" :: c.lines 1 := by
      rw [linesOf_flatMap]
      exact List.flatMap_congr fun c _ => congrArg ("" :: ·) (linesOf_class 1 c)
    have hgap : gap.lines 0 = [""] := rfl
    rw [Item.tree, linesOf_append, linesOf_companion]
    simp only [linesOf, Stmt.lines, hgap, Nat.zero_add, hclasses, indented_zero, List.append_nil]
    simp only [Item.lines, List.append_assoc]
    rfl

/-- **Modules.** The lines of a module without preamble are those of its tree. -/
theorem Module.linesOf_tree {m : Module} (h : m.preamble = []) : linesOf 0 m.tree = m.lines := by
  have hitems : linesOf 0 (m.items.flatMap Item.tree) = m.items.flatMap Item.lines := by
    rw [linesOf_flatMap]
    exact List.flatMap_congr fun item _ => linesOf_item item
  have himport : linesOf 0 (if m.items.any Item.needsTables then [.importAs "enum" "_enum"]
      else []) = if m.items.any Item.needsTables then ["import enum as _enum"] else [] := by
    split_ifs <;> rfl
  have hexports : "__all__" ++ " = " ++ codeText ([.mark "["] ++ quotedPieces m.exports
      ++ [.mark "]"]) = "__all__ = [" ++ quotedList m.exports ++ "]" := by
    simp [← String.toList_inj]
  rw [Module.tree, Module.headTree, Module.lines, linesOf_append, linesOf_append, linesOf_append,
    hitems, himport, h]
  simp only [linesOf, Stmt.lines, gap, indented_zero, List.append_nil, hexports]
  simp only [List.append_assoc]
  rfl

end Generated

end MaskEnum

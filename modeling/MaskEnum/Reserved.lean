import MaskEnum.Error
set_option autoImplicit false

/-!
# Reserved names

Names that a declaration cannot give away, because generated Python code could not use them or
relies on them.

## Main definitions

* `MaskEnum.isKeyword` — the keywords of Python.
* `MaskEnum.scopeNames` — what generated code looks up outside its own classes.
* `MaskEnum.generatedMembers` — the members that every generated class has.
* `MaskEnum.isOrdinalReserved` — the names that a table of ordinals refuses.
-/

namespace MaskEnum

/-- The keywords of Python. -/
def keywords : List String :=
  ["False", "None", "True", "and", "as", "assert", "async", "await", "break", "class", "continue",
    "def", "del", "elif", "else", "except", "finally", "for", "from", "global", "if", "import",
    "in", "is", "lambda", "nonlocal", "not", "or", "pass", "raise", "return", "try", "while",
    "with", "yield"]

/-- Whether a name is a keyword of Python. -/
def isKeyword (name : String) : Bool := keywords.contains name

/-- The name under which generated code knows the arithmetic it calls. -/
def arithmeticName : String := "_rt"

/-- The names that generated code looks up at module scope or inside class bodies. -/
def scopeNames : List String :=
  ["_dc", "_enum", arithmeticName, "bool", "classmethod", "int", "iter", "type",
    "NotImplemented", "OverflowError"]

/-- The members that every generated class has. -/
def generatedMembers : List String :=
  ["raw", "_raw", "new", "iter", "get_bit", "from_raw", "_VALUES", "_NAMES"]

/-- Whether a name starts with a text. -/
def startsWith (start name : String) : Bool := start.toList.isPrefixOf name.toList

/-- Whether a name ends with a text. -/
def endsWith (ending name : String) : Bool := ending.toList.isSuffixOf name.toList

/-- Whether a table of ordinals refuses a name as that of a member. -/
def isOrdinalReserved (name : String) : Bool :=
  (startsWith "_" name && endsWith "_" name) || name == "mro"

/-- The name of the class that holds the tables of ordinals of a module. -/
def companionName (module : String) : String := companionMark ++ module

end MaskEnum

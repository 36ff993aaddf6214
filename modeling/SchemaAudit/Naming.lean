/-
**Naming conventions for properties.**

* `NamingConvention` — the conventions and the names they go by;
* `NamingConvention.accepts` — whether a property name follows one. Only ASCII letters and digits
  count as such, and the empty name follows every convention.
-/

set_option relaxedAutoImplicit false
set_option autoImplicit false

namespace SchemaAudit

/-- A convention for the names of properties. -/
inductive NamingConvention where
  /-- Every name is accepted. -/
  | any
  | camel
  | snake
  | kebab
  | pascal
deriving DecidableEq, Inhabited

namespace NamingConvention

/-- The name of a convention. -/
def name : NamingConvention → String
  | .any => "none"
  | .camel => "camelCase"
  | .snake => "snake_case"
  | .kebab => "kebab-case"
  | .pascal => "PascalCase"

/-- The convention of a name. -/
def ofName? : String → Option NamingConvention
  | "none" => some .any
  | "camelCase" => some .camel
  | "snake_case" => some .snake
  | "kebab-case" => some .kebab
  | "PascalCase" => some .pascal
  | _ => none

/-- Whether the first character, if there is one, is of the given class and all are letters or
digits. -/
def isOneWord (first : Char → Bool) : List Char → Bool
  | [] => true
  | c :: rest => first c && (c :: rest).all Char.isAlphanum

/-- Whether all characters are lower-case letters, digits or the separator. -/
def isSeparated (separator : Char) (cs : List Char) : Bool :=
  cs.all fun c => c.isLower || c.isDigit || c == separator

/-- Whether a name follows the convention. -/
def accepts (convention : NamingConvention) (name : String) : Bool :=
  match convention with
  | .any => true
  | .camel => isOneWord Char.isLower name.toList
  | .pascal => isOneWord Char.isUpper name.toList
  | .snake => isSeparated '_' name.toList
  | .kebab => isSeparated '-' name.toList

/-- A convention is found again under its name. -/
theorem ofName?_name (convention : NamingConvention) :
    ofName? convention.name = some convention := by
  cases convention <;> rfl

/-- The empty name follows every convention. -/
theorem accepts_empty (convention : NamingConvention) : convention.accepts "" = true := by
  cases convention <;> decide

example : camel.accepts "itemCount2" = true ∧ camel.accepts "item_count" = false := by decide

example : snake.accepts "_2" = true ∧ snake.accepts "é" = false := by decide

end NamingConvention

end SchemaAudit

import CodeSimilarity.Binary64.Basic
import CodeSimilarity.Text.Basic

set_option autoImplicit false
set_option relaxedAutoImplicit false

/-!
# JSON documents

The values that reports are written as. A string is a text, which need not be valid UTF-8.

## Main definitions

* `Json` — a JSON value.
* `ToJson` — the types whose values are written as JSON.
-/

namespace CodeSimilarity

/-- A JSON value. -/
inductive Json where
  /-- A truth value. -/
  | bool (value : Bool)
  /-- An integer. -/
  | int (value : Int)
  /-- A number that need not be an integer. -/
  | real (value : Binary64)
  /-- A string. -/
  | text (value : Text)
  /-- A list of values. -/
  | array (items : List Json)
  /-- Values under names, in the order in which they are written. -/
  | object (fields : List (String × Json))

/-- The types whose values are written as JSON. -/
class ToJson (α : Type) where
  /-- A value as JSON. -/
  toJson : α → Json

export ToJson (toJson)

instance : ToJson Bool := ⟨.bool⟩

instance : ToJson Nat := ⟨fun n => .int n⟩

instance : ToJson Int := ⟨.int⟩

instance : ToJson Binary64 := ⟨.real⟩

instance : ToJson Text := ⟨.text⟩

instance {α : Type} [ToJson α] : ToJson (List α) := ⟨fun xs => .array (xs.map toJson)⟩

end CodeSimilarity

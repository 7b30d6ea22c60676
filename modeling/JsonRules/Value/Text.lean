import JsonRules.Text.Quoted
import JsonRules.Value

/-!
# Texts of values

A value is written without spaces. `Value.json` is JSON text, with the members of an object in
their order; `Value.key` is the canonical key, which equal values share: numbers are written by
their exact value there, members are sorted, and strings are written with everything escaped that
would not be seen.
-/

namespace JsonRules

/-- The texts with commas between them. -/
def Text.commas : List (List Char) → List Char
  | [] => []
  | [t] => t
  | t :: rest => t ++ ',' :: commas rest

/-- How the leaves of a value are written, and in which order the members of an object are. -/
structure ValueStyle where
  number : Number → List Char
  string : String → List Char
  arrange : List (String × List Char) → List (String × List Char)

namespace ValueStyle

def json : ValueStyle := ⟨Number.text, Text.quote Text.jsonChar, id⟩

def key : ValueStyle :=
  ⟨Number.keyText, Text.quote Text.keyChar, fun members => members.mergeSort fun m n => m.1 ≤ n.1⟩

/-- A member whose value is written already. -/
def member (style : ValueStyle) (m : String × List Char) : List Char :=
  style.string m.1 ++ ':' :: m.2

end ValueStyle

namespace Value

mutual

def write (style : ValueStyle) : Value → List Char
  | null => "null".toList
  | bool true => "true".toList
  | bool false => "false".toList
  | num n => style.number n
  | str s => style.string s
  | arr items => '[' :: Text.commas (writeItems style items) ++ [']']
  | obj fields =>
    '{' :: Text.commas ((style.arrange (writeFields style fields)).map style.member) ++ ['}']

def writeItems (style : ValueStyle) : List Value → List (List Char)
  | [] => []
  | v :: rest => v.write style :: writeItems style rest

/-- The keys of the members with the texts of the values. -/
def writeFields (style : ValueStyle) : List (String × Value) → List (String × List Char)
  | [] => []
  | (k, v) :: rest => (k, v.write style) :: writeFields style rest

end

def json (v : Value) : String := String.ofList (v.write .json)

def key (v : Value) : String := String.ofList (v.write .key)

end Value

end JsonRules

import JsonRules.Unicode.CategoryRuns
import JsonRules.Unicode.Runs

/-!
# General categories

The general category of a code point, and the sets of code points of given categories. A
category is named by its two letters.
-/

namespace JsonRules.Unicode

abbrev Category := String

namespace Category

def table : RunTable Category := .ofRuns (categoryRuns.flatMap (readRuns 2))

def ofCode (code : Nat) : Category := (table.find? code).getD "Cn"

def set (categories : List Category) : CodeSet :=
  CodeSet.ofRanges (table.select fun c => categories.contains c)

/-- The names of the categories and of their groups, the code first. -/
def names : List (List String) := [
  ["C", "Other"], ["Cc", "Control", "Cntrl"], ["Cf", "Format"], ["Cn", "Unassigned"],
  ["Co", "Private_Use"], ["Cs", "Surrogate"], ["L", "Letter"], ["LC", "Cased_Letter"],
  ["Ll", "Lowercase_Letter"], ["Lm", "Modifier_Letter"], ["Lo", "Other_Letter"],
  ["Lt", "Titlecase_Letter"], ["Lu", "Uppercase_Letter"], ["M", "Mark", "Combining_Mark"],
  ["Mc", "Spacing_Mark"], ["Me", "Enclosing_Mark"], ["Mn", "Nonspacing_Mark"],
  ["N", "Number"], ["Nd", "Decimal_Number", "Digit"], ["Nl", "Letter_Number"],
  ["No", "Other_Number"], ["P", "Punctuation", "Punct"], ["Pc", "Connector_Punctuation"],
  ["Pd", "Dash_Punctuation"], ["Pe", "Close_Punctuation"], ["Pf", "Final_Punctuation"],
  ["Pi", "Initial_Punctuation"], ["Po", "Other_Punctuation"], ["Ps", "Open_Punctuation"],
  ["S", "Symbol"], ["Sc", "Currency_Symbol"], ["Sk", "Modifier_Symbol"],
  ["Sm", "Math_Symbol"], ["So", "Other_Symbol"], ["Z", "Separator"],
  ["Zl", "Line_Separator"], ["Zp", "Paragraph_Separator"], ["Zs", "Space_Separator"]]

/-- The categories that a code stands for: a group's code is one letter, or `LC`. -/
def members (code : String) : List Category :=
  if code == "LC" then ["Ll", "Lt", "Lu"]
  else
    let all := (names.filterMap List.head?).filter fun c => c.length == 2 && c != "LC"
    if code.length == 1 then all.filter fun c => c.toList.take 1 == code.toList
    else all.filter (· == code)

end Category

end JsonRules.Unicode

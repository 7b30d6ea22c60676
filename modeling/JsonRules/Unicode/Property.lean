import JsonRules.Text.Digits
import JsonRules.Unicode.Category
import JsonRules.Unicode.PropertyRanges
import JsonRules.Unicode.ScriptRuns

/-!
# Properties of code points

Binary properties, scripts and script extensions as sets of code points, the loose reading
of their names, and the few properties that quoting and group names rest on.
-/

namespace JsonRules.Unicode

/-- Two numbers on both sides of a `+`; without one the second is zero. -/
def readSum (text : String) : Nat × Nat :=
  let cs := text.toList
  (Text.decimal (cs.takeWhile (· ≠ '+')), Text.decimal ((cs.dropWhile (· ≠ '+')).drop 1))

def words (lines : List String) : List String :=
  lines.flatMap fun l => (l.splitOn " ").filter (· ≠ "")

/-- The ranges of a list of gaps and lengths. -/
def readGaps (lines : List String) : CodeSet :=
  ((words lines).foldl
    (fun (ranges, next) w =>
      let (gap, more) := readSum w
      (⟨next + gap, next + gap + more⟩ :: ranges, next + gap + more + 1))
    (([] : CodeSet), 0)).1.reverse

namespace PropertyRanges

def set (p : PropertyRanges) : CodeSet :=
  CodeSet.difference
    (CodeSet.ofRanges (Category.set (words [p.categories]) ++ readGaps p.beyond))
    (readGaps p.without)

end PropertyRanges

/-- The characters of a name that count: ASCII without spaces, `_` and `-`, in lower case. -/
def looseChars (name : List Char) : List Char :=
  (name.filter fun c => c ≠ ' ' && c ≠ '_' && c ≠ '-' && c.toNat < 128).map Char.toLower

/-- A name without what may be spelled in different ways, an `is` before it included. The name
of ISO comments, `isc`, keeps it. -/
def looseName (name : String) : List Char :=
  match name.toList with
  | i :: s :: rest =>
    if i.toLower = 'i' ∧ s.toLower = 's' then
      if looseChars rest = ['c'] then ['i', 's', 'c'] else looseChars rest
    else looseChars (i :: s :: rest)
  | cs => looseChars cs

def sameName (a b : String) : Bool := looseName a == looseName b

def binarySet? (name : String) : Option CodeSet :=
  (propertyRanges.find? fun p => (words [p.names]).any (sameName name)).map (·.set)

/-- The code points of a general category or of a group of them. The category of the surrogates
holds no character and is not known by name. -/
def categorySet? (name : String) : Option CodeSet :=
  if sameName name "Any" then some [⟨0, maxCode⟩]
  else if sameName name "Assigned" then some (CodeSet.complement (Category.set ["Cn"]))
  else if sameName name "ASCII" then some [⟨0, 127⟩]
  else
    (Category.names.find? fun ns => ns.any (sameName name)).bind fun ns =>
      (ns.head?.filter (· != "Cs")).map fun code => Category.set (Category.members code)

/-- The four letters of the script of a name. -/
def scriptCode? (name : String) : Option String :=
  (scriptNames.find? fun ns => (words [ns]).any (sameName name)).bind fun ns =>
    (words [ns]).head?

def scriptTable : RunTable String := .ofRuns (scriptRuns.flatMap (readRuns 4))

def scriptSet? (name : String) : Option CodeSet :=
  (scriptCode? name).map fun code => CodeSet.ofRanges (scriptTable.select (· == code))

/-- The ranges whose script extensions are listed, each with its scripts. -/
def extensionRanges : List (CodeRange × List String) :=
  scriptExtensions.filterMap fun line =>
    match words [line] with
    | [] => none
    | at_ :: scripts => let (lo, more) := readSum at_; some (⟨lo, lo + more⟩, scripts)

/-- The code points that have a script among their script extensions. -/
def scriptExtensionSet? (name : String) : Option CodeSet :=
  (scriptCode? name).map fun code =>
    let listed := extensionRanges.filter fun r => r.2.contains code
    let plain := CodeSet.difference (CodeSet.ofRanges (scriptTable.select (· == code)))
      (extensionRanges.map Prod.fst)
    CodeSet.ofRanges (plain ++ listed.map Prod.fst)

def namedSet? (name : String) : Option CodeSet :=
  (binarySet? name).or ((categorySet? name).or (scriptSet? name))

def valuedSet? (property value : String) : Option CodeSet :=
  if sameName property "General_Category" || sameName property "gc" then categorySet? value
  else if sameName property "Script" || sameName property "sc" then scriptSet? value
  else if sameName property "Script_Extensions" || sameName property "scx" then
    scriptExtensionSet? value
  else none

/-- Letters, and marks that count as letters. -/
def alphabetic : CodeSet := (binarySet? "Alphabetic").getD []

/-- Characters that attach to the one before. -/
def graphemeExtend : CodeSet := (binarySet? "Grapheme_Extend").getD []

/-- A letter or a number of any script. -/
def isAlphanumeric (c : Char) : Bool :=
  c.isAlphanum ||
    (127 < c.toNat &&
      (alphabetic.contains c.toNat || (Category.members "N").contains (Category.ofCode c.toNat)))

def isAlphabetic (c : Char) : Bool :=
  c.isAlpha || (127 < c.toNat && alphabetic.contains c.toNat)

/-- A character that is shown as it is: no control, format, surrogate, private or unassigned
code point, and no separator other than the space. -/
def isPrintable (c : Char) : Bool :=
  if c.toNat < 127 then 32 ≤ c.toNat
  else
    let category := Category.ofCode c.toNat
    !(["Cc", "Cf", "Cs", "Co", "Cn", "Zl", "Zp", "Zs"].contains category)

/-- A character that attaches to the one before. -/
def extendsGrapheme (c : Char) : Bool := 127 < c.toNat && graphemeExtend.contains c.toNat

def isControl (c : Char) : Bool := c.toNat < 0x20 || (0x7F ≤ c.toNat && c.toNat ≤ 0x9F)

/-- White space: the separators, and the controls that move the line or the column. -/
def whiteSpace : CodeSet := [
  ⟨0x09, 0x0D⟩, ⟨0x20, 0x20⟩, ⟨0x85, 0x85⟩, ⟨0xA0, 0xA0⟩, ⟨0x1680, 0x1680⟩,
  ⟨0x2000, 0x200A⟩, ⟨0x2028, 0x2029⟩, ⟨0x202F, 0x202F⟩, ⟨0x205F, 0x205F⟩, ⟨0x3000, 0x3000⟩]

def isWhiteSpace (c : Char) : Bool := whiteSpace.contains c.toNat

end JsonRules.Unicode

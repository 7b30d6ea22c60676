import JsonRules.Text.Digits
import JsonRules.Unicode.Property

/-!
# Quoted text

Text between double quotes, where each character is either itself or an escape that starts
with a backslash. Two spellings are in use: JSON text escapes what JSON must, canonical keys
escape what would not be seen.
-/

namespace JsonRules.Text

/-- Text between double quotes with every character spelled by `spell`. -/
def quote (spell : Char → List Char) (s : String) : List Char :=
  '"' :: s.toList.flatMap spell ++ ['"']

def jsonChar (c : Char) : List Char :=
  if c = '"' then ['\\', '"']
  else if c = '\\' then ['\\', '\\']
  else if c = '\x08' then ['\\', 'b']
  else if c = '\x0c' then ['\\', 'f']
  else if c = '\n' then ['\\', 'n']
  else if c = '\r' then ['\\', 'r']
  else if c = '\t' then ['\\', 't']
  else if c.toNat < 0x20 then
    '\\' :: 'u' :: List.replicate (4 - (hex c.toNat).length) '0' ++ hex c.toNat
  else [c]

def keyChar (c : Char) : List Char :=
  if c = '"' then ['\\', '"']
  else if c = '\\' then ['\\', '\\']
  else if c = '\n' then ['\\', 'n']
  else if c = '\r' then ['\\', 'r']
  else if c = '\t' then ['\\', 't']
  else if c = '\x00' then ['\\', '0']
  else if Unicode.extendsGrapheme c || !Unicode.isPrintable c then
    '\\' :: 'u' :: '{' :: hex c.toNat ++ ['}']
  else [c]

end JsonRules.Text

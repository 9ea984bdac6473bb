import ScriptC.Text.Hex

/-!
Names of the script as parts of C identifiers.
-/

namespace ScriptC.C

def identChars (c : Char) : List Char :=
  if c == '_' || c.isAlphanum then [c]
  else if c == '$' then ['S', '_']
  else 'u' :: Text.hexDigits true 0 c.toNat ++ ['_']

def identText (name : String) : String :=
  if name.isEmpty then "anon" else String.ofList (name.toList.flatMap identChars)

end ScriptC.C

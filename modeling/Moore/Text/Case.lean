/-
# Letter case

Words of the expression grammar and of the settings are compared without regard to
the case of ASCII letters.  The words of a session are lower-cased first.
-/

namespace Moore.Text

/-- The text with its ASCII capitals replaced by small letters. -/
def lowerAscii (s : String) : String :=
  String.ofList (s.toList.map Char.toLower)

/-- Whether two texts differ at most in the case of ASCII letters. -/
def sameWord (s t : String) : Bool :=
  lowerAscii s = lowerAscii t

/-- The small letter of a character, as far as it is an ASCII letter.  Beside the ASCII
capitals that is the Kelvin sign alone. -/
def lowerToAscii (c : Char) : Char :=
  if c = '\u212a' then 'k' else c.toLower

end Moore.Text

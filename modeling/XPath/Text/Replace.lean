/-!
# Replacing a pattern

`replaceAll pattern by text` exchanges every occurrence of a non-empty pattern, found from left to
right and without overlap. What is put in is not searched again.
-/

namespace XPath.Text

/-- Scans the text. The first argument counts the characters of a match that are still to be passed
over. -/
def replaceFrom (pattern replacement : List Char) : Nat → List Char → List Char
  | _, [] => []
  | k + 1, _ :: cs => replaceFrom pattern replacement k cs
  | 0, c :: cs =>
    if pattern.isPrefixOf (c :: cs) then
      replacement ++ replaceFrom pattern replacement (pattern.length - 1) cs
    else
      c :: replaceFrom pattern replacement 0 cs

def replaceAll (pattern replacement text : List Char) : List Char :=
  replaceFrom pattern replacement 0 text

end XPath.Text

/-!
# Replacing a pattern

Every occurrence of a pattern is replaced, from the left, without overlaps; what replaces it is not
searched again.
-/

namespace TreeCompiler.Text

/-- Replaces the pattern from the left; `skip` characters still belong to the last occurrence. -/
def replaceFrom (pattern replacement : List Char) : Nat → List Char → List Char
  | _, [] => []
  | skip + 1, _ :: rest => replaceFrom pattern replacement skip rest
  | 0, c :: rest =>
    if pattern.isPrefixOf (c :: rest) then
      replacement ++ replaceFrom pattern replacement (pattern.length - 1) rest
    else
      c :: replaceFrom pattern replacement 0 rest

/-- Replaces every occurrence of a pattern that is not empty. -/
def replaceAll (pattern replacement : List Char) (text : List Char) : List Char :=
  replaceFrom pattern replacement 0 text

end TreeCompiler.Text

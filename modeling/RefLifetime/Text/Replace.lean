/-!
# Replacing text

Every occurrence of a piece of text is replaced, from left to right and without overlap. Replaced
text is not searched again.
-/

namespace RefLifetime.Text

/-- Replacement in progress: the next `skip` characters belong to an occurrence already replaced. -/
def replaceFrom (pattern replacement : List Char) (skip : Nat) : List Char → List Char
  | [] => []
  | c :: rest =>
    match skip with
    | skip + 1 => replaceFrom pattern replacement skip rest
    | 0 =>
      if pattern.isPrefixOf (c :: rest) then
        replacement ++ replaceFrom pattern replacement (pattern.length - 1) rest
      else
        c :: replaceFrom pattern replacement 0 rest

/-- Replaces every occurrence of a nonempty `pattern`. -/
def replaceAll (pattern replacement : String) (text : String) : String :=
  String.ofList (replaceFrom pattern.toList replacement.toList 0 text.toList)

end RefLifetime.Text

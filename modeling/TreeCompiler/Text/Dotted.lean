/-!
# Dotted names

A qualified name is its parts with a dot between them.
-/

namespace TreeCompiler.Text

/-- The characters between dots. There is always at least one part. -/
def partsAtDots : List Char → List (List Char)
  | [] => [[]]
  | c :: rest =>
    match partsAtDots rest with
    | [] => [[c]]
    | part :: parts => if c = '.' then [] :: part :: parts else (c :: part) :: parts

def splitDots (name : String) : List String := (partsAtDots name.toList).map String.ofList

/-- The dotted name of some parts. -/
def joinDots (parts : List String) : String := String.intercalate "." parts

/-- Whether a name is qualified. -/
def hasDot (name : String) : Bool := name.toList.contains '.'

end TreeCompiler.Text

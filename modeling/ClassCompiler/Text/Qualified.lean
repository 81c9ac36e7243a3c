/-!
# Qualified names

A qualified name has segments joined by dots. The last segment is the simple name.
-/

namespace ClassCompiler.Text

/-- The last segment of a dotted name; a name without dots is its own last segment. -/
def simpleName (path : String) : String :=
  String.ofList (path.toList.reverse.takeWhile (· ≠ '.')).reverse

/-- A dotted name with slashes between its segments. -/
def slashed (path : String) : String :=
  String.ofList (path.toList.map fun c => if c = '.' then '/' else c)

end ClassCompiler.Text

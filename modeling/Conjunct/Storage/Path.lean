/-!
# Paths

A path is a text; slashes separate the names in it. A path that begins with a slash is absolute,
and joining an absolute path to another replaces it.
-/

namespace Conjunct

/-- The text of a path. -/
abbrev Path := String

namespace Path

/-- Whether a path begins at the root. -/
def isAbsolute (p : Path) : Bool :=
  p.toList.head? = some '/'

/-- Whether a path ends in a slash, and so can only lead to a directory. -/
def endsInSlash (p : Path) : Bool :=
  p.toList.getLast? = some '/'

/-- The names in a path, empty ones included: two slashes in a row have an empty name between
them, and a slash at an end has one beyond it. -/
def names (p : Path) : List String :=
  (p.toList.splitOn '/').map String.ofList

/-- The path that leads from where `base` leads to where `p` leads. -/
def join (base p : Path) : Path :=
  if p.isAbsolute ∨ base = "" then p
  else if base.endsInSlash then base ++ p
  else base ++ "/" ++ p

end Path

end Conjunct

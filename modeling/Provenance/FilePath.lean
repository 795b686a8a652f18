/-!
# File paths

A path is a list of names separated by `/`; empty names and the name `.` say nothing, except that a
path may begin with `.` or `/`. The *file name* of a path is its last name, unless that is `..`. An
*extension* is what follows the last point of a file name; a name that begins with its only point
has none.
-/

namespace Provenance.FilePath

/-- A path, last character first, without the `/` and `/.` at its end. -/
def trimmedReverse : List Char → List Char
  | '/' :: r => trimmedReverse r
  | '.' :: '/' :: r => trimmedReverse r
  | cs => cs

/-- The path without what says nothing at its end. -/
def trimmed (path : String) : List Char := (trimmedReverse path.toList.reverse).reverse

/-- The file name of a path, if it has one. -/
def fileName? (path : String) : Option String :=
  let name := ((trimmed path).reverse.takeWhile (· != '/')).reverse
  if name = [] || name = ['.'] || name = ['.', '.'] then none else some (String.ofList name)

/-- Whether a file name has an extension, be it empty. -/
def hasExtension (name : String) : Bool :=
  let stem := (name.toList.reverse.dropWhile (· != '.')).drop 1
  !stem.isEmpty

/-- The path of the store of a name: a file name without extension gets one. -/
def ofStore (name : String) : String :=
  match fileName? name with
  | some file => if hasExtension file then name else String.ofList (trimmed name) ++ ".provql.db"
  | none => name

/-- The path of what holds a path: all names but the last, if there is a name. It is empty for a
single name. -/
def parent? (path : String) : Option String :=
  match (trimmed path).reverse with
  | [] => none
  | cs =>
    let above := cs.dropWhile (· != '/')
    if above = [] then some ""
    else
      let kept := trimmedReverse above
      some (if kept = [] then "/" else String.ofList kept.reverse)

end Provenance.FilePath

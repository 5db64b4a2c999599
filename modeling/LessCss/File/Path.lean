import LessCss.Text
/-!
Paths of files, as they are written. Nothing is looked up here.
-/
namespace LessCss.Path

def isAbsolute (path : Text) : Bool := path.head? = some '/'

/-- A path below a base. An absolute path stays as it is. -/
def join (base path : Text) : Text :=
  if isAbsolute path then path
  else if base.isEmpty ∨ base.getLast? = some '/' then base ++ path
  else base ++ '/' :: path

def names : Text → List Text
  | [] => [[]]
  | c :: cs =>
    if c = '/' then [] :: names cs
    else match names cs with
      | [] => [[c]]
      | n :: ns => (c :: n) :: ns

def stem (path : Text) : Text := (path.reverse.dropWhile (· = '/')).reverse

/-- The names along a path that count. A single dot counts only at the beginning of a relative path. -/
def parts (path : Text) : List Text :=
  let counts (n : Text) := !n.isEmpty && n ≠ ['.']
  if isAbsolute path then (names path).filter counts
  else match names path with
    | [] => []
    | n :: ns => (if n.isEmpty then [] else [n]) ++ ns.filter counts

/-- The paths that lead to a path, from the nearest out, as far as they have names. -/
def ancestors (path : Text) : List Text :=
  let ns := parts path
  let root : Text := if isAbsolute path then ['/'] else []
  (List.range ns.length).reverse.map fun n => root ++ Text.join ['/'] (ns.take n)

def parent (path : Text) : Text :=
  match ancestors path with
  | [] => ['.']
  | outer :: _ => if outer.isEmpty then ['.'] else outer

end LessCss.Path

import ScriptKit.Text.Basic

namespace ScriptKit.Path

def isAbsolute (p : String) : Bool :=
  Text.hasOpening "/" p

/-- The names between the slashes of a path. -/
def components (p : String) : List String :=
  ((Text.splitChar '/' p.toList).map String.ofList).filter (· ≠ "")

/-- One step along a path whose steps so far are given last first. A step up at the root of an
absolute path stays there; in a relative path it is kept. -/
def step (rooted : Bool) (taken : List String) (name : String) : List String :=
  if name = "." then taken
  else if name = ".." then
    match taken with
    | [] => if rooted then [] else [".."]
    | last :: before => if last = ".." then ".." :: taken else before
  else name :: taken

/-- The shortest list of steps that leads to the same place. -/
def steps (p : String) : List String :=
  ((components p).foldl (step (isAbsolute p)) []).reverse

def rooted (names : List String) : String :=
  "/" ++ "/".intercalate names

/-- The shortest path that is the same by its text alone. -/
def clean (p : String) : String :=
  if isAbsolute p then rooted (steps p)
  else match steps p with
    | [] => "."
    | names => "/".intercalate names

/-- Puts paths behind each other; empty ones are left out. -/
def join (paths : List String) : String :=
  match paths.filter (· ≠ "") with
  | [] => ""
  | present => clean ("/".intercalate present)

/-- The text up to the last slash, and the text after it. -/
def splitLast (p : String) : List Char × List Char :=
  let after := (p.toList.reverse.takeWhile (· ≠ '/')).reverse
  (p.toList.take (p.toList.length - after.length), after)

def parent (p : String) : String :=
  clean (String.ofList (splitLast p).1)

/-- The last name of a path. -/
def name (p : String) : String :=
  match (components p).getLast? with
  | some last => last
  | none => if isAbsolute p then "/" else "."

/-- The part of the last name from its last dot on. -/
def extension (p : String) : String :=
  let last := (splitLast p).2
  let behind := last.reverse.takeWhile (· ≠ '.')
  if behind.length < last.length then String.ofList ('.' :: behind.reverse) else ""

/-- The clean path of a place as seen from a directory. -/
def absolute (directory p : String) : String :=
  if isAbsolute p then clean p else join [directory, p]

end ScriptKit.Path

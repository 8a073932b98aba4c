import ScriptKit.Toml.Value

namespace ScriptKit.Toml

/-- A line of a configuration file that says something. -/
inductive Statement
  | table (path : List String)
  | arrayTable (path : List String)
  | assign (path : List String) (value : Value)

/-- The key in the header of a table, and what follows its brackets. -/
def header (brackets : Nat) (s : Rest) : Option (List String × Rest) :=
  match key (s.length + 1) (skipBlanks (s.drop brackets)) with
  | some (k, rest) =>
    if rest.take brackets = List.replicate brackets ']' then some (k, rest.drop brackets) else none
  | none => none

/-- The statement at the beginning of a line, if there is one. -/
def statement (s : Rest) : Option (Option Statement × Rest) :=
  let s := skipBlanks s
  match s with
  | [] => some (none, s)
  | '#' :: _ => some (none, s)
  | '\n' :: _ | '\r' :: _ => some (none, s)
  | '[' :: '[' :: _ => (header 2 s).map fun (k, rest) => (some (.arrayTable k), rest)
  | '[' :: _ => (header 1 s).map fun (k, rest) => (some (.table k), rest)
  | s =>
    match key (s.length + 1) s with
    | some (k, '=' :: rest) =>
      (value (rest.length + 1) (skipBlanks rest)).map fun (v, rest) => (some (.assign k v), rest)
    | _ => none

/-- The statements of a file, one on a line, up to the first place that cannot be read, and whether
that is the end of the file. -/
def statements : Nat → Rest → List Statement × Bool
  | 0, _ => ([], false)
  | fuel + 1, s =>
    match statement s with
    | none => ([], false)
    | some (found, rest) =>
      match skipComment (skipBlanks rest) with
      | none => ([], false)
      | some [] => (found.toList, true)
      | some rest =>
        match skipNewline rest with
        | none => (found.toList, false)
        | some rest =>
          let (more, complete) := statements fuel rest
          (found.toList ++ more, complete)

/-- How a table came to be: on the way to a header, on the way to a dotted key, or by a header of
its own. -/
inductive Origin
  | passed
  | dotted
  | headed
  deriving DecidableEq

/-- What a path has been used for. -/
inductive Use
  | value
  | table (origin : Origin)
  | arrayTable
  deriving DecidableEq

abbrev Uses := List (List String × Use)

/-- Notes the assignment of a value below a table. A key is assigned once, and the tables on the way
to it are not those that have a header of their own. -/
def noteKey (uses : Uses) (base : List String) : List String → Option Uses
  | [] => none
  | [last] =>
    let path := base ++ [last]
    if (uses.lookup path).isSome then none else some ((path, .value) :: uses)
  | part :: rest =>
    let path := base ++ [part]
    match uses.lookup path with
    | none => noteKey ((path, .table .dotted) :: uses) path rest
    | some (.table .headed) | some .value | some .arrayTable => none
    | some (.table _) => noteKey uses path rest

/-- Notes the tables on the way to a header. -/
def noteParents (uses : Uses) (base : List String) : List String → Option Uses
  | [] | [_] => some uses
  | part :: rest =>
    let path := base ++ [part]
    match uses.lookup path with
    | none => noteParents ((path, .table .passed) :: uses) path rest
    | some .value => none
    | some _ => noteParents uses path rest

/-- A header ends the tables that dotted keys have made: they cannot be added to any more. -/
def endDotted (uses : Uses) : Uses :=
  uses.map fun (path, use) => (path, if use = .table .dotted then .table .headed else use)

def noteTable (uses : Uses) (path : List String) : Option Uses :=
  match noteParents (endDotted uses) [] path with
  | none => none
  | some uses =>
    match uses.lookup path with
    | none | some (.table .passed) => some ((path, .table .headed) :: uses)
    | some _ => none

/-- Notes one more table of an array. What the tables before it held does not count any more. -/
def noteArrayTable (uses : Uses) (path : List String) : Option Uses :=
  match noteParents (endDotted uses) [] path with
  | none => none
  | some uses =>
    match uses.lookup path with
    | none => some ((path, .arrayTable) :: uses)
    | some .arrayTable =>
      some (uses.filter fun u => !path.isPrefixOf u.1 || u.1 = path)
    | some _ => none

mutual

/-- Whether no key is used twice inside of a value. -/
def Value.isConsistent : Value → Bool
  | .array items => consistentItems items
  | .table entries => (noteAll [] (entries.map Prod.fst)).isSome && consistentEntries entries
  | _ => true
where noteAll : Uses → List (List String) → Option Uses
  | uses, [] => some uses
  | uses, k :: ks => (noteKey uses [] k).bind fun uses => noteAll uses ks

def consistentItems : List Value → Bool
  | [] => true
  | v :: vs => v.isConsistent && consistentItems vs

def consistentEntries : List (List String × Value) → Bool
  | [] => true
  | (_, v) :: es => v.isConsistent && consistentEntries es

end

/-- Notes the assignment of a value in which no key is used twice. -/
def noteAssignment (uses : Uses) (base path : List String) (v : Value) : Option Uses :=
  (noteKey uses base path).filter fun _ => v.isConsistent

/-- Reads a configuration file up to the first place that cannot be read. -/
def read (text : String) : List Statement × Bool :=
  statements (text.toList.length + 1) text.toList

end ScriptKit.Toml

import ScriptKit.Path

namespace ScriptKit.Package

/-- The name by which a package is known: hyphens and underscores are the same. -/
def canonicalName (name : String) : String :=
  String.ofList ((Text.trim name).toList.map fun c => if c = '-' then '_' else c)

def isSegmentChar (c : Char) : Bool :=
  Text.isLetter c || Text.isDigit c || c = '.' || c = '-' || c = '_'

/-- A revision as the name of a directory. -/
def pathSegment (revision : String) : String :=
  match (Text.trim revision).toList with
  | [] => "head"
  | chars => String.ofList (chars.map fun c => if isSegmentChar c then c else '_')

/-- The directory that holds the checkouts of a package. -/
def checkoutBase (cache name : String) : String :=
  Path.join [cache, "pkg", "src", name]

/-- The directory of one version of a package in the cache. -/
def checkoutDirectory (cache name version : String) : String :=
  Path.join [cache, "pkg", "src", canonicalName name, pathSegment version]

end ScriptKit.Package

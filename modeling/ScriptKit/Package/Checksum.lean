import ScriptKit.Digest.Sha256
import ScriptKit.FileSystem

namespace ScriptKit.Package

/-- The directories whose contents do not count. -/
def ignoredDirectory : String := ".git"

def isIgnored (names : List String) : Bool :=
  names.dropLast.contains ignoredDirectory

/-- The files of a directory that count, by their names from there on, in the order of a walk. -/
def countedFiles (fs : FileSystem) (directory : String) : List (List String × String) :=
  if Path.name directory = ignoredDirectory then []
  else (fs.filesBelow directory).filter fun f => !isIgnored f.1

/-- The bytes of a file in a checksum: those of its path, then those of its content. -/
def fileBytes (path content : String) : List UInt8 :=
  path.toUTF8.toList ++ content.toUTF8.toList

/-- The bytes that the checksum of a file or directory is taken of. -/
def checksumBytes (fs : FileSystem) (path : String) : Except FileError (List UInt8) :=
  match fs.inspect "lstat" path with
  | .error e => .error e
  | .ok (.file content) => .ok (fileBytes "." content)
  | .ok .directory =>
    .ok ((countedFiles fs path).flatMap fun (names, content) =>
      fileBytes ("/".intercalate names) content)

def checksum (fs : FileSystem) (path : String) : Except FileError String :=
  (checksumBytes fs path).map Digest.sha256

end ScriptKit.Package

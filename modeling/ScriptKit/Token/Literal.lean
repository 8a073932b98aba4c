namespace ScriptKit.Token

/-- Resolves the escapes of a string literal: a letter n, t or r after a backslash is a control
character, any other character stands for itself, and a last backslash is kept. -/
def unescape : List Char → List Char
  | [] => []
  | ['\\'] => ['\\']
  | '\\' :: 'n' :: rest => '\n' :: unescape rest
  | '\\' :: 't' :: rest => '\t' :: unescape rest
  | '\\' :: 'r' :: rest => '\r' :: unescape rest
  | '\\' :: c :: rest => c :: unescape rest
  | c :: rest => c :: unescape rest

/-- The characters between the quotes, if the text begins and ends with one. -/
def stripQuotes : List Char → List Char
  | '"' :: c :: rest =>
    if (c :: rest).getLast? = some '"' then (c :: rest).dropLast else '"' :: c :: rest
  | s => s

/-- The text that a string literal stands for. -/
def unquote (s : String) : String :=
  String.ofList (unescape (stripQuotes s.toList))

end ScriptKit.Token

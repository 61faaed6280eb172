import CommentMarkers.Grammar.Defect

/-!
# Built-in grammars

The languages that need no grammar file.

Main results:

- Theorem `builtin_accepted`: every built-in grammar passes the checks.
-/

namespace CommentMarkers.Grammar

/-! ## Delimiters that many languages share -/

/-- A double-quoted literal in which a backslash escapes. -/
def doubleQuoted : Quote := ⟨"\"", some "\\", none⟩

/-- A single-quoted literal in which a backslash escapes. -/
def singleQuoted : Quote := ⟨"'", some "\\", none⟩

/-- The block comment between a slash with a star and a star with a slash. -/
def slashStar : BlockComment := ⟨"/*", "*/", false⟩

/-- The same block comment for languages in which it nests. -/
def nestedSlashStar : BlockComment := { slashStar with nested := true }

/-! ## Languages -/

/-- C and the languages with its comments and literals. -/
def c : Grammar :=
  { empty "c" with
    lineComments := ["//"]
    blockComments := [slashStar]
    strings := [doubleQuoted]
    chars := [singleQuoted]
    extensions := [".c", ".h", ".cc", ".cpp", ".cxx", ".hh", ".hpp", ".hxx", ".java", ".cs", ".kt",
      ".kts", ".scala", ".swift", ".m", ".mm", ".php", ".dart", ".jai"] }

/-- Go, with raw strings. -/
def go : Grammar :=
  { empty "go" with
    lineComments := ["//"]
    blockComments := [slashStar]
    strings := [doubleQuoted, .plain "`"]
    chars := [singleQuoted]
    extensions := [".go"] }

/-- JavaScript and TypeScript, with template literals. -/
def javascript : Grammar :=
  { empty "javascript" with
    lineComments := ["//"]
    blockComments := [slashStar]
    strings := [doubleQuoted, singleQuoted, ⟨"`", some "\\", none⟩]
    extensions := [".js", ".jsx", ".mjs", ".cjs", ".ts", ".tsx", ".mts", ".cts"] }

/-- Rust. A lifetime begins with an apostrophe as a character does, so characters are limited. -/
def rust : Grammar :=
  { empty "rust" with
    lineComments := ["//"]
    blockComments := [nestedSlashStar]
    strings := [doubleQuoted]
    chars := [{ singleQuoted with maxLength := some 10 }]
    extensions := [".rs"] }

/-- Zig. -/
def zig : Grammar :=
  { empty "zig" with
    lineComments := ["//"]
    strings := [doubleQuoted]
    chars := [singleQuoted]
    extensions := [".zig"] }

/-- Python. Documentation stands in triple quotes, so these count as comments. -/
def python : Grammar :=
  { empty "python" with
    lineComments := ["#"]
    blockComments := [⟨"\"\"\"", "\"\"\"", false⟩, ⟨"'''", "'''", false⟩]
    strings := [doubleQuoted, singleQuoted]
    extensions := [".py", ".pyi", ".pyw"] }

/-- Shell scripts and files with their comments. -/
def shell : Grammar :=
  { empty "shell" with
    lineComments := ["#"]
    strings := [doubleQuoted, .plain "'"]
    extensions := [".sh", ".bash", ".zsh", ".ksh", ".mk"]
    filenames := ["Makefile", "makefile", "GNUmakefile", "Dockerfile"] }

/-- Ruby. -/
def ruby : Grammar :=
  { empty "ruby" with
    lineComments := ["#"]
    blockComments := [⟨"=begin", "=end", false⟩]
    strings := [doubleQuoted, singleQuoted]
    extensions := [".rb", ".rake", ".gemspec"]
    filenames := ["Rakefile", "Gemfile"] }

/-- R. -/
def r : Grammar :=
  { empty "r" with
    lineComments := ["#"]
    strings := [doubleQuoted, singleQuoted]
    extensions := [".r"] }

/-- Lua. -/
def lua : Grammar :=
  { empty "lua" with
    lineComments := ["--"]
    blockComments := [⟨"--[[", "]]", false⟩]
    strings := [doubleQuoted, singleQuoted]
    extensions := [".lua"] }

/-- Haskell. -/
def haskell : Grammar :=
  { empty "haskell" with
    lineComments := ["--"]
    blockComments := [⟨"\x7b-", "-\x7d", true⟩]
    strings := [doubleQuoted]
    extensions := [".hs", ".lhs"] }

/-- SQL, where a doubled quote stands for one. -/
def sql : Grammar :=
  { empty "sql" with
    lineComments := ["--"]
    blockComments := [slashStar]
    strings := [⟨"'", some "'", none⟩, ⟨"\"", some "\"", none⟩]
    extensions := [".sql"] }

/-- HTML and other markup with its comments. -/
def html : Grammar :=
  { empty "html" with
    blockComments := [⟨"<!--", "-->", false⟩]
    extensions := [".html", ".htm", ".xml", ".xhtml", ".svg", ".md", ".markdown"] }

/-- Lisp and Scheme. -/
def lisp : Grammar :=
  { empty "lisp" with
    lineComments := [";"]
    blockComments := [⟨"#|", "|#", true⟩]
    strings := [doubleQuoted]
    extensions := [".lisp", ".lsp", ".cl", ".el", ".scm", ".ss"] }

/-- OCaml. -/
def ocaml : Grammar :=
  { empty "ocaml" with
    blockComments := [⟨"(*", "*)", true⟩]
    strings := [doubleQuoted]
    extensions := [".ml", ".mli"] }

/-- Assembly. -/
def asm : Grammar :=
  { empty "asm" with
    lineComments := [";"]
    strings := [doubleQuoted]
    extensions := [".asm", ".nasm"] }

/-- All built-in grammars, in the order in which they are registered. -/
def builtin : List Grammar :=
  [c, go, javascript, rust, zig, python, shell, ruby, r, lua, haskell, sql, html, lisp, ocaml, asm]

/-- Every built-in grammar passes the checks. -/
theorem builtin_accepted : ∀ grammar ∈ builtin, grammar.Accepted := by
  decide +kernel

end CommentMarkers.Grammar

/-!
# Grammars

A grammar lists the delimiters of a language's comments and literals. It is data: the scanner
knows no language, only these tables. Within each list the declared order decides which delimiter
is tried first.
-/

namespace CommentMarkers

/-- A delimiter that opens and closes a literal. -/
structure Quote where
  token : String
  /-- What makes the following byte inert. If it is the token itself, a doubled token stands for
  one token inside the literal. -/
  escape : Option String
  /-- The longest body in bytes. A quote with such a limit is code wherever it does not enclose a
  single character. -/
  maxLength : Option Int
  deriving DecidableEq, Repr

/-- A delimiter without escapes and limits. -/
def Quote.plain (token : String) : Quote := ⟨token, none, none⟩

/-- The delimiters of a block comment. -/
structure BlockComment where
  start : String
  stop : String
  /-- Whether an inner start token has to be closed by a stop token of its own. -/
  nested : Bool
  deriving DecidableEq, Repr

/-- The delimiters of a language, with the file extensions and file names that indicate it. -/
structure Grammar where
  language : String
  lineComments : List String
  blockComments : List BlockComment
  strings : List Quote
  chars : List Quote
  extensions : List String
  filenames : List String
  deriving DecidableEq, Repr

namespace Grammar

/-- A grammar without any delimiter. -/
def empty (language : String) : Grammar :=
  ⟨language, [], [], [], [], [], []⟩

/-- Two grammars are interchangeable if they differ in their file names at most. -/
def equivalent (first second : Grammar) : Bool :=
  decide ({ first with filenames := second.filenames } = second)

end Grammar

end CommentMarkers

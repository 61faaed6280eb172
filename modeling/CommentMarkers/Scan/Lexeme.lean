import CommentMarkers.Scan.Opener

/-!
# Lexemes

Scanning cuts a source into lexemes: maximal stretches of code, and whole comments and literals.
A lexeme carries its text, so the texts of all lexemes put together are the source. Where a
construct is not closed, scanning stops in front of it.

Main results:

- Theorem `nextConstruct_lt`: a construct is found inside the source.
-/

namespace CommentMarkers

/-- A piece of a source with its classification and its delimiters. -/
structure Lexeme where
  kind : SpanKind
  opener : String
  closer : String
  text : Bytes
  deriving DecidableEq, Repr

namespace Lexeme

/-- A piece of code. -/
def ofCode (text : Bytes) : Lexeme := ⟨.code, "", "", text⟩

/-- A comment or literal that was opened by `opener`. -/
def ofConstruct (opener : Opener) (text : Bytes) : Lexeme :=
  ⟨opener.kind, opener.text, opener.closer, text⟩

/-- A stretch of code as lexemes: none if it is empty. -/
def code (text : Bytes) : List Lexeme :=
  if text.isEmpty then [] else [ofCode text]

end Lexeme

/-! ## Finding constructs -/

/-- Holds if a delimiter at the beginning of the bytes is code, because it has a limit that its
literal does not keep. -/
def Opener.staysCode (opener : Opener) (bytes : Bytes) : Bool :=
  opener.closing.isBounded && (opener.closing.length? (bytes.drop opener.token.length)).isNone

/-- The length of the code in front of the next construct, and its opener. The token of a
delimiter that stays code is passed over as a whole. -/
def nextConstruct (openers : List Opener) : Bytes → Option (Nat × Opener)
  | [] => none
  | byte :: rest =>
    match opening openers (byte :: rest) with
    | none => (nextConstruct openers rest).map fun (length, opener) => (length + 1, opener)
    | some found =>
      if found.staysCode (byte :: rest) then
        (nextConstruct openers (rest.drop (found.token.length - 1))).map
          fun (length, opener) => (length + found.token.length, opener)
      else some (0, found)
termination_by bytes => bytes.length
decreasing_by all_goals simp only [List.length_drop, List.length_cons]; omega

/-- A construct is found inside the source, and its token is not empty. -/
theorem nextConstruct_lt {openers : List Opener} {bytes : Bytes} {length : Nat} {opener : Opener}
    (hnext : nextConstruct openers bytes = some (length, opener)) :
    length + opener.token.length ≤ bytes.length ∧ 0 < opener.token.length := by
  fun_induction nextConstruct openers bytes generalizing length opener with
  | case1 => simp at hnext
  | case2 byte rest _ ih =>
    obtain ⟨⟨inner, found⟩, hinner, hsame⟩ := Option.map_eq_some_iff.1 hnext
    obtain ⟨rfl, rfl⟩ := Prod.mk.inj hsame
    have hbound := ih hinner
    simp only [List.length_cons]
    omega
  | case3 byte rest rejected hopens _ ih =>
    obtain ⟨⟨inner, found⟩, hinner, hsame⟩ := Option.map_eq_some_iff.1 hnext
    obtain ⟨rfl, rfl⟩ := Prod.mk.inj hsame
    have hbound := ih hinner
    have hoccurs := token_prefix_of_opening hopens
    have hfits := hoccurs.1.length_le
    simp only [List.length_drop, List.length_cons] at hbound hfits ⊢
    omega
  | case4 byte rest found hopens _ =>
    obtain ⟨rfl, rfl⟩ := Prod.mk.inj (Option.some.inj hnext)
    have hoccurs := token_prefix_of_opening hopens
    exact ⟨by simpa using hoccurs.1.length_le, hoccurs.2⟩

/-! ## Cutting a source -/

/-- The lexemes of a source, and the opener of the construct that is not closed, if there is one.
The lexemes then reach up to that construct. -/
structure Lexing where
  lexemes : List Lexeme
  unclosed : Option Opener
  deriving DecidableEq, Repr

/-- Puts lexemes in front of a lexing. -/
def Lexing.prepend (front : List Lexeme) (lexing : Lexing) : Lexing :=
  { lexing with lexemes := front ++ lexing.lexemes }

/-- Cuts a source into lexemes. -/
def lex (openers : List Opener) (bytes : Bytes) : Lexing :=
  match _hnext : nextConstruct openers bytes with
  | none => ⟨Lexeme.code bytes, none⟩
  | some (before, opener) =>
    let code := Lexeme.code (bytes.take before)
    let construct := bytes.drop before
    let behind := construct.drop opener.token.length
    match opener.closing.length? behind with
    | none => ⟨code, some opener⟩
    | some length =>
      let text := construct.take (opener.token.length + length)
      (lex openers (behind.drop length)).prepend (code ++ [Lexeme.ofConstruct opener text])
termination_by bytes.length
decreasing_by
  have hinside := nextConstruct_lt _hnext
  simp only [List.length_drop]
  omega

end CommentMarkers

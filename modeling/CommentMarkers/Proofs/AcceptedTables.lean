import CommentMarkers.Grammar.Defect
import CommentMarkers.Proofs.Lexing
import CommentMarkers.Proofs.Results

/-!
# Accepted tables

The checks of a grammar refuse empty delimiters.  Behind the checks every opener therefore has a
token to be found by, and every construct but a line comment has one to be closed by.

Main results:

- Theorem `Grammar.Accepted.token_ne_nil`: the openers of an accepted grammar have tokens.
- Theorem `Grammar.Accepted.opening_eq`: in code the first opener opens whose token is there.
- Theorem `Grammar.Accepted.blockStop_ne_empty`: its block comments have closing delimiters.
-/

namespace CommentMarkers

namespace Grammar.Accepted

variable {grammar : Grammar}

/-- What the checks of an accepted grammar have looked at, one after the other. -/
theorem checks (haccepted : grammar.Accepted) :
    checkDelimiters grammar.language .lineComment [] grammar.lineComments = .ok () ∧
      checkDelimiters grammar.language .blockComment [] (grammar.blockComments.map (·.start)) =
        .ok () ∧
      checkDelimiters grammar.language .string [] (grammar.strings.map (·.token)) = .ok () ∧
      checkDelimiters grammar.language .char [] (grammar.chars.map (·.token)) = .ok () ∧
      ∀ block ∈ grammar.blockComments, checkBlock grammar.language block = .ok () := by
  rcases bind_eq_ok_iff.1 haccepted with ⟨_, htokens, _⟩
  unfold checkTokens at htokens
  split at htokens
  · cases htokens
  · rcases bind_eq_ok_iff.1 htokens with ⟨_, hline, htokens⟩
    rcases bind_eq_ok_iff.1 htokens with ⟨_, hblock, htokens⟩
    rcases bind_eq_ok_iff.1 htokens with ⟨_, hstring, htokens⟩
    rcases bind_eq_ok_iff.1 htokens with ⟨_, hchar, hstops⟩
    exact ⟨hline, hblock, hstring, hchar, forM_eq_ok_iff.1 hstops⟩

/-- The openers of an accepted grammar have tokens to be found by. -/
theorem token_ne_nil (haccepted : grammar.Accepted) {opener : Opener}
    (hopener : opener ∈ grammar.openers) : opener.token ≠ [] := by
  rcases haccepted.checks with ⟨hline, hblock, hstring, hchar, -⟩
  rw [(Grammar.delimiters_of_mem_openers hopener).1]
  apply Text.encode_ne_nil
  simp only [Grammar.openers, List.mem_append, List.mem_map] at hopener
  rcases hopener with ((⟨block, hmem, rfl⟩ | ⟨token, hmem, rfl⟩) | ⟨quote, hmem, rfl⟩) |
    ⟨quote, hmem, rfl⟩
  · exact (checkDelimiters_eq_ok_iff.1 hblock).1 _ (List.mem_map_of_mem hmem)
  · exact (checkDelimiters_eq_ok_iff.1 hline).1 _ hmem
  · exact (checkDelimiters_eq_ok_iff.1 hstring).1 _ (List.mem_map_of_mem hmem)
  · exact (checkDelimiters_eq_ok_iff.1 hchar).1 _ (List.mem_map_of_mem hmem)

/-- An opener of an accepted grammar occurs wherever its token is. -/
theorem occursAt_eq (haccepted : grammar.Accepted) {opener : Opener}
    (hopener : opener ∈ grammar.openers) (bytes : Bytes) :
    opener.occursAt bytes = opener.token.isPrefixOf bytes :=
  Opener.occursAt_eq (haccepted.token_ne_nil hopener) bytes

/-- In code the first opener of an accepted grammar opens whose token is there. -/
theorem opening_eq (haccepted : grammar.Accepted) (bytes : Bytes) :
    opening grammar.openers bytes = grammar.openers.find? (·.token.isPrefixOf bytes) :=
  opening_eq_find? (fun _ => haccepted.token_ne_nil) bytes

/-- The block comments of an accepted grammar have closing delimiters. -/
theorem blockStop_ne_empty (haccepted : grammar.Accepted) {block : BlockComment}
    (hblock : block ∈ grammar.blockComments) : block.stop ≠ "" := by
  rcases haccepted.checks with ⟨-, -, -, -, hstops⟩
  intro hempty
  have hcheck := hstops block hblock
  rw [checkBlock, if_pos hempty] at hcheck
  cases hcheck

/-- The constructs of an accepted grammar end with their line or with a delimiter to be found by. -/
theorem endOfLine_or_terminator_ne_nil (haccepted : grammar.Accepted) {opener : Opener}
    (hopener : opener ∈ grammar.openers) :
    opener.closing = .endOfLine ∨ opener.closing.terminator ≠ [] := by
  have htoken := haccepted.token_ne_nil hopener
  rw [(Grammar.delimiters_of_mem_openers hopener).1] at htoken
  rw [(Grammar.delimiters_of_mem_openers hopener).2]
  rcases Grammar.opener_cases hopener with
    ⟨block, hblock, rfl⟩ | ⟨text, -, rfl⟩ | ⟨quote, hquote, kind, -, rfl⟩
  · exact Or.inr (Text.encode_ne_nil (haccepted.blockStop_ne_empty hblock))
  · exact Or.inl rfl
  · exact Or.inr htoken

end Grammar.Accepted

end CommentMarkers

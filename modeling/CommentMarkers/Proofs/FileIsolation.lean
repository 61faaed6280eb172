import CommentMarkers.Workspace
import CommentMarkers.Proofs.ShortReferences
import Mathlib.Data.List.Forall2

/-!
# Files are scanned apart

Scanning several files gives the results that the files have alone, in the order of their paths.
A file that cannot be read or that is not closed has its own result for that.  A reference with
too many digits in a comment is the one thing that has no result: it stops the scan of the other
files, too.

Main results:

- Theorem `scanFiles_eq_ok_iff`: the results of several files are those of the files alone.
- Theorem `scanFiles_isolated`: they are there exactly if no file has a reference that is too long.
-/

namespace CommentMarkers.Scanner

variable {scanner : Scanner} {registry : Registry} {tree : FileTree}

/-! ## One file -/

/-- Holds if a path has a grammar. -/
def supports (scanner : Scanner) (registry : Registry) (path : String) : Bool :=
  (scanner.config.forPath registry path).isOk

/-- Holds if the comments of a file that can be scanned have short references. -/
def HasShortReferences (scanner : Scanner) (registry : Registry) (tree : FileTree)
    (path : String) : Prop :=
  ∀ grammar contents, scanner.config.forPath registry path = .ok grammar →
    tree.read path = .ok contents →
      grammar.HasShortReferences contents scanner.query.marker.bytes

/-- The references of a file that is read are those of its contents. -/
theorem hasShortReferences_iff_of_read {path : String} {grammar : Grammar} {contents : Bytes}
    (hgrammar : scanner.config.forPath registry path = .ok grammar)
    (hread : tree.read path = .ok contents) :
    scanner.HasShortReferences registry tree path ↔
      grammar.HasShortReferences contents scanner.query.marker.bytes := by
  constructor
  · intro hshort
    exact hshort grammar contents hgrammar hread
  · intro hshort other bytes hother hbytes
    rw [hgrammar] at hother
    rw [hread] at hbytes
    cases hother
    cases hbytes
    exact hshort

/-- A file without a grammar has no result for that reason. -/
theorem scanFile_of_not_supports (tree : FileTree) {path : String}
    (hunsupported : ¬ scanner.supports registry path) :
    ∃ fault, (scanner.scanFile registry tree path).value = .error (.unknownLanguage fault) := by
  unfold supports at hunsupported
  unfold scanFile
  cases hgrammar : scanner.config.forPath registry path with
  | error fault => exact ⟨fault, rfl⟩
  | ok grammar =>
      rw [hgrammar] at hunsupported
      exact absurd rfl hunsupported

/-- A file with a grammar has a result, or a reference in it is too long. -/
theorem scanFile_of_supports (tree : FileTree) {path : String}
    (hsupported : scanner.supports registry path) :
    (∃ result, (scanner.scanFile registry tree path).value = .ok result) ∧
        scanner.HasShortReferences registry tree path ∨
      (∃ fault, (scanner.scanFile registry tree path).value = .error (.issueTooLong fault)) ∧
        ¬ scanner.HasShortReferences registry tree path := by
  unfold supports at hsupported
  unfold scanFile
  cases hgrammar : scanner.config.forPath registry path with
  | error fault =>
      rw [hgrammar] at hsupported
      cases hsupported
  | ok grammar =>
      cases hread : tree.read path with
      | error fault =>
          refine Or.inl ⟨⟨_, rfl⟩, ?_⟩
          intro _ contents _ hcontents
          rw [hread] at hcontents
          cases hcontents
      | ok contents =>
          have hiff := (hasShortReferences_iff_of_read hgrammar hread).trans
            (Grammar.hasShortReferences_iff scanner.query)
          simp only [scanContents]
          cases hnotes : grammar.annotations scanner.query contents with
          | ok notes => exact Or.inl ⟨⟨_, rfl⟩, hiff.2 (by simp [hnotes])⟩
          | error fault =>
              cases fault with
              | unclosed failure => exact Or.inl ⟨⟨_, rfl⟩, hiff.2 (by simp [hnotes])⟩
              | issueTooLong fault =>
                  exact Or.inr ⟨⟨fault, rfl⟩, fun hshort => hiff.1 hshort fault hnotes⟩

/-- A file with a grammar has a result exactly if its references are short. -/
theorem hasShortReferences_iff {path : String} (hsupported : scanner.supports registry path) :
    scanner.HasShortReferences registry tree path ↔
      ∃ result, (scanner.scanFile registry tree path).value = .ok result := by
  rcases scanFile_of_supports tree hsupported with
    ⟨hresult, hshort⟩ | ⟨⟨fault, hfault⟩, hlong⟩
  · exact iff_of_true hshort hresult
  · refine iff_of_false hlong ?_
    rintro ⟨result, hresult⟩
    rw [hfault] at hresult
    cases hresult

/-! ## Several files -/

/-- The results of several files are those of the files alone, for each path with a grammar and in
the order of the paths. -/
theorem scanFiles_eq_ok_iff {paths : List String} {results : List FileResult} :
    (scanner.scanFiles registry tree paths).value = .ok results ↔
      List.Forall₂ (fun path result => (scanner.scanFile registry tree path).value = .ok result)
        (paths.filter (scanner.supports registry)) results := by
  induction paths generalizing results with
  | nil =>
      rw [scanFiles, List.filter_nil, List.forall₂_nil_left_iff, Except.ok.injEq]
      exact eq_comm
  | cons path rest ih =>
      rw [scanFiles]
      by_cases hsupported : scanner.supports registry path
      · rw [List.filter_cons_of_pos hsupported]
        rcases scanFile_of_supports tree hsupported with
          ⟨⟨result, hresult⟩, -⟩ | ⟨⟨fault, hfault⟩, -⟩
        · simp only [hresult, map_eq_ok_iff, ih, List.forall₂_cons_left_iff, Except.ok.injEq]
          constructor
          · rintro ⟨more, hmore, rfl⟩
            exact ⟨result, more, rfl, hmore, rfl⟩
          · rintro ⟨found, more, rfl, hmore, rfl⟩
            exact ⟨more, hmore, rfl⟩
        · simp [hfault, List.forall₂_cons_left_iff]
      · rw [List.filter_cons_of_neg hsupported, ← ih]
        obtain ⟨fault, hfault⟩ := scanFile_of_not_supports tree hsupported
        simp only [hfault]

/-- Several files have results if each of them has one. -/
theorem exists_forall₂_iff {α β : Type} {relation : α → β → Prop} {items : List α} :
    (∃ results, List.Forall₂ relation items results) ↔
      ∀ item ∈ items, ∃ result, relation item result := by
  induction items with
  | nil => simp
  | cons item rest ih =>
      rw [List.forall_mem_cons, ← ih]
      constructor
      · rintro ⟨results, hresults⟩
        rcases List.forall₂_cons_left_iff.1 hresults with ⟨result, more, hresult, hmore, -⟩
        exact ⟨⟨result, hresult⟩, more, hmore⟩
      · rintro ⟨⟨result, hresult⟩, more, hmore⟩
        exact ⟨result :: more, .cons hresult hmore⟩

/-- Files are scanned apart.  Scanning several files succeeds exactly if in none of those with a
grammar a comment has a reference with too many digits.  It then answers one result for each path
with a grammar, in the order of the paths: the result of that file alone, which has no annotations
if it has an error. -/
theorem scanFiles_isolated (scanner : Scanner) (registry : Registry) (tree : FileTree)
    (paths : List String) :
    ((∃ results, (scanner.scanFiles registry tree paths).value = .ok results) ↔
        ∀ path ∈ paths, scanner.HasShortReferences registry tree path) ∧
      ∀ results, (scanner.scanFiles registry tree paths).value = .ok results →
        List.Forall₂ (fun path result => (scanner.scanFile registry tree path).value = .ok result ∧
            (result.ok = false → result.annotations = []))
          (paths.filter (scanner.supports registry)) results := by
  constructor
  · simp only [scanFiles_eq_ok_iff, exists_forall₂_iff, List.mem_filter]
    constructor
    · intro hresults path hpath grammar contents hgrammar
      have hsupported : scanner.supports registry path := by
        rw [supports, hgrammar]
        rfl
      exact (hasShortReferences_iff hsupported).2 (hresults path ⟨hpath, hsupported⟩) grammar
        contents hgrammar
    · rintro hshort path ⟨hpath, hsupported⟩
      exact (hasShortReferences_iff hsupported).1 (hshort path hpath)
  · intro results hresults
    exact (scanFiles_eq_ok_iff.1 hresults).imp fun path result hresult =>
      ⟨hresult, scanFile_annotations_of_error hresult⟩

/-- A scanner for the first annotation of each comment. -/
def plain : Scanner :=
  ⟨⟨.todo, .first, false⟩, .empty, 1⟩

/-- A file that is closed, one that is not, and one with a reference that is too long. -/
def mixedTree : FileTree :=
  ⟨[(["good.c"], Text.encode "// @TODO fine\n"), (["open.c"], Text.encode "/* @TODO"),
    (["long.c"], Text.encode "// @TODO(#" ++ List.replicate 4301 49 ++ Text.encode ")\n")], []⟩

/-- A file that is not closed and one that is missing do not stop the scan, and a path without a
grammar has no result. -/
theorem scanFiles_isolated_unclosed :
    ∃ results,
      (plain.scanFiles .builtin mixedTree ["open.c", "notes", "gone.c", "good.c"]).value =
          .ok results ∧
        List.Forall₂
          (fun path result => (plain.scanFile .builtin mixedTree path).value = .ok result ∧
            (result.ok = false → result.annotations = []))
          ["open.c", "gone.c", "good.c"] results := by
  obtain ⟨hexists, hresults⟩ :=
    scanFiles_isolated plain .builtin mixedTree ["open.c", "notes", "gone.c", "good.c"]
  have hvalue : (plain.scanFiles .builtin mixedTree
      ["open.c", "notes", "gone.c", "good.c"]).value.isOk := by
    decide +kernel
  cases hscan : (plain.scanFiles .builtin mixedTree
      ["open.c", "notes", "gone.c", "good.c"]).value with
  | error fault =>
      rw [hscan] at hvalue
      cases hvalue
  | ok results =>
      have hsupported : ["open.c", "notes", "gone.c", "good.c"].filter (plain.supports .builtin) =
          ["open.c", "gone.c", "good.c"] := by
        decide +kernel
      exact ⟨results, rfl, hsupported ▸ hresults results hscan⟩

/-- A reference that is too long stops the scan of the files behind it, which have results on their
own. -/
theorem long_reference_stops_scan :
    (plain.scanFiles .builtin mixedTree ["long.c", "good.c"]).value =
        .error (.issueTooLong ⟨4301⟩) ∧
      (plain.scanFile .builtin mixedTree "good.c").value.isOk := by
  decide +kernel

end CommentMarkers.Scanner

import CommentMarkers.Grammar.Builtin
import CommentMarkers.Proofs.AnnotatedComments

/-!
# What purging deletes

Purging is meant to delete the ranges of all selected annotations.  It does so for annotations that
come from one marker, and for those of any markers if texts are not joined: the ranges of such
annotations do not contain one another.  A joined text may have a comment of another marker inside,
and then the part of it behind that comment stays.

Main results:

- Theorem `purge_of_apart`: annotations of comments that follow each other are purged completely.
- Theorem `purge_deletes_ranges`: when purging deletes the bytes of the selected ranges and no
  others.
-/

namespace CommentMarkers

variable {source : Bytes} {notes : List Annotation}

/-- Annotations of comments that follow each other are purged completely: their texts are not
joined, or all annotations are about the same marker. -/
theorem purge_of_apart (grammar : Grammar)
    (hfinds : ∀ note ∈ notes, ∃ query, grammar.Finds query source note ∧
      (query.join = false ∨ ∀ other ∈ notes, other.marker = note.marker))
    (issues : Option (List Int)) :
    purge source notes issues =
      Bytes.without source (ByteRange.covers (selectedRanges source notes issues)) := by
  refine purge_eq_without (fun note hnote => ?_) issues ?_
  · rcases hfinds note hnote with ⟨query, hquery, -⟩
    exact hquery.start_le
  · intro first hfirst second hsecond hstarts
    rcases List.mem_map.1 hfirst with ⟨note, hnote, rfl⟩
    rcases List.mem_map.1 hsecond with ⟨other, hother, rfl⟩
    rw [List.mem_filter] at hnote hother
    rcases hfinds note hnote.1 with ⟨query, hquery, hsame⟩
    rcases hfinds other hother.1 with ⟨otherQuery, hotherQuery, hotherSame⟩
    rcases hquery.inside with ⟨hinside, hsolid⟩
    rcases hotherQuery.inside with ⟨hotherInside, hotherSolid⟩
    rcases Nat.lt_trichotomy note.spanStart other.spanStart with hlt | heq | hgt
    · -- The comment of the first annotation is in front of that of the second one.
      have hmarkers : query.join = false ∨ query.marker = otherQuery.marker := by
        refine hsame.imp_right fun hmarkers => ?_
        rw [← hquery.marker, ← hotherQuery.marker, hmarkers other hother.1]
      exact (removalRange_monotone hsolid hotherSolid
        (hquery.stop_le hotherQuery hmarkers hlt) hotherInside).2
    · rw [hquery.removalRange_start_eq hotherQuery heq] at hstarts
      exact absurd hstarts (Nat.lt_irrefl _)
    · -- It cannot be behind it, since its range starts in front of the other range.
      have hmarkers : otherQuery.join = false ∨ otherQuery.marker = query.marker := by
        refine hotherSame.imp_right fun hmarkers => ?_
        rw [← hquery.marker, ← hotherQuery.marker, hmarkers note hnote.1]
      have hless := (removalRange_monotone hotherSolid hsolid
        (hotherQuery.stop_le hquery hmarkers hgt) hinside).1
      exact absurd hstarts (Nat.lt_asymm hless)

/-- Purging annotations that one query found deletes the ranges of the selected ones. -/
theorem purge_of_query {grammar : Grammar} {query : Query} {chosen : List Annotation}
    (hnotes : grammar.annotations query source = .ok notes) (hchosen : chosen ⊆ notes)
    (issues : Option (List Int)) :
    purge source chosen issues =
      Bytes.without source (ByteRange.covers (selectedRanges source chosen issues)) := by
  have hfinds : ∀ note ∈ chosen, grammar.Finds query source note :=
    fun note hnote => ⟨notes, hnotes, hchosen hnote⟩
  refine purge_of_apart grammar (fun note hnote => ⟨query, hfinds note hnote, Or.inr ?_⟩) issues
  intro other hother
  rw [(hfinds note hnote).marker, (hfinds other hother).marker]

/-- What purging deletes.  For annotations that were found in a source by any queries of one
grammar, it deletes the bytes in the ranges of the selected ones, all of them and no others, exactly
if each of these bytes also lies in a selected range that starts last at it or in front of it.  This
is so if all annotations are about the same marker, and if they were all found without joining
texts. -/
theorem purge_deletes_ranges (grammar : Grammar)
    (hfinds : ∀ note ∈ notes, ∃ query, grammar.Finds query source note)
    (issues : Option (List Int)) :
    (purge source notes issues =
          Bytes.without source (ByteRange.covers (selectedRanges source notes issues)) ↔
        ∀ offset < source.length, ∀ range ∈ selectedRanges source notes issues,
          range.contains offset = true →
            ∃ last ∈ selectedRanges source notes issues, last.contains offset = true ∧
              ∀ other ∈ selectedRanges source notes issues,
                other.start ≤ offset → other.start ≤ last.start) ∧
      ((∀ note ∈ notes, ∀ other ∈ notes, other.marker = note.marker) ∨
          (∀ note ∈ notes, ∃ query, query.join = false ∧ grammar.Finds query source note) →
        purge source notes issues =
          Bytes.without source (ByteRange.covers (selectedRanges source notes issues))) := by
  constructor
  · refine purge_eq_without_iff (fun note hnote => ?_) issues
    rcases hfinds note hnote with ⟨query, hquery⟩
    exact hquery.start_le
  · rintro (hmarkers | hunjoined)
    · refine purge_of_apart grammar (fun note hnote => ?_) issues
      rcases hfinds note hnote with ⟨query, hquery⟩
      exact ⟨query, hquery, Or.inr (hmarkers note hnote)⟩
    · refine purge_of_apart grammar (fun note hnote => ?_) issues
      rcases hunjoined note hnote with ⟨query, hjoin, hquery⟩
      exact ⟨query, hquery, Or.inl hjoin⟩

/-- A comment with a joined text and the same comment without it are both purged. -/
theorem purge_deletes_ranges_joined :
    ∃ joined alone,
      Grammar.c.Finds ⟨.todo, .first, true⟩ (Text.encode "// @TODO a\n// b\nx;\n") joined ∧
      Grammar.c.Finds ⟨.todo, .all, false⟩ (Text.encode "// @TODO a\n// b\nx;\n") alone ∧
      joined.comment = ⟨0, 15⟩ ∧ alone.comment = ⟨0, 10⟩ ∧
      purge (Text.encode "// @TODO a\n// b\nx;\n") [alone, joined] none = Text.encode "x;\n" := by
  let joined : Annotation := ⟨.todo, "a\nb", ⟨3, 1, 4⟩, .lineComment, 0, 15, none⟩
  let alone : Annotation := ⟨.todo, "a", ⟨3, 1, 4⟩, .lineComment, 0, 10, none⟩
  have hjoined :
      Grammar.c.Finds ⟨.todo, .first, true⟩ (Text.encode "// @TODO a\n// b\nx;\n") joined :=
    ⟨[joined], by decide +kernel, List.mem_singleton.2 rfl⟩
  have halone : Grammar.c.Finds ⟨.todo, .all, false⟩ (Text.encode "// @TODO a\n// b\nx;\n") alone :=
    ⟨[alone], by decide +kernel, List.mem_singleton.2 rfl⟩
  have hfinds : ∀ note ∈ [alone, joined], ∃ query,
      Grammar.c.Finds query (Text.encode "// @TODO a\n// b\nx;\n") note := by
    intro note hnote
    rcases List.mem_cons.1 hnote with rfl | hnote
    · exact ⟨_, halone⟩
    · rw [List.mem_singleton.1 hnote]
      exact ⟨_, hjoined⟩
  have hpurged := (purge_deletes_ranges .c hfinds none).2 (Or.inl (by decide +kernel))
  exact ⟨joined, alone, hjoined, halone, rfl, rfl, hpurged.trans (by decide +kernel)⟩

/-- A marker beside the usual one. -/
def Marker.note : Marker :=
  ⟨"@NOTE", by decide, by decide⟩

/-- A joined text has the comment of another marker inside.  The line behind that comment stays. -/
theorem joined_comment_keeps_line :
    ∃ inner joined,
      Grammar.c.Finds ⟨.note, .first, false⟩ (Text.encode "// @TODO a\n// @NOTE b\n// c\nx;\n")
          inner ∧
        Grammar.c.Finds ⟨.todo, .first, true⟩ (Text.encode "// @TODO a\n// @NOTE b\n// c\nx;\n")
          joined ∧
        purge (Text.encode "// @TODO a\n// @NOTE b\n// c\nx;\n") [inner, joined] none =
          Text.encode "// c\nx;\n" ∧
        Bytes.without (Text.encode "// @TODO a\n// @NOTE b\n// c\nx;\n")
            (ByteRange.covers (selectedRanges
              (Text.encode "// @TODO a\n// @NOTE b\n// c\nx;\n") [inner, joined] none)) =
          Text.encode "x;\n" := by
  refine ⟨⟨.note, "b", ⟨14, 2, 4⟩, .lineComment, 11, 21, none⟩,
    ⟨.todo, "a\n@NOTE b\nc", ⟨3, 1, 4⟩, .lineComment, 0, 26, none⟩,
    ⟨_, by decide +kernel, List.mem_singleton.2 rfl⟩,
    ⟨_, by decide +kernel, List.mem_singleton.2 rfl⟩, ?_, by decide +kernel⟩
  rw [purge, removalRanges, List.mergeSort_of_pairwise (by decide +kernel)]
  decide +kernel

end CommentMarkers

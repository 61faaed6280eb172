import CommentMarkers.Yaml.Cursor

/-!
# Scalars

A scalar is written plainly, in quotation marks, or as an indented block. In the first two forms a
line break inside is folded: it counts as a space, and further empty lines count as line breaks.

Each reader takes a cursor at the beginning of a scalar and answers its text and the place behind
it, or nothing if the scalar is malformed.

Main results:

- Theorem `readQuoted_doubledMarks`: a text on one line, between apostrophes and with each
  apostrophe in it doubled, is read back.
-/

namespace CommentMarkers.Yaml

/-! ## Folding -/

/-- What a line break counts as that is followed by the line breaks `more`. -/
def foldBreak (lineBreak : Char) (more : List Char) : List Char :=
  if lineBreak ≠ '\n' then lineBreak :: more
  else if more.isEmpty then [' ']
  else more

/-! ## Plain scalars -/

/-- The characters that begin and end flow collections and separate their items. -/
def isFlowIndicator (char : Char) : Bool :=
  char == ',' || char == '[' || char == ']' || char == '{' || char == '}'

/-- Holds if a colon in front of `next` ends a plain word. -/
def endsKey (flow : Bool) (next : Option Char) : Bool :=
  isGap next || (flow && next.any isFlowIndicator)

/-- The length of the plain word that begins the characters. -/
def plainLength (flow : Bool) : List Char → Nat
  | [] => 0
  | char :: rest =>
    if isGap (some char) then 0
    else if char == ':' && endsKey flow rest.head? then 0
    else if flow && (char == '?' || isFlowIndicator char) then 0
    else plainLength flow rest + 1

/-- The empty and indented lines in front of the next word, as line breaks; nothing if a document
starts or ends there. -/
def plainBreaks (fuel : Nat) (breaks : List Char) (cursor : Cursor) :
    Option (List Char) × Cursor :=
  match fuel with
  | 0 => (some breaks, cursor)
  | fuel + 1 =>
    if cursor.peek = some ' ' then plainBreaks fuel breaks cursor.advance
    else
      match cursor.lineBreak? with
      | none => (some breaks, cursor)
      | some (char, behind) =>
        if behind.isDocumentMark then (none, behind)
        else plainBreaks fuel (breaks ++ [char]) behind

/-- What stands between two words of a plain scalar, and the place behind it. -/
structure PlainGap where
  text : List Char
  cursor : Cursor
  /-- Whether the gap has a line break. -/
  broken : Bool

/-- Reads what stands between two words of a plain scalar. -/
def plainGap (cursor : Cursor) : PlainGap :=
  let (spaces, behind) := cursor.takeWhile (· == ' ')
  match behind.lineBreak? with
  | none => ⟨spaces, behind, false⟩
  | some (char, next) =>
    if next.isDocumentMark then ⟨[], next, true⟩
    else
      match plainBreaks next.rest.length [] next with
      | (none, stop) => ⟨[], stop, true⟩
      | (some breaks, stop) => ⟨foldBreak char breaks, stop, true⟩

/-- Reads the words of a plain scalar behind `text`; `gap` is what stands in front of the next. -/
def plainWords (fuel : Nat) (flow : Bool) (indent : Int) (text : List Char) (gap : PlainGap) :
    List Char × Cursor × Bool :=
  let stopped := (text, gap.cursor, gap.broken)
  match fuel with
  | 0 => stopped
  | fuel + 1 =>
    let length := if gap.cursor.peek = some '#' then 0 else plainLength flow gap.cursor.rest
    if length = 0 then stopped
    else
      let more := text ++ gap.text ++ gap.cursor.rest.take length
      let next := plainGap (gap.cursor.advanceBy length)
      if next.text.isEmpty || (!flow && (next.cursor.column : Int) < indent) then
        (more, next.cursor, next.broken)
      else plainWords fuel flow indent more next

/-- Reads a plain scalar whose lines are indented by `indent` at least. The last part of the answer
tells whether a line break was passed. -/
def readPlain (flow : Bool) (indent : Int) (cursor : Cursor) : List Char × Cursor × Bool :=
  plainWords (cursor.rest.length + 1) flow indent [] ⟨[], cursor, false⟩

/-! ## Quoted scalars -/

/-- The apostrophe. -/
def singleMark : Char := Char.ofNat 39

/-- The double quotation mark. -/
def doubleMark : Char := Char.ofNat 34

/-- The backslash. -/
def escapeMark : Char := Char.ofNat 92

/-- The characters that stand for another one behind a backslash. -/
def escapes : List (Char × Nat) :=
  [('0', 0), ('a', 7), ('b', 8), ('t', 9), (tab, 9), ('n', 10), ('v', 11), ('f', 12), ('r', 13),
    ('e', 27), (' ', 32), (doubleMark, 34), (escapeMark, 92), ('/', 47), ('N', 0x85), ('_', 0xA0),
    ('L', 0x2028), ('P', 0x2029)]

/-- How many hexadecimal digits follow a character behind a backslash. -/
def hexWidth? (char : Char) : Option Nat :=
  if char = 'x' then some 2
  else if char = 'u' then some 4
  else if char = 'U' then some 8
  else none

/-- The value of a hexadecimal digit. -/
def hexDigit? (char : Char) : Option Nat :=
  if char.isDigit then some (char.toNat - 48)
  else if 'a' ≤ char && char ≤ 'f' then some (char.toNat - 87)
  else if 'A' ≤ char && char ≤ 'F' then some (char.toNat - 55)
  else none

/-- The number that hexadecimal digits name. -/
def hexNumber? (digits : List Char) : Option Nat :=
  digits.foldlM (fun number digit => (hexDigit? digit).map (number * 16 + ·)) 0

/-- The empty lines inside a quoted scalar, as line breaks. A document must not start or end
there. -/
def quotedBreaks (fuel : Nat) (breaks : List Char) (cursor : Cursor) :
    Option (List Char × Cursor) :=
  match fuel with
  | 0 => none
  | fuel + 1 =>
    if cursor.isDocumentMark then none
    else
      let behind := cursor.skipWhile fun char => char == ' ' || char == tab
      match behind.lineBreak? with
      | none => some (breaks, behind)
      | some (char, next) => quotedBreaks fuel (breaks ++ [char]) next

/-- Reads an escape behind its backslash. -/
def readEscape (cursor : Cursor) : Option (List Char × Cursor) :=
  match cursor.lineBreak? with
  | some (_, next) => quotedBreaks (next.rest.length + 1) [] next
  | none => do
    let char ← cursor.peek
    match escapes.lookup char with
    | some code => return ([Char.ofNat code], cursor.advance)
    | none =>
      let width ← hexWidth? char
      let digits := (cursor.rest.drop 1).take width
      if digits.length < width then none
      else
        let code ← hexNumber? digits
        if 0x10FFFF < code then none
        else return ([Char.ofNat code], cursor.advanceBy (width + 1))

/-- Reads blanks inside a quoted scalar: a line break among them is folded. -/
def readQuotedBlanks (cursor : Cursor) : Option (List Char × Cursor) :=
  let (blanks, behind) := cursor.takeWhile fun char => char == ' ' || char == tab
  match behind.lineBreak? with
  | none => some (blanks, behind)
  | some (char, next) =>
    (quotedBreaks (next.rest.length + 1) [] next).map fun (breaks, stop) =>
      (foldBreak char breaks, stop)

/-- Reads a quoted scalar behind `text` up to its closing mark. -/
def quotedText (fuel : Nat) (mark : Char) (text : List Char) (cursor : Cursor) :
    Option (List Char × Cursor) :=
  match fuel with
  | 0 => none
  | fuel + 1 => do
    let char ← cursor.peek
    if char = mark then
      if mark = singleMark && cursor.peekAt 1 = some singleMark then
        quotedText fuel mark (text ++ [mark]) (cursor.advanceBy 2)
      else return (text, cursor.advance)
    else if mark = doubleMark && char = escapeMark then
      let (more, next) ← readEscape cursor.advance
      quotedText fuel mark (text ++ more) next
    else if isGap (some char) then
      let (more, next) ← readQuotedBlanks cursor
      quotedText fuel mark (text ++ more) next
    else quotedText fuel mark (text ++ [char]) cursor.advance

/-- Reads a quoted scalar. -/
def readQuoted (mark : Char) (cursor : Cursor) : Option (List Char × Cursor) :=
  quotedText (cursor.rest.length + 1) mark [] cursor.advance

/-! ## Texts between apostrophes -/

/-- A text as it stands between two apostrophes: each apostrophe in it is doubled. -/
def doubledMarks (text : List Char) : List Char :=
  text.flatMap fun char => if char = singleMark then [singleMark, singleMark] else [char]

/-- Holds of the blanks that may stand inside a line. -/
def isLineBlank (char : Char) : Bool :=
  char == ' ' || char == tab

private theorem isGap_iff {char : Char} :
    isGap (some char) = true ↔ isLineBlank char = true ∨ isBreak char = true := by
  simp only [isGap, isLineBlank, Option.all_some, Bool.or_eq_true]

private theorem doubledMarks_blanks {blanks : List Char}
    (hblanks : ∀ char ∈ blanks, isLineBlank char = true) (text : List Char) :
    doubledMarks (blanks ++ text) = blanks ++ doubledMarks text := by
  induction blanks with
  | nil => rfl
  | cons char rest ih =>
    obtain ⟨hblank, hmore⟩ := List.forall_mem_cons.1 hblanks
    have hplain : char ≠ singleMark := by
      rintro rfl
      cases hblank
    have hstep := ih hmore
    simp only [doubledMarks] at hstep ⊢
    rw [List.cons_append, List.flatMap_cons, if_neg hplain, hstep]
    rfl

/-- What follows the opening mark is the first character of the text, or the closing mark. -/
private theorem head?_doubledMarks (text rest : List Char) :
    (doubledMarks text ++ singleMark :: rest).head? = some (text.head?.getD singleMark) := by
  cases text with
  | nil => rfl
  | cons char more =>
    by_cases hmark : char = singleMark
    · simp [doubledMarks, hmark]
    · simp [doubledMarks, hmark]

/-- No gap follows a maximal run of blanks in a line. -/
private theorem isGap_head_dropWhile {text : List Char}
    (hunbroken : ∀ char ∈ text, isBreak char = false) :
    isGap (some ((text.dropWhile isLineBlank).head?.getD singleMark)) = false := by
  cases hhead : (text.dropWhile isLineBlank).head? with
  | none => decide
  | some next =>
    have hsolid : isLineBlank next = false := by
      simpa [hhead] using List.head?_dropWhile_not isLineBlank text
    have hline := hunbroken next
      ((List.dropWhile_sublist _).subset (List.mem_of_mem_head? (Option.mem_def.2 hhead)))
    rw [Option.getD_some, ← Bool.not_eq_true, isGap_iff]
    simp [hsolid, hline]

/-- Blanks in a quoted scalar are kept if no line break is behind them. -/
private theorem readQuotedBlanks_of_no_break {cursor : Cursor} {blanks rest : List Char}
    {next : Char} (hpassed : cursor.rest = blanks ++ rest)
    (hblank : ∀ char ∈ blanks, isLineBlank char = true) (hfollows : rest.head? = some next)
    (hsolid : isGap (some next) = false) :
    readQuotedBlanks cursor = some (blanks, cursor.advanceBy blanks.length) := by
  have hapart : isLineBlank next = false ∧ isBreak next = false := by
    simpa [isGap, isLineBlank] using hsolid
  obtain ⟨more, rfl⟩ := List.head?_eq_some_iff.1 hfollows
  have htaken : cursor.rest.takeWhile isLineBlank = blanks := by
    rw [hpassed, List.takeWhile_append_of_pos hblank]
    simp [hapart.1]
  have hword : cursor.takeWhile (fun char => char == ' ' || char == tab) =
      (blanks, cursor.advanceBy blanks.length) := by
    rw [← htaken]
    rfl
  have hstops : (cursor.advanceBy blanks.length).lineBreak? = none := by
    rw [Cursor.lineBreak?, Cursor.peek, Cursor.rest_advanceBy, hpassed, List.drop_left]
    simp [hapart.2]
  simp only [readQuotedBlanks, hword, hstops]

/-- A blank begins a run of blanks that is kept as a whole, since no line ends behind it. -/
private theorem exists_blanks {char : Char} {more rest : List Char} {cursor : Cursor}
    (hwritten : cursor.rest = doubledMarks (char :: more) ++ singleMark :: rest)
    (hunbroken : ∀ other ∈ char :: more, isBreak other = false) (hgap : isGap (some char) = true) :
    ∃ run left, run ++ left = char :: more ∧ run ≠ [] ∧
      cursor.rest = run ++ (doubledMarks left ++ singleMark :: rest) ∧
        readQuotedBlanks cursor = some (run, cursor.advanceBy run.length) ∧
          ∀ other ∈ left, isBreak other = false := by
  have hblank : isLineBlank char = true :=
    (isGap_iff.1 hgap).resolve_right (by simp [hunbroken char List.mem_cons_self])
  have hwhole := List.takeWhile_append_dropWhile (p := isLineBlank) (l := char :: more)
  have hblanks : ∀ other ∈ (char :: more).takeWhile isLineBlank, isLineBlank other = true :=
    List.all_eq_true.1 List.all_takeWhile
  have hpassed : cursor.rest = (char :: more).takeWhile isLineBlank ++
      (doubledMarks ((char :: more).dropWhile isLineBlank) ++ singleMark :: rest) := by
    rw [← List.append_assoc, ← doubledMarks_blanks hblanks, hwhole, hwritten]
  refine ⟨_, _, hwhole, by simp [hblank], hpassed, ?_, ?_⟩
  · exact readQuotedBlanks_of_no_break hpassed hblanks (head?_doubledMarks _ rest)
      (isGap_head_dropWhile hunbroken)
  · exact fun other hmem => hunbroken other ((List.dropWhile_sublist _).subset hmem)

/-- The reader goes on behind the opening mark. The induction is on the fuel: each round passes a
doubled mark, a run of blanks, or another character. -/
private theorem quotedText_doubledMarks {fuel : Nat} {text before rest : List Char}
    {cursor : Cursor} (hwritten : cursor.rest = doubledMarks text ++ singleMark :: rest)
    (henough : cursor.rest.length < fuel) (hunbroken : ∀ char ∈ text, isBreak char = false)
    (halone : rest.head? ≠ some singleMark) :
    ∃ stop, quotedText fuel singleMark before cursor = some (before ++ text, stop) ∧
      stop.rest = rest := by
  induction fuel generalizing text before cursor with
  | zero => omega
  | succ fuel ih =>
    have hfirst : cursor.peek = some (text.head?.getD singleMark) := by
      rw [Cursor.peek, hwritten, head?_doubledMarks]
    have hround : ∀ {part left : List Char} (read : List Char),
        cursor.rest = part ++ (doubledMarks left ++ singleMark :: rest) → part ≠ [] →
          (∀ char ∈ left, isBreak char = false) →
            ∃ stop, quotedText fuel singleMark (before ++ read) (cursor.advanceBy part.length) =
              some (before ++ (read ++ left), stop) ∧ stop.rest = rest := by
      intro part left read hpassed hmoves hsmooth
      have hbehind : (cursor.advanceBy part.length).rest =
          doubledMarks left ++ singleMark :: rest := by
        rw [Cursor.rest_advanceBy, hpassed, List.drop_left]
      have hshorter : (cursor.advanceBy part.length).rest.length < fuel := by
        have hmoved := List.length_pos_iff.2 hmoves
        rw [Cursor.rest_advanceBy, List.length_drop]
        rw [hpassed, List.length_append] at henough ⊢
        omega
      rw [← List.append_assoc]
      exact ih hbehind hshorter hsmooth
    unfold quotedText
    rw [hfirst]
    cases text with
    | nil =>
      have hnext : cursor.peekAt 1 = rest.head? := by
        rw [Cursor.peekAt, hwritten]
        exact List.head?_eq_getElem?.symm
      refine ⟨cursor.advanceBy 1, ?_, ?_⟩
      · simp [hnext, halone, Cursor.advanceBy]
      · rw [Cursor.rest_advanceBy, hwritten]
        rfl
    | cons char more =>
      have hothers := (List.forall_mem_cons.1 hunbroken).2
      have hsingle : singleMark ≠ doubleMark := by decide
      by_cases hmark : char = singleMark
      · subst hmark
        have hdoubled : cursor.rest =
            [singleMark, singleMark] ++ (doubledMarks more ++ singleMark :: rest) := by
          simpa [doubledMarks] using hwritten
        have hsecond : cursor.peekAt 1 = some singleMark := by
          rw [Cursor.peekAt, hdoubled]
          rfl
        simpa [hsecond] using hround [singleMark] hdoubled (by simp) hothers
      · by_cases hgap : isGap (some char) = true
        · obtain ⟨run, left, hwhole, hmoves, hpassed, hreads, hsmooth⟩ :=
            exists_blanks hwritten hunbroken hgap
          simpa [hmark, hsingle, hgap, hreads, hwhole] using hround run hpassed hmoves hsmooth
        · have hplain : cursor.rest = [char] ++ (doubledMarks more ++ singleMark :: rest) := by
            simpa [doubledMarks, hmark] using hwritten
          have hread := hround [char] hplain (by simp) hothers
          simpa [hmark, hsingle, hgap, Cursor.advanceBy] using hread

/-- A text on one line, between apostrophes and with each apostrophe in it doubled, is read back. A
further apostrophe behind it would not close it. -/
theorem readQuoted_doubledMarks {text rest : List Char} {cursor : Cursor}
    (hwritten : cursor.rest = singleMark :: (doubledMarks text ++ singleMark :: rest))
    (hunbroken : ∀ char ∈ text, isBreak char = false) (halone : rest.head? ≠ some singleMark) :
    ∃ stop, readQuoted singleMark cursor = some (text, stop) ∧ stop.rest = rest := by
  have hbehind : cursor.advance.rest = doubledMarks text ++ singleMark :: rest := by
    have hmoved := Cursor.rest_advanceBy cursor 1
    rw [hwritten] at hmoved
    exact hmoved
  have henough : cursor.advance.rest.length < cursor.rest.length + 1 := by
    rw [hbehind, hwritten, List.length_cons]
    omega
  exact quotedText_doubledMarks hbehind henough hunbroken halone

/-! ## Block scalars -/

/-- What becomes of the line breaks at the end of a block. -/
inductive Chomping where
  | strip
  | clip
  | keep
  deriving DecidableEq, Repr

/-- The chomping that a character asks for. -/
def chomping? : Option Char → Option Chomping
  | some '+' => some .keep
  | some '-' => some .strip
  | _ => none

/-- The additional indentation that a character asks for. -/
def increment? (char : Option Char) : Option Nat :=
  (char.filter (·.isDigit)).map fun char => char.toNat - 48

/-- The header of a block scalar. -/
structure BlockHeader where
  chomping : Chomping
  increment : Option Nat
  cursor : Cursor

/-- Reads the header of a block scalar up to the end of its line. -/
def readBlockHeader (cursor : Cursor) : Option BlockHeader := do
  let (chomping, increment, behind) :=
    match chomping? cursor.peek with
    | some chomping =>
      match increment? (cursor.peekAt 1) with
      | some increment => (some chomping, some increment, cursor.advanceBy 2)
      | none => (some chomping, none, cursor.advance)
    | none =>
      match increment? cursor.peek with
      | some increment =>
        match chomping? (cursor.peekAt 1) with
        | some chomping => (some chomping, some increment, cursor.advanceBy 2)
        | none => (none, some increment, cursor.advance)
      | none => (none, none, cursor)
  if increment = some 0 || !(behind.peek = some ' ' || endsLine behind.peek) then none
  else
    let spaced := behind.skipWhile (· == ' ')
    let stop := if spaced.peek = some '#' then spaced.skipLine else spaced
    if !endsLine stop.peek then none
    else
      let next := (stop.lineBreak?.map (·.2)).getD stop
      return ⟨chomping.getD .clip, increment, next⟩

/-- The empty lines in front of a block, as line breaks, and the largest indentation found. -/
def leadingBreaks (fuel : Nat) (breaks : List Char) (widest : Nat) (cursor : Cursor) :
    List Char × Nat × Cursor :=
  match fuel with
  | 0 => (breaks, widest, cursor)
  | fuel + 1 =>
    match cursor.lineBreak? with
    | some (char, next) => leadingBreaks fuel (breaks ++ [char]) widest next
    | none =>
      if cursor.peek = some ' ' then
        leadingBreaks fuel breaks (max widest cursor.advance.column) cursor.advance
      else (breaks, widest, cursor)

/-- Passes spaces up to the column `indent`. -/
def skipIndent (fuel : Nat) (indent : Nat) (cursor : Cursor) : Cursor :=
  match fuel with
  | 0 => cursor
  | fuel + 1 =>
    if cursor.column < indent && cursor.peek = some ' ' then skipIndent fuel indent cursor.advance
    else cursor

/-- The empty lines between two lines of a block, as line breaks. -/
def blockBreaks (fuel : Nat) (indent : Nat) (breaks : List Char) (cursor : Cursor) :
    List Char × Cursor :=
  let inside := skipIndent indent indent cursor
  match fuel with
  | 0 => (breaks, inside)
  | fuel + 1 =>
    match inside.lineBreak? with
    | some (char, next) => blockBreaks fuel indent (breaks ++ [char]) next
    | none => (breaks, inside)

/-- The text of a block so far: the last line break and the empty lines behind it are held back
until another line follows. -/
structure BlockText where
  text : List Char
  lineBreak : List Char
  breaks : List Char
  cursor : Cursor

/-- Reads the lines of a block. -/
def blockLines (fuel : Nat) (folded : Bool) (indent : Nat) (block : BlockText) : BlockText :=
  match fuel with
  | 0 => block
  | fuel + 1 =>
    let cursor := block.cursor
    if cursor.column ≠ indent || cursor.peek.isNone then block
    else
      let solid := !(cursor.peek = some ' ' || cursor.peek = some tab)
      let (line, stop) := cursor.takeWhile fun char => !isBreak char
      let text := block.text ++ block.breaks ++ line
      let (lineBreak, next) :=
        match stop.lineBreak? with
        | some (char, next) => ([char], next)
        | none => ([], stop)
      let (breaks, behind) := blockBreaks next.rest.length indent [] next
      if behind.column ≠ indent || behind.peek.isNone then ⟨text, lineBreak, breaks, behind⟩
      else
        let solidNext := !(behind.peek = some ' ' || behind.peek = some tab)
        let joint :=
          if folded && lineBreak = ['\n'] && solid && solidNext then
            if breaks.isEmpty then [' '] else []
          else lineBreak
        blockLines fuel folded indent ⟨text ++ joint, lineBreak, breaks, behind⟩

/-- Reads a block scalar behind its indicator, inside a collection indented by `parent`. -/
def readBlock (folded : Bool) (parent : Int) (cursor : Cursor) : Option (List Char × Cursor) := do
  let header ← readBlockHeader cursor
  let least := (max (parent + 1) 1).toNat
  let fuel := header.cursor.rest.length + 1
  let (breaks, indent, start) :=
    match header.increment with
    | some increment =>
      let indent := least + increment - 1
      let (breaks, start) := blockBreaks fuel indent [] header.cursor
      (breaks, indent, start)
    | none =>
      let (breaks, widest, start) := leadingBreaks fuel [] 0 header.cursor
      (breaks, max least widest, start)
  let block := blockLines fuel folded indent ⟨[], [], breaks, start⟩
  let ending :=
    match header.chomping with
    | .strip => []
    | .clip => block.lineBreak
    | .keep => block.lineBreak ++ block.breaks
  return (block.text ++ ending, block.cursor)

end CommentMarkers.Yaml

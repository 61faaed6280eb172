import CommentMarkers.Grammar.Builtin
import CommentMarkers.Proofs.AcceptedTables
import CommentMarkers.Proofs.Modes

/-!
# The byte machine

A scanner can also be described as a machine that walks over the source once.  It is in code or
inside one construct, looks at what begins at its place, and steps over one token or one byte.
This file defines that machine and proves that the search of `Grammar.scan` does what it does.

A literal with a limit leaves a choice.  The search looks for its end in a window of the limit and
one token, and an escape that the window cuts short is no escape for it.  `Closing.windowedMode`
follows this reading; `Closing.plainMode` uses the limit only to decide whether the literal opens,
and then reads escapes as in every other literal.

Main results:

- Theorem `runs_inside_iff`: the machine leaves a construct where its closing rule says.
- Theorem `runs_windowed_iff`: with windows the machine halts with the outcome of the search.
- Theorem `scan_matches_machine`: so it does on every source, and without windows exactly if every
  limited literal ends where it would end without its limit.
-/

namespace CommentMarkers

/-! ## States -/

/-- Where a machine is: in code, or inside the construct of an opener. -/
inductive Phase where
  | code
  | inside (opener : Opener) (mode : Mode)
  deriving DecidableEq, Repr

/-- A machine: the place where its span began, its own place, and what lies behind that. -/
structure Machine where
  phase : Phase
  start : Position
  place : Position
  rest : Bytes
  deriving DecidableEq, Repr

/-! ## Steps -/

/-- What a machine does next: it emits spans and goes on, or it halts with the last ones. -/
inductive Step where
  | next (emitted : List Span) (machine : Machine)
  | halt (scan : Scan)
  deriving DecidableEq, Repr

namespace Machine

/-- The machine in front of a source. -/
def initial (source : Bytes) : Machine :=
  ⟨.code, .first, .first, source⟩

/-- The machine behind the next `count` bytes. -/
def skip (machine : Machine) (count : Nat) : Machine :=
  { machine with
    place := machine.place.advance (machine.rest.take count)
    rest := machine.rest.drop count }

/-- The span that reaches from where it began to the machine. -/
def span (machine : Machine) (kind : SpanKind) (opener closer : String) : Span where
  kind := kind
  start := machine.start.offset
  stop := machine.place.offset
  line := machine.start.line
  column := machine.start.column
  opener := opener
  closer := closer

/-- The code behind the last construct: no span if there is none. -/
def pending (machine : Machine) : List Span :=
  if machine.start.offset < machine.place.offset then [machine.span .code "" ""] else []

/-- The step of a machine in code.  The first opener that occurs opens its construct, or is code
as a whole if it has a limit that its literal does not keep. -/
def codeStep (grammar : Grammar) (enter : Closing → Mode) (machine : Machine) : Step :=
  if machine.rest.isEmpty then .halt ⟨machine.pending, none⟩
  else
    match grammar.openers.find? (·.token.isPrefixOf machine.rest) with
    | none => .next [] (machine.skip 1)
    | some opener =>
      if opener.staysCode machine.rest then .next [] (machine.skip opener.token.length)
      else
        .next machine.pending
          { machine.skip opener.token.length with
            phase := .inside opener (enter opener.closing)
            start := machine.place }

/-- The step of a machine inside a construct. -/
def insideStep (machine : Machine) (opener : Opener) (mode : Mode) : Step :=
  match mode.move machine.rest with
  | .stay count mode => .next [] { machine.skip count with phase := .inside opener mode }
  | .close count =>
    let behind := machine.skip count
    .next [behind.span opener.kind opener.text opener.closer]
      { behind with phase := .code, start := behind.place }
  | .stuck => .halt ⟨[], some (opener.unclosedAt machine.start)⟩

/-- One step of a machine. -/
def step (grammar : Grammar) (enter : Closing → Mode) (machine : Machine) : Step :=
  match machine.phase with
  | .code => machine.codeStep grammar enter
  | .inside opener mode => machine.insideStep opener mode

/-- A machine runs step by step until it halts; the outcome is all that it has emitted. -/
inductive Runs (grammar : Grammar) (enter : Closing → Mode) : Machine → Scan → Prop where
  | halt {machine : Machine} {scan : Scan} (hstep : machine.step grammar enter = .halt scan) :
      Runs grammar enter machine scan
  | next {machine behind : Machine} {emitted : List Span} {scan : Scan}
      (hstep : machine.step grammar enter = .next emitted behind)
      (hrest : Runs grammar enter behind scan) :
      Runs grammar enter machine (scan.prepend emitted)

variable {grammar : Grammar} {enter : Closing → Mode}

/-- A machine that halts has only the outcome it halts with. -/
theorem runs_iff_of_halt {machine : Machine} {outcome : Scan}
    (hstep : machine.step grammar enter = .halt outcome) (scan : Scan) :
    Runs grammar enter machine scan ↔ scan = outcome := by
  constructor
  · intro hruns
    cases hruns with
    | halt hother =>
        rw [hstep] at hother
        exact (Step.halt.inj hother).symm
    | next hother hrest =>
        rw [hstep] at hother
        cases hother
  · rintro rfl
    exact .halt hstep

/-- The outcome of a machine is what a step emits in front of the outcome behind that step. -/
theorem runs_iff_of_next {machine behind : Machine} {emitted : List Span}
    (hstep : machine.step grammar enter = .next emitted behind) (scan : Scan) :
    Runs grammar enter machine scan ↔
      ∃ later, Runs grammar enter behind later ∧ scan = later.prepend emitted := by
  constructor
  · intro hruns
    cases hruns with
    | halt hother =>
        rw [hstep] at hother
        cases hother
    | next hother hrest =>
        rw [hstep] at hother
        rcases Step.next.inj hother with ⟨rfl, rfl⟩
        exact ⟨_, hrest, rfl⟩
  · rintro ⟨later, hrest, rfl⟩
    exact .next hstep hrest

/-- A step that emits nothing does not change the outcome. -/
theorem runs_iff_of_silent {machine behind : Machine}
    (hstep : machine.step grammar enter = .next [] behind) (scan : Scan) :
    Runs grammar enter machine scan ↔ Runs grammar enter behind scan := by
  rw [runs_iff_of_next hstep]
  constructor
  · rintro ⟨later, hrest, rfl⟩
    exact hrest
  · intro hrest
    exact ⟨scan, hrest, rfl⟩

/-- Skipping nothing changes nothing. -/
@[simp]
theorem skip_zero (machine : Machine) : machine.skip 0 = machine :=
  rfl

/-- Skipping twice is skipping once. -/
theorem skip_skip (machine : Machine) (first second : Nat) :
    (machine.skip first).skip second = machine.skip (first + second) := by
  simp only [skip, List.drop_drop, List.take_add, Position.advance_append]

end Machine

/-! ## Where the machine leaves a construct -/

namespace Machine

variable {grammar : Grammar} {enter : Closing → Mode}

/-- The machine behind the next `count` bytes, which end its construct. -/
def leave (machine : Machine) (count : Nat) : Machine :=
  { machine.skip count with phase := .code, start := (machine.skip count).place }

/-- The machine leaves a construct where the rule of its mode says, and halts if it says nothing. -/
theorem runs_inside_iff (machine : Machine) {opener : Opener} {mode : Mode}
    (hphase : machine.phase = .inside opener mode) (hproper : mode.Proper) (scan : Scan) :
    Runs grammar enter machine scan ↔
      match mode.length? machine.rest with
      | some length =>
        ∃ later, Runs grammar enter (machine.leave length) later ∧
          scan = later.prepend
            [(machine.skip length).span opener.kind opener.text opener.closer]
      | none => scan = ⟨[], some (opener.unclosedAt machine.start)⟩ := by
  have hagrees := hproper.move_agrees machine.rest
  cases hmove : mode.move machine.rest with
  | stay count behind =>
      rw [hmove] at hagrees
      rcases hagrees with ⟨hpos, hfits, hbehind, hlength⟩
      have hstep : machine.step grammar enter =
          .next [] { machine.skip count with phase := .inside opener behind } := by
        simp only [step, hphase, insideStep, hmove]
      have hshorter : (machine.rest.drop count).length < machine.rest.length := by
        rw [List.length_drop]
        omega
      have hrest := runs_inside_iff
        { machine.skip count with phase := .inside opener behind } rfl hbehind scan
      rw [runs_iff_of_silent hstep, hrest, hlength]
      simp only [skip]
      cases behind.length? (machine.rest.drop count) with
      | none => rfl
      | some length =>
          simp only [Option.map_some, leave, skip, span, List.drop_drop, Nat.add_comm length,
            List.take_add, Position.advance_append]
  | close count =>
      rw [hmove] at hagrees
      have hlength : mode.length? machine.rest = some count := hagrees
      have hstep : machine.step grammar enter =
          .next [(machine.skip count).span opener.kind opener.text opener.closer]
            (machine.leave count) := by
        simp only [step, hphase, insideStep, hmove, leave]
      rw [runs_iff_of_next hstep, hlength]
  | stuck =>
      rw [hmove] at hagrees
      have hlength : mode.length? machine.rest = none := hagrees
      have hstep : machine.step grammar enter =
          .halt ⟨[], some (opener.unclosedAt machine.start)⟩ := by
        simp only [step, hphase, insideStep, hmove]
      rw [runs_iff_of_halt hstep, hlength]
termination_by machine.rest.length

/-! ## Where the machine enters a construct -/

/-- The machine at the token of an opener, behind its step into the construct. -/
def enterAt (machine : Machine) (opener : Opener) (mode : Mode) : Machine :=
  { machine.skip opener.token.length with phase := .inside opener mode, start := machine.place }

/-- The machine passes over the code in front of the next construct and enters that construct. -/
theorem runs_code_iff (htokens : ∀ opener ∈ grammar.openers, opener.token ≠ [])
    (machine : Machine) (hphase : machine.phase = .code) (scan : Scan) :
    Runs grammar enter machine scan ↔
      match nextConstruct grammar.openers machine.rest with
      | none => scan = ⟨(machine.skip machine.rest.length).pending, none⟩
      | some (before, opener) =>
        ∃ later, Runs grammar enter
            ((machine.skip before).enterAt opener (enter opener.closing)) later ∧
          scan = later.prepend (machine.skip before).pending := by
  generalize hbytes : machine.rest = bytes
  fun_induction nextConstruct grammar.openers bytes generalizing machine with
  | case1 =>
      have hstep : machine.step grammar enter = .halt ⟨machine.pending, none⟩ := by
        simp only [step, hphase, codeStep, hbytes, List.isEmpty_nil, if_true]
      rw [runs_iff_of_halt hstep, List.length_nil, skip_zero]
  | case2 byte rest hopening ih =>
      have hstep : machine.step grammar enter = .next [] (machine.skip 1) := by
        rw [opening_eq_find? htokens] at hopening
        simp only [step, hphase, codeStep, hbytes, List.isEmpty_cons, Bool.false_eq_true, if_false,
          hopening]
      have hrest : (machine.skip 1).rest = rest := by
        simp only [skip, hbytes, List.drop_succ_cons, List.drop_zero]
      rw [runs_iff_of_silent hstep, ih (machine.skip 1) hphase hrest]
      cases nextConstruct grammar.openers rest with
      | none => simp only [Option.map_none, skip_skip, List.length_cons, Nat.add_comm 1]
      | some found => simp only [Option.map_some, skip_skip, Nat.add_comm 1]
  | case3 byte rest rejected hopening hstays ih =>
      have htoken := (token_prefix_of_opening hopening).2
      have hstep : machine.step grammar enter =
          .next [] (machine.skip rejected.token.length) := by
        rw [opening_eq_find? htokens] at hopening
        simp only [step, hphase, codeStep, hbytes, List.isEmpty_cons, Bool.false_eq_true, if_false,
          hopening, hstays, if_true]
      have hrest : (machine.skip rejected.token.length).rest =
          rest.drop (rejected.token.length - 1) := by
        simp only [skip, hbytes]
        rw [← drop_max_one byte rest, Nat.max_eq_right htoken]
      rw [runs_iff_of_silent hstep,
        ih (machine.skip rejected.token.length) hphase hrest]
      cases nextConstruct grammar.openers (rest.drop (rejected.token.length - 1)) with
      | none =>
          have hfits := (token_prefix_of_opening hopening).1.length_le
          have hall : rejected.token.length + (rest.drop (rejected.token.length - 1)).length =
              (byte :: rest).length := by
            rw [List.length_drop, List.length_cons]
            rw [List.length_cons] at hfits
            omega
          simp only [Option.map_none, skip_skip, hall]
      | some found => simp only [Option.map_some, skip_skip, Nat.add_comm rejected.token.length]
  | case4 byte rest found hopening hstays =>
      have hstep : machine.step grammar enter =
          .next machine.pending (machine.enterAt found (enter found.closing)) := by
        rw [opening_eq_find? htokens] at hopening
        simp only [step, hphase, codeStep, hbytes, List.isEmpty_cons, Bool.false_eq_true, if_false,
          hopening, hstays, enterAt]
      rw [runs_iff_of_next hstep]
      rfl

end Machine

/-! ## Modes of openers -/

/-- The modes of the openers of an accepted grammar have tokens. -/
theorem Grammar.Accepted.windowedMode_proper {grammar : Grammar} (haccepted : grammar.Accepted)
    {opener : Opener} (hopener : opener ∈ grammar.openers) :
    opener.closing.windowedMode.Proper := by
  have htoken := haccepted.token_ne_nil hopener
  simp only [Grammar.openers, List.mem_append, List.mem_map] at hopener
  rcases hopener with ((⟨block, hblock, rfl⟩ | ⟨token, -, rfl⟩) | ⟨quote, -, rfl⟩) |
    ⟨quote, -, rfl⟩
  · have hstop := Text.encode_ne_nil (haccepted.blockStop_ne_empty hblock)
    cases hnested : block.nested with
    | false => simp [Opener.ofBlock, hnested, Closing.windowedMode, Mode.Proper]
    | true => simpa [Opener.ofBlock, hnested, Closing.windowedMode, Mode.Proper, hstop] using htoken
  · trivial
  all_goals
    cases hlimit : quote.maxLength with
    | none =>
        simpa [Opener.ofQuote, Opener.closingOfQuote, hlimit, Closing.windowedMode, Mode.Proper]
          using htoken
    | some limit =>
        simpa [Opener.ofQuote, Opener.closingOfQuote, hlimit, Closing.windowedMode, Mode.Proper]
          using htoken

/-- Leaving the window away keeps the tokens of a mode. -/
theorem Closing.plainMode_proper {closing : Closing} (hproper : closing.windowedMode.Proper) :
    closing.plainMode.Proper := by
  cases closing <;> exact hproper

/-- A construct that opens ends where its window says. -/
theorem Opener.windowedMode_length? {opener : Opener} {tail : Bytes}
    (hopens : opener.staysCode (opener.token ++ tail) = false) :
    opener.closing.windowedMode.length? tail = opener.closing.length? tail := by
  unfold staysCode at hopens
  rw [List.drop_left] at hopens
  cases hclosing : opener.closing with
  | endOfLine => rfl
  | block stop => rfl
  | nestedBlock start stop => rfl
  | quote token escape => rfl
  | boundedQuote token escape limit =>
      rw [hclosing] at hopens
      cases hlength : (Closing.boundedQuote token escape limit).length? tail with
      | none => simp [hlength, Closing.isBounded] at hopens
      | some length => exact closeQuote_of_closeBounded hlength

/-- A construct that opens and is not closed is not closed without its window either. -/
theorem Opener.plainMode_length?_eq_none {opener : Opener} {tail : Bytes}
    (hopens : opener.staysCode (opener.token ++ tail) = false)
    (hopen : opener.closing.length? tail = none) :
    opener.closing.plainMode.length? tail = none := by
  unfold staysCode at hopens
  rw [List.drop_left, hopen] at hopens
  cases hclosing : opener.closing with
  | boundedQuote token escape limit => simp [hclosing, Closing.isBounded] at hopens
  | endOfLine | block _ | nestedBlock _ _ | quote _ _ =>
      rw [hclosing] at hopen
      exact hopen

/-- A construct ends at the same byte without its window exactly if, in case it has a limit, the
search without the limit ends there. -/
theorem Opener.plainMode_length?_iff {opener : Opener} {tail : Bytes} {length : Nat}
    (hclosed : opener.closing.length? tail = some length) :
    opener.closing.plainMode.length? tail = some length ↔
      ∀ token escape limit, opener.closing = .boundedQuote token escape limit →
        closeQuote token escape tail = some length := by
  cases hclosing : opener.closing with
  | boundedQuote token escape limit =>
      constructor
      · intro hplain _ _ _ hsame
        cases hsame
        exact hplain
      · intro hlimited
        exact hlimited token escape limit rfl
  | endOfLine | block _ | nestedBlock _ _ | quote _ _ =>
      rw [hclosing] at hclosed
      constructor
      · intro _ _ _ _ hsame
        cases hsame
      · intro _
        exact hclosed

/-! ## The machine and the search -/

namespace Machine

variable {grammar : Grammar}

/-- The pending code of a machine is the span of that code, if there is any. -/
theorem pending_eq (phase : Phase) (start : Position) (code rest : Bytes) :
    (⟨phase, start, start.advance code, rest⟩ : Machine).pending =
      placeSpans start (Lexeme.code code) := by
  cases code with
  | nil => simp [pending, Lexeme.code, placeSpans, Position.advance]
  | cons byte code =>
      have hoffset := Position.offset_advance start (byte :: code)
      rw [List.length_cons] at hoffset
      rw [pending, if_pos (by simp only; omega)]
      simp [Lexeme.code, placeSpans, Lexeme.spanAt, Lexeme.ofCode, span, hoffset]

/-- The span that is emitted behind a construct is the one of that construct. -/
theorem construct_span (phase : Phase) (start : Position) (opener : Opener) (inner rest : Bytes) :
    [(⟨phase, start, (start.advance opener.token).advance inner, rest⟩ : Machine).span opener.kind
      opener.text opener.closer] =
      placeSpans start [Lexeme.ofConstruct opener (opener.token ++ inner)] := by
  simp only [placeSpans, Lexeme.spanAt, Lexeme.ofConstruct, span, Position.offset_advance,
    List.length_append, Nat.add_assoc]

/-- One round of the machine: it passes over the code in front of the next construct and through
that construct, and emits both. -/
theorem runs_round_iff (htokens : ∀ opener ∈ grammar.openers, opener.token ≠ [])
    {enter : Closing → Mode} {code tail : Bytes} {opener : Opener}
    (hnext : nextConstruct grammar.openers (code ++ (opener.token ++ tail)) =
      some (code.length, opener))
    (hproper : (enter opener.closing).Proper) (place : Position) (scan : Scan) :
    Runs grammar enter ⟨.code, place, place, code ++ (opener.token ++ tail)⟩ scan ↔
      match (enter opener.closing).length? tail with
      | some length =>
        let construct := opener.token ++ tail.take length
        let behind := place.advance (code ++ construct)
        ∃ later, Runs grammar enter ⟨.code, behind, behind, tail.drop length⟩ later ∧
          scan = later.prepend
            (placeSpans place (Lexeme.code code ++ [Lexeme.ofConstruct opener construct]))
      | none => scan = (⟨Lexeme.code code, some opener⟩ : Lexing).scanFrom place := by
  rw [runs_code_iff htokens _ rfl]
  have hfront : (⟨.code, place, place, code ++ (opener.token ++ tail)⟩ : Machine).skip code.length =
      ⟨.code, place, place.advance code, opener.token ++ tail⟩ := by
    simp only [skip, List.drop_left, List.take_left]
  simp only [hnext, hfront, pending_eq]
  have hinside := fun later => @runs_inside_iff grammar enter
    ((⟨.code, place, place.advance code, opener.token ++ tail⟩ : Machine).enterAt opener
      (enter opener.closing)) opener _ rfl hproper later
  simp only [hinside]
  simp only [enterAt, skip, List.drop_left, List.take_left]
  cases (enter opener.closing).length? tail with
  | none =>
      constructor
      · rintro ⟨later, rfl, rfl⟩
        simp [Scan.prepend, Lexing.scanFrom, placeBehind_eq]
      · rintro rfl
        exact ⟨_, rfl, by simp [Scan.prepend, Lexing.scanFrom, placeBehind_eq]⟩
  | some length =>
      simp only [leave, skip, placeSpans_append, textOf_code, Position.advance_append]
      have hemitted : ∀ later : Scan,
          (later.prepend (placeSpans (place.advance code)
            [Lexeme.ofConstruct opener (opener.token ++ tail.take length)])).prepend
              (placeSpans place (Lexeme.code code)) =
          later.prepend (placeSpans place (Lexeme.code code) ++
            placeSpans (place.advance code)
              [Lexeme.ofConstruct opener (opener.token ++ tail.take length)]) := by
        intro later
        simp only [Scan.prepend, List.append_assoc]
      simp only [construct_span, ← hemitted]
      constructor
      · rintro ⟨_, ⟨later, hlater, rfl⟩, rfl⟩
        exact ⟨later, hlater, rfl⟩
      · rintro ⟨later, hlater, rfl⟩
        exact ⟨_, ⟨later, hlater, rfl⟩, rfl⟩

/-- With windows the machine halts with the outcome of the search. -/
theorem runs_windowed_iff (haccepted : grammar.Accepted) {bytes : Bytes} {lexing : Lexing}
    (hlexes : Lexes grammar.openers bytes lexing) (place : Position) (scan : Scan) :
    Runs grammar Closing.windowedMode ⟨.code, place, place, bytes⟩ scan ↔
      scan = lexing.scanFrom place := by
  have htokens : ∀ opener ∈ grammar.openers, opener.token ≠ [] :=
    fun _ => haccepted.token_ne_nil
  induction hlexes generalizing place scan with
  | code bytes hnext =>
      rw [runs_code_iff htokens _ rfl]
      simp only [hnext, skip, List.take_length]
      rw [pending_eq]
      rfl
  | unclosed code tail opener hnext hopen =>
      have hopens := (opening_of_nextConstruct hnext).2
      have hproper := haccepted.windowedMode_proper (mem_of_nextConstruct hnext)
      rw [runs_round_iff htokens hnext hproper, Opener.windowedMode_length? hopens, hopen]
  | closed code inner rest opener lexing hnext hclosed hrest ih =>
      have hopens := (opening_of_nextConstruct hnext).2
      have hproper := haccepted.windowedMode_proper (mem_of_nextConstruct hnext)
      rw [runs_round_iff htokens hnext hproper, Opener.windowedMode_length? hopens, hclosed,
        Lexing.scanFrom_prepend]
      simp only [List.take_left, List.drop_left, ih, exists_eq_left, textOf_append, textOf_code,
        textOf_cons, textOf_nil, List.append_nil, Lexeme.text_ofConstruct]

end Machine

/-! ## Limits -/

/-- Holds if every limited literal of a scan ends where it would end without its limit. -/
def Grammar.EndsWithoutLimits (grammar : Grammar) (source : Bytes) (spans : List Span) : Prop :=
  ∀ span ∈ spans, span.kind ≠ .code →
    ∀ opener token escape limit, opening grammar.openers (source.drop span.start) = some opener →
      opener.closing = .boundedQuote token escape limit →
        closeQuote token escape (source.drop (span.start + opener.token.length)) =
          some (span.stop - (span.start + opener.token.length))

/-- Code says nothing about limits. -/
theorem Grammar.endsWithoutLimits_append_code {grammar : Grammar} (source : Bytes)
    (place : Position) (code : Bytes) (spans : List Span) :
    grammar.EndsWithoutLimits source (placeSpans place (Lexeme.code code) ++ spans) ↔
      grammar.EndsWithoutLimits source spans := by
  cases code with
  | nil => simp [Lexeme.code, placeSpans]
  | cons byte code =>
      simp [Lexeme.code, placeSpans, Lexeme.spanAt, Lexeme.ofCode, Grammar.EndsWithoutLimits]

/-- A construct in front of other spans adds the condition that it ends without its limit. -/
theorem Grammar.endsWithoutLimits_construct_iff {grammar : Grammar} {source tail : Bytes}
    {opener : Opener} (front : Bytes) (hsource : source = front ++ (opener.token ++ tail))
    {place : Position}
    (hplace : place.offset = front.length) (hkind : opener.kind ≠ .code)
    (hopening : opening grammar.openers (opener.token ++ tail) = some opener) {inner : Bytes}
    (hclosed : opener.closing.length? tail = some inner.length) (spans : List Span) :
    grammar.EndsWithoutLimits source
        (placeSpans place [Lexeme.ofConstruct opener (opener.token ++ inner)] ++ spans) ↔
      opener.closing.plainMode.length? tail = some inner.length ∧
        grammar.EndsWithoutLimits source spans := by
  rw [Opener.plainMode_length?_iff hclosed]
  have hbegin : source.drop place.offset = opener.token ++ tail := by
    rw [hsource, hplace, List.drop_left]
  have hbehind : source.drop (place.offset + opener.token.length) = tail := by
    rw [← List.drop_drop, hbegin, List.drop_left]
  have hlength : place.offset + (opener.token ++ inner).length -
      (place.offset + opener.token.length) = inner.length := by
    rw [List.length_append]
    omega
  simp only [Grammar.EndsWithoutLimits, placeSpans, List.cons_append, List.nil_append,
    List.forall_mem_cons, Lexeme.spanAt, Lexeme.ofConstruct, hbegin, hopening, Option.some.injEq]
  refine and_congr_left fun _ => ?_
  constructor
  · intro hspan token escape limit hclosing
    have hends := hspan hkind opener token escape limit rfl hclosing
    rwa [hbehind, hlength] at hends
  · rintro hlimited _ _ token escape limit rfl hclosing
    rw [hbehind, hlength]
    exact hlimited token escape limit hclosing

/-- Two constructs that are emitted behind the same code and are followed by anything are equally
long if what is emitted is the same. -/
theorem length_eq_of_emitted_eq {place : Position} {code first second : Bytes} {opener : Opener}
    {firstLater secondLater : List Span}
    (hemitted : placeSpans place (Lexeme.code code ++ [Lexeme.ofConstruct opener first]) ++
        firstLater =
      placeSpans place (Lexeme.code code ++ [Lexeme.ofConstruct opener second]) ++ secondLater) :
    first.length = second.length := by
  simp only [placeSpans_append, List.append_assoc] at hemitted
  have hspans := List.append_cancel_left hemitted
  simp only [placeSpans, List.cons_append, List.nil_append, List.cons.injEq] at hspans
  have hstop := congrArg Span.stop hspans.1
  simp only [Lexeme.spanAt, Lexeme.ofConstruct] at hstop
  omega

namespace Machine

variable {grammar : Grammar}

/-- The machine halts with an outcome that begins with a closed construct exactly if that construct
ends there, and the machine goes on with the rest of the outcome. -/
theorem runs_closed_iff (htokens : ∀ opener ∈ grammar.openers, opener.token ≠ [])
    {enter : Closing → Mode} {code inner rest : Bytes} {opener : Opener}
    (hnext : nextConstruct grammar.openers (code ++ (opener.token ++ (inner ++ rest))) =
      some (code.length, opener))
    (hproper : (enter opener.closing).Proper) (place : Position) (lexing : Lexing) :
    Runs grammar enter ⟨.code, place, place, code ++ (opener.token ++ (inner ++ rest))⟩
        ((lexing.prepend (Lexeme.code code ++
          [Lexeme.ofConstruct opener (opener.token ++ inner)])).scanFrom place) ↔
      (enter opener.closing).length? (inner ++ rest) = some inner.length ∧
        Runs grammar enter
          ⟨.code, place.advance (code ++ (opener.token ++ inner)),
            place.advance (code ++ (opener.token ++ inner)), rest⟩
          (lexing.scanFrom (place.advance (code ++ (opener.token ++ inner)))) := by
  rw [runs_round_iff htokens hnext hproper, Lexing.scanFrom_prepend]
  simp only [textOf_append, textOf_code, textOf_cons, textOf_nil, List.append_nil,
    Lexeme.text_ofConstruct]
  cases hplain : (enter opener.closing).length? (inner ++ rest) with
  | none =>
      apply iff_of_false
      · intro hsame
        have hspansEq := congrArg Scan.spans hsame
        simp [Scan.prepend, Lexing.scanFrom, placeSpans_append, placeSpans] at hspansEq
      · rintro ⟨hlength, -⟩
        cases hlength
  | some length =>
      constructor
      · rintro ⟨later, hlater, hsame⟩
        have hemitted := length_eq_of_emitted_eq (congrArg Scan.spans hsame)
        have hlength : length = inner.length := by
          have hbound := Mode.length?_le hplain
          simp only [List.length_append, List.length_take] at hemitted hbound
          omega
        subst hlength
        simp only [List.take_left, List.drop_left] at hlater hsame
        rw [Scan.prepend_inj hsame]
        exact ⟨rfl, hlater⟩
      · rintro ⟨hlength, hlater⟩
        cases hlength
        simp only [List.take_left, List.drop_left]
        exact ⟨_, hlater, rfl⟩

/-- Without windows the machine halts with the outcome of the search exactly if every limited
literal of that outcome ends where it would end without its limit. -/
theorem runs_plain_iff (haccepted : grammar.Accepted) {bytes : Bytes} {lexing : Lexing}
    (hlexes : Lexes grammar.openers bytes lexing) (front : Bytes) {source : Bytes}
    (hsource : source = front ++ bytes) {place : Position} (hplace : place.offset = front.length) :
    Runs grammar Closing.plainMode ⟨.code, place, place, bytes⟩ (lexing.scanFrom place) ↔
      grammar.EndsWithoutLimits source (lexing.scanFrom place).spans := by
  have htokens : ∀ opener ∈ grammar.openers, opener.token ≠ [] :=
    fun _ => haccepted.token_ne_nil
  have hcode : ∀ place code, grammar.EndsWithoutLimits source
      (placeSpans place (Lexeme.code code)) := by
    intro place code
    have hnil : grammar.EndsWithoutLimits source [] := by
      intro span hspan
      cases hspan
    rw [← List.append_nil (placeSpans place _)]
    exact (grammar.endsWithoutLimits_append_code source place code []).2 hnil
  induction hlexes generalizing front place with
  | code bytes hnext =>
      rw [runs_code_iff htokens _ rfl]
      simp only [hnext, skip, List.take_length]
      rw [pending_eq]
      exact iff_of_true rfl (hcode place bytes)
  | unclosed code tail opener hnext hopen =>
      have hopens := (opening_of_nextConstruct hnext).2
      have hproper := Closing.plainMode_proper
        (haccepted.windowedMode_proper (mem_of_nextConstruct hnext))
      rw [runs_round_iff htokens hnext hproper, Opener.plainMode_length?_eq_none hopens hopen]
      exact iff_of_true rfl (hcode place code)
  | closed code inner rest opener lexing hnext hclosed hrest ih =>
      rcases opening_of_nextConstruct hnext with ⟨hopening, hopens⟩
      have hproper := Closing.plainMode_proper
        (haccepted.windowedMode_proper (mem_of_nextConstruct hnext))
      have hkind := Grammar.kind_ne_code_of_mem_openers (mem_of_nextConstruct hnext)
      have hbegin : (place.advance code).offset = (front ++ code).length := by
        rw [Position.offset_advance, hplace, List.length_append]
      have hconstruct := @Grammar.endsWithoutLimits_construct_iff grammar source (inner ++ rest)
        opener (front ++ code) (by rw [hsource, List.append_assoc]) _ hbegin hkind hopening inner
        hclosed
      have hspans : grammar.EndsWithoutLimits source ((lexing.prepend (Lexeme.code code ++
            [Lexeme.ofConstruct opener (opener.token ++ inner)])).scanFrom place).spans ↔
          opener.closing.plainMode.length? (inner ++ rest) = some inner.length ∧
            grammar.EndsWithoutLimits source
              (lexing.scanFrom (place.advance (code ++ (opener.token ++ inner)))).spans := by
        rw [Lexing.scanFrom_prepend]
        simp only [Scan.prepend, placeSpans_append, textOf_append, textOf_code, textOf_cons,
          textOf_nil, List.append_nil, List.append_assoc, hconstruct,
          Grammar.endsWithoutLimits_append_code, Lexeme.text_ofConstruct]
      have hmore : Runs grammar Closing.plainMode
            ⟨.code, place.advance (code ++ (opener.token ++ inner)),
              place.advance (code ++ (opener.token ++ inner)), rest⟩
            (lexing.scanFrom (place.advance (code ++ (opener.token ++ inner)))) ↔
          grammar.EndsWithoutLimits source
            (lexing.scanFrom (place.advance (code ++ (opener.token ++ inner)))).spans := ih
        (front ++ (code ++ (opener.token ++ inner)))
        (by rw [hsource]; simp only [List.append_assoc])
        (by simp only [Position.offset_advance, hplace, List.length_append])
      rw [runs_closed_iff htokens hnext hproper, hspans, hmore]

end Machine

/-- On every source the machine with windows halts with the outcome of the search and with no
other.  The machine without windows halts with that outcome exactly if every limited literal of the
outcome ends where it would end without its limit. -/
theorem scan_matches_machine {grammar : Grammar} (haccepted : grammar.Accepted) (source : Bytes) :
    (∀ scan, Machine.Runs grammar Closing.windowedMode (.initial source) scan ↔
      scan = grammar.scan source) ∧
    (Machine.Runs grammar Closing.plainMode (.initial source) (grammar.scan source) ↔
      grammar.EndsWithoutLimits source (grammar.scan source).spans) := by
  have hlexes := lexes_lex grammar.openers source
  constructor
  · intro scan
    exact Machine.runs_windowed_iff haccepted hlexes .first scan
  · exact Machine.runs_plain_iff haccepted hlexes [] rfl rfl

/-- In Rust a lifetime stays code, a quote in a nested comment is no literal, and a character is
one. -/
theorem machine_scans_lifetime :
    Grammar.rust.Accepted ∧
      Machine.Runs Grammar.rust Closing.windowedMode
        (.initial (Text.encode "&'a /*'/**/*/'b'"))
        ⟨[⟨.code, 0, 4, 1, 1, "", ""⟩, ⟨.blockComment, 4, 13, 1, 5, "/*", "*/"⟩,
          ⟨.charLiteral, 13, 16, 1, 14, "'", "'"⟩], none⟩ := by
  have haccepted : Grammar.rust.Accepted := by decide +kernel
  exact ⟨haccepted, ((scan_matches_machine haccepted _).1 _).2 (by decide +kernel)⟩

/-- A language whose characters are limited to one byte and double their quote. -/
def Grammar.doubledCharacter : Grammar :=
  { empty "sample" with chars := [⟨"'", some "'", some 1⟩] }

/-- The window of such a character may show the first half of a doubled quote only.  The search
then ends the literal there, and the machine without windows reads on behind both halves. -/
theorem limit_cuts_doubled_quote :
    Grammar.doubledCharacter.Accepted ∧
      Machine.Runs Grammar.doubledCharacter Closing.plainMode (.initial (Text.encode "'a''b'"))
        ⟨[⟨.charLiteral, 0, 6, 1, 1, "'", "'"⟩], none⟩ ∧
      Grammar.doubledCharacter.scan (Text.encode "'a''b'") =
        ⟨[⟨.charLiteral, 0, 3, 1, 1, "'", "'"⟩, ⟨.charLiteral, 3, 6, 1, 4, "'", "'"⟩], none⟩ := by
  let opener := Opener.ofQuote .charLiteral ⟨"'", some "'", some 1⟩
  let tail : Bytes := [97, 39, 39, 98, 39]
  have htokens : ∀ opener ∈ Grammar.doubledCharacter.openers, opener.token ≠ [] := by
    decide +kernel
  have hnext : nextConstruct Grammar.doubledCharacter.openers ([] ++ (opener.token ++ tail)) =
      some (0, opener) := by
    decide +kernel
  have hproper : opener.closing.plainMode.Proper := htokens opener (by decide +kernel)
  have hcloses : opener.closing.plainMode.length? tail = some 5 := by
    decide +kernel
  have hround := Machine.runs_round_iff htokens hnext hproper .first
    ⟨[⟨.charLiteral, 0, 6, 1, 1, "'", "'"⟩], none⟩
  rw [hcloses] at hround
  refine ⟨by decide +kernel, hround.2 ⟨⟨[], none⟩, ?_, by decide +kernel⟩, by decide +kernel⟩
  exact .halt (by decide +kernel)

end CommentMarkers

import Bracket.Proofs.Spelling

/-!
# Bracket.Proofs.Widening

Extra blanks. A text and the same text with more blanks, where there were blanks already or at one
of its ends, are read alike: they give the same tree, or the same error at two positions
(`parse_widened`).

Two readers go through the two texts in step. What they have left differs in blanks only
(`Widened`), and where no blank may be put in, which is behind every unit, the next characters are
the same. So both read the same word or run (`reserved_widened`, `popWhile_widened`), and a
character literal, which may hold blanks, begins with the same character (`charLiteral_widened`).
-/

namespace Bracket

open Text

/-- The second text is the first one with more blanks. They may be put in behind blanks and at the
end, and in front of everything if `free` says so. -/
inductive Widened : Bool → List Char → List Char → Prop
  | atEnd {free : Bool} {ws : List Char} (blank : ∀ x ∈ ws, isBlank x = true) : Widened free [] ws
  | same {free : Bool} (x : Char) {s t : List Char} (rest : Widened (isBlank x) s t) :
      Widened free (x :: s) (x :: t)
  | insert {x : Char} {s t : List Char} (blank : isBlank x = true) (rest : Widened true s t) :
      Widened true s (x :: t)

namespace Widened

variable {free : Bool} {s t : List Char} {test : Char → Bool}

theorem loosen (h : Widened free s t) : Widened true s t := by
  cases h with
  | atEnd blank => exact .atEnd blank
  | same x rest => exact .same x rest
  | insert blank rest => exact .insert blank rest

theorem head?_eq (h : Widened false s t) (hne : s ≠ []) : s.head? = t.head? := by
  cases h with
  | atEnd blank => exact absurd rfl hne
  | same x rest => rfl

theorem drop_one (h : Widened false s t) (hhead : s.head? = t.head?) :
    Widened true (s.drop 1) (t.drop 1) := by
  cases h with
  | atEnd blank =>
    rw [List.head?_eq_none_iff.mp hhead.symm]
    exact .atEnd nofun
  | same x rest => exact rest.loosen

/-- Where a run that takes all blanks ends, the texts have the same next character. -/
theorem dropWhile_blanks (htest : ∀ x, isBlank x = true → test x = true) (h : Widened free s t) :
    Widened false (s.dropWhile test) (t.dropWhile test) ∧
      (s.dropWhile test).head? = (t.dropWhile test).head? := by
  induction h with
  | @atEnd free ws blank =>
    have hnil : ws.dropWhile test = [] :=
      List.dropWhile_eq_nil_iff.mpr fun x hx => htest x (blank x hx)
    rw [hnil]
    exact ⟨.atEnd nofun, rfl⟩
  | same x rest ih =>
    rw [List.dropWhile_cons, List.dropWhile_cons]
    split
    · exact ih
    · exact ⟨.same x rest, rfl⟩
  | @insert x s t blank rest ih =>
    rw [List.dropWhile_cons_of_pos (htest x blank)]
    exact ih

/-- A run without blanks is the same in both texts. -/
theorem takeWhile_eq (htest : ∀ x, test x = true → isBlank x = false) (h : Widened false s t) :
    s.takeWhile test = t.takeWhile test ∧ Widened false (s.dropWhile test) (t.dropWhile test) := by
  induction s generalizing t with
  | nil =>
    cases h with
    | atEnd blank =>
      have hstop : ∀ x ∈ t.head?, test x = false := by
        intro x hx
        cases ht : test x with
        | false => rfl
        | true =>
          have hblank := blank x (List.mem_of_mem_head? hx)
          rw [htest x ht] at hblank
          cases hblank
      obtain ⟨htake, hdrop⟩ := Cursor.stops_at_head hstop
      rw [htake, hdrop]
      exact ⟨rfl, .atEnd blank⟩
  | cons x s ih =>
    cases h with
    | same _ rest =>
      rw [List.takeWhile_cons, List.takeWhile_cons, List.dropWhile_cons, List.dropWhile_cons]
      split
      · rename_i ht
        rw [htest x ht] at rest
        obtain ⟨htake, hdrop⟩ := ih rest
        exact ⟨congrArg (x :: ·) htake, hdrop⟩
      · exact ⟨rfl, .same x rest⟩

/-- A word without blanks that one of the texts begins with is at the beginning of both. -/
theorem prefix_iff {w : List Char} (hw : ∀ x ∈ w, isBlank x = false) (h : Widened false s t) :
    (w <+: s ↔ w <+: t) ∧ (w <+: s → Widened false (s.drop w.length) (t.drop w.length)) := by
  induction w generalizing s t with
  | nil => exact ⟨iff_of_true List.nil_prefix List.nil_prefix, fun _ => h⟩
  | cons y w ih =>
    obtain ⟨hy, hw⟩ := List.forall_mem_cons.mp hw
    cases h with
    | atEnd blank =>
      have hs : ¬ y :: w <+: [] := fun hp => by cases List.prefix_nil.mp hp
      refine ⟨iff_of_false hs fun ht => ?_, fun hp => absurd hp hs⟩
      have hblank := blank y (ht.subset List.mem_cons_self)
      rw [hy] at hblank
      cases hblank
    | @same _ x s t rest =>
      by_cases hxy : y = x
      · subst hxy
        rw [hy] at rest
        obtain ⟨hiff, hdrop⟩ := ih hw rest
        simp only [List.cons_prefix_cons, true_and]
        exact ⟨hiff, hdrop⟩
      · simp only [List.cons_prefix_cons, hxy, false_and, false_implies, and_self]

end Widened

/-! ## The same unit in both texts -/

namespace Text
namespace Cursor

open Reader

variable {free : Bool} {c d : Cursor} (h : Widened free c.rest d.rest)
include h

theorem skipBlanks_widened :
    Widened false c.skipBlanks.rest d.skipBlanks.rest ∧
      c.skipBlanks.rest.head? = d.skipBlanks.rest.head? := h.dropWhile_blanks fun _ hx => hx

theorem isAtEnd_widened : c.isAtEnd.1 = d.isAtEnd.1 := by
  have hhead := (skipBlanks_widened h).2
  unfold isAtEnd
  cases hc : c.skipBlanks.rest <;> cases hd : d.skipBlanks.rest <;> rw [hc, hd] at hhead <;>
    first | rfl | cases hhead

theorem reserved_widened :
    ∃ w e f, c.reserved = (w, e) ∧ d.reserved = (w, f) ∧ Widened false e.rest f.rest := by
  have hskip := (skipBlanks_widened h).1
  have hletters (w : Word) := hskip.prefix_iff fun x hx => Word.not_isBlank_of_mem (w := w) hx
  have hlongest : Word.longest? c.skipBlanks.rest = Word.longest? d.skipBlanks.rest := by
    refine congrArg Word.all.find? (funext fun w => ?_)
    rw [Bool.eq_iff_iff, List.isPrefixOf_iff_prefix, List.isPrefixOf_iff_prefix]
    exact (hletters w).1
  unfold reserved
  rw [← hlongest]
  cases hw : Word.longest? c.skipBlanks.rest with
  | none => exact ⟨none, _, _, rfl, rfl, hskip⟩
  | some w =>
    have hpre := List.isPrefixOf_iff_prefix.mp (Word.isPrefixOf_of_longest? hw)
    exact ⟨some w, _, _, rfl, rfl, (hletters w).2 hpre⟩

theorem popWhile_skipBlanks_widened {test : Char → Bool}
    (htest : ∀ x, test x = true → isBlank x = false) :
    ∃ run e f, c.skipBlanks.popWhile test = (run, e) ∧ d.skipBlanks.popWhile test = (run, f) ∧
      Widened false e.rest f.rest := by
  have hskip := (skipBlanks_widened h).1
  obtain ⟨htake, hdrop⟩ := hskip.takeWhile_eq htest
  unfold popWhile
  rw [← htake]
  cases c.skipBlanks.rest.takeWhile test with
  | nil => exact ⟨none, _, _, rfl, rfl, hskip⟩
  | cons x xs => exact ⟨some _, _, _, rfl, rfl, hdrop⟩

theorem number_widened :
    ∃ run e f, c.number = (run, e) ∧ d.number = (run, f) ∧ Widened false e.rest f.rest :=
  popWhile_skipBlanks_widened h fun _ hx => not_isBlank_of_isDigit hx

theorem ident_widened :
    ∃ name e f, c.ident = (name, e) ∧ d.ident = (name, f) ∧ Widened false e.rest f.rest :=
  popWhile_skipBlanks_widened h fun _ hx => not_isBlank_of_isIdent hx

theorem unknownRun_widened : c.unknownRun.1 = d.unknownRun.1 := by
  have htest : ∀ x, isUnknown x = true → isBlank x = false := by
    intro x hx
    simp only [isUnknown, Bool.and_eq_true, Bool.not_eq_true'] at hx
    exact hx.1.1
  have hhead := (skipBlanks_widened h).2
  obtain ⟨run, e, f, hc, hd, -⟩ := popWhile_skipBlanks_widened h htest
  rw [unknownRun, unknownRun, hc, hd]
  cases run with
  | some run => rfl
  | none =>
    obtain ⟨rfl, -⟩ := of_popWhile_none hc
    obtain ⟨rfl, -⟩ := of_popWhile_none hd
    simp only [List.take_one, hhead]

end Cursor
end Text

namespace Reader

/-! ## Errors without their positions -/

/-- The error as it would be at the beginning of a text. -/
def ParseError.unplaced : ParseError → ParseError
  | .unknownOperator text _ => .unknownOperator text 0
  | .unclosedLiteral _ => .unclosedLiteral 0
  | .unopenedBracket _ => .unopenedBracket 0
  | .unclosedBracket count => .unclosedBracket count
  | .expectedOpening after _ => .expectedOpening after 0
  | .misplacedKeyword keyword expected _ => .misplacedKeyword keyword expected 0
  | .expectedName after _ => .expectedName after 0
  | .unclosedPipe _ => .unclosedPipe 0
  | .invalidNumber text _ => .invalidNumber text 0
  | .nestingLimit limit _ => .nestingLimit limit 0
  | .incompleteConstruct construct => .incompleteConstruct construct

/-- Related results, or the same error but for its position. -/
inductive Matches {α β : Type} (R : α → β → Prop) :
    Except ParseError α → Except ParseError β → Prop
  | ok {a : α} {b : β} (related : R a b) : Matches R (.ok a) (.ok b)
  | error {e f : ParseError} (same : e.unplaced = f.unplaced) : Matches R (.error e) (.error f)

/-- The two readers have built the same and have texts left that differ in blanks only. -/
structure Level (p q : Parser) : Prop where
  text : Widened true p.cursor.rest q.cursor.rest
  builder : p.builder = q.builder

end Reader

namespace Text
namespace Cursor

open Reader

theorem charLiteral_eq (c : Cursor) (start : Nat) :
    c.charLiteral start =
      match (c.rest.takeWhile isNotQuote).head?, (c.skipWhile isNotQuote).rest.head? with
      | some first, some _ =>
        (.ok (Float.ofNat (leadingUnit first)), (c.skipWhile isNotQuote).advance 1)
      | _, _ => (.error (.unclosedLiteral start), c.skipWhile isNotQuote) := by
  unfold charLiteral
  cases c.rest.takeWhile isNotQuote <;> cases (c.skipWhile isNotQuote).rest <;> rfl

/-- The quote has been read, so that the literal begins with the same character in both texts. -/
theorem charLiteral_widened {c d : Cursor} (h : Widened false c.rest d.rest) (i j : Nat) :
    Matches Eq (c.charLiteral i).1 (d.charLiteral j).1 ∧
      Widened true (c.charLiteral i).2.rest (d.charLiteral j).2.rest := by
  have htest : ∀ x, isBlank x = true → isNotQuote x = true := by
    intro x hx
    simp only [isBlank, Bool.or_eq_true, beq_iff_eq] at hx
    obtain rfl | rfl := hx <;> rfl
  have hend : Widened false (c.skipWhile isNotQuote).rest (d.skipWhile isNotQuote).rest ∧
      (c.skipWhile isNotQuote).rest.head? = (d.skipWhile isNotQuote).rest.head? :=
    h.dropWhile_blanks htest
  obtain ⟨hdrop, hhead⟩ := hend
  rw [charLiteral_eq, charLiteral_eq, ← hhead]
  cases hquote : (c.skipWhile isNotQuote).rest.head? with
  | none =>
    have hopen : Widened true (c.skipWhile isNotQuote).rest (d.skipWhile isNotQuote).rest :=
      hdrop.loosen
    cases (c.rest.takeWhile isNotQuote).head? <;> cases (d.rest.takeWhile isNotQuote).head? <;>
      exact ⟨.error rfl, hopen⟩
  | some quote =>
    have hne : c.rest ≠ [] := by
      intro hnil
      rw [skipWhile, hnil] at hquote
      cases hquote
    have hfirst : (c.rest.takeWhile isNotQuote).head? = (d.rest.takeWhile isNotQuote).head? := by
      rw [List.head?_takeWhile, List.head?_takeWhile, h.head?_eq hne]
    rw [← hfirst]
    cases (c.rest.takeWhile isNotQuote).head? with
    | none => exact ⟨.error rfl, hdrop.loosen⟩
    | some first => exact ⟨.ok rfl, hdrop.drop_one hhead⟩

end Cursor
end Text

namespace Reader
namespace Parser

variable {p q : Parser}

/-! ## Readers in step -/

theorem pushTerm_level (h : Level p q) (t : Term) : Level (p.pushTerm t) (q.pushTerm t) :=
  ⟨h.text, by rw [pushTerm, h.builder]; rfl⟩

theorem pushConstruct_level (h : Level p q) (c : Construct) :
    Level (p.pushConstruct c) (q.pushConstruct c) :=
  ⟨h.text, by rw [pushConstruct, h.builder]; rfl⟩

theorem openBracket_matches (h : Level p q) (i j : Nat) :
    Matches Level (p.openBracket i) (q.openBracket j) := by
  unfold openBracket Builder.openBracket
  rw [h.builder]
  split
  · exact .ok ⟨h.text, rfl⟩
  · exact .error rfl

theorem closeBracket_matches (h : Level p q) (i j : Nat) :
    Matches Level (p.closeBracket i) (q.closeBracket j) := by
  unfold closeBracket Builder.closeBracket
  rw [h.builder]
  cases q.builder.outer with
  | nil => exact .error rfl
  | cons below outer =>
    simp only
    cases Node.completeAll q.builder.frame with
    | error e => exact .error rfl
    | ok g => exact .ok ⟨h.text, rfl⟩

theorem expectOpening_matches (h : Level p q) (after : Keyword) :
    Matches Level (p.expectOpening after) (q.expectOpening after) := by
  obtain ⟨w, c, d, hp, hq, hrest⟩ := Cursor.reserved_widened h.text
  rw [expectOpening, expectOpening, hp, hq]
  split
  · rename_i heq
    cases heq
    exact openBracket_matches (p := ⟨c, p.builder⟩) (q := ⟨d, q.builder⟩)
      ⟨hrest.loosen, h.builder⟩ _ _
  · rename_i hno
    split
    · rename_i heq
      cases heq
      exact absurd rfl (hno c)
    · exact .error rfl

/-- A keyword that takes a name, whatever is done with it. -/
theorem expectName_matches {after : Keyword} {f : String → Parser → Except ParseError Parser}
    (h : Level p q) (hf : ∀ name p q, Level p q → Matches Level (f name p) (f name q)) :
    Matches Level
      (match p.expectName after with
      | .error e => .error e
      | .ok (name, p) => f name p)
      (match q.expectName after with
      | .error e => .error e
      | .ok (name, q) => f name q) := by
  obtain ⟨name, c, d, hp, hq, hrest⟩ := Cursor.ident_widened h.text
  rw [expectName, expectName, hp, hq]
  cases name with
  | none => exact .error rfl
  | some name => exact hf name ⟨c, p.builder⟩ ⟨d, q.builder⟩ ⟨hrest.loosen, h.builder⟩

theorem branch_matches (h : Level p q) (keyword : Keyword) (slot : Construct.Slot) (i j : Nat) :
    Matches Level (p.branch keyword slot i) (q.branch keyword slot j) := by
  rw [branch, branch, h.builder]
  cases q.builder.clearBranch? slot with
  | none => exact .error rfl
  | some b =>
    exact expectOpening_matches (p := ⟨p.cursor, b⟩) (q := ⟨q.cursor, b⟩) ⟨h.text, rfl⟩ keyword

theorem value_matches (h : Level p q) (i j : Nat) : Matches Level (p.value i) (q.value j) := by
  rw [value, value, h.builder]
  cases q.builder.clearValue? with
  | none => exact .error rfl
  | some b =>
    exact expectOpening_matches (p := ⟨p.cursor, b⟩) (q := ⟨q.cursor, b⟩) ⟨h.text, rfl⟩ .withValue

theorem loop_matches (h : Level p q) : Matches Level p.loop q.loop :=
  expectName_matches (f := fun name p => (p.pushConstruct (.loop name none)).expectOpening .loop)
    h fun name _ _ h => expectOpening_matches (pushConstruct_level h (.loop name none)) .loop

theorem brk_matches (h : Level p q) : Matches Level p.brk q.brk :=
  expectName_matches (f := fun name p => .ok (p.pushConstruct (Construct.newBreak name)))
    h fun name _ _ h => .ok (pushConstruct_level h (Construct.newBreak name))

theorem call_matches (h : Level p q) : Matches Level p.call q.call :=
  expectName_matches (f := fun name p => (p.pushConstruct (.call name none)).expectOpening .call)
    h fun name _ _ h => expectOpening_matches (pushConstruct_level h (.call name none)) .call

theorem closure_matches (h : Level p q) : Matches Level p.closure q.closure := by
  obtain ⟨param, c, d, hp, hq, hrest⟩ := Cursor.ident_widened h.text
  obtain ⟨w, e, f, hc, hd, hrest⟩ := Cursor.reserved_widened hrest
  simp only [closure, hp, hq, hc, hd]
  split
  · rename_i heq
    cases heq
    have hlevel : Level ⟨e, p.builder⟩ ⟨f, q.builder⟩ := ⟨hrest.loosen, h.builder⟩
    exact expectOpening_matches (pushConstruct_level hlevel (.closure param none)) .pipe
  · rename_i hno
    split
    · rename_i heq
      cases heq
      exact absurd rfl (hno e)
    · exact .error rfl

theorem charLiteral_matches (hrest : Widened false p.cursor.rest q.cursor.rest)
    (hbuilder : p.builder = q.builder) (i j : Nat) :
    Matches Level (p.charLiteral i) (q.charLiteral j) := by
  obtain ⟨hcode, hrest⟩ := Cursor.charLiteral_widened hrest i j
  rw [charLiteral, charLiteral]
  rcases hp : p.cursor.charLiteral i with ⟨code, c⟩
  rcases hq : q.cursor.charLiteral j with ⟨code', d⟩
  rw [hp, hq] at hcode hrest
  cases hcode with
  | ok heq =>
    subst heq
    exact .ok (pushTerm_level (p := ⟨c, p.builder⟩) (q := ⟨d, q.builder⟩) ⟨hrest, hbuilder⟩ _)
  | error same => exact .error same

/-- What a word asks for, where no blank may be put in behind it. -/
theorem word_matches (hrest : Widened false p.cursor.rest q.cursor.rest)
    (hbuilder : p.builder = q.builder) (i j : Nat) (w : Word) :
    Matches Level (p.word i w) (q.word j w) := by
  have h : Level p q := ⟨hrest.loosen, hbuilder⟩
  cases w with
  | op o => exact .ok (pushTerm_level h (.op o))
  | keyword k =>
    cases k with
    | null => exact .ok (pushTerm_level h (.literal none))
    | quote => exact charLiteral_matches hrest hbuilder i j
    | opening => exact openBracket_matches h i j
    | closing => exact closeBracket_matches h i j
    | ifTest => exact expectOpening_matches (pushConstruct_level h Construct.newCond) .ifTest
    | thenBranch => exact branch_matches h .thenBranch .whenTrue i j
    | elseBranch => exact branch_matches h .elseBranch .whenFalse i j
    | loop => exact loop_matches h
    | brk => exact brk_matches h
    | withValue => exact value_matches h i j
    | pipe => exact closure_matches h
    | call => exact call_matches h

theorem step_matches (h : Level p q) : Matches Level p.step q.step := by
  obtain ⟨w, c, d, hp, hq, hrest⟩ := Cursor.reserved_widened h.text
  simp only [step, hp, hq]
  cases w with
  | some w => exact word_matches (p := ⟨c, p.builder⟩) (q := ⟨d, q.builder⟩) hrest h.builder _ _ w
  | none =>
    obtain ⟨run, e, f, hc, hd, hrest⟩ := Cursor.number_widened hrest
    simp only [hc, hd]
    cases run with
    | some run =>
      simp only
      cases Number.read? run.toList with
      | none => exact .error rfl
      | some x =>
        exact .ok (pushTerm_level (p := ⟨e, p.builder⟩) (q := ⟨f, q.builder⟩)
          ⟨hrest.loosen, h.builder⟩ _)
    | none =>
      obtain ⟨name, k, l, he, hf, hrest⟩ := Cursor.ident_widened hrest
      simp only [he, hf]
      cases name with
      | some name =>
        exact .ok (pushTerm_level (p := ⟨k, p.builder⟩) (q := ⟨l, q.builder⟩)
          ⟨hrest.loosen, h.builder⟩ _)
      | none =>
        simp only [Cursor.unknownRun_widened hrest]
        exact .error rfl

theorem run_matches (h : Level p q) : Matches Eq p.run q.run := by
  have hend := Cursor.isAtEnd_widened h.text
  have hstep := step_matches h
  induction p using Parser.run.induct generalizing q with
  | case1 p hdone =>
    rw [run_of_isAtEnd hdone, run_of_isAtEnd (hend ▸ hdone), h.builder]
    cases q.builder.finish with
    | ok g => exact .ok rfl
    | error e => exact .error rfl
  | case2 p hmore e hs =>
    have hmore := Bool.eq_false_iff.mpr hmore
    rw [run_eq_bind hmore, run_eq_bind (hend ▸ hmore)]
    rw [hs] at hstep ⊢
    generalize q.step = o at hstep ⊢
    cases hstep with
    | error same => exact .error same
  | case3 p hmore p' hs ih =>
    have hmore := Bool.eq_false_iff.mpr hmore
    rw [run_eq_bind hmore, run_eq_bind (hend ▸ hmore)]
    rw [hs] at hstep ⊢
    generalize q.step = o at hstep ⊢
    cases hstep with
    | ok h => exact ih h (Cursor.isAtEnd_widened h.text) (step_matches h)

end Parser

/-- A text with more blanks where there were blanks, or at its ends, is read as the text without
them: as the same tree, or with the same error but for the position in it. -/
theorem parse_widened {s t : String} (h : Widened true s.toList t.toList) :
    (parse s).mapError ParseError.unplaced = (parse t).mapError ParseError.unplaced := by
  have hlevel : Level (Parser.start s) (Parser.start t) := ⟨h, rfl⟩
  have hmatches : Matches Eq (parse s) (parse t) := Parser.run_matches hlevel
  generalize parse s = o at hmatches ⊢
  generalize parse t = o' at hmatches ⊢
  cases hmatches with
  | ok heq => rw [heq]
  | error same => exact congrArg Except.error same

/-- A character literal takes the blanks inside it; the word behind it is unknown in both texts. -/
theorem parse_widened_literal :
    Widened true "' ' #+".toList "\n'  ' \n#+ ".toList ∧
    parse "' ' #+" = .error (.unknownOperator "#+" 4) ∧
    (parse "\n'  ' \n#+ ").mapError ParseError.unplaced = .error (.unknownOperator "#+" 0) := by
  have hs : "' ' #+".toList = ['\'', ' ', '\'', ' ', '#', '+'] := rfl
  have ht : "\n'  ' \n#+ ".toList = ['\n', '\'', ' ', ' ', '\'', ' ', '\n', '#', '+', ' '] := rfl
  have h : Widened true "' ' #+".toList "\n'  ' \n#+ ".toList := by
    rw [hs, ht]
    refine .insert rfl (.same _ (.same _ (.insert rfl (.same _ (.same _ (.insert rfl ?_))))))
    exact .same _ (.same _ (.atEnd (List.forall_mem_singleton.mpr rfl)))
  have hliteral : (Parser.start "' ' #+").step =
      .ok ⟨⟨[' ', '#', '+'], 3⟩, ⟨[.done (.literal (some (Float.ofNat 32)))], []⟩⟩ := rfl
  have hparse : parse "' ' #+" = .error (.unknownOperator "#+" 4) := by
    rw [parse, Parser.run_eq_bind rfl, hliteral]
    exact Parser.run_eq_bind rfl
  refine ⟨h, hparse, ?_⟩
  rw [← parse_widened h, hparse]
  rfl

end Reader
end Bracket

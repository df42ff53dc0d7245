import Bracket.Reader.Program

/-!
# Bracket.Proofs.Lexemes

The lexical units of a text, and the reader of a program over them.

The reader works on the text itself and has no list of units. Here the units are read off first,
from left to right: blanks are skipped, then comes a reserved word, else a digit run, else an
identifier run. A keyword with a name takes the identifier run behind it along, whatever word it
begins with. `run_toOption` says that the reader does on a text what it does on its units.
-/

namespace Bracket
namespace Reader

open Text

inductive Lexeme where
  | digits (run : String)
  | name (run : String)
  | quoted (run : List Char)
  | op (op : Op)
  | null
  | opening
  | closing
  | ifTest
  | thenBranch
  | elseBranch
  | withValue
  | loop (name : String)
  | brk (name : String)
  | call (name : String)
  | pipes (param : Option String)

end Reader

namespace Text
namespace Cursor

open Reader

/-! ## Reading the units of a text -/

/-- The run up to the next quote, and the quote. -/
def quoted? (c : Cursor) : Option (Lexeme × Cursor) :=
  match (c.skipWhile isNotQuote).rest with
  | [] => none
  | _ :: _ => some (.quoted (c.rest.takeWhile isNotQuote), (c.skipWhile isNotQuote).advance 1)

/-- An identifier run, which may begin with a reserved word. -/
def named? (c : Cursor) (keyword : String → Lexeme) : Option (Lexeme × Cursor) :=
  match c.ident with
  | (some name, next) => some (keyword name, next)
  | (none, _) => none

/-- A name or nothing, and the second pipe. -/
def pipes? (c : Cursor) : Option (Lexeme × Cursor) :=
  match c.ident.2.reserved with
  | (some (.keyword .pipe), next) => some (.pipes c.ident.1, next)
  | _ => none

/-- The unit that starts with a reserved word; the word has been read. -/
def word? (c : Cursor) : Word → Option (Lexeme × Cursor)
  | .op o => some (.op o, c)
  | .keyword .null => some (.null, c)
  | .keyword .quote => c.quoted?
  | .keyword .opening => some (.opening, c)
  | .keyword .closing => some (.closing, c)
  | .keyword .ifTest => some (.ifTest, c)
  | .keyword .thenBranch => some (.thenBranch, c)
  | .keyword .elseBranch => some (.elseBranch, c)
  | .keyword .loop => c.named? .loop
  | .keyword .brk => c.named? .brk
  | .keyword .withValue => some (.withValue, c)
  | .keyword .pipe => c.pipes?
  | .keyword .call => c.named? .call

def lexeme? (c : Cursor) : Option (Lexeme × Cursor) :=
  match c.reserved with
  | (some w, next) => next.word? w
  | (none, c) =>
    match c.number with
    | (some run, next) => some (.digits run, next)
    | (none, c) =>
      match c.ident with
      | (some name, next) => some (.name name, next)
      | (none, _) => none

theorem rest_quoted?_le {c next : Cursor} {u : Lexeme} (h : c.quoted? = some (u, next)) :
    next.rest.length ≤ c.rest.length := by
  have hs := c.rest_skipWhile_le isNotQuote
  unfold quoted? at h
  split at h
  · cases h
  · cases h
    rw [rest_advance]
    omega

theorem rest_named?_le {c next : Cursor} {u : Lexeme} {keyword : String → Lexeme}
    (h : c.named? keyword = some (u, next)) : next.rest.length ≤ c.rest.length := by
  have hi := c.rest_ident_le
  unfold named? at h
  split at h
  · rename_i hn
    cases h
    rw [hn] at hi
    exact hi
  · cases h

theorem rest_pipes?_le {c next : Cursor} {u : Lexeme} (h : c.pipes? = some (u, next)) :
    next.rest.length ≤ c.rest.length := by
  have hi := c.rest_ident_le
  have hr := c.ident.2.rest_reserved_le
  unfold pipes? at h
  split at h
  · rename_i hn
    cases h
    rw [hn] at hr
    exact Nat.le_trans hr hi
  · cases h

theorem rest_word?_le {c next : Cursor} {w : Word} {u : Lexeme} (h : c.word? w = some (u, next)) :
    next.rest.length ≤ c.rest.length := by
  cases w with
  | op o => cases h; exact Nat.le_refl _
  | keyword k =>
    cases k with
    | quote => exact rest_quoted?_le h
    | loop => exact rest_named?_le h
    | brk => exact rest_named?_le h
    | call => exact rest_named?_le h
    | pipe => exact rest_pipes?_le h
    | _ => cases h; exact Nat.le_refl _

theorem rest_lexeme?_lt {c next : Cursor} {u : Lexeme} (h : c.lexeme? = some (u, next)) :
    next.rest.length < c.rest.length := by
  have hr := c.rest_reserved_le
  unfold lexeme? at h
  split at h
  · rename_i w d hw
    have hl : d.rest.length < c.rest.length := by
      have := rest_reserved_lt (show c.reserved.1 = some w by rw [hw])
      rwa [hw] at this
    exact Nat.lt_of_le_of_lt (rest_word?_le h) hl
  · rename_i d hw
    rw [hw] at hr
    have hn := d.rest_number_le
    split at h
    · rename_i run e hm
      have hl := rest_number_lt (show d.number.1 = some run by rw [hm])
      cases h
      rw [hm] at hl
      exact Nat.lt_of_lt_of_le hl hr
    · rename_i e hm
      rw [hm] at hn
      split at h
      · rename_i name f hi
        have hl := rest_ident_lt (show e.ident.1 = some name by rw [hi])
        cases h
        rw [hi] at hl
        exact Nat.lt_of_lt_of_le hl (Nat.le_trans hn hr)
      · cases h

def lexemes (c : Cursor) : Option (List Lexeme) :=
  if c.isAtEnd.1 then some []
  else
    match _h : c.lexeme? with
    | none => none
    | some (u, next) => next.lexemes.map fun us => u :: us
termination_by c.rest.length
decreasing_by exact rest_lexeme?_lt _h

theorem lexemes_of_isAtEnd {c : Cursor} (h : c.isAtEnd.1 = true) : c.lexemes = some [] := by
  rw [lexemes, if_pos h]

theorem lexemes_of_not_isAtEnd {c : Cursor} (h : c.isAtEnd.1 = false) :
    c.lexemes = c.lexeme?.bind fun u => u.2.lexemes.map fun us => u.1 :: us := by
  rw [lexemes, h]
  simp only [Bool.false_eq_true, if_false]
  split
  · rename_i hl
    rw [hl]
    rfl
  · rename_i hl
    rw [hl]
    rfl

/-- Where only blanks are left there is no reserved word. -/
theorem isAtEnd_of_reserved {c next : Cursor} {w : Word} (h : c.reserved = (some w, next)) :
    c.isAtEnd.1 = false := by
  have hlt := rest_reserved_lt (show c.reserved.1 = some w by rw [h])
  unfold reserved at h
  split at h
  · rename_i v hv
    have hl := Word.length_le_of_longest? hv
    have hp := v.letters_length_pos
    unfold isAtEnd
    cases hr : c.skipBlanks.rest with
    | nil => rw [hr] at hl; simp only [List.length_nil] at hl; omega
    | cons x xs => rfl
  · cases h

/-- The unit is an opening bracket exactly when the word is. -/
theorem lexeme?_eq_opening_iff {c next : Cursor} :
    c.lexeme? = some (.opening, next) ↔ c.reserved = (some (.keyword .opening), next) := by
  constructor
  · intro h
    unfold lexeme? at h
    split at h
    · rename_i w d hw
      cases w with
      | op o => cases h
      | keyword k =>
        cases k with
        | opening => cases h; exact hw
        | quote => simp only [word?, quoted?] at h; split at h <;> cases h
        | loop => simp only [word?, named?] at h; split at h <;> cases h
        | brk => simp only [word?, named?] at h; split at h <;> cases h
        | call => simp only [word?, named?] at h; split at h <;> cases h
        | pipe => simp only [word?, pipes?] at h; split at h <;> cases h
        | _ => cases h
    · split at h
      · cases h
      · split at h <;> cases h
  · intro h
    rw [lexeme?, h]
    rfl

end Cursor
end Text

namespace Reader

open Text

/-! ## The reader over units -/

/-- What the reader waits for: any unit, or the bracket that a keyword asks for. -/
inductive Reading where
  | item (builder : Builder)
  | opening (builder : Builder)

namespace Reading

/-- Opens a bracket; its position plays a part in an error only. -/
def enter (b : Builder) : Option Reading := (b.openBracket 0).toOption.map .item

def leave (b : Builder) : Option Reading := (b.closeBracket 0).toOption.map .item

def shift : Reading → Lexeme → Option Reading
  | .opening b, .opening => enter b
  | .opening _, _ => none
  | .item b, .digits run =>
    (Number.read? run.toList).map fun x => .item (b.pushTerm (.literal (some x)))
  | .item b, .name run => some (.item (b.pushTerm (.ident run)))
  | .item _, .quoted [] => none
  | .item b, .quoted (c :: _) =>
    some (.item (b.pushTerm (.literal (some (Float.ofNat (Cursor.leadingUnit c))))))
  | .item b, .op o => some (.item (b.pushTerm (.op o)))
  | .item b, .null => some (.item (b.pushTerm (.literal none)))
  | .item b, .opening => enter b
  | .item b, .closing => leave b
  | .item b, .ifTest => some (.opening (b.push (.pending Construct.newCond)))
  | .item b, .thenBranch => (b.clearBranch? .whenTrue).map .opening
  | .item b, .elseBranch => (b.clearBranch? .whenFalse).map .opening
  | .item b, .withValue => b.clearValue?.map .opening
  | .item b, .loop n => some (.opening (b.push (.pending (.loop n none))))
  | .item b, .brk n => some (.item (b.push (.pending (Construct.newBreak n))))
  | .item b, .call n => some (.opening (b.push (.pending (.call n none))))
  | .item b, .pipes param => some (.opening (b.push (.pending (.closure param none))))

/-- The tree, if no bracket is open and none is asked for. -/
def finish : Reading → Option Group
  | .item b => b.finish.toOption
  | .opening _ => none

def read : Reading → List Lexeme → Option Group
  | r, [] => r.finish
  | r, u :: us => (r.shift u).bind fun s => s.read us

/-- The reader of the text with the units that `r` has read behind it. -/
def resume (next : Cursor) : Reading → Option Parser
  | .item b => some ⟨next, b⟩
  | .opening b => (Parser.expectOpening ⟨next, b⟩ .ifTest).toOption

end Reading

/-! ## The reader of the text follows its units -/

namespace Parser

variable (p : Parser)

theorem toOption_openBracket (position : Nat) :
    (p.openBracket position).toOption =
      (Reading.enter p.builder).bind (Reading.resume p.cursor) := by
  unfold openBracket Reading.enter Builder.openBracket
  split <;> rfl

theorem toOption_closeBracket (position : Nat) :
    (p.closeBracket position).toOption =
      (Reading.leave p.builder).bind (Reading.resume p.cursor) := by
  unfold closeBracket Reading.leave Builder.closeBracket
  cases p.builder.outer with
  | nil => rfl
  | cons below outer =>
    cases Node.completeAll p.builder.frame with
    | error e => rfl
    | ok g => rfl

theorem toOption_expectOpening (after : Keyword) :
    (p.expectOpening after).toOption = (Reading.opening p.builder).resume p.cursor := by
  show (p.expectOpening after).toOption = (p.expectOpening .ifTest).toOption
  unfold expectOpening
  split <;> rfl

theorem toOption_branch (keyword : Keyword) (slot : Construct.Slot) (position : Nat) :
    (p.branch keyword slot position).toOption =
      ((p.builder.clearBranch? slot).map Reading.opening).bind (Reading.resume p.cursor) := by
  unfold branch
  cases p.builder.clearBranch? slot with
  | none => rfl
  | some b => exact toOption_expectOpening ⟨p.cursor, b⟩ keyword

theorem toOption_value (position : Nat) :
    (p.value position).toOption =
      (p.builder.clearValue?.map Reading.opening).bind (Reading.resume p.cursor) := by
  unfold value
  cases p.builder.clearValue? with
  | none => rfl
  | some b => exact toOption_expectOpening ⟨p.cursor, b⟩ .withValue

def follow (b : Builder) (u : Lexeme × Cursor) : Option Parser :=
  ((Reading.item b).shift u.1).bind (Reading.resume u.2)

/-- A keyword that takes a name, whatever it does with it. -/
theorem toOption_named (after : Keyword) (keyword : String → Lexeme)
    (use : String → Parser → Except ParseError Parser)
    (h : ∀ name q, (use name q).toOption = follow q.builder (keyword name, q.cursor)) :
    Except.toOption (match p.expectName after with
      | .error e => .error e
      | .ok (name, q) => use name q) = (p.cursor.named? keyword).bind (follow p.builder) := by
  unfold expectName Cursor.named?
  rcases p.cursor.ident with ⟨run, next⟩
  cases run with
  | none => rfl
  | some name => exact h name ⟨next, p.builder⟩

theorem toOption_loop : p.loop.toOption = (p.cursor.named? .loop).bind (follow p.builder) :=
  p.toOption_named .loop .loop
    (fun name q => (q.pushConstruct (.loop name none)).expectOpening .loop)
    fun name q => toOption_expectOpening (q.pushConstruct (.loop name none)) .loop

theorem toOption_brk : p.brk.toOption = (p.cursor.named? .brk).bind (follow p.builder) :=
  p.toOption_named .brk .brk (fun name q => .ok (q.pushConstruct (Construct.newBreak name)))
    fun _ _ => rfl

theorem toOption_call : p.call.toOption = (p.cursor.named? .call).bind (follow p.builder) :=
  p.toOption_named .call .call
    (fun name q => (q.pushConstruct (.call name none)).expectOpening .call)
    fun name q => toOption_expectOpening (q.pushConstruct (.call name none)) .call

theorem toOption_closure : p.closure.toOption = p.cursor.pipes?.bind (follow p.builder) := by
  unfold closure Cursor.pipes?
  rcases p.cursor.ident with ⟨param, c⟩
  simp only
  rcases c.reserved with ⟨w, next⟩
  cases w with
  | none => rfl
  | some w =>
    cases w with
    | op o => rfl
    | keyword k =>
      cases k with
      | pipe =>
        exact toOption_expectOpening (pushConstruct ⟨next, p.builder⟩ (.closure param none)) .pipe
      | _ => rfl

theorem toOption_charLiteral (position : Nat) :
    (p.charLiteral position).toOption = p.cursor.quoted?.bind (follow p.builder) := by
  unfold charLiteral Cursor.charLiteral Cursor.quoted?
  cases p.cursor.rest.takeWhile Cursor.isNotQuote <;>
    cases (p.cursor.skipWhile Cursor.isNotQuote).rest <;> rfl

theorem toOption_word (position : Nat) (w : Word) :
    (p.word position w).toOption = (p.cursor.word? w).bind (follow p.builder) := by
  cases w with
  | op o => rfl
  | keyword k =>
    cases k with
    | null => rfl
    | quote => exact p.toOption_charLiteral position
    | opening => exact p.toOption_openBracket position
    | closing => exact p.toOption_closeBracket position
    | ifTest => exact toOption_expectOpening (p.pushConstruct Construct.newCond) .ifTest
    | thenBranch => exact p.toOption_branch .thenBranch .whenTrue position
    | elseBranch => exact p.toOption_branch .elseBranch .whenFalse position
    | loop => exact p.toOption_loop
    | brk => exact p.toOption_brk
    | withValue => exact p.toOption_value position
    | pipe => exact p.toOption_closure
    | call => exact p.toOption_call

/-- A step reads one unit, and the opening bracket behind it if the unit asks for one. -/
theorem toOption_step : p.step.toOption = p.cursor.lexeme?.bind (follow p.builder) := by
  unfold step Cursor.lexeme?
  rcases p.cursor.reserved with ⟨w, c⟩
  cases w with
  | some w => exact toOption_word ⟨c, p.builder⟩ _ w
  | none =>
    simp only
    rcases c.number with ⟨run, d⟩
    cases run with
    | some run =>
      simp only [follow, Reading.shift, Option.bind_some]
      cases Number.read? run.toList <;> rfl
    | none =>
      simp only
      rcases d.ident with ⟨name, e⟩
      cases name <;> rfl

variable {p}

theorem run_of_isAtEnd (h : p.cursor.isAtEnd.1 = true) : p.run = p.builder.finish := by
  rw [run, if_pos h]

theorem run_eq_bind (h : p.cursor.isAtEnd.1 = false) : p.run = p.step.bind run := by
  rw [run, h]
  simp only [Bool.false_eq_true, if_false]
  split
  · rename_i hs
    rw [hs]
    rfl
  · rename_i hs
    rw [hs]
    rfl

theorem run_of_not_isAtEnd (h : p.cursor.isAtEnd.1 = false) :
    p.run.toOption = p.step.toOption.bind fun q => q.run.toOption := by
  rw [run_eq_bind h]
  cases p.step with
  | error e => rfl
  | ok q => rfl

theorem bind_read_cons (next : Cursor) (u : Lexeme) (r : Reading) :
    (next.lexemes.map fun us => u :: us).bind r.read =
      (r.shift u).bind fun s => next.lexemes.bind s.read := by
  cases next.lexemes with
  | none => cases r.shift u <;> rfl
  | some us => rfl

theorem run_opening (c : Cursor) (b : Builder)
    (ih : ∀ next, next.rest.length < c.rest.length → ∀ b,
      (run ⟨next, b⟩).toOption = next.lexemes.bind (Reading.item b).read) :
    ((Reading.opening b).resume c).bind (fun q => q.run.toOption) =
      c.lexemes.bind (Reading.opening b).read := by
  show (expectOpening ⟨c, b⟩ .ifTest).toOption.bind _ = _
  unfold expectOpening
  split
  · rename_i next hr
    have hr : c.reserved = (some (.keyword .opening), next) := hr
    have hl := Cursor.lexeme?_eq_opening_iff.mpr hr
    rw [Cursor.lexemes_of_not_isAtEnd (Cursor.isAtEnd_of_reserved hr), hl, toOption_openBracket,
      Option.bind_some, bind_read_cons]
    show ((Reading.enter b).bind _).bind _ = (Reading.enter b).bind _
    unfold Reading.enter
    cases b.openBracket 0 with
    | error e => rfl
    | ok d => exact ih next (Cursor.rest_lexeme?_lt hl) d
  · rename_i hr
    cases he : c.isAtEnd.1 with
    | true =>
      rw [Cursor.lexemes_of_isAtEnd he]
      rfl
    | false =>
      rw [Cursor.lexemes_of_not_isAtEnd he]
      cases hl : c.lexeme? with
      | none => rfl
      | some u =>
        obtain ⟨u, next⟩ := u
        rw [Option.bind_some, bind_read_cons]
        cases u with
        | opening => exact (hr next (Cursor.lexeme?_eq_opening_iff.mp hl)).elim
        | _ => rfl

/-- Reading a text is reading its units. -/
theorem run_toOption (c : Cursor) (b : Builder) :
    (run ⟨c, b⟩).toOption = c.lexemes.bind (Reading.item b).read := by
  -- by what is left and not step by step: one step may read two units
  induction hn : c.rest.length using Nat.strongRecOn generalizing c b with
  | ind n ih =>
    have ih : ∀ next, next.rest.length < c.rest.length → ∀ b,
        (run ⟨next, b⟩).toOption = next.lexemes.bind (Reading.item b).read :=
      fun next hl b => ih _ (hn ▸ hl) next b rfl
    cases he : c.isAtEnd.1 with
    | true =>
      rw [run_of_isAtEnd he, Cursor.lexemes_of_isAtEnd he]
      rfl
    | false =>
      rw [run_of_not_isAtEnd he, Cursor.lexemes_of_not_isAtEnd he, toOption_step]
      cases hu : c.lexeme? with
      | none => rfl
      | some u =>
        obtain ⟨u, next⟩ := u
        have hl := Cursor.rest_lexeme?_lt hu
        rw [Option.bind_some, Option.bind_some, bind_read_cons]
        unfold follow
        cases (Reading.item b).shift u with
        | none => rfl
        | some r =>
          cases r with
          | item d => exact ih next hl d
          | opening d => exact run_opening next d fun e h => ih e (Nat.lt_trans h hl)

end Parser

theorem parse_toOption (source : String) :
    (parse source).toOption =
      (Cursor.ofString source).lexemes.bind (Reading.item Builder.empty).read :=
  Parser.run_toOption _ _

end Reader
end Bracket

import Bracket.Number.Text
import Bracket.Reader.Builder
import Bracket.Reader.Lexeme

/-!
# Bracket.Reader.Parse

Reading a text into the tree of a program. Brackets are kept on an explicit stack of frames, so
the reader does not recurse into them; each step reads one unit and leaves strictly less of the
text, which is why reading ends.
-/

namespace Bracket
namespace Reader

open Text

structure Parser where
  cursor : Cursor
  builder : Builder

namespace Parser

def start (source : String) : Parser := ⟨Cursor.ofString source, Builder.empty⟩

def pushTerm (p : Parser) (t : Term) : Parser := ⟨p.cursor, p.builder.pushTerm t⟩

def pushConstruct (p : Parser) (c : Construct) : Parser := ⟨p.cursor, p.builder.push (.pending c)⟩

/-- Opens the bracket at a position that has been read already. -/
def openBracket (p : Parser) (position : Nat) : Except ParseError Parser :=
  (p.builder.openBracket position).map fun b => ⟨p.cursor, b⟩

def closeBracket (p : Parser) (position : Nat) : Except ParseError Parser :=
  (p.builder.closeBracket position).map fun b => ⟨p.cursor, b⟩

def expectOpening (p : Parser) (after : Keyword) : Except ParseError Parser :=
  match p.cursor.reserved with
  | (some (.keyword .opening), next) =>
    openBracket ⟨next, p.builder⟩ p.cursor.skipBlanks.position
  | _ => .error (.expectedOpening after p.cursor.skipBlanks.position)

def expectName (p : Parser) (after : Keyword) : Except ParseError (String × Parser) :=
  match p.cursor.ident with
  | (some name, next) => .ok (name, ⟨next, p.builder⟩)
  | (none, _) => .error (.expectedName after p.cursor.skipBlanks.position)

/-! ## Keywords -/

/-- `then` and `else` ask for a branch of the conditional right before them. -/
def branch (p : Parser) (keyword : Keyword) (slot : Construct.Slot) (position : Nat) :
    Except ParseError Parser :=
  match p.builder.clearBranch? slot with
  | some b => expectOpening ⟨p.cursor, b⟩ keyword
  | none => .error (.misplacedKeyword keyword .ifTest position)

/-- `with` asks for the value of the break right before it. -/
def value (p : Parser) (position : Nat) : Except ParseError Parser :=
  match p.builder.clearValue? with
  | some b => expectOpening ⟨p.cursor, b⟩ .withValue
  | none => .error (.misplacedKeyword .withValue .brk position)

def loop (p : Parser) : Except ParseError Parser :=
  match p.expectName .loop with
  | .error e => .error e
  | .ok (name, p) => (p.pushConstruct (.loop name none)).expectOpening .loop

def brk (p : Parser) : Except ParseError Parser :=
  match p.expectName .brk with
  | .error e => .error e
  | .ok (name, p) => .ok (p.pushConstruct (Construct.newBreak name))

def call (p : Parser) : Except ParseError Parser :=
  match p.expectName .call with
  | .error e => .error e
  | .ok (name, p) => (p.pushConstruct (.call name none)).expectOpening .call

/-- After the first pipe: a name or nothing, the second pipe, and the body. -/
def closure (p : Parser) : Except ParseError Parser :=
  let (param, c) := p.cursor.ident
  match c.reserved with
  | (some (.keyword .pipe), next) =>
    (pushConstruct ⟨next, p.builder⟩ (.closure param none)).expectOpening .pipe
  | _ => .error (.unclosedPipe c.skipBlanks.position)

def charLiteral (p : Parser) (position : Nat) : Except ParseError Parser :=
  match p.cursor.charLiteral position with
  | (.ok code, next) => .ok (pushTerm ⟨next, p.builder⟩ (.literal (some code)))
  | (.error e, _) => .error e

/-- What a reserved word asks for; the word started at `position` and has been read. -/
def word (p : Parser) (position : Nat) : Word → Except ParseError Parser
  | .op o => .ok (p.pushTerm (.op o))
  | .keyword .null => .ok (p.pushTerm (.literal none))
  | .keyword .quote => p.charLiteral position
  | .keyword .opening => p.openBracket position
  | .keyword .closing => p.closeBracket position
  | .keyword .ifTest => (p.pushConstruct Construct.newCond).expectOpening .ifTest
  | .keyword .thenBranch => p.branch .thenBranch .whenTrue position
  | .keyword .elseBranch => p.branch .elseBranch .whenFalse position
  | .keyword .loop => p.loop
  | .keyword .brk => p.brk
  | .keyword .withValue => p.value position
  | .keyword .pipe => p.closure
  | .keyword .call => p.call

/-! ## Steps -/

/-- Reads one unit: a reserved word with what it asks for, a number or an identifier. -/
def step (p : Parser) : Except ParseError Parser :=
  let position := p.cursor.skipBlanks.position
  match p.cursor.reserved with
  | (some w, next) => word ⟨next, p.builder⟩ position w
  | (none, c) =>
    match c.number with
    | (some run, next) =>
      match Number.read? run.toList with
      | some x => .ok (pushTerm ⟨next, p.builder⟩ (.literal (some x)))
      | none => .error (.invalidNumber run position)
    | (none, c) =>
      match c.ident with
      | (some name, next) => .ok (pushTerm ⟨next, p.builder⟩ (.ident name))
      | (none, c) => .error (.unknownOperator c.unknownRun.1 position)

end Parser
end Reader
end Bracket

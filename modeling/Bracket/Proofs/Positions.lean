import Bracket.Proofs.Slots
import Bracket.Proofs.Spelling

/-!
# Bracket.Proofs.Positions

What stands in a text where an error says it is. A cursor counts the bytes before the characters it
has still to read (`Leads`), so a position that an error takes from a cursor is the place of those
characters. `Traced` adds the units that were read up to the cursor: as many of their brackets are
open as the stack has frames. `Tracks` follows both through the things a step can do, and says of an
error what it points at (`Points`).
-/

namespace Bracket

namespace Text
namespace Cursor

open Reader

/-! ## Places -/

theorem byteLength_append (a b : List Char) : byteLength (a ++ b) = byteLength a + byteLength b := by
  induction a with
  | nil => exact (Nat.zero_add _).symm
  | cons c a ih =>
    show c.utf8Size + byteLength (a ++ b) = c.utf8Size + byteLength a + byteLength b
    rw [ih, Nat.add_assoc]

theorem byteLength_eq (text : List Char) : byteLength text = (String.ofList text).utf8ByteSize := by
  induction text with
  | nil => rfl
  | cons c text ih =>
    have hcons : String.ofList (c :: text) = String.singleton c ++ String.ofList text := by
      simp
    rw [hcons, String.utf8ByteSize_append, String.utf8ByteSize_singleton, ← ih]
    rfl

/-- The second cursor lies behind the first one in the same text. -/
def Leads (c d : Cursor) : Prop :=
  ∃ run, c.rest = run ++ d.rest ∧ d.position = c.position + byteLength run

variable {c d e next : Cursor}

theorem Leads.refl (c : Cursor) : Leads c c := ⟨[], rfl, rfl⟩

theorem Leads.trans (h : Leads c d) (h' : Leads d e) : Leads c e := by
  obtain ⟨run, hrest, hposition⟩ := h
  obtain ⟨run', hrest', hposition'⟩ := h'
  refine ⟨run ++ run', ?_, ?_⟩
  · rw [hrest, hrest', List.append_assoc]
  · rw [hposition', hposition, byteLength_append, Nat.add_assoc]

theorem leads_advance (c : Cursor) (n : Nat) : Leads c (c.advance n) :=
  ⟨c.rest.take n, (List.take_append_drop n c.rest).symm, rfl⟩

theorem leads_skipWhile (c : Cursor) (test : Char → Bool) : Leads c (c.skipWhile test) :=
  ⟨c.rest.takeWhile test, List.takeWhile_append_dropWhile.symm, rfl⟩

theorem leads_popWhile (c : Cursor) (test : Char → Bool) : Leads c (c.popWhile test).2 := by
  unfold popWhile
  split
  · exact .refl c
  · exact c.leads_skipWhile test

theorem leads_skipBlanks (c : Cursor) : Leads c c.skipBlanks := c.leads_skipWhile isBlank

theorem leads_reserved (c : Cursor) : Leads c c.reserved.2 := by
  unfold reserved
  split
  · exact c.leads_skipBlanks.trans (c.skipBlanks.leads_advance _)
  · exact c.leads_skipBlanks

theorem leads_number (c : Cursor) : Leads c c.number.2 :=
  c.leads_skipBlanks.trans (c.skipBlanks.leads_popWhile isDigit)

theorem leads_ident (c : Cursor) : Leads c c.ident.2 :=
  c.leads_skipBlanks.trans (c.skipBlanks.leads_popWhile isIdent)

theorem leads_quoted? {u : Lexeme} (h : c.quoted? = some (u, next)) : Leads c next := by
  unfold quoted? at h
  split at h
  · cases h
  · cases h
    exact (c.leads_skipWhile isNotQuote).trans (leads_advance _ 1)

theorem leads_named? {keyword : String → Lexeme} {u : Lexeme}
    (h : c.named? keyword = some (u, next)) : Leads c next := by
  have hname := c.leads_ident
  unfold named? at h
  split at h
  · rename_i hi
    cases h
    rwa [hi] at hname
  · cases h

theorem leads_pipes? {u : Lexeme} (h : c.pipes? = some (u, next)) : Leads c next := by
  have hpipe := c.leads_ident.trans c.ident.2.leads_reserved
  unfold pipes? at h
  split at h
  · rename_i hr
    cases h
    rwa [hr] at hpipe
  · cases h

theorem leads_word? {w : Word} {u : Lexeme} (h : c.word? w = some (u, next)) : Leads c next := by
  cases w with
  | op o => cases h; exact .refl c
  | keyword k =>
    cases k with
    | quote => exact leads_quoted? h
    | loop => exact leads_named? h
    | brk => exact leads_named? h
    | call => exact leads_named? h
    | pipe => exact leads_pipes? h
    | _ => cases h; exact .refl c

theorem leads_lexeme? {u : Lexeme} (h : c.lexeme? = some (u, next)) : Leads c next := by
  have hword := c.leads_reserved
  unfold lexeme? at h
  split at h
  · rename_i w d hw
    rw [hw] at hword
    exact hword.trans (leads_word? h)
  · rename_i d hw
    rw [hw] at hword
    have hnumber := hword.trans d.leads_number
    split at h
    · rename_i hn
      cases h
      rwa [hn] at hnumber
    · rename_i e hn
      rw [hn] at hnumber
      have hident := hnumber.trans e.leads_ident
      split at h
      · rename_i hi
        cases h
        rwa [hi] at hident
      · cases h

/-! ## The units up to a cursor -/

/-- Reading these units leads from the first cursor to the second. -/
inductive Scans : Cursor → List Lexeme → Cursor → Prop
  | nil {c : Cursor} : Scans c [] c
  | cons {c d e : Cursor} {u : Lexeme} {us : List Lexeme} (unit : c.lexeme? = some (u, d))
      (rest : Scans d us e) : Scans c (u :: us) e

theorem Scans.append {us vs : List Lexeme} (h : Scans c us d) (h' : Scans d vs e) :
    Scans c (us ++ vs) e := by
  induction h with
  | nil => exact h'
  | cons unit _ ih => exact .cons unit (ih h')

theorem Scans.leads {us : List Lexeme} (h : Scans c us d) : Leads c d := by
  induction h with
  | nil => exact .refl _
  | cons unit _ ih => exact (leads_lexeme? unit).trans ih

/-- Where only blanks are left there is no unit. -/
theorem isAtEnd_of_lexeme? {u : Lexeme} (h : c.lexeme? = some (u, next)) :
    c.isAtEnd.1 = false := by
  have hsome : 0 < c.skipBlanks.rest.length → c.isAtEnd.1 = false := by
    intro hpos
    unfold isAtEnd
    rw [List.isEmpty_eq_false_iff]
    exact List.ne_nil_of_length_pos hpos
  unfold lexeme? at h
  split at h
  · rename_i hw
    exact isAtEnd_of_reserved hw
  · rename_i d hw
    obtain ⟨rfl, -⟩ := of_reserved_none hw
    split at h
    · rename_i run e hn
      have hlt := rest_number_lt (show c.skipBlanks.number.1 = some run by rw [hn])
      exact hsome (Nat.zero_lt_of_lt hlt)
    · rename_i e hn
      have hle := c.skipBlanks.rest_number_le
      rw [hn] at hle
      split at h
      · rename_i name f hi
        have hlt := rest_ident_lt (show e.ident.1 = some name by rw [hi])
        exact hsome (Nat.lt_of_lt_of_le (Nat.zero_lt_of_lt hlt) hle)
      · cases h

theorem Scans.lexemes {us : List Lexeme} (h : Scans c us d) (hend : d.isAtEnd.1 = true) :
    c.lexemes = some us := by
  induction h with
  | nil => exact lexemes_of_isAtEnd hend
  | cons unit _ ih =>
    rw [lexemes_of_not_isAtEnd (isAtEnd_of_lexeme? unit), unit, Option.bind_some, ih hend]
    rfl

theorem lexeme?_of_reserved {w : Word} (h : c.reserved = (some w, next)) :
    c.lexeme? = next.word? w := by
  rw [lexeme?, h]

/-! ## What stands at a cursor -/

theorem head_dropWhile (test : Char → Bool) (text : List Char) :
    ∀ x ∈ (text.dropWhile test).head?, test x = false := by
  intro x hx
  have h := List.head?_dropWhile_not test text
  rw [hx] at h
  exact h

theorem head_skipBlanks (c : Cursor) : ∀ x ∈ c.skipBlanks.rest.head?, isBlank x = false :=
  head_dropWhile isBlank c.rest

theorem skipBlanks_skipBlanks (c : Cursor) : c.skipBlanks.skipBlanks = c.skipBlanks := by
  have hnone := (stops_at_head c.head_skipBlanks).1
  have hrest := c.rest_skipBlanks_skipBlanks
  have hposition : c.skipBlanks.skipBlanks.position = c.skipBlanks.position := by
    show c.skipBlanks.position + byteLength (c.skipBlanks.rest.takeWhile isBlank) = _
    rw [hnone]
    rfl
  generalize c.skipBlanks.skipBlanks = d at hrest hposition
  cases d
  cases hrest
  cases hposition
  rfl

theorem letters_of_reserved {w : Word} (h : c.reserved = (some w, next)) :
    w.letters <+: c.skipBlanks.rest := by
  unfold reserved at h
  split at h
  · rename_i v hv
    cases h
    exact List.isPrefixOf_iff_prefix.mp (Word.isPrefixOf_of_longest? hv)
  · cases h

/-- A run that is given back ends where its class does. -/
theorem popWhile_stops {test : Char → Bool} {run : String}
    (h : (c.popWhile test).1 = some run) :
    ∃ tail, c.rest = run.toList ++ tail ∧ ∀ x ∈ tail.head?, test x = false := by
  unfold popWhile at h
  split at h
  · cases h
  · cases h
    refine ⟨c.rest.dropWhile test, ?_, head_dropWhile test c.rest⟩
    rw [String.toList_ofList, List.takeWhile_append_dropWhile]

end Cursor
end Text

namespace Reader

open Text

/-! ## What an error points at -/

/-- How many brackets the units leave open, if each closing bracket finds one. -/
def stillOpen : Nat → List Lexeme → Option Nat
  | d, [] => some d
  | d, .opening :: us => stillOpen (d + 1) us
  | 0, .closing :: _ => none
  | d + 1, .closing :: us => stillOpen d us
  | d, _ :: us => stillOpen d us

def Lexeme.isOpening : Lexeme → Bool
  | .opening => true
  | _ => false

def Lexeme.isClosing : Lexeme → Bool
  | .closing => true
  | _ => false

/-- The characters stand behind the first `n` bytes of the text. -/
def At (source : String) (n : Nat) (rest : List Char) : Prop :=
  ∃ before : String, source = before ++ String.ofList rest ∧ before.utf8ByteSize = n

/-- The units stand before the first `n` bytes are over, and no unit comes between them and that
place. -/
def Before (source : String) (n : Nat) (us : List Lexeme) : Prop :=
  ∃ c : Cursor, (Cursor.ofString source).Scans us c ∧ c.skipBlanks.position = n

/-- The longest run of a class from a place on. What is before it belongs to other units. -/
structure LongestRun (source : String) (test : Char → Bool) (run : String) (n : Nat) : Prop where
  isRun : IsRun test run
  stands : ∃ tail, At source n (run.toList ++ tail) ∧ ∀ x ∈ tail.head?, test x = false
  before : ∃ us, Before source n us

/-- The next character, if there is one, is not a blank and not the one that is asked for. -/
def Misses (source : String) (n : Nat) (wanted : Char → Bool) : Prop :=
  ∃ rest, At source n rest ∧ ∀ x ∈ rest.head?, isBlank x = false ∧ wanted x = false

/-- What an error says of the text is so. -/
def Points (source : String) : ParseError → Prop
  | .unopenedBracket n => ∃ tail us, At source n (')' :: tail) ∧ Before source n us ∧
      stillOpen 0 us = some 0
  | .nestingLimit limit n => limit = 1024 ∧ ∃ tail us, At source n ('(' :: tail) ∧
      Before source n us ∧ stillOpen 0 us = some 1024
  | .unclosedLiteral n => ∃ tail, At source n ('\'' :: tail)
  | .misplacedKeyword k _ n => ∃ tail, At source n (k.letters ++ tail)
  | .invalidNumber run n => LongestRun source isDigit run n
  | .unknownOperator run n => LongestRun source isUnknown run n
  | .expectedOpening _ n => Misses source n (· == '(')
  | .expectedName _ n => Misses source n isIdent
  | .unclosedPipe n => Misses source n (· == '|')
  | .unclosedBracket n => 1 ≤ n ∧ ∃ us, (Cursor.ofString source).lexemes = some us ∧
      us.countP Lexeme.isOpening = us.countP Lexeme.isClosing + n
  | .incompleteConstruct _ => False

def ParseError.position? : ParseError → Option Nat
  | .unknownOperator _ n | .unclosedLiteral n | .unopenedBracket n | .expectedOpening _ n
  | .misplacedKeyword _ _ n | .expectedName _ n | .unclosedPipe n | .invalidNumber _ n
  | .nestingLimit _ n => some n
  | .unclosedBracket _ | .incompleteConstruct _ => none

theorem At.isValid {source : String} {n : Nat} {rest : List Char} (h : At source n rest) :
    String.Pos.Raw.IsValid source ⟨n⟩ := by
  obtain ⟨before, hsource, hn⟩ := h
  refine String.Pos.Raw.isValid_iff_exists_append.mpr ⟨before, _, hsource, ?_⟩
  rw [← hn]
  rfl

/-- An error that has a position points into the text. -/
theorem Points.isValid {source : String} {e : ParseError} (h : Points source e) {n : Nat}
    (hn : e.position? = some n) : String.Pos.Raw.IsValid source ⟨n⟩ := by
  cases e with
  | unopenedBracket =>
    cases hn
    obtain ⟨tail, us, h, -⟩ := h
    exact h.isValid
  | unclosedLiteral | misplacedKeyword =>
    cases hn
    obtain ⟨tail, h⟩ := h
    exact h.isValid
  | nestingLimit =>
    cases hn
    obtain ⟨-, tail, us, h, -⟩ := h
    exact h.isValid
  | invalidNumber | unknownOperator =>
    cases hn
    obtain ⟨tail, h, -⟩ := h.stands
    exact h.isValid
  | expectedOpening | expectedName | unclosedPipe =>
    cases hn
    obtain ⟨rest, h, -⟩ := h
    exact h.isValid
  | unclosedBracket | incompleteConstruct => cases hn

theorem stillOpen_append (us vs : List Lexeme) : ∀ d,
    stillOpen d (us ++ vs) = (stillOpen d us).bind fun d' => stillOpen d' vs := by
  induction us with
  | nil => exact fun _ => rfl
  | cons u us ih =>
    intro d
    cases u with
    | opening => exact ih (d + 1)
    | closing =>
      cases d with
      | zero => rfl
      | succ d => exact ih d
    | _ => exact ih d

theorem countP_of_stillOpen {us : List Lexeme} : ∀ {d n : Nat}, stillOpen d us = some n →
    d + us.countP Lexeme.isOpening = us.countP Lexeme.isClosing + n := by
  induction us with
  | nil =>
    intro d n h
    cases h
    exact Nat.add_comm d 0
  | cons u us ih =>
    intro d n h
    rw [List.countP_cons, List.countP_cons]
    cases u with
    | opening =>
      have hus := ih (d := d + 1) h
      simp only [Lexeme.isOpening, Lexeme.isClosing, if_true, Bool.false_eq_true, if_false]
      omega
    | closing =>
      cases d with
      | zero => cases h
      | succ d =>
        have hus := ih (d := d) h
        simp only [Lexeme.isOpening, Lexeme.isClosing, if_true, Bool.false_eq_true, if_false]
        omega
    | _ => exact ih (d := d) h

/-! ## One step -/

/-- The parser has read the units, and its stack has a frame for each bracket they leave open. -/
structure Traced (source : String) (us : List Lexeme) (p : Parser) : Prop where
  scans : (Cursor.ofString source).Scans us p.cursor
  opened : stillOpen 0 us = some p.builder.outer.length
  bounded : p.builder.outer.length ≤ maxNesting

/-- A result that has read further, or an error that points at what it says. -/
def Tracks (source : String) : Except ParseError Parser → Prop
  | .ok p => ∃ us, Traced source us p
  | .error e => Points source e

theorem at_of_leads {source : String} {c : Cursor} (h : (Cursor.ofString source).Leads c) :
    At source c.position c.rest := by
  obtain ⟨run, hrest, hposition⟩ := h
  refine ⟨String.ofList run, ?_, ?_⟩
  · rw [← String.ofList_append, ← hrest]
    exact String.ofList_toList.symm
  · rw [hposition, ← Cursor.byteLength_eq]
    exact (Nat.zero_add _).symm

/-- A word of one character that is not read is not there. -/
theorem misses_of_reserved {source : String} {c : Cursor} {x : Char} {w : Word}
    (hat : At source c.skipBlanks.position c.skipBlanks.rest)
    (hword : ∀ tail, Word.longest? (x :: tail) = some w)
    (hother : ∀ next, c.reserved = (some w, next) → False) :
    Misses source c.skipBlanks.position (· == x) := by
  refine ⟨_, hat, fun y hy => ⟨c.head_skipBlanks y hy, ?_⟩⟩
  rw [beq_eq_false_iff_ne]
  rintro rfl
  obtain ⟨tail, htail⟩ := List.head?_eq_some_iff.mp hy
  refine hother (c.skipBlanks.advance w.letters.length) ?_
  rw [Cursor.reserved, htail, hword]

namespace Traced

variable {source : String} {us : List Lexeme} {p : Parser} {c next : Cursor} {b b' : Builder}

theorem stands (h : Traced source us p) :
    At source p.cursor.skipBlanks.position p.cursor.skipBlanks.rest :=
  at_of_leads (h.scans.leads.trans p.cursor.leads_skipBlanks)

theorem before (h : Traced source us p) : Before source p.cursor.skipBlanks.position us :=
  ⟨p.cursor, h.scans, rfl⟩

theorem stands_word {w : Word} (h : Traced source us ⟨c, b⟩) (hw : c.reserved = (some w, next)) :
    ∃ tail, At source c.skipBlanks.position (w.letters ++ tail) := by
  obtain ⟨tail, htail⟩ := Cursor.letters_of_reserved hw
  exact ⟨tail, htail ▸ h.stands⟩

/-- One more unit. -/
theorem unit {u : Lexeme} (h : Traced source us ⟨c, b⟩) (hu : c.lexeme? = some (u, next))
    (hopen : stillOpen b.outer.length [u] = some b'.outer.length)
    (hroom : b'.outer.length ≤ maxNesting) : Traced source (us ++ [u]) ⟨next, b'⟩ where
  scans := h.scans.append (.cons hu .nil)
  opened := by rw [stillOpen_append, h.opened, Option.bind_some, hopen]
  bounded := hroom

theorem plain {u : Lexeme} (h : Traced source us ⟨c, b⟩) (hu : c.lexeme? = some (u, next))
    (hplain : ∀ d, stillOpen d [u] = some d) (hb : b'.outer = b.outer) :
    Traced source (us ++ [u]) ⟨next, b'⟩ :=
  h.unit hu (by rw [hplain, hb]) (hb ▸ h.bounded)

end Traced

namespace Parser

variable {source : String} {us : List Lexeme} {c next : Cursor} {b : Builder}

theorem tracks_openBracket (h : Traced source us ⟨c, b⟩)
    (hw : c.reserved = (some (.keyword .opening), next)) :
    Tracks source (openBracket ⟨next, b⟩ c.skipBlanks.position) := by
  unfold openBracket Builder.openBracket
  split
  · rename_i room
    exact ⟨_, h.unit (Cursor.lexeme?_eq_opening_iff.mpr hw) rfl room⟩
  · rename_i full
    have hlast : b.outer.length = 1024 := Nat.le_antisymm h.bounded (Nat.not_lt.mp full)
    obtain ⟨tail, hat⟩ := h.stands_word hw
    exact ⟨rfl, tail, us, hat, h.before, hlast ▸ h.opened⟩

theorem tracks_closeBracket {openers : List Keyword} (h : Traced source us ⟨c, b⟩)
    (hb : SlotsFilled openers b) (hw : c.reserved = (some (.keyword .closing), next)) :
    Tracks source (closeBracket ⟨next, b⟩ c.skipBlanks.position) := by
  cases openers with
  | nil =>
    obtain ⟨frame, outer⟩ := b
    obtain ⟨-, houter⟩ := hb
    cases houter
    obtain ⟨tail, hat⟩ := h.stands_word hw
    exact ⟨tail, us, hat, h.before, h.opened⟩
  | cons k openers =>
    obtain ⟨f, outer, g, houter, -, hclose, -, -⟩ :=
      closeBracket_eq (p := ⟨next, b⟩) hb c.skipBlanks.position
    have hlength : b.outer.length = outer.length + 1 := congrArg List.length houter
    have hroom := h.bounded
    rw [hclose]
    refine ⟨_, h.unit (u := .closing) (Cursor.lexeme?_of_reserved hw) ?_ ?_⟩
    · rw [hlength]
      rfl
    · rw [show (Parser.mk c b).builder.outer.length = outer.length + 1 from hlength] at hroom
      exact Nat.le_of_succ_le hroom

theorem tracks_expectOpening {p : Parser} (h : Traced source us p) (after : Keyword) :
    Tracks source (p.expectOpening after) := by
  unfold expectOpening
  split
  · rename_i next hw
    exact tracks_openBracket h hw
  · rename_i hother
    exact misses_of_reserved h.stands (fun _ => rfl) hother

theorem tracks_named {k after : Keyword} {keyword : String → Lexeme}
    {use : String → Parser → Except ParseError Parser} (h : Traced source us ⟨c, b⟩)
    (hw : c.reserved = (some (.keyword k), next))
    (hnamed : next.word? (.keyword k) = next.named? keyword)
    (huse : ∀ name d, c.lexeme? = some (keyword name, d) → Tracks source (use name ⟨d, b⟩)) :
    Tracks source (match expectName ⟨next, b⟩ after with
      | .error e => .error e
      | .ok (name, q) => use name q) := by
  have hu : c.lexeme? = next.named? keyword := (Cursor.lexeme?_of_reserved hw).trans hnamed
  have hleads : c.Leads next := by
    have hword := c.leads_reserved
    rwa [hw] at hword
  unfold expectName
  unfold Cursor.named? at hu
  rcases hi : next.ident with ⟨name, d⟩
  rw [hi] at hu
  cases name with
  | some name => exact huse name d hu
  | none =>
    obtain ⟨-, hnone⟩ := Cursor.of_popWhile_none hi
    have hat := at_of_leads ((h.scans.leads.trans hleads).trans next.leads_skipBlanks)
    exact ⟨_, hat, fun x hx => ⟨next.head_skipBlanks x hx, hnone x hx⟩⟩

theorem tracks_closure (h : Traced source us ⟨c, b⟩)
    (hw : c.reserved = (some (.keyword .pipe), next)) : Tracks source (closure ⟨next, b⟩) := by
  have hu : c.lexeme? = next.pipes? := Cursor.lexeme?_of_reserved hw
  have hleads : c.Leads next.ident.2 := by
    have hword := c.leads_reserved
    rw [hw] at hword
    exact hword.trans next.leads_ident
  unfold closure
  unfold Cursor.pipes? at hu
  simp only
  split
  · rename_i d hpipe
    rw [hpipe] at hu
    have hp : Traced source (us ++ [_]) (pushConstruct ⟨d, b⟩ (.closure next.ident.1 none)) :=
      h.plain hu (fun _ => rfl) rfl
    exact tracks_expectOpening hp .pipe
  · rename_i hother
    have hat := at_of_leads ((h.scans.leads.trans hleads).trans next.ident.2.leads_skipBlanks)
    exact misses_of_reserved hat (fun _ => rfl) hother

theorem tracks_branch (h : Traced source us ⟨c, b⟩) {k : Keyword} {slot : Construct.Slot}
    {u : Lexeme} (hw : c.reserved = (some (.keyword k), next))
    (hu : next.word? (.keyword k) = some (u, next)) (hplain : ∀ d, stillOpen d [u] = some d) :
    Tracks source (branch ⟨next, b⟩ k slot c.skipBlanks.position) := by
  unfold branch Builder.clearBranch?
  split
  · rename_i b' hb
    split at hb
    · cases hb
      have hu := (Cursor.lexeme?_of_reserved hw).trans hu
      have hp : ∀ f, Traced source (us ++ [u]) ⟨next, f, b.outer⟩ :=
        fun f => h.plain hu hplain rfl
      exact tracks_expectOpening (hp _) k
    · cases hb
  · exact h.stands_word hw

theorem tracks_value (h : Traced source us ⟨c, b⟩)
    (hw : c.reserved = (some (.keyword .withValue), next)) :
    Tracks source (value ⟨next, b⟩ c.skipBlanks.position) := by
  unfold value Builder.clearValue?
  split
  · rename_i b' hb
    split at hb
    · cases hb
      have hu : c.lexeme? = some (.withValue, next) := Cursor.lexeme?_of_reserved hw
      have hp : ∀ f, Traced source (us ++ [_]) ⟨next, f, b.outer⟩ :=
        fun f => h.plain hu (fun _ => rfl) rfl
      exact tracks_expectOpening (hp _) .withValue
    · cases hb
  · exact h.stands_word hw

theorem tracks_charLiteral (h : Traced source us ⟨c, b⟩)
    (hw : c.reserved = (some (.keyword .quote), next)) :
    Tracks source (charLiteral ⟨next, b⟩ c.skipBlanks.position) := by
  have hu : c.lexeme? = next.quoted? := Cursor.lexeme?_of_reserved hw
  unfold charLiteral Cursor.charLiteral
  unfold Cursor.quoted? at hu
  split
  · rename_i hc
    split at hc
    · rename_i hrest
      cases hc
      rw [hrest] at hu
      exact ⟨_, h.plain hu (fun _ => rfl) rfl⟩
    · cases hc
  · rename_i hc
    split at hc
    · cases hc
    · cases hc
      exact h.stands_word hw

theorem tracks_word {openers : List Keyword} {w : Word} (h : Traced source us ⟨c, b⟩)
    (hb : SlotsFilled openers b) (hw : c.reserved = (some w, next)) :
    Tracks source (word ⟨next, b⟩ c.skipBlanks.position w) := by
  cases w with
  | op o => exact ⟨_, h.plain (Cursor.lexeme?_of_reserved hw) (fun _ => rfl) rfl⟩
  | keyword k =>
    cases k with
    | null => exact ⟨_, h.plain (Cursor.lexeme?_of_reserved hw) (fun _ => rfl) rfl⟩
    | quote => exact tracks_charLiteral h hw
    | opening => exact tracks_openBracket h hw
    | closing => exact tracks_closeBracket h hb hw
    | ifTest =>
      have hp : Traced source (us ++ [_]) (pushConstruct ⟨next, b⟩ Construct.newCond) :=
        h.plain (Cursor.lexeme?_of_reserved hw) (fun _ => rfl) rfl
      exact tracks_expectOpening hp .ifTest
    | thenBranch => exact tracks_branch h hw rfl fun _ => rfl
    | elseBranch => exact tracks_branch h hw rfl fun _ => rfl
    | loop =>
      refine tracks_named h hw rfl fun name d hu => ?_
      have hp : Traced source (us ++ [_]) (pushConstruct ⟨d, b⟩ (.loop name none)) :=
        h.plain hu (fun _ => rfl) rfl
      exact tracks_expectOpening hp .loop
    | brk =>
      refine tracks_named h hw rfl fun name d hu => ?_
      exact ⟨_, h.plain hu (fun _ => rfl) rfl⟩
    | withValue => exact tracks_value h hw
    | pipe => exact tracks_closure h hw
    | call =>
      refine tracks_named h hw rfl fun name d hu => ?_
      have hp : Traced source (us ++ [_]) (pushConstruct ⟨d, b⟩ (.call name none)) :=
        h.plain hu (fun _ => rfl) rfl
      exact tracks_expectOpening hp .call

/-- The text of a run that the reader gets back where a unit would begin. -/
theorem longestRun_of_popWhile {test : Char → Bool} {run : String} (h : Traced source us ⟨c, b⟩)
    (hpop : (c.skipBlanks.popWhile test).1 = some run) :
    LongestRun source test run c.skipBlanks.position := by
  obtain ⟨hrun, -⟩ := Cursor.of_popWhile_some hpop
  obtain ⟨tail, hrest, htail⟩ := Cursor.popWhile_stops hpop
  exact ⟨hrun, ⟨tail, hrest ▸ h.stands, htail⟩, us, h.before⟩

theorem tracks_step {openers : List Keyword} (h : Traced source us ⟨c, b⟩)
    (hb : SlotsFilled openers b) (hmore : c.isAtEnd.1 = false) : Tracks source (step ⟨c, b⟩) := by
  unfold step
  simp only
  split
  · rename_i w next hw
    exact tracks_word h hb hw
  · rename_i d hw
    obtain ⟨rfl, -⟩ := Cursor.of_reserved_none hw
    unfold Cursor.number
    rw [Cursor.skipBlanks_skipBlanks]
    split
    · rename_i run e hn
      have hn' : (c.skipBlanks.popWhile isDigit).1 = some run := by rw [hn]
      have hu : c.lexeme? = some (.digits run, e) := by
        rw [Cursor.lexeme?, hw]
        simp only [Cursor.number, Cursor.skipBlanks_skipBlanks, hn]
      split
      · exact ⟨_, h.plain hu (fun _ => rfl) rfl⟩
      · exact longestRun_of_popWhile h hn'
    · rename_i e hn
      obtain ⟨rfl, hnodigit⟩ := Cursor.of_popWhile_none hn
      unfold Cursor.ident
      rw [Cursor.skipBlanks_skipBlanks]
      split
      · rename_i name f hi
        have hu : c.lexeme? = some (.name name, f) := by
          rw [Cursor.lexeme?, hw]
          simp only [Cursor.number, Cursor.ident, Cursor.skipBlanks_skipBlanks, hn, hi]
        exact ⟨_, h.plain hu (fun _ => rfl) rfl⟩
      · rename_i f hi
        obtain ⟨rfl, hnoident⟩ := Cursor.of_popWhile_none hi
        unfold Cursor.unknownRun
        rw [Cursor.skipBlanks_skipBlanks]
        split
        · rename_i run g hrun
          exact longestRun_of_popWhile h (by rw [hrun])
        · -- no class is left for the next character
          rename_i g hrun
          obtain ⟨-, hknown⟩ := Cursor.of_popWhile_none hrun
          obtain ⟨x, xs, hx⟩ := List.exists_cons_of_ne_nil (List.isEmpty_eq_false_iff.mp hmore)
          have hhead : x ∈ c.skipBlanks.rest.head? := hx ▸ rfl
          have hunknown : isUnknown x = true := by
            simp only [isUnknown, c.head_skipBlanks x hhead, hnodigit x hhead, hnoident x hhead,
              Bool.not_false, Bool.and_self]
          rw [hknown x hhead] at hunknown
          cases hunknown

/-! ## A whole reading -/

theorem Passes.traced {openers : List Keyword} {p : Parser} (h : Passes source openers p) :
    ∃ us, Traced source us p := by
  induction h with
  | start => exact ⟨[], .nil, rfl, Nat.zero_le _⟩
  | step before more next ih =>
    obtain ⟨us, htraced⟩ := ih
    have htracks := tracks_step htraced before.slotsFilled more
    rwa [next] at htracks

theorem points_of_finish {openers : List Keyword} {p : Parser} {e : ParseError}
    (h : Traced source us p) (hb : SlotsFilled openers p.builder) (hend : p.cursor.isAtEnd.1 = true)
    (he : p.builder.finish = .error e) : Points source e := by
  unfold Builder.finish at he
  split at he
  · obtain ⟨g, hg⟩ := hb.frame.sealed
    rw [hg] at he
    cases he
  · rename_i hopen
    cases he
    have hcount := countP_of_stillOpen h.opened
    rw [Nat.zero_add] at hcount
    have hpos : 1 ≤ p.builder.outer.length :=
      List.length_pos_iff.mpr fun hnil => hopen (by rw [hnil]; rfl)
    exact ⟨hpos, us, h.scans.lexemes hend, hcount⟩

theorem points_of_run {openers : List Keyword} {p : Parser} {e : ParseError}
    (h : Passes source openers p) (he : p.run = .error e) : Points source e := by
  induction p using Parser.run.induct generalizing openers with
  | case1 p hend =>
    obtain ⟨us, htraced⟩ := h.traced
    rw [run, if_pos hend] at he
    exact points_of_finish htraced h.slotsFilled hend he
  | case2 p hend e' hs =>
    have hmore := Bool.eq_false_iff.mpr hend
    obtain ⟨us, htraced⟩ := h.traced
    have htracks := tracks_step htraced h.slotsFilled hmore
    rw [run_eq_bind hmore, hs] at he
    cases he
    rwa [hs] at htracks
  | case3 p hend q hs ih =>
    have hmore := Bool.eq_false_iff.mpr hend
    rw [run_eq_bind hmore, hs] at he
    exact ih (h.step hmore hs) he

end Parser

/-- An error about a text has its position, if any, between two characters of it, and what the error
says of the text is so there. -/
theorem error_points_into_source {source : String} {e : ParseError} (h : parse source = .error e) :
    (∀ n, e.position? = some n →
      String.Pos.Raw.IsValid source ⟨n⟩ ∧ n ≤ source.utf8ByteSize) ∧ Points source e := by
  have hpoints := Parser.points_of_run .start h
  refine ⟨fun n hn => ?_, hpoints⟩
  have hvalid := hpoints.isValid hn
  exact ⟨hvalid, hvalid.le_utf8ByteSize⟩

/-- A bracket too many behind a character of two bytes. -/
theorem unopened_bracket_after_literal :
    parse "'é' )" = .error (.unopenedBracket 5) ∧ Points "'é' )" (.unopenedBracket 5) := by
  have h : parse "'é' )" = .error (.unopenedBracket 5) := by
    rw [parse, Parser.run_eq_bind rfl]
    exact Parser.run_eq_bind rfl
  exact ⟨h, (error_points_into_source h).2⟩

end Reader
end Bracket

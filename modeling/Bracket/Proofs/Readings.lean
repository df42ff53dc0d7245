import Bracket.Proofs.Positions

/-!
# Bracket.Proofs.Readings

What the readings at a cursor give back, and where they leave it, told by places in the text.

`Slice` is the text between two places and `Stretch` the longest run of a class from a place on.
`Tells` says with them what each reading does, without the cursor's own account of what is left.
`readings_stay_in_text` is for any sequence of readings: each is as told, and the cursor stands
between two characters and goes forward only.
-/

namespace Bracket
namespace Text

open Reader

/-! ## Places in a text -/

def Slice (source : String) (m : Nat) (text : String) (n : Nat) : Prop :=
  ∃ before after, source = before ++ text ++ after ∧ before.utf8ByteSize = m ∧
    n = m + text.utf8ByteSize

/-- The text ends at the place, or a character follows that is not of the class. -/
def Stops (source : String) (test : Char → Bool) (n : Nat) : Prop :=
  ∃ rest, At source n rest ∧ ∀ x ∈ rest.head?, test x = false

/-- The longest run of a class from a place on, which may be empty. -/
structure Stretch (source : String) (test : Char → Bool) (m : Nat) (run : String) (n : Nat) :
    Prop where
  slice : Slice source m run n
  all : ∀ x ∈ run.toList, test x = true
  stops : Stops source test n

/-- Said of the first place from `m` on where no blank follows. -/
def BehindBlanks (source : String) (m : Nat) (P : Nat → Prop) : Prop :=
  ∃ blanks n, Stretch source isBlank m blanks n ∧ P n

theorem slice_of_at {source : String} {n : Nat} {run rest : List Char}
    (h : At source n (run ++ rest)) :
    Slice source n (String.ofList run) (n + byteLength run) := by
  obtain ⟨before, hsource, hn⟩ := h
  refine ⟨before, String.ofList rest, ?_, hn, ?_⟩
  · rw [hsource, String.ofList_append, String.append_assoc]
  · rw [Cursor.byteLength_eq]

theorem eq_end_iff_of_at {source : String} {n : Nat} {rest : List Char} (h : At source n rest) :
    n = source.utf8ByteSize ↔ rest = [] := by
  obtain ⟨before, hsource, hn⟩ := h
  have hsize : source.utf8ByteSize = n + (String.ofList rest).utf8ByteSize := by
    rw [hsource, String.utf8ByteSize_append, hn]
  rw [hsize, Nat.left_eq_add, String.utf8ByteSize_eq_zero_iff, String.ofList_eq_empty_iff]

namespace Cursor

/-! ## The readings -/

inductive Motion where
  | skipBlanks
  | isAtEnd
  | reserved
  | number
  | ident
  | unknownRun
  | charLiteral (start : Nat)
  | popWhile (test : Char → Bool)

def move (c : Cursor) : Motion → Cursor
  | .skipBlanks => c.skipBlanks
  | .isAtEnd => c.isAtEnd.2
  | .reserved => c.reserved.2
  | .number => c.number.2
  | .ident => c.ident.2
  | .unknownRun => c.unknownRun.2
  | .charLiteral start => (c.charLiteral start).2
  | .popWhile test => (c.popWhile test).2

/-- A run from a place on is given back whole. There is none if the class has ended there, and the
cursor is then at that place. -/
def Pops (source : String) (test : Char → Bool) (m : Nat) : Option String × Cursor → Prop
  | (some run, d) => run ≠ "" ∧ Stretch source test m run d.position
  | (none, d) => d.position = m ∧ Stops source test m

/-- What a reading gives back and where it leaves the cursor. -/
def Tells (source : String) (c : Cursor) : Motion → Prop
  | .skipBlanks => BehindBlanks source c.position fun n => c.skipBlanks.position = n
  | .isAtEnd => BehindBlanks source c.position fun n =>
      c.isAtEnd.2.position = n ∧ (c.isAtEnd.1 = true ↔ n = source.utf8ByteSize)
  | .reserved => BehindBlanks source c.position fun n =>
      match c.reserved with
      | (some w, d) => Slice source n (String.ofList w.letters) d.position
      | (none, d) => d.position = n
  | .number => BehindBlanks source c.position fun n => Pops source isDigit n c.number
  | .ident => BehindBlanks source c.position fun n => Pops source isIdent n c.ident
  | .unknownRun => BehindBlanks source c.position fun n =>
      Slice source n c.unknownRun.1 c.unknownRun.2.position ∧
      (c.unknownRun.1 ≠ "" ∧ Stretch source isUnknown n c.unknownRun.1 c.unknownRun.2.position ∨
        (∃ x, c.unknownRun.1 = String.singleton x ∧ (isDigit x = true ∨ isIdent x = true)) ∨
        c.unknownRun.1 = "" ∧ n = source.utf8ByteSize)
  | .charLiteral start => ∃ run n, Stretch source isNotQuote c.position run n ∧
      match c.charLiteral start with
      | (.ok value, d) => Slice source n "'" d.position ∧
          ∃ x ∈ run.toList.head?, value = Float.ofNat (leadingUnit x)
      | (.error e, d) => e = .unclosedLiteral start ∧ d.position = n ∧
          (run = "" ∨ n = source.utf8ByteSize)
  | .popWhile test => Pops source test c.position (c.popWhile test)

variable {source : String} {c d : Cursor}

theorem leads_isAtEnd (c : Cursor) : Leads c c.isAtEnd.2 := c.leads_skipBlanks

theorem leads_unknownRun (c : Cursor) : Leads c c.unknownRun.2 := by
  have hpop := c.leads_skipBlanks.trans (c.skipBlanks.leads_popWhile isUnknown)
  unfold unknownRun
  split
  · rename_i hp
    rwa [hp] at hpop
  · rename_i hp
    rw [hp] at hpop
    exact hpop.trans (leads_advance _ 1)

theorem leads_charLiteral (c : Cursor) (start : Nat) : Leads c (c.charLiteral start).2 := by
  have hrun := c.leads_skipWhile isNotQuote
  unfold charLiteral
  split
  · exact hrun.trans (leads_advance _ 1)
  · exact hrun

theorem leads_move (c : Cursor) (motion : Motion) : Leads c (c.move motion) := by
  cases motion with
  | skipBlanks => exact c.leads_skipBlanks
  | isAtEnd => exact c.leads_isAtEnd
  | reserved => exact c.leads_reserved
  | number => exact c.leads_number
  | ident => exact c.leads_ident
  | unknownRun => exact c.leads_unknownRun
  | charLiteral start => exact c.leads_charLiteral start
  | popWhile test => exact c.leads_popWhile test

theorem leads_foldl_move (c : Cursor) (motions : List Motion) :
    Leads c (motions.foldl move c) := by
  induction motions generalizing c with
  | nil => exact .refl c
  | cons motion motions ih => exact (c.leads_move motion).trans (ih (c.move motion))

theorem Leads.position_le (h : Leads c d) : c.position ≤ d.position := by
  obtain ⟨run, -, hposition⟩ := h
  rw [hposition]
  exact Nat.le_add_right _ _

/-! ## What they do -/

section

variable (h : (ofString source).Leads c)
include h

theorem stretch_skipWhile (test : Char → Bool) :
    Stretch source test c.position (String.ofList (c.rest.takeWhile test))
      (c.skipWhile test).position where
  slice := by
    have hat : At source c.position (c.rest.takeWhile test ++ c.rest.dropWhile test) := by
      rw [List.takeWhile_append_dropWhile]
      exact at_of_leads h
    exact slice_of_at hat
  all x hx := List.mem_takeWhile_imp (String.toList_ofList ▸ hx)
  stops := ⟨_, at_of_leads (h.trans (c.leads_skipWhile test)), head_dropWhile test c.rest⟩

theorem behindBlanks {P : Nat → Prop} (hP : P c.skipBlanks.position) :
    BehindBlanks source c.position P := ⟨_, _, stretch_skipWhile h isBlank, hP⟩

theorem leads_behind_blanks : (ofString source).Leads c.skipBlanks := h.trans c.leads_skipBlanks

theorem pops_popWhile (test : Char → Bool) : Pops source test c.position (c.popWhile test) := by
  have hstretch := stretch_skipWhile h test
  rcases hpop : c.popWhile test with ⟨_ | run, d⟩
  · obtain ⟨rfl, hstops⟩ := of_popWhile_none hpop
    exact ⟨rfl, _, at_of_leads h, hstops⟩
  · unfold popWhile at hpop
    split at hpop
    · cases hpop
    · rename_i hne
      cases hpop
      exact ⟨mt String.ofList_eq_empty_iff.mp hne, hstretch⟩

theorem at_end_iff : c.isAtEnd.1 = true ↔ c.skipBlanks.position = source.utf8ByteSize := by
  rw [eq_end_iff_of_at (at_of_leads (leads_behind_blanks h))]
  exact List.isEmpty_iff

theorem tells_reserved : Tells source c .reserved := by
  refine behindBlanks h ?_
  rcases hr : c.reserved with ⟨_ | w, d⟩
  · obtain ⟨rfl, -⟩ := of_reserved_none hr
    rfl
  · have hat := at_of_leads (leads_behind_blanks h)
    obtain ⟨tail, htail⟩ := letters_of_reserved hr
    unfold reserved at hr
    split at hr
    · cases hr
      show Slice source c.skipBlanks.position _
        (c.skipBlanks.position + byteLength (c.skipBlanks.rest.take w.letters.length))
      rw [← htail] at hat ⊢
      rw [List.take_left]
      exact slice_of_at hat
    · cases hr

theorem tells_unknownRun : Tells source c .unknownRun := by
  have hlead := leads_behind_blanks h
  have hat := at_of_leads hlead
  have hpops := pops_popWhile hlead isUnknown
  refine behindBlanks h ?_
  rcases hpop : c.skipBlanks.popWhile isUnknown with ⟨_ | run, d⟩
  · obtain ⟨rfl, hknown⟩ := of_popWhile_none hpop
    have htext : c.unknownRun =
        (String.ofList (c.skipBlanks.rest.take 1), c.skipBlanks.advance 1) := by
      rw [unknownRun, hpop]
    rw [htext]
    refine ⟨?_, .inr ?_⟩
    · rw [← List.take_append_drop 1 c.skipBlanks.rest] at hat
      exact slice_of_at hat
    · cases hrest : c.skipBlanks.rest with
      | nil => exact .inr ⟨rfl, (eq_end_iff_of_at hat).mpr hrest⟩
      | cons x xs =>
        -- a character that is neither unknown nor a blank
        have hhead : x ∈ c.skipBlanks.rest.head? := hrest ▸ rfl
        have hx := hknown x hhead
        rw [isUnknown, c.head_skipBlanks x hhead] at hx
        refine .inl ⟨x, rfl, ?_⟩
        by_contra hno
        rw [not_or, Bool.not_eq_true, Bool.not_eq_true] at hno
        rw [hno.1, hno.2] at hx
        cases hx
  · have htext : c.unknownRun = (run, d) := by
      rw [unknownRun, hpop]
    rw [hpop] at hpops
    rw [htext]
    obtain ⟨hne, hstretch⟩ := hpops
    exact ⟨hstretch.slice, .inl ⟨hne, hstretch⟩⟩

theorem tells_charLiteral (start : Nat) : Tells source c (.charLiteral start) := by
  have hstretch := stretch_skipWhile h isNotQuote
  have hat := at_of_leads (h.trans (c.leads_skipWhile isNotQuote))
  refine ⟨_, _, hstretch, ?_⟩
  unfold charLiteral
  cases hrun : c.rest.takeWhile isNotQuote with
  | nil => exact ⟨rfl, rfl, .inl rfl⟩
  | cons x xs =>
    cases hrest : (c.skipWhile isNotQuote).rest with
    | nil => exact ⟨rfl, rfl, .inr ((eq_end_iff_of_at hat).mpr hrest)⟩
    | cons q tail =>
      have hq : isNotQuote q = false :=
        head_dropWhile isNotQuote c.rest q (show q ∈ (c.skipWhile isNotQuote).rest.head? by
          rw [hrest]; rfl)
      obtain rfl : q = '\'' := by simpa [isNotQuote] using hq
      rw [hrest] at hat
      refine ⟨?_, x, by rw [String.toList_ofList]; rfl, rfl⟩
      show Slice source _ _ (_ + byteLength ((c.skipWhile isNotQuote).rest.take 1))
      rw [hrest]
      exact slice_of_at (show At source _ (['\''] ++ tail) from hat)

theorem tells (motion : Motion) : Tells source c motion := by
  have hlead := leads_behind_blanks h
  cases motion with
  | skipBlanks => exact behindBlanks h rfl
  | isAtEnd => exact behindBlanks h ⟨rfl, at_end_iff h⟩
  | reserved => exact tells_reserved h
  | number => exact behindBlanks h (pops_popWhile hlead isDigit)
  | ident => exact behindBlanks h (pops_popWhile hlead isIdent)
  | unknownRun => exact tells_unknownRun h
  | charLiteral start => exact tells_charLiteral h start
  | popWhile test => exact pops_popWhile h test

end

/-- After any sequence of readings the cursor stands between two characters of the text or at an end
of it, with the rest of the text behind it. The next reading, whichever it is, does not move it
back, and what it gives back and where it stops is as told. -/
theorem readings_stay_in_text (source : String) (motions : List Motion) :
    let c := motions.foldl move (ofString source)
    (At source c.position c.rest ∧ String.Pos.Raw.IsValid source ⟨c.position⟩ ∧
      c.position ≤ source.utf8ByteSize) ∧
    ∀ motion, c.position ≤ (c.move motion).position ∧ Tells source c motion := by
  intro c
  have h : (ofString source).Leads c := leads_foldl_move _ motions
  have hat : At source c.position c.rest := at_of_leads h
  exact ⟨⟨hat, hat.isValid, hat.isValid.le_utf8ByteSize⟩,
    fun motion => ⟨(c.leads_move motion).position_le, tells h motion⟩⟩

end Cursor
end Text
end Bracket

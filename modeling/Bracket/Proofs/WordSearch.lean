import Bracket.Proofs.Positions

/-!
# Bracket.Proofs.WordSearch

Finding a reserved word one character at a time.

`reserved` takes the longest word that stands at the cursor. `search` does not look ahead: it reads
on while what it has read is the beginning of some word, and goes back if what it has read in the
end is not a word. A word inside such a longer beginning would be lost, but there is none: a word
that begins another one is shorter by one character (`eq_or_length_of_prefix`), so the first
character that could lead past it completes the longer word.
-/

namespace Bracket
namespace Reader
namespace Word

/-! ## Beginnings of words -/

def begins (text : List Char) : Bool := all.any fun w => text.isPrefixOf w.letters

def spelled? (text : List Char) : Option Word := all.find? fun w => w.letters == text

variable {text run : List Char} {v w : Word}

theorem begins_iff : begins text = true ↔ ∃ w : Word, text <+: w.letters := by
  simp only [begins, List.any_eq_true, List.isPrefixOf_iff_prefix, mem_all, true_and]

theorem begins_of_prefix (h : text <+: run) (hrun : begins run = true) : begins text = true := by
  obtain ⟨w, hw⟩ := begins_iff.mp hrun
  exact begins_iff.mpr ⟨w, h.trans hw⟩

theorem eq_or_length_of_prefix (h : v.letters <+: w.letters) :
    v = w ∨ w.letters.length = v.letters.length + 1 := by
  have hall : ∀ v ∈ all, ∀ w ∈ all, v.letters.isPrefixOf w.letters = true →
      v = w ∨ w.letters.length = v.letters.length + 1 := by decide
  exact hall v (mem_all v) w (mem_all w) (List.isPrefixOf_iff_prefix.mpr h)

theorem letters_injective (h : v.letters = w.letters) : v = w := by
  have hbegins : v.letters <+: w.letters := ⟨[], by rw [List.append_nil, h]⟩
  obtain heq | hlength := eq_or_length_of_prefix hbegins
  · exact heq
  · rw [h] at hlength
    omega

theorem spelled?_eq_some_iff : spelled? text = some w ↔ w.letters = text := by
  have hspelled : ∀ u, spelled? text = some u → u.letters = text := by
    intro u hu
    have hfound := List.find?_some hu
    exact beq_iff_eq.mp hfound
  refine ⟨hspelled w, fun h => ?_⟩
  cases hfind : spelled? text with
  | none => exact absurd (beq_iff_eq.mpr h) (List.find?_eq_none.mp hfind w (mem_all w))
  | some u => rw [letters_injective ((hspelled u hfind).trans h.symm)]

theorem spelled?_eq_none_iff : spelled? text = none ↔ ∀ w : Word, w.letters ≠ text := by
  simp only [spelled?, List.find?_eq_none, mem_all, true_implies, beq_iff_eq, ne_eq]

/-- The word that is found is the longest of those that stand there. -/
theorem longest?_eq_some_iff : longest? text = some w ↔
    w.letters <+: text ∧ ∀ v : Word, v.letters <+: text → v.letters.length ≤ w.letters.length := by
  have hlongest : ∀ u, longest? text = some u → u.letters <+: text ∧
      ∀ v : Word, v.letters <+: text → v.letters.length ≤ u.letters.length := by
    intro u hu
    obtain ⟨hstands, before, after, hall, hbefore⟩ := List.find?_eq_some_iff_append.mp hu
    refine ⟨List.isPrefixOf_iff_prefix.mp hstands, fun v hv => ?_⟩
    have hsorted := all_sorted
    rw [hall, List.pairwise_append, List.pairwise_cons] at hsorted
    have hmem : v ∈ before ++ u :: after := hall ▸ mem_all v
    rcases List.mem_append.mp hmem with hmem | hmem
    · have hno := hbefore v hmem
      rw [List.isPrefixOf_iff_prefix.mpr hv] at hno
      cases hno
    · rcases List.mem_cons.mp hmem with rfl | hmem
      · exact Nat.le_refl _
      · exact hsorted.2.1.1 v hmem
  refine ⟨hlongest w, fun ⟨hstands, hmax⟩ => ?_⟩
  cases hfind : longest? text with
  | none => exact absurd hstands (longest?_eq_none_iff.mp hfind w)
  | some u =>
    obtain ⟨hu, humax⟩ := hlongest u hfind
    have hlength := Nat.le_antisymm (hmax u hu) (humax w hstands)
    have hbegins := List.prefix_of_prefix_length_le hu hstands (Nat.le_of_eq hlength)
    rw [letters_injective (hbegins.eq_of_length hlength)]

/-- What is read while it begins some word is the longest word that stands there, or no word. -/
theorem longest?_eq_spelled? (hrun : run <+: text) (hbegins : begins run = true)
    (hlast : ∀ p, p <+: text → begins p = true → p <+: run) : longest? text = spelled? run := by
  cases hfind : longest? text with
  | none =>
    refine (spelled?_eq_none_iff.mpr fun w hw => ?_).symm
    exact longest?_eq_none_iff.mp hfind w (hw ▸ hrun)
  | some w =>
    obtain ⟨hstands, hmax⟩ := longest?_eq_some_iff.mp hfind
    have hread : w.letters <+: run := hlast _ hstands (begins_iff.mpr ⟨w, List.prefix_refl _⟩)
    obtain ⟨v, hv⟩ := begins_iff.mp hbegins
    refine (spelled?_eq_some_iff.mpr (hread.eq_of_length_le ?_)).symm
    obtain rfl | hlength := eq_or_length_of_prefix (hread.trans hv)
    · exact hv.length_le
    · by_contra hlonger
      -- then all of the longer word has been read, and stands there
      have hall : run = v.letters := hv.eq_of_length_le (by omega)
      have hle := hmax v (hall ▸ hrun)
      omega

end Word
end Reader

namespace Text
namespace Cursor

open Reader

/-! ## The search -/

/-- Reads on while what has been read begins some word. -/
def gather (taken : List Char) (position : Nat) : List Char → List Char × Cursor
  | [] => (taken, ⟨[], position⟩)
  | x :: rest =>
    if Word.begins (taken ++ [x]) then gather (taken ++ [x]) (position + x.utf8Size) rest
    else (taken, ⟨x :: rest, position⟩)

/-- Gives back what has been read. -/
def rewind (c : Cursor) (run : List Char) : Cursor :=
  ⟨run ++ c.rest, c.position - byteLength run⟩

def search (c : Cursor) : Option Word × Cursor :=
  let (run, next) := gather [] c.skipBlanks.position c.skipBlanks.rest
  match Word.spelled? run with
  | some w => (some w, next)
  | none => (none, next.rewind run)

theorem gather_eq (taken : List Char) (position : Nat) (text : List Char)
    (h : Word.begins taken = true) :
    ∃ run rest, text = run ++ rest ∧
      gather taken position text = (taken ++ run, ⟨rest, position + byteLength run⟩) ∧
      Word.begins (taken ++ run) = true ∧
      ∀ x ∈ rest.head?, Word.begins (taken ++ run ++ [x]) = false := by
  induction text generalizing taken position with
  | nil =>
    refine ⟨[], [], rfl, ?_, ?_, nofun⟩
    · rw [List.append_nil]
      rfl
    · rwa [List.append_nil]
  | cons x text ih =>
    unfold gather
    split
    · rename_i hx
      obtain ⟨run, rest, rfl, hgather, hrun, hrest⟩ := ih (taken ++ [x]) (position + x.utf8Size) hx
      rw [List.append_assoc] at hgather hrun hrest
      refine ⟨x :: run, rest, rfl, ?_, hrun, hrest⟩
      rw [hgather, Nat.add_assoc]
      rfl
    · rename_i hx
      refine ⟨[], x :: text, rfl, ?_, ?_, ?_⟩
      · rw [List.append_nil]
        rfl
      · rwa [List.append_nil]
      · rintro y ⟨⟩
        rw [List.append_nil]
        exact Bool.eq_false_iff.mpr hx

/-- The longest reserved word at the cursor, and the cursor behind it, are what a search finds that
reads character by character and goes back if it has not read a word. -/
theorem reserved_eq_search (c : Cursor) :
    c.reserved = c.search ∧
    ∀ w, c.reserved.1 = some w ↔ w.letters <+: c.skipBlanks.rest ∧
      ∀ v : Word, v.letters <+: c.skipBlanks.rest → v.letters.length ≤ w.letters.length := by
  obtain ⟨run, rest, htext, hgather, hrun, hrest⟩ :=
    gather_eq [] c.skipBlanks.position c.skipBlanks.rest rfl
  rw [List.nil_append] at hgather hrun hrest
  have hfind : Word.longest? c.skipBlanks.rest = Word.spelled? run := by
    refine Word.longest?_eq_spelled? ⟨rest, htext.symm⟩ hrun fun p hp hbegins => ?_
    refine prefix_of_stop (htext ▸ hp) fun x hx hgoes => ?_
    have hno := hrest x hx
    rw [Word.begins_of_prefix hgoes hbegins] at hno
    cases hno
  refine ⟨?_, fun w => ?_⟩
  · rw [reserved, search, hgather, hfind]
    simp only
    cases hword : Word.spelled? run with
    | some w =>
      have hletters := Word.spelled?_eq_some_iff.mp hword
      simp only
      rw [hletters, advance, htext, List.drop_left, List.take_left]
    | none =>
      simp only
      rw [rewind, Nat.add_sub_cancel, ← htext]
  · rw [← Word.longest?_eq_some_iff, reserved]
    cases Word.longest? c.skipBlanks.rest <;> rfl

/-- A word that identifiers extend, one that a longer word extends, and a beginning that is none. -/
example : (search ⟨[' ', 'l', 'o', 'o', 'p', 'y'], 3⟩).1 = some (.keyword .loop) ∧
    (search ⟨['*', '*', '*'], 0⟩).1 = some (.op .pow) ∧
    (search ⟨[' ', 'l', 'o', 'x'], 3⟩).2.position = 4 := by decide

end Cursor
end Text
end Bracket

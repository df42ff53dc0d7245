import Bracket.Proofs.WellFormed

/-!
# Bracket.Proofs.Spelling

Writing units down, and reading them back.

A unit is written as one word or, with its name, as several, and a single space stands between two
words. `lexemes_spelling` says that the units are read back if the reader could have found them
in a text at all: a blank ends every run, and no reserved word contains one.
-/

namespace Bracket
namespace Reader

open Text

/-! ## Words -/

/-- The pieces of a unit between which blanks may stand. -/
def Lexeme.words : Lexeme → List (List Char)
  | .digits run => [run.toList]
  | .name run => [run.toList]
  | .quoted run => [Keyword.quote.letters ++ (run ++ Keyword.quote.letters)]
  | .op o => [o.letters]
  | .null => [Keyword.null.letters]
  | .opening => [Keyword.opening.letters]
  | .closing => [Keyword.closing.letters]
  | .ifTest => [Keyword.ifTest.letters]
  | .thenBranch => [Keyword.thenBranch.letters]
  | .elseBranch => [Keyword.elseBranch.letters]
  | .withValue => [Keyword.withValue.letters]
  | .loop n => [Keyword.loop.letters, n.toList]
  | .brk n => [Keyword.brk.letters, n.toList]
  | .call n => [Keyword.call.letters, n.toList]
  | .pipes none => [Keyword.pipe.letters, Keyword.pipe.letters]
  | .pipes (some n) => [Keyword.pipe.letters, n.toList, Keyword.pipe.letters]

/-- The words with one space between two. -/
def spaced (ws : List (List Char)) : List Char := List.intercalate [' '] ws

/-- The words that follow another, with the space before them. -/
def following : List (List Char) → List Char
  | [] => []
  | w :: ws => ' ' :: spaced (w :: ws)

/-- The text of units, a space between any two words. -/
def spelling (us : List Lexeme) : String := String.ofList (spaced (us.flatMap Lexeme.words))

/-- A word that skipping blanks does not touch. -/
def Solid (w : List Char) : Prop := ∃ x xs, w = x :: xs ∧ isBlank x = false

theorem spaced_cons (w : List Char) (ws : List (List Char)) :
    spaced (w :: ws) = w ++ following ws := by
  cases ws with
  | nil => rw [spaced, List.intercalate_singleton, following, List.append_nil]
  | cons v vs =>
    rw [spaced, List.intercalate_cons_cons, List.append_assoc]
    rfl

theorem isBlank_of_following {ws : List (List Char)} :
    ∀ x ∈ (following ws).head?, isBlank x = true := by
  intro x hx
  cases ws with
  | nil => cases hx
  | cons w ws => cases hx; rfl

theorem dropWhile_spaced {ws : List (List Char)} (h : ∀ w ∈ ws, Solid w) :
    (spaced ws).dropWhile isBlank = spaced ws := by
  cases ws with
  | nil => rfl
  | cons w ws =>
    obtain ⟨x, xs, rfl, hx⟩ := h w List.mem_cons_self
    rw [spaced_cons, List.cons_append, List.dropWhile_cons_of_neg (by rw [hx]; exact nofun)]

theorem dropWhile_following {ws : List (List Char)} (h : ∀ w ∈ ws, Solid w) :
    (following ws).dropWhile isBlank = spaced ws := by
  cases ws with
  | nil => rfl
  | cons w ws => exact dropWhile_spaced h

theorem solid_of_isRun {test : Char → Bool} {run : String} (h : IsRun test run)
    (htest : ∀ {x}, test x = true → isBlank x = false) : Solid run.toList := by
  obtain ⟨x, xs, hx⟩ := List.exists_cons_of_ne_nil h.ne_nil
  exact ⟨x, xs, hx, htest (h.all x (hx ▸ List.mem_cons_self))⟩

/-- A text that cannot go on with the first character of the tail ends before it. -/
theorem prefix_of_stop {run tail text : List Char} (h : text <+: run ++ tail)
    (hstop : ∀ x ∈ tail.head?, ¬ run ++ [x] <+: text) : text <+: run := by
  obtain h' | ⟨more, rfl⟩ := List.prefix_or_prefix_of_prefix h (List.prefix_append run tail)
  · exact h'
  · cases more with
    | nil => exact ⟨[], by rw [List.append_nil, List.append_nil]⟩
    | cons x more =>
      obtain ⟨rest, rfl⟩ := (List.prefix_append_right_inj run).mp h
      have hgoes : run ++ [x] <+: run ++ x :: more :=
        (List.prefix_append_right_inj run).mpr ⟨more, rfl⟩
      exact absurd hgoes (hstop x rfl)

namespace Word

theorem not_isBlank_of_mem {w : Word} {x : Char} (hx : x ∈ w.letters) : isBlank x = false := by
  have h : (all.all fun w => w.letters.all fun x => !isBlank x) = true := by decide
  simp only [List.all_eq_true, Bool.not_eq_true'] at h
  exact h w (mem_all w) x hx

theorem not_isDigit_of_mem {w : Word} {x : Char} (hx : x ∈ w.letters) : isDigit x = false := by
  have h : (all.all fun w => w.letters.all fun x => !isDigit x) = true := by decide
  simp only [List.all_eq_true, Bool.not_eq_true'] at h
  exact h w (mem_all w) x hx

theorem lettered_of_isIdent {w : Word} (h : ∀ x ∈ w.letters, isIdent x = true) :
    ∃ k ∈ Keyword.lettered, w = .keyword k := by
  cases w with
  | op o => cases o <;> exact absurd (h _ List.mem_cons_self) (by decide)
  | keyword k =>
    cases k with
    | opening | closing | quote | pipe | call =>
      exact absurd (h _ List.mem_cons_self) (by decide)
    | _ => exact ⟨_, by decide, rfl⟩

theorem solid_letters (w : Word) : Solid w.letters := by
  obtain ⟨x, xs, hx⟩ := List.exists_cons_of_length_pos w.letters_length_pos
  exact ⟨x, xs, hx, not_isBlank_of_mem (hx ▸ List.mem_cons_self)⟩

section

variable {tail : List Char} (htail : ∀ x ∈ tail.head?, isBlank x = true)
include htail

/-- A blank ends a word, also the one star that might be two. -/
theorem longest?_letters (w : Word) : longest? (w.letters ++ tail) = some w := by
  have hcases : tail = [] ∨ (∃ xs, tail = ' ' :: xs) ∨ ∃ xs, tail = '\n' :: xs := by
    cases tail with
    | nil => exact .inl rfl
    | cons x xs =>
      have hx := htail x rfl
      simp only [isBlank, Bool.or_eq_true, beq_iff_eq] at hx
      exact .inr (hx.imp (fun h => ⟨xs, by rw [h]⟩) fun h => ⟨xs, by rw [h]⟩)
  obtain rfl | ⟨xs, rfl⟩ | ⟨xs, rfl⟩ := hcases <;>
    cases w with
    | op o => cases o <;> rfl
    | keyword k => cases k <;> rfl

/-- A word that is found in front of a blank ends before it. -/
theorem prefix_of_prefix_append {w : Word} {run : List Char} (h : w.letters <+: run ++ tail) :
    w.letters <+: run := by
  refine prefix_of_stop h fun x hx hgoes => ?_
  have hmem : x ∈ w.letters := hgoes.subset (List.mem_append_right run List.mem_cons_self)
  have hblank := htail x hx
  rw [not_isBlank_of_mem hmem] at hblank
  cases hblank

theorem longest?_digits {run : String} (h : IsRun isDigit run) :
    longest? (run.toList ++ tail) = none := by
  refine longest?_eq_none_iff.mpr fun w hw => ?_
  have hpre := prefix_of_prefix_append htail hw
  obtain ⟨x, xs, hx, -⟩ := w.solid_letters
  have hmem : x ∈ w.letters := hx ▸ List.mem_cons_self
  exact absurd (h.all x (hpre.subset hmem)) (by rw [not_isDigit_of_mem hmem]; exact nofun)

theorem longest?_ident {name : String} (h : IsIdent name) :
    longest? (name.toList ++ tail) = none := by
  refine longest?_eq_none_iff.mpr fun w hw => ?_
  have hpre := prefix_of_prefix_append htail hw
  obtain ⟨k, hk, rfl⟩ := lettered_of_isIdent fun x hx => h.isName.all x (hpre.subset hx)
  exact h.noKeyword k hk hpre

end

end Word

end Reader

/-! ## Reading words -/

namespace Text
namespace Cursor

open Reader

/-- The words are what is left, but for blanks. -/
def Stands (c : Cursor) (ws : List (List Char)) : Prop := c.skipBlanks.rest = spaced ws

variable {c : Cursor} {test : Char → Bool} {run : String} {tail : List Char}
  {ws : List (List Char)}

theorem reserved_of_rest {w : Word} (h : c.skipBlanks.rest = w.letters ++ tail)
    (hw : Word.longest? (w.letters ++ tail) = some w) :
    ∃ d, c.reserved = (some w, d) ∧ d.rest = tail := by
  refine ⟨c.skipBlanks.advance w.letters.length, ?_, ?_⟩
  · rw [reserved, h, hw]
  · rw [advance, h, List.drop_left]

theorem reserved_of_longest?_none (h : Word.longest? c.skipBlanks.rest = none) :
    c.reserved = (none, c.skipBlanks) := by
  rw [reserved, h]

theorem stops_at_head {text : List Char} (h : ∀ x ∈ text.head?, test x = false) :
    text.takeWhile test = [] ∧ text.dropWhile test = text := by
  cases text with
  | nil => exact ⟨rfl, rfl⟩
  | cons x xs =>
    have hx : ¬ test x = true := by rw [h x rfl]; exact nofun
    exact ⟨List.takeWhile_cons_of_neg hx, List.dropWhile_cons_of_neg hx⟩

theorem popWhile_of_rest (hrun : IsRun test run) (hrest : c.rest = run.toList ++ tail)
    (htail : ∀ x ∈ tail.head?, test x = false) :
    ∃ d, c.popWhile test = (some run, d) ∧ d.rest = tail := by
  obtain ⟨htake, hdrop⟩ := stops_at_head htail
  have hrun' : c.rest.takeWhile test = run.toList := by
    rw [hrest, List.takeWhile_append_of_pos hrun.all, htake, List.append_nil]
  refine ⟨c.skipWhile test, ?_, ?_⟩
  · unfold popWhile
    split
    · rename_i hnil
      exact (hrun.ne_nil (hrun'.symm.trans hnil)).elim
    · rw [hrun', String.ofList_toList]
  · rw [skipWhile, hrest, List.dropWhile_append_of_pos hrun.all, hdrop]

theorem popWhile_none_of_head (h : ∀ x ∈ c.rest.head?, test x = false) :
    c.popWhile test = (none, c) := by
  rw [popWhile, (stops_at_head h).1]

theorem stands_skipBlanks (h : c.Stands ws) : c.skipBlanks.Stands ws :=
  (rest_skipBlanks_skipBlanks c).trans h

section

variable (hws : ∀ w ∈ ws, Solid w)
include hws

theorem stands_of_following (h : c.rest = following ws) : c.Stands ws := by
  rw [Stands, skipBlanks, skipWhile, h, dropWhile_following hws]

theorem isAtEnd_of_stands (hne : ws ≠ []) (h : c.Stands ws) : c.isAtEnd.1 = false := by
  obtain ⟨w, vs, rfl⟩ := List.exists_cons_of_ne_nil hne
  obtain ⟨x, xs, rfl, -⟩ := hws w List.mem_cons_self
  rw [isAtEnd, h, spaced_cons]
  rfl

theorem reserved_of_stands {w : Word} (h : c.Stands (w.letters :: ws)) :
    ∃ d, c.reserved = (some w, d) ∧ d.Stands ws := by
  rw [Stands, spaced_cons] at h
  obtain ⟨d, hd, hrest⟩ := reserved_of_rest h (Word.longest?_letters isBlank_of_following w)
  exact ⟨d, hd, stands_of_following hws hrest⟩

theorem popWhile_of_stands (hrun : IsRun test run)
    (htest : ∀ {x}, test x = true → isBlank x = false) (h : c.Stands (run.toList :: ws)) :
    ∃ d, c.skipBlanks.popWhile test = (some run, d) ∧ d.Stands ws := by
  rw [Stands, spaced_cons] at h
  have hstop : ∀ x ∈ (following ws).head?, test x = false := by
    intro x hx
    have hblank := isBlank_of_following x hx
    cases ht : test x with
    | false => rfl
    | true => rw [htest ht] at hblank; cases hblank
  obtain ⟨d, hd, hrest⟩ := popWhile_of_rest hrun h hstop
  exact ⟨d, hd, stands_of_following hws hrest⟩

theorem ident_of_stands (hrun : IsName run) (h : c.Stands (run.toList :: ws)) :
    ∃ d, c.ident = (some run, d) ∧ d.Stands ws :=
  popWhile_of_stands hws hrun not_isBlank_of_isIdent h

theorem lexeme?_digits (hrun : IsRun isDigit run) (h : c.Stands (run.toList :: ws)) :
    ∃ d, c.lexeme? = some (.digits run, d) ∧ d.Stands ws := by
  have hw : Word.longest? c.skipBlanks.rest = none := by
    rw [h, spaced_cons]
    exact Word.longest?_digits isBlank_of_following hrun
  obtain ⟨d, hd, hstands⟩ :=
    popWhile_of_stands hws hrun not_isBlank_of_isDigit (stands_skipBlanks h)
  have hnumber : c.skipBlanks.number = (some run, d) := hd
  exact ⟨d, by simp only [lexeme?, reserved_of_longest?_none hw, hnumber], hstands⟩

theorem lexeme?_name (hname : IsIdent run) (h : c.Stands (run.toList :: ws)) :
    ∃ d, c.lexeme? = some (.name run, d) ∧ d.Stands ws := by
  have hw : Word.longest? c.skipBlanks.rest = none := by
    rw [h, spaced_cons]
    exact Word.longest?_ident isBlank_of_following hname
  -- the first character is one of names, but neither a decimal digit nor the point
  have hhead : ∀ x ∈ c.skipBlanks.skipBlanks.rest.head?, isDigit x = false := by
    obtain ⟨y, ys, hy⟩ := List.exists_cons_of_ne_nil hname.isName.ne_nil
    rw [rest_skipBlanks_skipBlanks, h, spaced_cons, hy]
    rintro x ⟨⟩
    have hdigit := hname.head y (by rw [hy]; rfl)
    have hident := hname.isName.all y (hy ▸ List.mem_cons_self)
    rw [isDigit, hdigit, Bool.false_or, beq_eq_false_iff_ne]
    rintro rfl
    exact absurd hident (by decide)
  have hnumber : c.skipBlanks.number = (none, c.skipBlanks.skipBlanks) :=
    popWhile_none_of_head hhead
  obtain ⟨d, hd, hstands⟩ :=
    ident_of_stands hws hname.isName (stands_skipBlanks (stands_skipBlanks h))
  exact ⟨d, by simp only [lexeme?, reserved_of_longest?_none hw, hnumber, hd], hstands⟩

theorem lexeme?_word {w : Word} {u : Lexeme} (hu : ∀ d : Cursor, d.word? w = some (u, d))
    (h : c.Stands (w.letters :: ws)) : ∃ d, c.lexeme? = some (u, d) ∧ d.Stands ws := by
  obtain ⟨d, hd, hstands⟩ := reserved_of_stands hws h
  exact ⟨d, by simp only [lexeme?, hd, hu], hstands⟩

theorem lexeme?_quoted {run : List Char} (hrun : ∀ x ∈ run, isNotQuote x = true)
    (h : c.Stands ((Keyword.quote.letters ++ (run ++ Keyword.quote.letters)) :: ws)) :
    ∃ d, c.lexeme? = some (.quoted run, d) ∧ d.Stands ws := by
  rw [Stands, spaced_cons, List.append_assoc] at h
  -- no other word begins with the quote, whatever stands behind it
  obtain ⟨d, hd, hrest⟩ := reserved_of_rest (w := .keyword .quote) h rfl
  rw [List.append_assoc] at hrest
  have htake : d.rest.takeWhile isNotQuote = run := by
    rw [hrest, List.takeWhile_append_of_pos hrun]
    exact List.append_nil run
  have hdrop : (d.skipWhile isNotQuote).rest = '\'' :: following ws := by
    rw [skipWhile, hrest, List.dropWhile_append_of_pos hrun]
    rfl
  refine ⟨(d.skipWhile isNotQuote).advance 1, ?_, stands_of_following hws ?_⟩
  · simp only [lexeme?, hd, word?, quoted?, hdrop, htake]
  · rw [advance, hdrop]
    rfl

theorem lexeme?_named {k : Keyword} {keyword : String → Lexeme} (hname : IsName run)
    (hk : ∀ d : Cursor, d.word? (.keyword k) = d.named? keyword)
    (h : c.Stands (k.letters :: run.toList :: ws)) :
    ∃ d, c.lexeme? = some (keyword run, d) ∧ d.Stands ws := by
  obtain ⟨d, hd, hstands⟩ := reserved_of_stands (w := .keyword k)
    (List.forall_mem_cons.mpr ⟨solid_of_isRun hname not_isBlank_of_isIdent, hws⟩) h
  obtain ⟨e, he, hstands⟩ := ident_of_stands hws hname hstands
  exact ⟨e, by simp only [lexeme?, hd, hk, named?, he], hstands⟩

theorem lexeme?_pipes {param : Option String} (hparam : ∀ n ∈ param, IsName n)
    (h : c.Stands ((Lexeme.pipes param).words ++ ws)) :
    ∃ d, c.lexeme? = some (.pipes param, d) ∧ d.Stands ws := by
  have hpipe : ∀ w ∈ Keyword.pipe.letters :: ws, Solid w :=
    List.forall_mem_cons.mpr ⟨Word.solid_letters (.keyword .pipe), hws⟩
  cases param with
  | none =>
    obtain ⟨d, hd, hstands⟩ := reserved_of_stands (w := .keyword .pipe) hpipe h
    have hident : d.ident = (none, d.skipBlanks) := by
      refine popWhile_none_of_head ?_
      rw [hstands, spaced_cons]
      rintro x ⟨⟩
      decide
    obtain ⟨e, he, hstands⟩ :=
      reserved_of_stands (w := .keyword .pipe) hws (stands_skipBlanks hstands)
    exact ⟨e, by simp only [lexeme?, hd, word?, pipes?, hident, he], hstands⟩
  | some n =>
    have hname := hparam n rfl
    obtain ⟨d, hd, hstands⟩ := reserved_of_stands (w := .keyword .pipe)
      (List.forall_mem_cons.mpr ⟨solid_of_isRun hname not_isBlank_of_isIdent, hpipe⟩) h
    obtain ⟨e, he, hstands⟩ := ident_of_stands hpipe hname hstands
    obtain ⟨f, hf, hstands⟩ := reserved_of_stands (w := .keyword .pipe) hws hstands
    exact ⟨f, by simp only [lexeme?, hd, word?, pipes?, he, hf], hstands⟩

/-- The words of a unit are read as the unit. -/
theorem lexeme?_of_stands {u : Lexeme} (hu : u.Valid) (h : c.Stands (u.words ++ ws)) :
    ∃ d, c.lexeme? = some (u, d) ∧ d.Stands ws := by
  cases u with
  | digits run => exact lexeme?_digits hws hu h
  | name run => exact lexeme?_name hws hu h
  | quoted run => exact lexeme?_quoted hws hu h
  | loop n => exact lexeme?_named hws hu (fun _ => rfl) h
  | brk n => exact lexeme?_named hws hu (fun _ => rfl) h
  | call n => exact lexeme?_named hws hu (fun _ => rfl) h
  | pipes param => exact lexeme?_pipes hws hu h
  | op o => exact lexeme?_word (w := .op o) hws (fun _ => rfl) h
  | null => exact lexeme?_word (w := .keyword .null) hws (fun _ => rfl) h
  | opening => exact lexeme?_word (w := .keyword .opening) hws (fun _ => rfl) h
  | closing => exact lexeme?_word (w := .keyword .closing) hws (fun _ => rfl) h
  | ifTest => exact lexeme?_word (w := .keyword .ifTest) hws (fun _ => rfl) h
  | thenBranch => exact lexeme?_word (w := .keyword .thenBranch) hws (fun _ => rfl) h
  | elseBranch => exact lexeme?_word (w := .keyword .elseBranch) hws (fun _ => rfl) h
  | withValue => exact lexeme?_word (w := .keyword .withValue) hws (fun _ => rfl) h

end

/-! ## Reading a spelling -/

theorem solid_of_mem_words {u : Lexeme} (hu : u.Valid) : ∀ w ∈ u.words, Solid w := by
  have hname {n : String} (hn : IsName n) : Solid n.toList :=
    solid_of_isRun hn not_isBlank_of_isIdent
  have hkeyword (k : Keyword) : Solid k.letters := Word.solid_letters (.keyword k)
  have hnamed {k : Keyword} {n : String} (hn : IsName n) : ∀ w ∈ [k.letters, n.toList], Solid w :=
    List.forall_mem_cons.mpr ⟨hkeyword k, List.forall_mem_singleton.mpr (hname hn)⟩
  cases u with
  | digits run => exact List.forall_mem_singleton.mpr (solid_of_isRun hu not_isBlank_of_isDigit)
  | name run => exact List.forall_mem_singleton.mpr (hname hu.isName)
  | quoted run => exact List.forall_mem_singleton.mpr ⟨_, _, rfl, by decide⟩
  | op o => exact List.forall_mem_singleton.mpr (Word.solid_letters (.op o))
  | loop n => exact hnamed hu
  | brk n => exact hnamed hu
  | call n => exact hnamed hu
  | pipes param =>
    cases param with
    | none =>
      exact List.forall_mem_cons.mpr
        ⟨hkeyword _, List.forall_mem_singleton.mpr (hkeyword _)⟩
    | some n =>
      exact List.forall_mem_cons.mpr ⟨hkeyword _, List.forall_mem_cons.mpr
        ⟨hname (hu n rfl), List.forall_mem_singleton.mpr (hkeyword _)⟩⟩
  | _ => exact List.forall_mem_singleton.mpr (hkeyword _)

theorem words_ne_nil (u : Lexeme) : u.words ≠ [] := by
  cases u with
  | pipes param => cases param <;> exact nofun
  | _ => exact nofun

theorem solid_of_mem_flatMap {us : List Lexeme} (hus : ∀ u ∈ us, u.Valid) :
    ∀ w ∈ us.flatMap Lexeme.words, Solid w := by
  intro w hw
  obtain ⟨u, hu, hw⟩ := List.mem_flatMap.mp hw
  exact solid_of_mem_words (hus u hu) w hw

theorem lexemes_of_stands {us : List Lexeme} (hus : ∀ u ∈ us, u.Valid)
    (h : c.Stands (us.flatMap Lexeme.words)) : c.lexemes = some us := by
  induction us generalizing c with
  | nil =>
    have hend : c.isAtEnd.1 = true := by rw [isAtEnd, h]; rfl
    exact lexemes_of_isAtEnd hend
  | cons u us ih =>
    have hsolid := solid_of_mem_flatMap hus
    obtain ⟨hu, hus⟩ := List.forall_mem_cons.mp hus
    rw [List.flatMap_cons] at h hsolid
    obtain ⟨d, hd, hstands⟩ := lexeme?_of_stands (solid_of_mem_flatMap hus) hu h
    have hend := isAtEnd_of_stands hsolid (List.append_ne_nil_of_left_ne_nil (words_ne_nil u) _) h
    rw [lexemes_of_not_isAtEnd hend, hd, Option.bind_some, ih hus hstands]
    rfl

end Cursor
end Text

namespace Reader

open Text

/-- The units of a spelling are those that were spelled. -/
theorem lexemes_spelling {us : List Lexeme} (hus : ∀ u ∈ us, u.Valid) :
    (Cursor.ofString (spelling us)).lexemes = some us := by
  refine Cursor.lexemes_of_stands hus ?_
  rw [Cursor.Stands, Cursor.skipBlanks, Cursor.skipWhile, Cursor.ofString, spelling,
    String.toList_ofList]
  exact dropWhile_spaced (Cursor.solid_of_mem_flatMap hus)

end Reader
end Bracket

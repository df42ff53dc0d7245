import Mathlib.Data.List.DropRight
import Bracket.Proofs.GrammarCorrect

/-!
# Bracket.Proofs.WellFormed

The trees that programs have, and that reading gives no others.

A tree is well formed if its names can be read as names, each number is the value of a digit run,
no call has an argument that is there and empty, and no bracket lies deeper than the reader lets
one open. `wellFormed_of_parse` follows the two halves of the reader: the units of a text have
valid names (`valid_of_lexemes`), and what valid units derive inside `d` brackets needs no more
than the brackets that are left (`Derives.fits`).
-/

namespace Bracket

/-! ## Names and numbers -/

/-- A text that is not empty and of one class. -/
structure IsRun (test : Char → Bool) (run : String) : Prop where
  ne_nil : run.toList ≠ []
  all : ∀ c ∈ run.toList, test c = true

/-- A name behind a keyword, which may look like a number or begin with a word. -/
abbrev IsName (name : String) : Prop := IsRun Text.isIdent name

namespace Reader

/-- The keywords that are written with the characters of names. -/
def Keyword.lettered : List Keyword :=
  [.null, .loop, .brk, .withValue, .ifTest, .thenBranch, .elseBranch]

end Reader

/-- A name that stands for itself: nothing else is read at its beginning. -/
structure IsIdent (name : String) : Prop where
  isName : IsName name
  head : ∀ c ∈ name.toList.head?, c.isDigit = false
  noKeyword : ∀ k ∈ Reader.Keyword.lettered, ¬ k.letters <+: name.toList

/-- The digit run is read back as the number. -/
structure Writes (run : String) (x : Float) : Prop where
  isRun : IsRun Text.isDigit run
  value : Number.read? run.toList = some x

def HasDigits (x : Float) : Prop := ∃ run, Writes run x

instance (test : Char → Bool) (run : String) : Decidable (IsRun test run) :=
  decidable_of_iff (run.toList ≠ [] ∧ run.toList.all test = true)
    ⟨fun h => ⟨h.1, List.all_eq_true.mp h.2⟩, fun h => ⟨h.1, List.all_eq_true.mpr h.2⟩⟩

theorem isIdent_iff {name : String} :
    IsIdent name ↔ IsName name ∧ (name.toList.head?.all fun c => !c.isDigit) = true ∧
      (Reader.Keyword.lettered.all fun k => !k.letters.isPrefixOf name.toList) = true := by
  simp only [Option.all_eq_true, List.all_eq_true, Bool.not_eq_true', ← Bool.not_eq_true,
    List.isPrefixOf_iff_prefix]
  constructor
  · exact fun h => ⟨h.1, fun c hc => Bool.eq_false_iff.mp (h.2 c hc), h.3⟩
  · exact fun h => ⟨h.1, fun c hc => Bool.eq_false_iff.mpr (h.2.1 c hc), h.2.2⟩

instance (name : String) : Decidable (IsIdent name) := decidable_of_iff _ isIdent_iff.symm

/-! ## Well-formed trees -/

namespace Term

mutual

/-- The names of the term can be read, its numbers have the property, and an argument that is
there is not empty. -/
def Valid (number : Float → Prop) : Term → Prop
  | .literal none => True
  | .literal (some x) => number x
  | .ident name => IsIdent name
  | .op _ => True
  | .group g => ValidAll number g
  | .cond g x y => ValidAll number g ∧ ValidAll number x ∧ ValidAll number y
  | .loop name g => IsName name ∧ ValidAll number g
  | .brk name g => IsName name ∧ ValidAll number g
  | .closure param g => (∀ name ∈ param, IsName name) ∧ ValidAll number g
  | .call name arg => IsName name ∧ ValidArg number arg

def ValidAll (number : Float → Prop) : List Term → Prop
  | [] => True
  | t :: ts => Valid number t ∧ ValidAll number ts

def ValidArg (number : Float → Prop) : Option (List Term) → Prop
  | none => True
  | some g => g ≠ [] ∧ ValidAll number g

end

mutual

theorem valid_imp {p q : Float → Prop} (h : ∀ x, p x → q x) : ∀ t : Term, t.Valid p → t.Valid q
  | .literal none, _ => trivial
  | .literal (some x), hx => h x hx
  | .ident _, hname => hname
  | .op _, _ => trivial
  | .group g, hg => validAll_imp h g hg
  | .cond g x y, ⟨hg, hx, hy⟩ => ⟨validAll_imp h g hg, validAll_imp h x hx, validAll_imp h y hy⟩
  | .loop _ g, ⟨hname, hg⟩ => ⟨hname, validAll_imp h g hg⟩
  | .brk _ g, ⟨hname, hg⟩ => ⟨hname, validAll_imp h g hg⟩
  | .closure _ g, ⟨hparam, hg⟩ => ⟨hparam, validAll_imp h g hg⟩
  | .call _ none, ⟨hname, _⟩ => ⟨hname, trivial⟩
  | .call _ (some g), ⟨hname, hne, hg⟩ => ⟨hname, hne, validAll_imp h g hg⟩

theorem validAll_imp {p q : Float → Prop} (h : ∀ x, p x → q x) :
    ∀ g : List Term, ValidAll p g → ValidAll q g
  | [], _ => trivial
  | t :: ts, ⟨ht, hts⟩ => ⟨valid_imp h t ht, validAll_imp h ts hts⟩

end

mutual

/-- How many brackets are open at once where the term is nested most. A break without a value
needs none, a call always has one. -/
def nesting : Term → Nat
  | .literal _ => 0
  | .ident _ => 0
  | .op _ => 0
  | .group g => nestingAll g + 1
  | .cond g x y => max (nestingAll g) (max (nestingAll x) (nestingAll y)) + 1
  | .loop _ g => nestingAll g + 1
  | .brk _ g => if g.isEmpty then 0 else nestingAll g + 1
  | .closure _ g => nestingAll g + 1
  | .call _ arg => nestingArg arg + 1

def nestingAll : List Term → Nat
  | [] => 0
  | t :: ts => max (nesting t) (nestingAll ts)

def nestingArg : Option (List Term) → Nat
  | none => 0
  | some g => nestingAll g

end

end Term

/-- The trees of programs. -/
structure WellFormed (tree : Group) : Prop where
  valid : Term.ValidAll HasDigits tree
  nesting : Term.nestingAll tree ≤ Reader.maxNesting

/-! ## The number of a character -/

namespace Number

theorem splitSign_of_isDigit {c : Char} (h : c.isDigit = true) (rest : List Char) :
    splitSign (c :: rest) = (false, c :: rest) := by
  unfold splitSign
  split
  · rename_i heq
    cases heq
    exact absurd h (by decide)
  · rename_i heq
    cases heq
    exact absurd h (by decide)
  · rfl

theorem toLower_of_isDigit {c : Char} (h : c.isDigit = true) : c.toLower = c := by
  simp only [Char.isDigit, Bool.and_eq_true, decide_eq_true_eq] at h
  unfold Char.toLower
  rw [dif_neg]
  grind

theorem decimal?_of_digits {digits : List Char} (hne : digits ≠ [])
    (h : ∀ c ∈ digits, c.isDigit = true) :
    decimal? digits = some ⟨naturalOfDigits digits, 0⟩ := by
  have htake : digits.takeWhile Char.isDigit = digits := List.takeWhile_eq_self_iff.mpr h
  have hdrop : digits.dropWhile Char.isDigit = [] := List.dropWhile_eq_nil_iff.mpr h
  simp only [decimal?, htake, hdrop, List.takeWhile_nil, List.append_nil, List.isEmpty_iff, hne,
    Bool.and_eq_true, false_and, if_false]
  rfl

/-- Digits alone have no sign, are no name, and have neither point nor exponent. -/
theorem read?_of_digits {digits : List Char} (hne : digits ≠ [])
    (h : ∀ c ∈ digits, c.isDigit = true) :
    read? digits = some (Float.ofNat (naturalOfDigits digits)) := by
  have hlower : digits.map Char.toLower = digits :=
    (List.map_congr_left fun c hc => toLower_of_isDigit (h c hc)).trans (List.map_id _)
  have hdec := decimal?_of_digits hne h
  have hname : ∀ {name}, digits = name → ∀ c ∈ name, c.isDigit = true := fun heq => heq ▸ h
  obtain ⟨c, rest, rfl⟩ := List.exists_cons_of_ne_nil hne
  rw [read?, splitSign_of_isDigit (h c List.mem_cons_self)]
  simp only [magnitude?, hlower, hdec]
  rw [if_neg, if_neg]
  · rfl
  · exact fun heq => absurd (hname heq 'n' List.mem_cons_self) (by decide)
  · rintro (heq | heq)
    · exact absurd (hname heq 'i' List.mem_cons_self) (by decide)
    · exact absurd (hname heq 'i' List.mem_cons_self) (by decide)

end Number

/-- Every natural number is the value of its decimal digits. -/
theorem hasDigits_ofNat (n : Nat) : HasDigits (Float.ofNat n) := by
  have hdigits : ∀ c ∈ Nat.toDigits 10 n, c.isDigit = true :=
    fun c hc => Nat.isDigit_of_mem_toDigits (by decide) (by decide) hc
  have hne : Nat.toDigits 10 n ≠ [] := Nat.toDigits_ne_nil
  have hread := Number.read?_of_digits hne hdigits
  have hvalue : Number.naturalOfDigits (Nat.toDigits 10 n) = n := Nat.ofDigitChars_ten_toDigits
  rw [hvalue] at hread
  refine ⟨String.ofList (Nat.toDigits 10 n), ⟨?_, fun c hc => ?_⟩, ?_⟩
  · rwa [String.toList_ofList]
  · rw [String.toList_ofList] at hc
    rw [Text.isDigit, hdigits c hc, Bool.true_or]
  · rwa [String.toList_ofList]

/-! ## The units of a text -/

namespace Reader

/-- What the reader finds out about a unit by reading it. -/
def Lexeme.Valid : Lexeme → Prop
  | .digits run => IsRun Text.isDigit run
  | .name run => IsIdent run
  | .quoted run => ∀ c ∈ run, Text.Cursor.isNotQuote c = true
  | .loop n => IsName n
  | .brk n => IsName n
  | .call n => IsName n
  | .pipes param => ∀ n ∈ param, IsName n
  | _ => True

theorem Word.longest?_eq_none_iff {text : List Char} :
    longest? text = none ↔ ∀ w : Word, ¬ w.letters <+: text := by
  simp only [longest?, List.find?_eq_none, List.isPrefixOf_iff_prefix, mem_all, true_implies]

end Reader

namespace Text
namespace Cursor

open Reader

variable {c next : Cursor} {test : Char → Bool} {run : String}

theorem of_popWhile_some (h : (c.popWhile test).1 = some run) :
    IsRun test run ∧ run.toList <+: c.rest := by
  unfold popWhile at h
  split at h
  · cases h
  · rename_i hne
    cases h
    refine ⟨⟨?_, fun x hx => ?_⟩, ?_⟩
    · rwa [String.toList_ofList]
    · rw [String.toList_ofList] at hx
      exact List.mem_takeWhile_imp hx
    · rw [String.toList_ofList]
      exact List.takeWhile_prefix test

theorem of_popWhile_none (h : c.popWhile test = (none, next)) :
    next = c ∧ ∀ x ∈ c.rest.head?, test x = false := by
  unfold popWhile at h
  split at h
  · rename_i hnil
    cases h
    refine ⟨rfl, fun x hx => ?_⟩
    obtain ⟨xs, hxs⟩ := List.head?_eq_some_iff.mp hx
    rw [hxs, List.takeWhile_cons] at hnil
    cases ht : test x with
    | false => rfl
    | true => rw [ht] at hnil; cases hnil
  · cases h

theorem of_reserved_none (h : c.reserved = (none, next)) :
    next = c.skipBlanks ∧ Word.longest? c.skipBlanks.rest = none := by
  unfold reserved at h
  split at h
  · cases h
  · rename_i hw
    cases h
    exact ⟨rfl, hw⟩

theorem rest_skipBlanks_skipBlanks (c : Cursor) :
    c.skipBlanks.skipBlanks.rest = c.skipBlanks.rest :=
  List.dropWhile_idempotent _ _

theorem valid_of_named? {keyword : String → Lexeme} {u : Lexeme}
    (h : c.named? keyword = some (u, next)) (hk : ∀ n, IsName n → (keyword n).Valid) : u.Valid := by
  unfold named? at h
  split at h
  · rename_i hn
    cases h
    exact hk _ (of_popWhile_some (by rw [← ident, hn])).1
  · cases h

theorem valid_of_word? {w : Word} {u : Lexeme} (h : c.word? w = some (u, next)) : u.Valid := by
  cases w with
  | op o => cases h; trivial
  | keyword k =>
    cases k with
    | quote =>
      simp only [word?, quoted?] at h
      split at h
      · cases h
      · cases h
        exact fun x hx => List.mem_takeWhile_imp hx
    | loop => exact valid_of_named? h fun _ hn => hn
    | brk => exact valid_of_named? h fun _ hn => hn
    | call => exact valid_of_named? h fun _ hn => hn
    | pipe =>
      simp only [word?, pipes?] at h
      split at h
      · cases h
        exact fun n hn => (of_popWhile_some hn).1
      · cases h
    | _ => cases h; trivial

/-- Where neither a word nor a digit run begins, an identifier run is one that stands for
itself. -/
theorem isIdent_of_ident {d e : Cursor} {name : String} (hw : c.reserved = (none, d))
    (hd : d.number = (none, e)) (h : e.ident.1 = some name) : IsIdent name := by
  obtain ⟨rfl, hnoWord⟩ := of_reserved_none hw
  obtain ⟨rfl, hnoDigit⟩ := of_popWhile_none hd
  obtain ⟨hname, hpre⟩ := of_popWhile_some h
  rw [rest_skipBlanks_skipBlanks] at hnoDigit
  rw [rest_skipBlanks_skipBlanks, rest_skipBlanks_skipBlanks] at hpre
  refine ⟨hname, fun x hx => ?_, fun k _ hk => ?_⟩
  · have hx : x ∈ c.skipBlanks.rest.head? := by
      obtain ⟨xs, hxs⟩ := List.head?_eq_some_iff.mp hx
      obtain ⟨ys, hys⟩ := hpre
      rw [← hys, hxs]
      rfl
    exact (Bool.or_eq_false_iff.mp (hnoDigit x hx)).1
  · exact Word.longest?_eq_none_iff.mp hnoWord (.keyword k) (hk.trans hpre)

theorem valid_of_lexeme? {u : Lexeme} (h : c.lexeme? = some (u, next)) : u.Valid := by
  unfold lexeme? at h
  split at h
  · exact valid_of_word? h
  · rename_i hw
    split at h
    · rename_i hd
      cases h
      exact (of_popWhile_some (by rw [← number, hd])).1
    · rename_i hd
      split at h
      · rename_i hn
        cases h
        exact isIdent_of_ident hw hd (by rw [hn])
      · cases h

theorem valid_of_lexemes {us : List Lexeme} (h : c.lexemes = some us) : ∀ u ∈ us, u.Valid := by
  induction c using lexemes.induct generalizing us with
  | case1 c hend =>
    rw [lexemes_of_isAtEnd hend] at h
    cases h
    exact nofun
  | case2 c hend hl =>
    rw [lexemes_of_not_isAtEnd (Bool.eq_false_iff.mpr hend), hl] at h
    cases h
  | case3 c hend u next hl ih =>
    rw [lexemes_of_not_isAtEnd (Bool.eq_false_iff.mpr hend), hl] at h
    obtain ⟨vs, hvs, rfl⟩ := Option.map_eq_some_iff.mp h
    exact List.forall_mem_cons.mpr ⟨valid_of_lexeme? hl, ih hvs⟩

end Cursor
end Text

/-! ## What the units derive -/

namespace Reader

open Text

/-- A branch or a value: it is empty, or a bracket stands around it. -/
structure Held (d : Nat) (g : Group) : Prop where
  valid : Term.ValidAll HasDigits g
  nesting : g = [] ∨ Term.nestingAll g < maxNesting - d

/-- What a phrase denotes is well formed and needs no more brackets than may still be opened
inside `d` others. -/
def Phrase.Fits (d : Nat) : Phrase → Prop
  | .items ts => Term.ValidAll HasDigits ts ∧ Term.nestingAll ts ≤ maxNesting - d
  | .item t => t.Valid HasDigits ∧ t.nesting ≤ maxNesting - d
  | .bracketed g => Term.ValidAll HasDigits g ∧ Term.nestingAll g < maxNesting - d
  | .branches x y x' y' => Held d x → Held d y → Held d x' ∧ Held d y'
  | .values v v' => Held d v → Held d v'

variable {d : Nat} {g : Group}

theorem Held.nil : Held d [] := ⟨trivial, .inl rfl⟩

theorem Held.of_bracketed (h : (Phrase.bracketed g).Fits d) : Held d g := ⟨h.1, .inr h.2⟩

theorem Held.nesting_lt (h : Held d g) (room : 0 < maxNesting - d) :
    Term.nestingAll g < maxNesting - d := by
  obtain rfl | h := h.nesting
  · exact room
  · exact h

/-- A keyword, what it asks for, and the rest. -/
theorem forall_mem_cons_append {u : Lexeme} {us vs : List Lexeme}
    (h : ∀ w ∈ u :: us ++ vs, w.Valid) :
    u.Valid ∧ (∀ w ∈ us, w.Valid) ∧ ∀ w ∈ vs, w.Valid := by
  obtain ⟨hu, h⟩ := List.forall_mem_cons.mp h
  exact ⟨hu, List.forall_mem_append.mp h⟩

theorem Leaf.fits {u : Lexeme} {t : Term} (h : Leaf u t) (hu : u.Valid) :
    (Phrase.item t).Fits d := by
  cases h with
  | null => exact ⟨trivial, Nat.zero_le _⟩
  | digits valid => exact ⟨⟨_, hu, valid⟩, Nat.zero_le _⟩
  | quoted c run => exact ⟨hasDigits_ofNat _, Nat.zero_le _⟩
  | ident run => exact ⟨hu, Nat.zero_le _⟩
  | op o => exact ⟨trivial, Nat.zero_le _⟩

theorem Derives.fits {p : Phrase} {us : List Lexeme} (h : Derives d p us)
    (hus : ∀ u ∈ us, u.Valid) : p.Fits d := by
  induction h with
  | nil => exact ⟨trivial, Nat.zero_le _⟩
  | cons head tail ihHead ihTail =>
    obtain ⟨hhead, htail⟩ := List.forall_mem_append.mp hus
    obtain ⟨ht, htn⟩ := ihHead hhead
    obtain ⟨hts, htsn⟩ := ihTail htail
    exact ⟨⟨ht, hts⟩, Nat.max_le.mpr ⟨htn, htsn⟩⟩
  | leaf leaf => exact leaf.fits (hus _ (List.mem_singleton_self _))
  | group content ih => exact ih hus
  | cond test branches ihTest ihBranches =>
    obtain ⟨-, htest, hbranches⟩ := forall_mem_cons_append hus
    obtain ⟨hg, hgn⟩ := ihTest htest
    obtain ⟨hx, hy⟩ := ihBranches hbranches .nil .nil
    -- the bracket of the test leaves room for an empty branch
    have hroom := Nat.zero_lt_of_lt hgn
    exact ⟨⟨hg, hx.valid, hy.valid⟩,
      Nat.max_lt.mpr ⟨hgn, Nat.max_lt.mpr ⟨hx.nesting_lt hroom, hy.nesting_lt hroom⟩⟩⟩
  | loop body ih =>
    obtain ⟨hu, hus⟩ := List.forall_mem_cons.mp hus
    obtain ⟨hg, hgn⟩ := ih hus
    exact ⟨⟨hu, hg⟩, hgn⟩
  | @brk d n g us values ih =>
    obtain ⟨hu, hus⟩ := List.forall_mem_cons.mp hus
    obtain ⟨hg, hgn⟩ := ih hus .nil
    refine ⟨⟨hu, hg⟩, ?_⟩
    obtain rfl | hgn := hgn
    · exact Nat.zero_le _
    · rw [Term.nesting]
      split
      · exact Nat.zero_le _
      · exact hgn
  | closure body ih =>
    obtain ⟨hu, hus⟩ := List.forall_mem_cons.mp hus
    obtain ⟨hg, hgn⟩ := ih hus
    exact ⟨⟨hu, hg⟩, hgn⟩
  | @call d n g us arg ih =>
    obtain ⟨hu, hus⟩ := List.forall_mem_cons.mp hus
    obtain ⟨hg, hgn⟩ := ih hus
    split
    · exact ⟨⟨hu, trivial⟩, Nat.zero_lt_of_lt hgn⟩
    · rename_i hne
      exact ⟨⟨hu, hne, hg⟩, hgn⟩
  | bracketed room content ih =>
    obtain ⟨-, hcontent, -⟩ := forall_mem_cons_append hus
    obtain ⟨hg, hgn⟩ := ih hcontent
    exact ⟨hg, by omega⟩
  | noBranch => exact fun hx hy => ⟨hx, hy⟩
  | thenBranch branch rest ihBranch ihRest =>
    obtain ⟨-, hbranch, hrest⟩ := forall_mem_cons_append hus
    exact fun _ hy => ihRest hrest (.of_bracketed (ihBranch hbranch)) hy
  | elseBranch branch rest ihBranch ihRest =>
    obtain ⟨-, hbranch, hrest⟩ := forall_mem_cons_append hus
    exact fun hx _ => ihRest hrest hx (.of_bracketed (ihBranch hbranch))
  | noValue => exact id
  | withValue value rest ihValue ihRest =>
    obtain ⟨-, hvalue, hrest⟩ := forall_mem_cons_append hus
    exact fun _ => ihRest hrest (.of_bracketed (ihValue hvalue))

/-- The tree is what the units of the text denote. -/
theorem units_of_parse {source : String} {tree : Group} (h : parse source = .ok tree) :
    ∃ us, (Cursor.ofString source).lexemes = some us ∧ Derives 0 (.items tree) us := by
  have hunits := parse_toOption source
  rw [h] at hunits
  obtain ⟨us, hus, hread⟩ := Option.bind_eq_some_iff.mp hunits.symm
  exact ⟨us, hus, read_eq_some_iff.mp hread⟩

/-- Reading gives well-formed trees only. -/
theorem wellFormed_of_parse {source : String} {tree : Group} (h : parse source = .ok tree) :
    WellFormed tree := by
  obtain ⟨us, hus, hderives⟩ := units_of_parse h
  obtain ⟨hvalid, hnesting⟩ := hderives.fits (Cursor.valid_of_lexemes hus)
  exact ⟨hvalid, hnesting⟩

end Reader

end Bracket

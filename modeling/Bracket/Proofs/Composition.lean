import Bracket.Proofs.Render

/-!
# Bracket.Proofs.Composition

Reading a text that is put together from texts: two with blanks between them, or one in brackets.
Such a text is read as its parts are (`parse_joined_and_bracketed`).

The units of a text stay the same in front of a character that ends them (`EndsUnit`), and both a
blank and a closing bracket do. So the units of the whole are those of its parts
(`lexemes_append`). What they derive is put together by the grammar: items before items are items,
and units derive the same inside one more bracket, as long as the reader lets them open theirs
there (`Derives.relevel`).
-/

namespace Bracket
namespace Reader

open Text

/-! ## Characters that end a unit -/

/-- No run goes on with the character, and no word that was begun before it. -/
structure EndsUnit (x : Char) : Prop where
  digit : isDigit x = false
  ident : isIdent x = false
  word : ∀ w : Word, x ∉ w.letters.tail

theorem endsUnit_of_isBlank {x : Char} (h : isBlank x = true) : EndsUnit x where
  digit := by
    cases hd : isDigit x with
    | false => rfl
    | true => rw [not_isBlank_of_isDigit hd] at h; cases h
  ident := by
    cases hi : isIdent x with
    | false => rfl
    | true => rw [not_isBlank_of_isIdent hi] at h; cases h
  word w hx := by
    rw [Word.not_isBlank_of_mem (List.mem_of_mem_tail hx)] at h
    cases h

theorem endsUnit_closing : EndsUnit ')' where
  digit := by decide
  ident := by decide
  word w hx := by
    have h : (Word.all.all fun w => w.letters.tail.all fun x => x != ')') = true := by decide
    simp only [List.all_eq_true, bne_iff_ne] at h
    exact h w (Word.mem_all w) _ hx rfl

section

variable {tail : List Char} (htail : ∀ x ∈ tail.head?, EndsUnit x)
include htail

/-- A word that begins before the tail ends before it. -/
theorem Word.prefix_of_endsUnit {w : Word} {text : List Char} (hne : text ≠ [])
    (h : w.letters <+: text ++ tail) : w.letters <+: text := by
  refine prefix_of_stop h fun x hx hgoes => (htail x hx).word w ?_
  obtain ⟨y, ys, rfl⟩ := List.exists_cons_of_ne_nil hne
  obtain ⟨more, hletters⟩ := hgoes
  rw [← hletters, List.cons_append, List.cons_append, List.tail_cons]
  exact List.mem_append_left more (List.mem_append_right ys List.mem_cons_self)

theorem Word.longest?_append {text : List Char} (hne : text ≠ []) :
    longest? (text ++ tail) = longest? text := by
  refine congrArg all.find? (funext fun w => ?_)
  rw [Bool.eq_iff_iff, List.isPrefixOf_iff_prefix, List.isPrefixOf_iff_prefix]
  exact ⟨prefix_of_endsUnit htail hne, fun h => h.trans (List.prefix_append text tail)⟩

end

end Reader

/-! ## Units in front of a tail -/

namespace Text
namespace Cursor

open Reader

variable {c d next : Cursor} {tail : List Char}

/-- Blanks before the text make no difference, and the tail is reached only behind it. -/
theorem rest_skipBlanks_append (hne : c.skipBlanks.rest ≠ []) (h : d.rest = c.rest ++ tail) :
    d.skipBlanks.rest = c.skipBlanks.rest ++ tail := by
  simp only [skipBlanks, skipWhile, h] at hne ⊢
  rw [List.dropWhile_append, if_neg (by rwa [List.isEmpty_iff])]

theorem takeWhile_append_stop {test : Char → Bool} (htest : ∀ x ∈ tail.head?, test x = false)
    (text : List Char) : (text ++ tail).takeWhile test = text.takeWhile test := by
  rw [List.takeWhile_append, (stops_at_head htest).1, List.append_nil]
  split
  · rename_i hlen
    exact ((List.takeWhile_prefix test).eq_of_length hlen).symm
  · rfl

theorem dropWhile_append_stop {test : Char → Bool} (htest : ∀ x ∈ tail.head?, test x = false)
    (text : List Char) : (text ++ tail).dropWhile test = text.dropWhile test ++ tail := by
  rw [List.dropWhile_append, (stops_at_head htest).2]
  split
  · rename_i hnil
    rw [List.isEmpty_iff.mp hnil, List.nil_append]
  · rfl

/-- A run that the tail does not go on with is the same in front of it. -/
theorem popWhile_append {test : Char → Bool} {run : Option String}
    (htest : ∀ x ∈ tail.head?, test x = false) (hrun : c.popWhile test = (run, next))
    (h : d.rest = c.rest ++ tail) :
    ∃ next', d.popWhile test = (run, next') ∧ next'.rest = next.rest ++ tail := by
  unfold popWhile at hrun
  rw [popWhile, h, takeWhile_append_stop htest]
  split at hrun
  · cases hrun
    exact ⟨d, rfl, h⟩
  · cases hrun
    exact ⟨d.skipWhile test, rfl, by simp only [skipWhile, h, dropWhile_append_stop htest]⟩

theorem skipBlanks_ne_nil_of_reserved {w : Word} (h : c.reserved = (some w, next)) :
    c.skipBlanks.rest ≠ [] := by
  have hend := isAtEnd_of_reserved h
  intro hnil
  rw [isAtEnd, hnil] at hend
  cases hend

theorem skipBlanks_ne_nil_of_ident {name : String} (h : c.ident = (some name, next)) :
    c.skipBlanks.rest ≠ [] := by
  have hname : (c.skipBlanks.popWhile isIdent).1 = some name := by rw [← ident, h]
  obtain ⟨hrun, hpre⟩ := of_popWhile_some hname
  intro hnil
  rw [hnil, List.prefix_nil] at hpre
  exact hrun.ne_nil hpre

theorem quoted?_append {u : Lexeme} (hu : c.quoted? = some (u, next))
    (h : d.rest = c.rest ++ tail) :
    ∃ next', d.quoted? = some (u, next') ∧ next'.rest = next.rest ++ tail := by
  unfold quoted? at hu
  split at hu
  · cases hu
  · rename_i x xs hx
    cases hu
    -- the closing quote is found before the tail, so the run does not reach it
    have hdrop : c.rest.dropWhile isNotQuote = x :: xs := hx
    have htake : (c.rest ++ tail).takeWhile isNotQuote = c.rest.takeWhile isNotQuote := by
      rw [List.takeWhile_append, if_neg]
      intro hlen
      have hall := congrArg List.length
        (List.takeWhile_append_dropWhile (p := isNotQuote) (l := c.rest))
      rw [hdrop, List.length_append, List.length_cons] at hall
      omega
    have hrest : (d.skipWhile isNotQuote).rest = x :: (xs ++ tail) := by
      rw [skipWhile, h, List.dropWhile_append, hdrop]
      rfl
    refine ⟨(d.skipWhile isNotQuote).advance 1, ?_, ?_⟩
    · simp only [quoted?, hrest, h, htake]
    · simp only [advance, hrest, hx, List.drop_one, List.tail_cons]

section

variable (htail : ∀ x ∈ tail.head?, EndsUnit x)
include htail

theorem reserved_append {w : Word} (hw : c.reserved = (some w, next))
    (h : d.skipBlanks.rest = c.skipBlanks.rest ++ tail) :
    ∃ next', d.reserved = (some w, next') ∧ next'.rest = next.rest ++ tail := by
  have hne := skipBlanks_ne_nil_of_reserved hw
  unfold reserved at hw
  split at hw
  · rename_i v hv
    cases hw
    refine ⟨d.skipBlanks.advance w.letters.length, ?_, ?_⟩
    · rw [reserved, h, Word.longest?_append htail hne, hv]
    · simp only [advance, h]
      exact List.drop_append_of_le_length (Word.length_le_of_longest? hv)
  · cases hw

theorem ident_append {name : Option String} (hname : c.ident = (name, next))
    (h : d.skipBlanks.rest = c.skipBlanks.rest ++ tail) :
    ∃ next', d.ident = (name, next') ∧ next'.rest = next.rest ++ tail :=
  popWhile_append (fun x hx => (htail x hx).ident) hname h

theorem number_append {run : Option String} (hrun : c.number = (run, next))
    (h : d.skipBlanks.rest = c.skipBlanks.rest ++ tail) :
    ∃ next', d.number = (run, next') ∧ next'.rest = next.rest ++ tail :=
  popWhile_append (fun x hx => (htail x hx).digit) hrun h

theorem named?_append {keyword : String → Lexeme} {u : Lexeme}
    (hu : c.named? keyword = some (u, next)) (h : d.rest = c.rest ++ tail) :
    ∃ next', d.named? keyword = some (u, next') ∧ next'.rest = next.rest ++ tail := by
  unfold named? at hu
  split at hu
  · rename_i name e hn
    cases hu
    have hd := rest_skipBlanks_append (skipBlanks_ne_nil_of_ident hn) h
    obtain ⟨next', hn', hrest⟩ := ident_append htail hn hd
    exact ⟨next', by rw [named?, hn'], hrest⟩
  · cases hu

theorem pipes?_append {u : Lexeme} (hu : c.pipes? = some (u, next)) (h : d.rest = c.rest ++ tail) :
    ∃ next', d.pipes? = some (u, next') ∧ next'.rest = next.rest ++ tail := by
  unfold pipes? at hu
  rcases hn : c.ident with ⟨name, e⟩
  rw [hn] at hu
  split at hu
  · rename_i f hf
    cases hu
    have hne : c.skipBlanks.rest ≠ [] := by
      intro hnil
      have hpop : c.ident = (none, c.skipBlanks) :=
        popWhile_none_of_head (by rw [hnil]; exact nofun)
      cases hn.symm.trans hpop
      exact skipBlanks_ne_nil_of_reserved hf ((rest_skipBlanks_skipBlanks c).trans hnil)
    obtain ⟨e', hn', he'⟩ := ident_append htail hn (rest_skipBlanks_append hne h)
    have he := rest_skipBlanks_append (skipBlanks_ne_nil_of_reserved hf) he'
    obtain ⟨next', hf', hrest⟩ := reserved_append htail hf he
    exact ⟨next', by simp only [pipes?, hn', hf'], hrest⟩
  · cases hu

theorem word?_append {w : Word} {u : Lexeme} (hu : c.word? w = some (u, next))
    (h : d.rest = c.rest ++ tail) :
    ∃ next', d.word? w = some (u, next') ∧ next'.rest = next.rest ++ tail := by
  cases w with
  | op o => cases hu; exact ⟨d, rfl, h⟩
  | keyword k =>
    cases k with
    | quote => exact quoted?_append hu h
    | loop => exact named?_append htail hu h
    | brk => exact named?_append htail hu h
    | call => exact named?_append htail hu h
    | pipe => exact pipes?_append htail hu h
    | _ => cases hu; exact ⟨d, rfl, h⟩

/-- The next unit is the same in front of the tail, unless the tail comes first. -/
theorem lexeme?_append {u : Lexeme} (hu : c.lexeme? = some (u, next))
    (hne : c.skipBlanks.rest ≠ []) (h : d.skipBlanks.rest = c.skipBlanks.rest ++ tail) :
    ∃ next', d.lexeme? = some (u, next') ∧ next'.rest = next.rest ++ tail := by
  unfold lexeme? at hu
  split at hu
  · rename_i w e hw
    obtain ⟨e', hw', he'⟩ := reserved_append htail hw h
    obtain ⟨next', hu', hrest⟩ := word?_append htail hu he'
    exact ⟨next', by simp only [lexeme?, hw', hu'], hrest⟩
  · rename_i e hw
    obtain ⟨rfl, hnoWord⟩ := of_reserved_none hw
    have hw' : d.reserved = (none, d.skipBlanks) :=
      reserved_of_longest?_none (by rw [h, Word.longest?_append htail hne, hnoWord])
    have hd : d.skipBlanks.skipBlanks.rest = c.skipBlanks.skipBlanks.rest ++ tail := by
      rw [rest_skipBlanks_skipBlanks, rest_skipBlanks_skipBlanks, h]
    split at hu
    · rename_i run f hf
      cases hu
      obtain ⟨next', hf', hrest⟩ := number_append htail hf hd
      exact ⟨next', by simp only [lexeme?, hw', hf'], hrest⟩
    · rename_i f hf
      obtain ⟨f', hf', hfrest⟩ := number_append htail hf hd
      obtain ⟨rfl, -⟩ := of_popWhile_none hf
      obtain ⟨rfl, -⟩ := of_popWhile_none hf'
      split at hu
      · rename_i name i hi
        cases hu
        have hd : d.skipBlanks.skipBlanks.skipBlanks.rest =
            c.skipBlanks.skipBlanks.skipBlanks.rest ++ tail := by
          rw [rest_skipBlanks_skipBlanks, hfrest, rest_skipBlanks_skipBlanks c.skipBlanks]
        obtain ⟨next', hi', hrest⟩ := ident_append htail hi hd
        exact ⟨next', by simp only [lexeme?, hw', hf', hi'], hrest⟩
      · cases hu

omit htail in
theorem lexemes_cons {u : Lexeme} {us : List Lexeme} (hend : c.isAtEnd.1 = false)
    (hu : c.lexeme? = some (u, d)) (hus : d.lexemes = some us) : c.lexemes = some (u :: us) := by
  rw [lexemes_of_not_isAtEnd hend, hu, Option.bind_some, hus]
  rfl

/-- The units of a text in front of a tail, whose own units come behind. -/
theorem lexemes_append {us vs : List Lexeme} (hus : c.lexemes = some us)
    (hvs : ∀ e : Cursor, e.skipBlanks.rest = tail.dropWhile isBlank → e.lexemes = some vs)
    (h : d.skipBlanks.rest = (c.rest ++ tail).dropWhile isBlank) :
    d.lexemes = some (us ++ vs) := by
  induction c using lexemes.induct generalizing us d with
  | case1 c hend =>
    rw [lexemes_of_isAtEnd hend] at hus
    cases hus
    have hnil : c.rest.dropWhile isBlank = [] := List.isEmpty_iff.mp hend
    rw [List.dropWhile_append, hnil] at h
    exact hvs d h
  | case2 c hend hl =>
    rw [lexemes_of_not_isAtEnd (Bool.eq_false_iff.mpr hend), hl] at hus
    cases hus
  | case3 c hend u next hl ih =>
    rw [lexemes_of_not_isAtEnd (Bool.eq_false_iff.mpr hend), hl] at hus
    obtain ⟨ws, hws, rfl⟩ := Option.map_eq_some_iff.mp hus
    have hne : c.skipBlanks.rest ≠ [] := fun hnil => hend (List.isEmpty_iff.mpr hnil)
    have hd : d.skipBlanks.rest = c.skipBlanks.rest ++ tail := by
      rw [h, List.dropWhile_append, if_neg (by rwa [List.isEmpty_iff])]
      rfl
    obtain ⟨next', hl', hrest⟩ := lexeme?_append htail hl hne hd
    have hend' : d.isAtEnd.1 = false := by
      rw [isAtEnd, hd, Bool.eq_false_iff]
      exact fun hnil => hne (List.append_eq_nil_iff.mp (List.isEmpty_iff.mp hnil)).1
    exact lexemes_cons hend' hl' (ih hws (by rw [← hrest]; rfl))

end

/-- Neither the position of a text nor the blanks before it play a part in its units. -/
theorem lexemes_congr {us : List Lexeme} (hus : c.lexemes = some us)
    (h : d.skipBlanks.rest = c.skipBlanks.rest) : d.lexemes = some us := by
  have hvs : ∀ e : Cursor, e.skipBlanks.rest = [] → e.lexemes = some [] :=
    fun e he => lexemes_of_isAtEnd (by rw [isAtEnd, he]; rfl)
  have hends : ∀ x ∈ ([] : List Char).head?, EndsUnit x := by
    rintro x ⟨⟩
  have hd : d.lexemes = some (us ++ []) :=
    lexemes_append hends hus hvs (by rw [h, List.append_nil]; rfl)
  rwa [List.append_nil] at hd

end Cursor
end Text

namespace Reader

open Text

/-! ## Brackets that are open at once -/

/-- The most brackets that are open at once while the units are read, `d` being open before. -/
def mostOpen (d : Nat) : List Lexeme → Nat
  | [] => d
  | .opening :: us => mostOpen (d + 1) us
  | .closing :: us => max d (mostOpen (d - 1) us)
  | _ :: us => mostOpen d us

/-- The most brackets of a text that are open at once, if the text has units. -/
def mostOpen? (source : String) : Option Nat :=
  (Cursor.ofString source).lexemes.map (mostOpen 0)

theorem mostOpen_succ_le (d : Nat) (us : List Lexeme) :
    mostOpen (d + 1) us ≤ mostOpen d us + 1 := by
  induction us generalizing d with
  | nil => exact Nat.le_refl _
  | cons u us ih =>
    cases u with
    | opening => exact ih (d + 1)
    | closing =>
      simp only [mostOpen]
      cases d with
      | zero =>
        show max 1 (mostOpen 0 us) ≤ max 0 (mostOpen 0 us) + 1
        omega
      | succ d =>
        have h := ih d
        show max (d + 2) (mostOpen (d + 1) us) ≤ max (d + 1) (mostOpen d us) + 1
        omega
    | _ => exact ih d

theorem mostOpen_leaf {u : Lexeme} {t : Term} (h : Leaf u t) (d : Nat) (us : List Lexeme) :
    mostOpen d (u :: us) = mostOpen d us := by
  cases h <;> rfl

/-- Units derive the same inside any number of brackets that leaves room for their own. -/
theorem Derives.relevel {d : Nat} {p : Phrase} {us : List Lexeme} (h : Derives d p us) :
    ∀ k rest, mostOpen k (us ++ rest) ≤ maxNesting →
      Derives k p us ∧ mostOpen k rest ≤ maxNesting := by
  induction h with
  | nil => exact fun k rest hopen => ⟨.nil, hopen⟩
  | cons head tail ihHead ihTail =>
    intro k rest hopen
    rw [List.append_assoc] at hopen
    obtain ⟨hhead, hopen⟩ := ihHead k _ hopen
    obtain ⟨htail, hopen⟩ := ihTail k rest hopen
    exact ⟨.cons hhead htail, hopen⟩
  | leaf leaf =>
    intro k rest hopen
    rw [List.singleton_append, mostOpen_leaf leaf] at hopen
    exact ⟨.leaf leaf, hopen⟩
  | group content ih =>
    intro k rest hopen
    obtain ⟨hcontent, hopen⟩ := ih k rest hopen
    exact ⟨.group hcontent, hopen⟩
  | cond test branches ihTest ihBranches =>
    intro k rest hopen
    rw [List.append_assoc] at hopen
    obtain ⟨htest, hopen⟩ := ihTest k _ hopen
    obtain ⟨hbranches, hopen⟩ := ihBranches k rest hopen
    exact ⟨.cond htest hbranches, hopen⟩
  | loop body ih =>
    intro k rest hopen
    obtain ⟨hbody, hopen⟩ := ih k rest hopen
    exact ⟨.loop hbody, hopen⟩
  | brk values ih =>
    intro k rest hopen
    obtain ⟨hvalues, hopen⟩ := ih k rest hopen
    exact ⟨.brk hvalues, hopen⟩
  | closure body ih =>
    intro k rest hopen
    obtain ⟨hbody, hopen⟩ := ih k rest hopen
    exact ⟨.closure hbody, hopen⟩
  | call arg ih =>
    intro k rest hopen
    obtain ⟨harg, hopen⟩ := ih k rest hopen
    exact ⟨.call harg, hopen⟩
  | bracketed room content ih =>
    intro k rest hopen
    rw [List.append_assoc] at hopen
    obtain ⟨hcontent, hopen⟩ := ih (k + 1) _ hopen
    -- the closing bracket comes with one bracket more open than there were before
    have hclose := Nat.max_le.mp hopen
    exact ⟨.bracketed hclose.1 hcontent, hclose.2⟩
  | noBranch => exact fun k rest hopen => ⟨.noBranch, hopen⟩
  | thenBranch branch rest ihBranch ihRest =>
    intro k rest hopen
    rw [List.append_assoc] at hopen
    obtain ⟨hbranch, hopen⟩ := ihBranch k _ hopen
    obtain ⟨hrest, hopen⟩ := ihRest k rest hopen
    exact ⟨.thenBranch hbranch hrest, hopen⟩
  | elseBranch branch rest ihBranch ihRest =>
    intro k rest hopen
    rw [List.append_assoc] at hopen
    obtain ⟨hbranch, hopen⟩ := ihBranch k _ hopen
    obtain ⟨hrest, hopen⟩ := ihRest k rest hopen
    exact ⟨.elseBranch hbranch hrest, hopen⟩
  | noValue => exact fun k rest hopen => ⟨.noValue, hopen⟩
  | withValue value rest ihValue ihRest =>
    intro k rest hopen
    rw [List.append_assoc] at hopen
    obtain ⟨hvalue, hopen⟩ := ihValue k _ hopen
    obtain ⟨hrest, hopen⟩ := ihRest k rest hopen
    exact ⟨.withValue hvalue hrest, hopen⟩

theorem derives_append {d : Nat} {a b : Group} {us vs : List Lexeme}
    (ha : Derives d (.items a) us) (hb : Derives d (.items b) vs) :
    Derives d (.items (a ++ b)) (us ++ vs) := by
  generalize hp : Phrase.items a = p at ha
  induction ha generalizing a with
  | nil =>
    cases hp
    exact hb
  | cons head tail _ ih =>
    cases hp
    rw [List.append_assoc]
    exact .cons head (ih hb rfl)
  | _ => cases hp

/-! ## Texts put together -/

theorem parse_joined {s t w : String} {a b : Group} (hs : parse s = .ok a) (ht : parse t = .ok b)
    (hne : w ≠ "") (hw : ∀ x ∈ w.toList, isBlank x = true) :
    parse (s ++ w ++ t) = .ok (a ++ b) := by
  obtain ⟨us, hus, ha⟩ := units_of_parse hs
  obtain ⟨vs, hvs, hb⟩ := units_of_parse ht
  refine parse_of_units ?_ (derives_append ha hb)
  have hends : ∀ x ∈ (w.toList ++ t.toList).head?, EndsUnit x := by
    obtain ⟨y, ys, hy⟩ := List.exists_cons_of_ne_nil (fun h => hne (String.toList_eq_nil_iff.mp h))
    rw [hy]
    rintro x ⟨⟩
    exact endsUnit_of_isBlank (hw y (hy ▸ List.mem_cons_self))
  refine Cursor.lexemes_append hends hus (fun e he => Cursor.lexemes_congr hvs ?_) ?_
  · rw [he, List.dropWhile_append_of_pos hw]
    rfl
  · simp only [Cursor.ofString, String.toList_append, List.append_assoc]
    rfl

theorem lexemes_bracketed {s : String} {us : List Lexeme}
    (hus : (Cursor.ofString s).lexemes = some us) :
    (Cursor.ofString ("(" ++ s ++ ")")).lexemes = some (.opening :: us ++ [.closing]) := by
  have htext : ("(" ++ s ++ ")").toList = '(' :: (s.toList ++ [')']) := by
    rw [String.toList_append, String.toList_append]
    rfl
  have hskip : (Cursor.ofString ("(" ++ s ++ ")")).skipBlanks.rest =
      (Word.keyword .opening).letters ++ (s.toList ++ [')']) := by
    simp only [Cursor.skipBlanks, Cursor.skipWhile, Cursor.ofString, htext]
    rfl
  obtain ⟨next, hw, hrest⟩ := Cursor.reserved_of_rest hskip rfl
  have hends : ∀ x ∈ [')'].head?, EndsUnit x := by
    rintro x ⟨⟩
    exact endsUnit_closing
  have hclosing : ∀ e : Cursor, e.skipBlanks.rest = [')'] → e.lexemes = some [.closing] :=
    fun e he => Cursor.lexemes_of_stands (List.forall_mem_singleton.mpr trivial) he
  have hcontent : next.lexemes = some (us ++ [.closing]) :=
    Cursor.lexemes_append hends hus hclosing (by
      simp only [Cursor.skipBlanks, Cursor.skipWhile, hrest]; rfl)
  exact Cursor.lexemes_cons (Cursor.isAtEnd_of_reserved hw)
    (Cursor.lexeme?_eq_opening_iff.mpr hw) hcontent

theorem parse_bracketed {s : String} {a : Group} (hs : parse s = .ok a)
    (hopen : ∀ n ∈ mostOpen? s, n < maxNesting) : parse ("(" ++ s ++ ")") = .ok [.group a] := by
  obtain ⟨us, hus, ha⟩ := units_of_parse hs
  have hroom : mostOpen 1 (us ++ []) ≤ maxNesting := by
    have hlt : mostOpen 0 us < maxNesting := hopen _ (by rw [mostOpen?, hus]; rfl)
    have hle : mostOpen 1 us ≤ mostOpen 0 us + 1 := mostOpen_succ_le 0 us
    rw [List.append_nil]
    omega
  obtain ⟨hcontent, -⟩ := ha.relevel 1 [] hroom
  have hitem : Derives 0 (.item (.group a)) (.opening :: us ++ [.closing]) :=
    .group (.bracketed (by decide) hcontent)
  have htree := Derives.cons hitem .nil
  rw [List.append_nil] at htree
  exact parse_of_units (lexemes_bracketed hus) htree

/-- Two texts that are read are read together with blanks between them, and give the terms of both;
and a text that is read is read in brackets, and gives one group, if one more bracket may be open
around it. -/
theorem parse_joined_and_bracketed :
    (∀ (s t w : String) (a b : Group), parse s = .ok a → parse t = .ok b → w ≠ "" →
      (∀ x ∈ w.toList, isBlank x = true) → parse (s ++ w ++ t) = .ok (a ++ b)) ∧
    ∀ (s : String) (a : Group), parse s = .ok a → (∀ n ∈ mostOpen? s, n < maxNesting) →
      parse ("(" ++ s ++ ")") = .ok [.group a] :=
  ⟨fun _ _ _ _ _ hs ht hne hw => parse_joined hs ht hne hw, fun _ _ => parse_bracketed⟩

/-- A condition with a group behind it, which does not become a branch, and the condition in
brackets. -/
theorem parse_condition_and_group :
    let cond : Term := .cond [.ident "a"] [] []
    parse "if(a)" = .ok [cond] ∧ parse "(b)" = .ok [.group [.ident "b"]] ∧
    parse "if(a)\n(b)" = .ok [cond, .group [.ident "b"]] ∧
    mostOpen? "if(a)" = some 1 ∧ parse "(if(a))" = .ok [.group [cond]] := by
  intro cond
  obtain ⟨hjoined, hbracketed⟩ := parse_joined_and_bracketed
  have hcond : parse "if(a)" = .ok [cond] := by
    rw [parse, Parser.run_eq_bind rfl]
    refine (Parser.run_eq_bind rfl).trans ?_
    exact (Parser.run_eq_bind rfl).trans (Parser.run_of_isAtEnd rfl)
  have hgroup : parse "(b)" = .ok [.group [.ident "b"]] := by
    rw [parse, Parser.run_eq_bind rfl]
    refine (Parser.run_eq_bind rfl).trans ?_
    exact (Parser.run_eq_bind rfl).trans (Parser.run_of_isAtEnd rfl)
  have hopen : mostOpen? "if(a)" = some 1 := by
    have hunits : (Cursor.ofString "if(a)").lexemes =
        some [.ifTest, .opening, .name "a", .closing] := by
      refine Cursor.lexemes_cons rfl rfl ?_
      refine Cursor.lexemes_cons rfl rfl ?_
      refine Cursor.lexemes_cons rfl rfl ?_
      refine Cursor.lexemes_cons rfl rfl ?_
      exact Cursor.lexemes_of_isAtEnd rfl
    rw [mostOpen?, hunits]
    rfl
  have hblank : ∀ x ∈ "\n".toList, isBlank x = true := List.forall_mem_singleton.mpr rfl
  have hboth := hjoined "if(a)" "(b)" "\n" _ _ hcond hgroup (by decide) hblank
  have hone := hbracketed "if(a)" _ hcond (by rw [hopen]; decide)
  exact ⟨hcond, hgroup, hboth, hopen, hone⟩

end Reader
end Bracket

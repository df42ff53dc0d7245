import Bracket.Proofs.Spelling

/-!
# Bracket.Proofs.Render

Writing a tree as a text that is read back as the tree.

The rendering of a tree spells the units of its terms, each construct with all the parts it can
have; only a break without a value has none. `derives_lexemes` shows that the units of a
well-formed term derive it wherever its brackets fit, so that reading the rendering gives the tree.
With `wellFormed_of_parse` the trees that can be read are exactly the well-formed ones
(`parse_image`).
-/

namespace Bracket

open Reader

/-- The digits chosen for the number are read back as it. -/
def WrittenBy (digits : Float → String) (x : Float) : Prop := Writes (digits x) x

theorem exists_digits : ∃ digits, ∀ x, HasDigits x → WrittenBy digits x := by
  classical
  refine ⟨fun x => if h : HasDigits x then h.choose else "", fun x h => ?_⟩
  simp only [WrittenBy, dif_pos h]
  exact h.choose_spec

/-! ## The units of a tree -/

namespace Term

def bracketed (us : List Lexeme) : List Lexeme := .opening :: us ++ [.closing]

mutual

def lexemes (digits : Float → String) : Term → List Lexeme
  | .literal none => [.null]
  | .literal (some x) => [.digits (digits x)]
  | .ident name => [.name name]
  | .op o => [.op o]
  | .group g => bracketed (lexemesAll digits g)
  | .cond g x y => .ifTest :: bracketed (lexemesAll digits g) ++
      (.thenBranch :: bracketed (lexemesAll digits x) ++
        .elseBranch :: bracketed (lexemesAll digits y))
  | .loop name g => .loop name :: bracketed (lexemesAll digits g)
  | .brk name g => .brk name ::
      if g.isEmpty then [] else .withValue :: bracketed (lexemesAll digits g)
  | .closure param g => .pipes param :: bracketed (lexemesAll digits g)
  | .call name arg => .call name :: bracketed (lexemesArg digits arg)

def lexemesAll (digits : Float → String) : List Term → List Lexeme
  | [] => []
  | t :: ts => lexemes digits t ++ lexemesAll digits ts

def lexemesArg (digits : Float → String) : Option (List Term) → List Lexeme
  | none => []
  | some g => lexemesAll digits g

end

variable {digits : Float → String}

theorem valid_bracketed {us : List Lexeme} (h : ∀ u ∈ us, u.Valid) :
    ∀ u ∈ bracketed us, u.Valid :=
  List.forall_mem_cons.mpr
    ⟨trivial, List.forall_mem_append.mpr ⟨h, List.forall_mem_singleton.mpr trivial⟩⟩

mutual

/-- The units of a valid term can be spelled. -/
theorem valid_lexemes :
    ∀ t : Term, t.Valid (WrittenBy digits) → ∀ u ∈ t.lexemes digits, u.Valid
  | .literal none, _ => List.forall_mem_singleton.mpr trivial
  | .literal (some x), h => List.forall_mem_singleton.mpr h.isRun
  | .ident _, h => List.forall_mem_singleton.mpr h
  | .op _, _ => List.forall_mem_singleton.mpr trivial
  | .group g, h => valid_bracketed (valid_lexemesAll g h)
  | .cond g x y, ⟨hg, hx, hy⟩ => by
    have hg := valid_bracketed (valid_lexemesAll g hg)
    have hx := valid_bracketed (valid_lexemesAll x hx)
    have hy := valid_bracketed (valid_lexemesAll y hy)
    refine List.forall_mem_cons.mpr ⟨trivial, List.forall_mem_append.mpr ⟨hg, ?_⟩⟩
    refine List.forall_mem_cons.mpr ⟨trivial, List.forall_mem_append.mpr ⟨hx, ?_⟩⟩
    exact List.forall_mem_cons.mpr ⟨trivial, hy⟩
  | .loop _ g, ⟨hname, hg⟩ =>
    List.forall_mem_cons.mpr ⟨hname, valid_bracketed (valid_lexemesAll g hg)⟩
  | .brk _ g, ⟨hname, hg⟩ => by
    have hg := valid_bracketed (valid_lexemesAll g hg)
    refine List.forall_mem_cons.mpr ⟨hname, ?_⟩
    split
    · exact nofun
    · exact List.forall_mem_cons.mpr ⟨trivial, hg⟩
  | .closure _ g, ⟨hparam, hg⟩ =>
    List.forall_mem_cons.mpr ⟨hparam, valid_bracketed (valid_lexemesAll g hg)⟩
  | .call _ none, ⟨hname, _⟩ => List.forall_mem_cons.mpr ⟨hname, valid_bracketed nofun⟩
  | .call _ (some g), ⟨hname, _, hg⟩ =>
    List.forall_mem_cons.mpr ⟨hname, valid_bracketed (valid_lexemesAll g hg)⟩

theorem valid_lexemesAll :
    ∀ g : List Term, ValidAll (WrittenBy digits) g → ∀ u ∈ lexemesAll digits g, u.Valid
  | [], _ => nofun
  | t :: ts, ⟨ht, hts⟩ =>
    List.forall_mem_append.mpr ⟨valid_lexemes t ht, valid_lexemesAll ts hts⟩

end

/-! ## Deriving a tree from its units -/

/-- The brackets of a group take one level of those that are left. -/
theorem derives_bracketed {d : Nat} {g : Group} {us : List Lexeme}
    (hg : ∀ d, nestingAll g ≤ maxNesting - d → Derives d (.items g) us)
    (room : nestingAll g < maxNesting - d) : Derives d (.bracketed g) (bracketed us) :=
  .bracketed (by omega) (hg (d + 1) (by omega))

mutual

/-- The units of a valid term derive it wherever its brackets fit. -/
theorem derives_lexemes :
    ∀ t : Term, t.Valid (WrittenBy digits) → ∀ d, t.nesting ≤ maxNesting - d →
      Derives d (.item t) (t.lexemes digits)
  | .literal none, _, _, _ => .leaf .null
  | .literal (some x), h, _, _ => .leaf (.digits h.value)
  | .ident name, _, _, _ => .leaf (.ident name)
  | .op o, _, _, _ => .leaf (.op o)
  | .group g, hg, _, room => .group (derives_bracketed (derives_lexemesAll g hg) room)
  | .cond g x y, ⟨hg, hx, hy⟩, d, room => by
    obtain ⟨hgn, hxy⟩ := Nat.max_lt.mp room
    obtain ⟨hxn, hyn⟩ := Nat.max_lt.mp hxy
    have htest := derives_bracketed (derives_lexemesAll g hg) hgn
    have hthen := derives_bracketed (derives_lexemesAll x hx) hxn
    have helse := derives_bracketed (derives_lexemesAll y hy) hyn
    have hbranches := Derives.thenBranch (x := []) hthen (.elseBranch (y := []) helse .noBranch)
    rw [List.append_nil] at hbranches
    exact .cond htest hbranches
  | .loop _ g, ⟨_, hg⟩, _, room => .loop (derives_bracketed (derives_lexemesAll g hg) room)
  | .brk name g, ⟨_, hg⟩, d, room => by
    have hg := derives_lexemesAll g hg
    rw [nesting] at room
    rw [lexemes]
    split
    · rename_i hnil
      rw [List.isEmpty_iff.mp hnil]
      exact .brk .noValue
    · rename_i hne
      rw [if_neg hne] at room
      have hvalue := Derives.withValue (v := []) (derives_bracketed hg room) .noValue
      rw [List.append_nil] at hvalue
      exact .brk hvalue
  | .closure _ g, ⟨_, hg⟩, _, room =>
    .closure (derives_bracketed (derives_lexemesAll g hg) room)
  | .call _ none, _, _, room => .call (derives_bracketed (g := []) (fun _ _ => .nil) room)
  | .call name (some g), ⟨_, hne, hg⟩, _, room => by
    have harg := derives_bracketed (derives_lexemesAll g hg) room
    have hcall := Derives.call (n := name) harg
    rw [if_neg hne] at hcall
    exact hcall

theorem derives_lexemesAll :
    ∀ g : List Term, ValidAll (WrittenBy digits) g → ∀ d, nestingAll g ≤ maxNesting - d →
      Derives d (.items g) (lexemesAll digits g)
  | [], _, _, _ => .nil
  | t :: ts, ⟨ht, hts⟩, d, room =>
    have hmax := Nat.max_le.mp room
    .cons (derives_lexemes t ht d hmax.1) (derives_lexemesAll ts hts d hmax.2)

end

end Term

/-! ## Reading a rendering -/

/-- The tree with a space between any two words. -/
def render (digits : Float → String) (tree : Group) : String :=
  spelling (Term.lexemesAll digits tree)

namespace Reader

theorem parse_of_units {source : String} {tree : Group} {us : List Lexeme}
    (hus : (Text.Cursor.ofString source).lexemes = some us) (h : Derives 0 (.items tree) us) :
    parse source = .ok tree := by
  have hunits := parse_toOption source
  rw [hus, Option.bind_some, read_eq_some_iff.mpr h] at hunits
  cases hp : parse source with
  | error e => rw [hp] at hunits; cases hunits
  | ok g => rw [hp] at hunits; cases hunits; rfl

theorem parse_render {digits : Float → String} {tree : Group}
    (h : Term.ValidAll (WrittenBy digits) tree) (hn : Term.nestingAll tree ≤ maxNesting) :
    parse (render digits tree) = .ok tree :=
  parse_of_units (lexemes_spelling (Term.valid_lexemesAll tree h))
    (Term.derives_lexemesAll tree h 0 hn)

/-- The trees that reading gives are the well-formed ones. Digits can be chosen for the numbers of
each of them, and with any digits that are read back as the numbers the tree is read back from its
rendering. -/
theorem parse_image (tree : Group) :
    ((∃ source, parse source = .ok tree) ↔ WellFormed tree) ∧
    (WellFormed tree → ∃ digits, Term.ValidAll (WrittenBy digits) tree) ∧
    ∀ digits, WellFormed tree → Term.ValidAll (WrittenBy digits) tree →
      parse (render digits tree) = .ok tree := by
  obtain ⟨digits, hdigits⟩ := exists_digits
  have hwritten (h : WellFormed tree) : Term.ValidAll (WrittenBy digits) tree :=
    Term.validAll_imp hdigits tree h.valid
  refine ⟨⟨fun ⟨source, h⟩ => wellFormed_of_parse h, fun h => ?_⟩,
    fun h => ⟨digits, hwritten h⟩, fun digits h hv => parse_render hv h.nesting⟩
  exact ⟨_, parse_render (hwritten h) h.nesting⟩

/-- A condition, a group right behind it, two stars that are no power, and a name that looks like
a number; and a name that begins with a keyword, which no text gives back. -/
theorem parse_image_stars :
    let tree (x : Float) : Group :=
      [.cond [.ident "a"] [] [.op .mul, .op .mul], .group [.brk "7" [.literal (some x)]],
        .closure (some "x") [], .call "f" none]
    parse "if ( a ) then ( ) else ( * * ) ( break 7 with ( 7 ) ) | x | ( ) @ f ( )" =
      .ok (tree (Float.ofNat 7)) ∧
    ¬ ∃ source, parse source = .ok [.ident "iffy"] := by
  intro tree
  have htext : ∀ x, render (fun _ => "7") (tree x) =
      "if ( a ) then ( ) else ( * * ) ( break 7 with ( 7 ) ) | x | ( ) @ f ( )" := by
    intro x
    cbv
  have hwrites : Writes "7" (Float.ofNat 7) :=
    ⟨by decide,
      Number.read?_of_digits (List.cons_ne_nil '7' []) (List.forall_mem_singleton.mpr rfl)⟩
  have hvalid (number : Float → Prop) (h : number (Float.ofNat 7)) :
      Term.ValidAll number (tree (Float.ofNat 7)) := by
    have ha : IsIdent "a" := by decide
    have hseven : IsName "7" := by decide
    have hx : ∀ name ∈ some "x", IsName name := by
      rintro _ ⟨⟩
      decide
    have hf : IsName "f" := by decide
    exact ⟨⟨⟨ha, trivial⟩, trivial, trivial, trivial, trivial⟩, ⟨⟨hseven, h, trivial⟩, trivial⟩,
      ⟨hx, trivial⟩, ⟨hf, trivial⟩, trivial⟩
  obtain ⟨-, -, hrender⟩ := parse_image (tree (Float.ofNat 7))
  have hparse := hrender (fun _ => "7") ⟨hvalid _ ⟨_, hwrites⟩, by decide⟩ (hvalid _ hwrites)
  rw [htext] at hparse
  have hiffy : ¬ IsIdent "iffy" := by decide
  obtain ⟨hiff, -, -⟩ := parse_image [.ident "iffy"]
  exact ⟨hparse, fun h => hiffy (hiff.mp h).valid.1⟩

end Reader

end Bracket

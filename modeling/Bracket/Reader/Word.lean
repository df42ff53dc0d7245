import Bracket.Tree.Op

/-!
# Bracket.Reader.Word

The reserved words: the operators and the keywords. A word is found by its letters alone, so a
name may not begin with one: `loopy` is the word `loop` and the name `y`.
-/

namespace Bracket
namespace Reader

inductive Keyword where
  | opening
  | closing
  | quote
  | pipe
  | null
  | loop
  | brk
  | withValue
  | ifTest
  | thenBranch
  | elseBranch
  | call
deriving DecidableEq

namespace Keyword

def letters : Keyword → List Char
  | .opening => ['(']
  | .closing => [')']
  | .quote => ['\'']
  | .pipe => ['|']
  | .null => ['n', 'u', 'l', 'l']
  | .loop => ['l', 'o', 'o', 'p']
  | .brk => ['b', 'r', 'e', 'a', 'k']
  | .withValue => ['w', 'i', 't', 'h']
  | .ifTest => ['i', 'f']
  | .thenBranch => ['t', 'h', 'e', 'n']
  | .elseBranch => ['e', 'l', 's', 'e']
  | .call => ['@']

def spelling (k : Keyword) : String := String.ofList k.letters

end Keyword

inductive Word where
  | op (op : Op)
  | keyword (keyword : Keyword)
deriving DecidableEq

namespace Word

def letters : Word → List Char
  | .op o => o.letters
  | .keyword k => k.letters

/-- Every reserved word, none before a longer one. -/
def all : List Word :=
  [.keyword .brk, .keyword .null, .keyword .loop, .keyword .withValue, .keyword .thenBranch,
    .keyword .elseBranch, .keyword .ifTest, .op .pow, .keyword .opening, .keyword .closing,
    .keyword .quote, .keyword .pipe, .keyword .call, .op .add, .op .sub, .op .mul, .op .div,
    .op .assign, .op .less, .op .greater, .op .comma]

def longest? (text : List Char) : Option Word :=
  all.find? fun w => w.letters.isPrefixOf text

theorem mem_all (w : Word) : w ∈ all := by
  cases w with
  | op o => cases o <;> decide
  | keyword k => cases k <;> decide

theorem letters_length_pos (w : Word) : 0 < w.letters.length := by
  cases w with
  | op o => cases o <;> decide
  | keyword k => cases k <;> decide

theorem all_sorted : all.Pairwise fun a b => b.letters.length ≤ a.letters.length := by decide

theorem isPrefixOf_of_longest? {text : List Char} {w : Word} (h : longest? text = some w) :
    w.letters.isPrefixOf text = true := by
  have found := List.find?_some h
  exact found

/-- A word that is found is a piece of the text, so the text is at least as long. -/
theorem length_le_of_longest? {text : List Char} {w : Word} (h : longest? text = some w) :
    w.letters.length ≤ text.length :=
  (List.isPrefixOf_iff_prefix.mp (isPrefixOf_of_longest? h)).length_le

end Word

end Reader
end Bracket

import Mathlib.Algebra.BigOperators.Group.Multiset.Basic
import Mathlib.Data.Multiset.Filter
import Mathlib.Algebra.Module.NatInt
import Mathlib.Tactic.Abel
import Bracket.Proofs.Composition

/-!
# Bracket.Proofs.Contents

What of a text is in its tree. Every literal, name and operator of the text is, and every bracketed
region is one group of the tree, unless a keyword asks a second time for a part that its construct
has already: what the part held is then in the tree no more (`nothing_dropped_iff`).

The account is kept along a derivation. `Balances` says of some units what they add to the pieces of
a tree and what they take away again, so that both sides of the equation grow with the text. An
optional part counts as an empty group until its keyword comes; that group is taken away for the one
that is written, and no less so if it has been written before.
-/

namespace Bracket

/-- A part of a tree that is written as one unit, or as one bracket. -/
inductive Piece where
  | leaf (t : Term)
  | group (g : Group)

namespace Piece

def leaf? : Piece → Option Term
  | .leaf t => some t
  | .group _ => none

end Piece

namespace Term

mutual

/-- The leaves and the groups anywhere in a term. An argument that is absent was an empty bracket. -/
def pieces : Term → Multiset Piece
  | .literal v => {.leaf (.literal v)}
  | .ident name => {.leaf (.ident name)}
  | .op o => {.leaf (.op o)}
  | .group g => {.group g} + piecesAll g
  | .cond g x y =>
    ({.group g} + piecesAll g) + (({.group x} + piecesAll x) + ({.group y} + piecesAll y))
  | .loop _ g => {.group g} + piecesAll g
  | .brk _ g => {.group g} + piecesAll g
  | .closure _ g => {.group g} + piecesAll g
  | .call _ arg => piecesArg arg

def piecesAll : List Term → Multiset Piece
  | [] => 0
  | t :: ts => pieces t + piecesAll ts

def piecesArg : Option (List Term) → Multiset Piece
  | none => {.group []}
  | some g => {.group g} + piecesAll g

end

/-- A group with everything in it. -/
def whole (g : Group) : Multiset Piece := {.group g} + piecesAll g

/-- The literals, names and operators anywhere in a list of terms. -/
def leavesAll (g : Group) : Multiset Term := (piecesAll g).filterMap Piece.leaf?

theorem whole_nil : whole [] = {.group []} := rfl

theorem pieces_cond (g x y : Group) :
    (Term.cond g x y).pieces = whole g + (whole x + whole y) := rfl

theorem pieces_call (name : String) (g : Group) :
    (Term.call name (if g = [] then none else some g)).pieces = whole g := by
  cases g <;> rfl

end Term

namespace Reader

open Text Term

/-! ## What is written in a text -/

/-- The literal, name or operator that a unit stands for. -/
def Lexeme.token? : Lexeme → Option Term
  | .digits run => (Number.read? run.toList).map fun x => .literal (some x)
  | .name run => some (.ident run)
  | .quoted (c :: _) => some (.literal (some (Float.ofNat (Cursor.leadingUnit c))))
  | .op o => some (.op o)
  | .null => some (.literal none)
  | _ => none

def tokens (us : List Lexeme) : Multiset Term := ↑(us.filterMap Lexeme.token?)

/-- The units up to the bracket that closes the one around them, `d` more being open. -/
def inside : Nat → List Lexeme → List Lexeme
  | _, [] => []
  | d, .opening :: us => .opening :: inside (d + 1) us
  | 0, .closing :: _ => []
  | d + 1, .closing :: us => .closing :: inside d us
  | d, u :: us => u :: inside d us

/-- The units inside each bracket of a text, in the order in which the brackets are opened. -/
def regions : List Lexeme → List (List Lexeme)
  | [] => []
  | .opening :: us => inside 0 us :: regions us
  | _ :: us => regions us

/-- How many parts a construct has that may be left out. -/
def Lexeme.optional : Lexeme → Nat
  | .ifTest => 2
  | .brk _ => 1
  | _ => 0

def optionals (us : List Lexeme) : Nat := (us.map Lexeme.optional).sum

/-- For each keyword that asks for an optional part, whether it asks for it again. The keywords that
the construct begun last has not been followed by are kept, for the innermost bracket and for those
around it. -/
def again (parts : List Keyword) (around : List (List Keyword)) : List Lexeme → List Bool
  | [] => []
  | .opening :: us => again [] (parts :: around) us
  | .closing :: us => again (around.headD []) around.tail us
  | .ifTest :: us => again [.thenBranch, .elseBranch] around us
  | .brk _ :: us => again [.withValue] around us
  | .thenBranch :: us =>
    decide (.thenBranch ∉ parts) :: again (parts.filter (· ≠ .thenBranch)) around us
  | .elseBranch :: us =>
    decide (.elseBranch ∉ parts) :: again (parts.filter (· ≠ .elseBranch)) around us
  | .withValue :: us =>
    decide (.withValue ∉ parts) :: again (parts.filter (· ≠ .withValue)) around us
  | _ :: us => again parts around us

/-- The optional parts that are never written. -/
def leftOut (us : List Lexeme) : Nat := optionals us - (again [] [] us).count false

theorem length_filter_lt {k : Keyword} {parts : List Keyword} (h : k ∈ parts) :
    (parts.filter (· ≠ k)).length < parts.length :=
  List.length_filter_lt_length_iff_exists.mpr ⟨k, h, by simp⟩

/-- A keyword that does not ask again makes the parts fewer that can still be written. -/
theorem count_ask_le {k : Keyword} {parts : List Keyword} {n : Nat} {as : List Bool}
    (h : as.count false ≤ (parts.filter (· ≠ k)).length + n) :
    (decide (k ∉ parts) :: as).count false ≤ parts.length + n := by
  have hle := List.length_filter_le (· ≠ k) parts
  by_cases hk : k ∈ parts
  · have hlt := length_filter_lt hk
    simp only [hk, not_true_eq_false, decide_false, List.count_cons_self]
    omega
  · simp only [hk, not_false_eq_true, decide_true, List.count_cons_of_ne (by decide : true ≠ false)]
    omega

theorem count_again_le (us : List Lexeme) : ∀ parts around,
    (again parts around us).count false ≤
      parts.length + ((around.map List.length).sum + optionals us) := by
  induction us with
  | nil => exact fun _ _ => Nat.zero_le _
  | cons u us ih =>
    intro parts around
    cases u with
    | opening =>
      have h := ih [] (parts :: around)
      simp only [again, optionals, List.map_cons, List.sum_cons, Lexeme.optional,
        List.length_nil] at h ⊢
      omega
    | closing =>
      have h := ih (around.headD []) around.tail
      cases around <;>
        simp only [again, optionals, List.map_cons, List.sum_cons, Lexeme.optional, List.headD_nil,
          List.headD_cons, List.tail_nil, List.tail_cons, List.map_nil, List.sum_nil,
          List.length_nil] at h ⊢ <;> omega
    | ifTest =>
      have h := ih [.thenBranch, .elseBranch] around
      simp only [again, optionals, List.map_cons, List.sum_cons, Lexeme.optional,
        List.length_cons, List.length_nil] at h ⊢
      omega
    | brk n =>
      have h := ih [.withValue] around
      simp only [again, optionals, List.map_cons, List.sum_cons, Lexeme.optional,
        List.length_cons, List.length_nil] at h ⊢
      omega
    | thenBranch =>
      refine count_ask_le ?_
      simpa [optionals, Lexeme.optional] using ih (parts.filter (· ≠ .thenBranch)) around
    | elseBranch =>
      refine count_ask_le ?_
      simpa [optionals, Lexeme.optional] using ih (parts.filter (· ≠ .elseBranch)) around
    | withValue =>
      refine count_ask_le ?_
      simpa [optionals, Lexeme.optional] using ih (parts.filter (· ≠ .withValue)) around
    | _ => simpa [again, optionals, Lexeme.optional] using ih parts around

/-- Each optional part is left out or written. -/
theorem leftOut_add (us : List Lexeme) :
    leftOut us + (again [] [] us).count false = optionals us := by
  have h := count_again_le us [] []
  simp only [List.length_nil, List.map_nil, List.sum_nil, Nat.zero_add] at h
  unfold leftOut
  omega

theorem Leaf.token? {u : Lexeme} {t : Term} (h : Leaf u t) : u.token? = some t := by
  cases h with
  | digits valid => simp only [Lexeme.token?, valid, Option.map_some]
  | _ => rfl

/-! ## The account -/

/-- What comes up while units are read: the groups that are closed, those that a keyword takes out
of the tree again, and for each keyword whether it asks again. -/
structure Ledger where
  closed : List Group
  dropped : List Group
  asks : List Bool

/-- The units lead from the first parts and pieces to the second ones. -/
structure Balances (us : List Lexeme) (r : Ledger) (parts parts' : List Keyword)
    (a b : Multiset Piece) : Prop where
  inside : ∀ d rest, Reader.inside d (us ++ rest) = us ++ Reader.inside d rest
  regions : ∀ rest, Reader.regions (us ++ rest) = Reader.regions us ++ Reader.regions rest
  closed : List.Forall₂ (fun ws g => ∃ d, Derives d (.items g) ws) (Reader.regions us) r.closed
  dropped : r.dropped.length = r.asks.count true
  asks : ∀ around rest, again parts around (us ++ rest) = r.asks ++ again parts' around rest
  sum : b + (r.dropped.map whole).sum + r.asks.count false • {.group []} =
    a + (tokens us).map .leaf + (↑r.closed : Multiset Group).map .group +
      optionals us • {.group []}

def Accounts (us : List Lexeme) (parts parts' : List Keyword) (a b : Multiset Piece) : Prop :=
  ∃ r, Balances us r parts parts' a b

namespace Accounts

variable {us vs : List Lexeme} {parts parts' parts'' : List Keyword} {a b c : Multiset Piece}

theorem nil : Accounts [] parts parts a a :=
  ⟨⟨[], [], []⟩, fun _ _ => rfl, fun _ => rfl, .nil, rfl, fun _ _ => rfl, by simp [tokens, optionals]⟩

theorem append (hu : Accounts us parts parts' a b) (hv : Accounts vs parts' parts'' b c) :
    Accounts (us ++ vs) parts parts'' a c := by
  obtain ⟨r, hu⟩ := hu
  obtain ⟨s, hv⟩ := hv
  refine ⟨⟨r.closed ++ s.closed, r.dropped ++ s.dropped, r.asks ++ s.asks⟩, ?_, ?_, ?_, ?_, ?_, ?_⟩
  · intro d rest
    rw [List.append_assoc, hu.inside, hv.inside, List.append_assoc]
  · intro rest
    rw [List.append_assoc, hu.regions, hv.regions, hu.regions, List.append_assoc]
  · rw [hu.regions]
    exact List.rel_append hu.closed hv.closed
  · simp only [List.length_append, List.count_append, hu.dropped, hv.dropped]
  · intro around rest
    rw [List.append_assoc, hu.asks, hv.asks, List.append_assoc]
  · have htokens : tokens (us ++ vs) = tokens us + tokens vs := by
      simp [tokens, List.filterMap_append]
    have hoptionals : optionals (us ++ vs) = optionals us + optionals vs := by
      simp [optionals]
    have hu := hu.sum
    have hv := hv.sum
    simp only [htokens, hoptionals, List.map_append, List.sum_append, List.count_append, add_nsmul,
      Multiset.map_add, ← Multiset.coe_add]
    generalize r.asks.count false • ({.group []} : Multiset Piece) = x at *
    generalize s.asks.count false • ({.group []} : Multiset Piece) = y at *
    generalize optionals us • ({.group []} : Multiset Piece) = x' at *
    generalize optionals vs • ({.group []} : Multiset Piece) = y' at *
    calc c + ((r.dropped.map whole).sum + (s.dropped.map whole).sum) + (x + y)
        = (c + (s.dropped.map whole).sum + y) + ((r.dropped.map whole).sum + x) := by abel
      _ = (b + (r.dropped.map whole).sum + x) + ((tokens vs).map .leaf +
            (↑s.closed : Multiset Group).map .group + y') := by rw [hv]; abel
      _ = _ := by rw [hu]; abel

/-- Pieces that are there on both sides play no part. -/
theorem add_left (c : Multiset Piece) (h : Accounts us parts parts' a b) :
    Accounts us parts parts' (c + a) (c + b) := by
  obtain ⟨r, h⟩ := h
  refine ⟨r, h.inside, h.regions, h.closed, h.dropped, h.asks, ?_⟩
  have hsum := h.sum
  calc c + b + (r.dropped.map whole).sum + r.asks.count false • {.group []}
      = c + (b + (r.dropped.map whole).sum + r.asks.count false • {.group []}) := by abel
    _ = _ := by rw [hsum]; abel

theorem add_right (c : Multiset Piece) (h : Accounts us parts parts' a b) :
    Accounts us parts parts' (a + c) (b + c) := by
  rw [add_comm a, add_comm b]
  exact h.add_left c

/-- One unit that is no bracket, with the groups it drops and what it asks. -/
theorem unit {u : Lexeme} (dropped : List Group) (asks : List Bool)
    (hinside : ∀ d rest, inside d (u :: rest) = u :: inside d rest)
    (hregions : ∀ rest, regions (u :: rest) = regions rest)
    (hasks : ∀ around rest, again parts around (u :: rest) = asks ++ again parts' around rest)
    (hdropped : dropped.length = asks.count true)
    (hsum : b + (dropped.map whole).sum + asks.count false • {.group []} =
      a + (tokens [u]).map .leaf + u.optional • {.group []}) :
    Accounts [u] parts parts' a b := by
  have hnone : regions [u] = [] := hregions []
  refine ⟨⟨[], dropped, asks⟩, hinside, fun rest => ?_, ?_, hdropped, hasks, ?_⟩
  · rw [hnone]
    exact hregions rest
  · rw [hnone]
    exact .nil
  · simpa [optionals] using hsum

theorem leaf {u : Lexeme} {t : Term} (h : Leaf u t) : Accounts [u] parts parts 0 t.pieces := by
  have htoken : u.token? = some t := h.token?
  refine unit [] [] ?_ ?_ ?_ rfl ?_
  · cases h <;> exact fun _ _ => rfl
  · cases h <;> exact fun _ => rfl
  · cases h <;> exact fun _ _ => rfl
  · have hpieces : t.pieces = {.leaf t} := by cases h <;> rfl
    have hoptional : u.optional = 0 := by cases h <;> rfl
    simp [tokens, htoken, hpieces, hoptional]

/-- A conditional begins with both branches left out. -/
theorem ifTest : Accounts [.ifTest] parts [.thenBranch, .elseBranch] 0 (whole [] + whole []) := by
  refine unit [] [] (fun _ _ => rfl) (fun _ => rfl) (fun _ _ => rfl) rfl ?_
  simp [tokens, Lexeme.token?, Lexeme.optional, whole_nil, two_nsmul]

theorem brk {n : String} : Accounts [.brk n] parts [.withValue] 0 (whole []) := by
  refine unit [] [] (fun _ _ => rfl) (fun _ => rfl) (fun _ _ => rfl) rfl ?_
  simp [tokens, List.filterMap_cons, Lexeme.token?, Lexeme.optional, whole_nil]

theorem loop {n : String} : Accounts [.loop n] parts parts 0 0 :=
  unit [] [] (fun _ _ => rfl) (fun _ => rfl) (fun _ _ => rfl) rfl rfl

theorem closure {param : Option String} : Accounts [.pipes param] parts parts 0 0 :=
  unit [] [] (fun _ _ => rfl) (fun _ => rfl) (fun _ _ => rfl) rfl rfl

theorem call {n : String} : Accounts [.call n] parts parts 0 0 :=
  unit [] [] (fun _ _ => rfl) (fun _ => rfl) (fun _ _ => rfl) rfl rfl

/-- A keyword that asks for a part takes away what the part holds. That is an empty group that
nobody wrote, if it does not ask again. -/
theorem ask {u : Lexeme} {k : Keyword} {x : Group} (hx : k ∈ parts → x = [])
    (hinside : ∀ d rest, Reader.inside d (u :: rest) = u :: Reader.inside d rest)
    (hregions : ∀ rest, Reader.regions (u :: rest) = Reader.regions rest)
    (hagain : ∀ around rest, again parts around (u :: rest) =
      decide (k ∉ parts) :: again (parts.filter (· ≠ k)) around rest)
    (htoken : u.token? = none) (hoptional : u.optional = 0) :
    Accounts [u] parts (parts.filter (· ≠ k)) (whole x) 0 := by
  by_cases hk : k ∈ parts
  · rw [hx hk]
    refine unit [] [false] hinside hregions ?_ rfl ?_
    · intro around rest
      rw [hagain, decide_eq_false (not_not_intro hk)]
      rfl
    · simp [tokens, htoken, hoptional, whole_nil]
  · refine unit [x] [true] hinside hregions ?_ rfl ?_
    · intro around rest
      rw [hagain, decide_eq_true hk]
      rfl
    · simp [tokens, htoken, hoptional]

theorem thenBranch {x : Group} (hx : .thenBranch ∈ parts → x = []) :
    Accounts [.thenBranch] parts (parts.filter (· ≠ .thenBranch)) (whole x) 0 :=
  ask hx (fun _ _ => rfl) (fun _ => rfl) (fun _ _ => rfl) rfl rfl

theorem elseBranch {x : Group} (hx : .elseBranch ∈ parts → x = []) :
    Accounts [.elseBranch] parts (parts.filter (· ≠ .elseBranch)) (whole x) 0 :=
  ask hx (fun _ _ => rfl) (fun _ => rfl) (fun _ _ => rfl) rfl rfl

theorem withValue {x : Group} (hx : .withValue ∈ parts → x = []) :
    Accounts [.withValue] parts (parts.filter (· ≠ .withValue)) (whole x) 0 :=
  ask hx (fun _ _ => rfl) (fun _ => rfl) (fun _ _ => rfl) rfl rfl

/-- A bracket is a region of its own, and what is begun in it is over when it is closed. -/
theorem bracketed {d : Nat} {g : Group} (hus : Derives d (.items g) us)
    (h : Accounts us [] parts' 0 (piecesAll g)) :
    Accounts (.opening :: us ++ [.closing]) parts parts 0 (whole g) := by
  obtain ⟨r, h⟩ := h
  have hregions : ∀ rest, regions (.opening :: us ++ [.closing] ++ rest) =
      us :: (regions us ++ regions rest) := by
    intro rest
    have hin := h.inside 0 (.closing :: rest)
    have hre := h.regions (.closing :: rest)
    simp only [List.append_assoc, List.cons_append, List.nil_append, regions, hin, hre,
      Reader.inside, List.append_nil]
  have hnone := hregions []
  simp only [List.append_nil, regions] at hnone
  refine ⟨⟨g :: r.closed, r.dropped, r.asks⟩, ?_, ?_, ?_, h.dropped, ?_, ?_⟩
  · intro n rest
    have hin := h.inside (n + 1) (.closing :: rest)
    simp only [List.append_assoc, List.cons_append, List.nil_append, Reader.inside, hin]
  · intro rest
    rw [hregions, hnone]
    rfl
  · rw [hnone]
    exact .cons ⟨d, hus⟩ h.closed
  · intro around rest
    have hasks := h.asks (parts :: around) (.closing :: rest)
    simp only [List.append_assoc, List.cons_append, List.nil_append, again, hasks,
      List.headD_cons, List.tail_cons]
  · have hsum := h.sum
    have htokens : tokens (.opening :: us ++ [.closing]) = tokens us := by
      simp [tokens, List.filterMap_cons, Lexeme.token?]
    have hoptionals : optionals (.opening :: us ++ [.closing]) = optionals us := by
      simp [optionals, Lexeme.optional]
    have hclosed : (↑(g :: r.closed) : Multiset Group).map Piece.group =
        {.group g} + (↑r.closed : Multiset Group).map .group := by
      rw [← Multiset.cons_coe, Multiset.map_cons, Multiset.singleton_add]
    rw [htokens, hoptionals, hclosed, whole]
    calc {.group g} + piecesAll g + (r.dropped.map whole).sum + r.asks.count false • {.group []}
        = {.group g} + (piecesAll g + (r.dropped.map whole).sum +
            r.asks.count false • {.group []}) := by abel
      _ = _ := by rw [hsum]; abel

end Accounts

/-- What the units of a phrase add, whatever parts can still be written where they begin. -/
def Tells (us : List Lexeme) : Phrase → Prop
  | .items ts => ∀ parts, ∃ parts', Accounts us parts parts' 0 (piecesAll ts)
  | .item t => ∀ parts, ∃ parts', Accounts us parts parts' 0 t.pieces
  | .bracketed g => ∀ parts, Accounts us parts parts 0 (whole g)
  | .branches x y x' y' => ∀ parts, (.thenBranch ∈ parts → x = []) →
      (.elseBranch ∈ parts → y = []) →
      ∃ parts', Accounts us parts parts' (whole x + whole y) (whole x' + whole y')
  | .values v v' => ∀ parts, (.withValue ∈ parts → v = []) →
      ∃ parts', Accounts us parts parts' (whole v) (whole v')

theorem mem_filter_ne {k k' : Keyword} {parts : List Keyword} (h : k' ∈ parts.filter (· ≠ k)) :
    k' ∈ parts ∧ k' ≠ k := by
  simpa using h

theorem derives_tells {d : Nat} {p : Phrase} {us : List Lexeme} (h : Derives d p us) :
    Tells us p := by
  induction h with
  | nil => exact fun parts => ⟨parts, .nil⟩
  | @cons d t ts us vs head tail ihHead ihTail =>
    intro parts
    obtain ⟨parts', hhead⟩ := ihHead parts
    obtain ⟨parts'', htail⟩ := ihTail parts'
    have htail := htail.add_left t.pieces
    rw [add_zero] at htail
    exact ⟨parts'', hhead.append htail⟩
  | leaf leaf => exact fun parts => ⟨parts, .leaf leaf⟩
  | group content ih => exact fun parts => ⟨parts, ih parts⟩
  | @cond d g x y us vs test branches ihTest ihBranches =>
    intro parts
    obtain ⟨parts', hbranches⟩ := ihBranches [.thenBranch, .elseBranch] (fun _ => rfl) fun _ => rfl
    have htest := (ihTest [.thenBranch, .elseBranch]).add_right (whole [] + whole [])
    rw [zero_add] at htest
    refine ⟨parts', ?_⟩
    rw [pieces_cond]
    exact (Accounts.ifTest.append htest).append (hbranches.add_left (whole g))
  | loop body ih => exact fun parts => ⟨parts, Accounts.loop.append (ih parts)⟩
  | brk values ih =>
    intro parts
    obtain ⟨parts', hvalues⟩ := ih [.withValue] fun _ => rfl
    exact ⟨parts', Accounts.brk.append hvalues⟩
  | closure body ih => exact fun parts => ⟨parts, Accounts.closure.append (ih parts)⟩
  | @call d n g us arg ih =>
    intro parts
    refine ⟨parts, ?_⟩
    rw [pieces_call]
    exact Accounts.call.append (ih parts)
  | bracketed room content ih =>
    intro parts
    obtain ⟨parts', hcontent⟩ := ih []
    exact .bracketed content hcontent
  | noBranch => exact fun parts _ _ => ⟨parts, .nil⟩
  | @thenBranch d g x y x' y' us vs branch rest ihBranch ihRest =>
    intro parts hx hy
    have hbranch := (Accounts.thenBranch hx).append (ihBranch _)
    obtain ⟨parts', hrest⟩ := ihRest (parts.filter (· ≠ .thenBranch))
      (fun h => absurd rfl (mem_filter_ne h).2) fun h => hy (mem_filter_ne h).1
    exact ⟨parts', (hbranch.add_right (whole y)).append hrest⟩
  | @elseBranch d g x y x' y' us vs branch rest ihBranch ihRest =>
    intro parts hx hy
    have hbranch := (Accounts.elseBranch hy).append (ihBranch _)
    obtain ⟨parts', hrest⟩ := ihRest (parts.filter (· ≠ .elseBranch))
      (fun h => hx (mem_filter_ne h).1) fun h => absurd rfl (mem_filter_ne h).2
    exact ⟨parts', (hbranch.add_left (whole x)).append hrest⟩
  | noValue => exact fun parts _ => ⟨parts, .nil⟩
  | withValue value rest ihValue ihRest =>
    intro parts hv
    have hvalue := (Accounts.withValue hv).append (ihValue _)
    obtain ⟨parts', hrest⟩ := ihRest (parts.filter (· ≠ .withValue))
      fun h => absurd rfl (mem_filter_ne h).2
    exact ⟨parts', hvalue.append hrest⟩

/-! ## The account of a text -/

/-- The groups that the regions of some units are read as. -/
def Brackets (us : List Lexeme) (gs : List Group) : Prop :=
  List.Forall₂ (fun ws g => ∃ d, Derives d (.items g) ws) (regions us) gs

/-- The pieces of the tree are those of the units, and an empty group for each optional part that is
never written. -/
structure Kept (us : List Lexeme) (tree : Group) : Prop where
  leaves : leavesAll tree = tokens us
  groups : ∃ gs, Brackets us gs ∧ piecesAll tree =
    (tokens us).map .leaf + (↑gs : Multiset Group).map .group + leftOut us • {.group []}

/-- The account of a text, with the groups that are not in the tree any more. -/
theorem exists_dropped {d : Nat} {tree : Group} {us : List Lexeme}
    (h : Derives d (.items tree) us) :
    ∃ gs, ∃ dropped : List Group, Brackets us gs ∧ dropped.length = (again [] [] us).count true ∧
      piecesAll tree + (dropped.map whole).sum =
        (tokens us).map .leaf + (↑gs : Multiset Group).map .group + leftOut us • {.group []} := by
  obtain ⟨parts', r, hr⟩ := derives_tells h []
  have hasks : again [] [] us = r.asks := by
    have h := hr.asks [] []
    rwa [List.append_nil, again, List.append_nil] at h
  refine ⟨r.closed, r.dropped, hr.closed, hasks ▸ hr.dropped, ?_⟩
  have hsum := hr.sum
  rw [← hasks, ← leftOut_add us, add_nsmul, ← add_assoc, zero_add] at hsum
  exact add_right_cancel hsum

theorem leaf?_whole (g : Group) : (whole g).filterMap Piece.leaf? = leavesAll g := by
  rw [whole, Multiset.singleton_add, Multiset.filterMap_cons_none _ _ rfl, leavesAll]

theorem leaf?_groups (gs : Multiset Group) : (gs.map Piece.group).filterMap Piece.leaf? = 0 := by
  rw [Multiset.filterMap_map, Multiset.eq_zero_iff_forall_notMem]
  intro t ht
  obtain ⟨g, -, hg⟩ := (Multiset.mem_filterMap _ _).mp ht
  cases hg

/-- The leaves of an account. -/
theorem leaves_of_pieces {tree : Group} {dropped gs : List Group} {ts : Multiset Term} {n : Nat}
    (h : piecesAll tree + (dropped.map whole).sum =
      ts.map .leaf + (↑gs : Multiset Group).map .group + n • {.group []}) :
    leavesAll tree + (dropped.map leavesAll).sum = ts := by
  have hdropped : ∀ gs : List Group,
      (gs.map whole).sum.filterMap Piece.leaf? = (gs.map leavesAll).sum := by
    intro gs
    induction gs with
    | nil => rfl
    | cons g gs ih =>
      rw [List.map_cons, List.map_cons, List.sum_cons, List.sum_cons, Multiset.filterMap_add,
        leaf?_whole, ih]
  have hleaves : (ts.map Piece.leaf).filterMap Piece.leaf? = ts := by
    rw [Multiset.filterMap_map]
    exact Multiset.filterMap_some ts
  have hempty : n • ({.group []} : Multiset Piece) = (Multiset.replicate n []).map .group := by
    rw [Multiset.nsmul_singleton, Multiset.map_replicate]
  have h := congrArg (Multiset.filterMap Piece.leaf?) h
  rwa [hempty, Multiset.filterMap_add, Multiset.filterMap_add, Multiset.filterMap_add,
    leaf?_groups, leaf?_groups, hdropped, hleaves, add_zero, add_zero] at h

theorem one_le_card_whole (g : Group) : 1 ≤ (whole g).card := by
  rw [whole, Multiset.card_add, Multiset.card_singleton]
  exact Nat.le_add_right 1 _

/-- Whatever is taken out of a tree leaves it smaller. -/
theorem eq_nil_of_kept {us : List Lexeme} {tree : Group} {gs dropped : List Group}
    (hkept : Kept us tree) (hgs : Brackets us gs)
    (h : piecesAll tree + (dropped.map whole).sum =
      (tokens us).map .leaf + (↑gs : Multiset Group).map .group + leftOut us • {.group []}) :
    dropped = [] := by
  obtain ⟨-, gs', hgs', hpieces⟩ := hkept
  have hlength : gs'.length = gs.length := hgs'.length_eq.symm.trans hgs.length_eq
  have hcard := congrArg Multiset.card h
  rw [hpieces] at hcard
  simp only [Multiset.card_add, Multiset.card_map, Multiset.coe_card, hlength] at hcard
  cases dropped with
  | nil => rfl
  | cons g dropped =>
    have hg := one_le_card_whole g
    rw [List.map_cons, List.sum_cons, Multiset.card_add] at hcard
    omega

/-- All of a text is in its tree exactly when no keyword asks again for a part that its construct
has. In any case the groups that such keywords ask for again, and with them what they hold, are all
that is not in the tree. -/
theorem nothing_dropped_iff {source : String} {tree : Group} (h : parse source = .ok tree) :
    ∃ us, (Cursor.ofString source).lexemes = some us ∧
      (Kept us tree ↔ true ∉ again [] [] us) ∧
      ∃ gs, ∃ dropped : List Group, Brackets us gs ∧
        dropped.length = (again [] [] us).count true ∧
        leavesAll tree + (dropped.map leavesAll).sum = tokens us ∧
        piecesAll tree + (dropped.map whole).sum =
          (tokens us).map .leaf + (↑gs : Multiset Group).map .group + leftOut us • {.group []} := by
  have hp := parse_toOption source
  rw [h] at hp
  obtain ⟨us, hus, hread⟩ := Option.bind_eq_some_iff.mp hp.symm
  obtain ⟨gs, dropped, hgs, hlength, hpieces⟩ := exists_dropped (read_eq_some_iff.mp hread)
  have hleaves := leaves_of_pieces hpieces
  refine ⟨us, hus, ⟨fun hkept => ?_, fun hnone => ?_⟩, gs, dropped, hgs, hlength, hleaves, hpieces⟩
  · rw [eq_nil_of_kept hkept hgs hpieces, List.length_nil] at hlength
    exact List.count_eq_zero.mp hlength.symm
  · rw [List.count_eq_zero.mpr hnone] at hlength
    obtain rfl := List.length_eq_zero_iff.mp hlength
    rw [List.map_nil, List.sum_nil, add_zero] at hleaves hpieces
    exact ⟨hleaves, gs, hgs, hpieces⟩

theorem lexemes_of_second_then :
    (Cursor.ofString "if (a) then (b) then (c)").lexemes =
      some [.ifTest, .opening, .name "a", .closing, .thenBranch, .opening, .name "b", .closing,
        .thenBranch, .opening, .name "c", .closing] := by
  refine Cursor.lexemes_cons rfl rfl ?_
  refine Cursor.lexemes_cons rfl rfl ?_
  refine Cursor.lexemes_cons rfl rfl ?_
  refine Cursor.lexemes_cons rfl rfl ?_
  refine Cursor.lexemes_cons rfl rfl ?_
  refine Cursor.lexemes_cons rfl rfl ?_
  refine Cursor.lexemes_cons rfl rfl ?_
  refine Cursor.lexemes_cons rfl rfl ?_
  refine Cursor.lexemes_cons rfl rfl ?_
  refine Cursor.lexemes_cons rfl rfl ?_
  refine Cursor.lexemes_cons rfl rfl ?_
  refine Cursor.lexemes_cons rfl rfl ?_
  exact Cursor.lexemes_of_isAtEnd rfl

theorem parse_second_then :
    parse "if (a) then (b) then (c)" = .ok [.cond [.ident "a"] [.ident "c"] []] :=
  parse_of_units lexemes_of_second_then (read_eq_some_iff.mp rfl)

/-- The branch of the first `then` is the one group that the tree does not have. -/
theorem first_branch_not_in_tree :
    parse "if (a) then (b) then (c)" = .ok [.cond [.ident "a"] [.ident "c"] []] ∧
      ∃ us, (Cursor.ofString "if (a) then (b) then (c)").lexemes = some us ∧
        ¬ Kept us [.cond [.ident "a"] [.ident "c"] []] ∧
        ∃ g : Group, leavesAll [.cond [.ident "a"] [.ident "c"] []] + leavesAll g = tokens us := by
  refine ⟨parse_second_then, ?_⟩
  obtain ⟨us, hus, hkept, gs, dropped, -, hlength, hleaves, -⟩ :=
    nothing_dropped_iff parse_second_then
  cases hus.symm.trans lexemes_of_second_then
  obtain ⟨g, rfl⟩ := List.length_eq_one_iff.mp hlength
  refine ⟨_, hus, fun h => absurd (hkept.mp h) (by decide), g, ?_⟩
  rwa [List.map_singleton, List.sum_singleton] at hleaves

/-- Not every accepted text has all its leaves in its tree. -/
theorem not_all_leaves_kept :
    ¬ ∀ (source : String) (tree : Group) (us : List Lexeme), parse source = .ok tree →
      (Cursor.ofString source).lexemes = some us → leavesAll tree = tokens us := by
  intro h
  have heq := congrArg Multiset.card (h _ _ _ parse_second_then lexemes_of_second_then)
  exact absurd heq (by decide)

end Reader
end Bracket

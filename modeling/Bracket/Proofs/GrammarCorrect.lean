import Bracket.Proofs.Grammar

/-!
# Bracket.Proofs.GrammarCorrect

The reader accepts exactly its grammar.

Completeness (`derives_reads`) is by induction on a derivation: in any frame, whatever units come
behind, reading the units of a phrase pushes what the phrase denotes.

Soundness reads the stack backwards. `Denotes T r us` says that the frames of `r`, with the units
`us` still to come, make up the tree `T`: each frame is closed by derived items and a bracket.
`denotes_shift` carries it back over one unit, and `denotes_of_read` over all of them.
`parse_eq_ok_iff` puts both together.
-/

namespace Bracket
namespace Reader

open Text

/-! ## Frames -/

/-- Every node of the frame is a finished term. -/
def Sealed (f : List Node) : Prop := ∃ g, Node.completeAll f = .ok g

theorem completeAll_nil : Node.completeAll [] = .ok [] := rfl

theorem completeAll_append (ns f : List Node) :
    Node.completeAll (ns ++ f) = do return (← Node.completeAll f) ++ (← Node.completeAll ns) := by
  simp only [Node.completeAll, List.reverse_append, List.mapM_append]

theorem completeAll_cons_ok {n : Node} {f : List Node} {t : Term} {hd : Group}
    (hn : n.complete = .ok t) (hf : Node.completeAll f = .ok hd) :
    Node.completeAll (n :: f) = .ok (hd ++ [t]) := by
  have h1 : Node.completeAll [n] = .ok [t] := by
    simp only [Node.completeAll, List.reverse_singleton, List.mapM_cons, List.mapM_nil, hn]
    rfl
  have h := completeAll_append [n] f
  rw [h1, hf] at h
  exact h

theorem of_completeAll_cons {n : Node} {f : List Node} {g : Group}
    (h : Node.completeAll (n :: f) = .ok g) :
    ∃ t hd, n.complete = .ok t ∧ Node.completeAll f = .ok hd ∧ g = hd ++ [t] := by
  cases hf : Node.completeAll f with
  | error e =>
    have ha := completeAll_append [n] f
    rw [hf] at ha
    cases ha.symm.trans h
  | ok hd =>
    cases hn : n.complete with
    | error e =>
      have h1 : Node.completeAll [n] = .error e := by
        simp only [Node.completeAll, List.reverse_singleton, List.mapM_cons, List.mapM_nil, hn]
        rfl
      have ha := completeAll_append [n] f
      rw [hf, h1] at ha
      cases ha.symm.trans h
    | ok t =>
      have ha := completeAll_cons_ok hn hf
      cases ha.symm.trans h
      exact ⟨t, hd, rfl, rfl, rfl⟩

theorem sealed_nil : Sealed [] := ⟨[], rfl⟩

theorem Sealed.cons {f : List Node} (hf : Sealed f) {n : Node} {t : Term}
    (hn : n.complete = .ok t) : Sealed (n :: f) := by
  obtain ⟨hd, hf⟩ := hf
  exact ⟨hd ++ [t], completeAll_cons_ok hn hf⟩

theorem Sealed.tail {n : Node} {f : List Node} (h : Sealed (n :: f)) : Sealed f := by
  obtain ⟨g, h⟩ := h
  obtain ⟨t, hd, -, hf, -⟩ := of_completeAll_cons h
  exact ⟨hd, hf⟩

/-- A finished construct has no slot for a bracket. -/
theorem attach_of_sealed {f : List Node} (h : Sealed f) (g : Group) :
    Node.attach g f = .done (.group g) :: f := by
  cases f with
  | nil => rfl
  | cons n f =>
    obtain ⟨_, h⟩ := h
    obtain ⟨t, hd, hn, -, -⟩ := of_completeAll_cons h
    cases n with
    | done t => rfl
    | pending c =>
      cases c with
      | cond x y z => cases x <;> cases y <;> cases z <;> first | rfl | cases hn
      | loop n x => cases x <;> first | rfl | cases hn
      | brk n x => cases x <;> first | rfl | cases hn
      | closure p x => cases x <;> first | rfl | cases hn
      | call n x => cases x <;> first | rfl | cases hn

/-! ## Opening and closing a bracket -/

theorem enter_eq_some_iff {b : Builder} {s : Reading} :
    Reading.enter b = some s ↔
      b.outer.length < maxNesting ∧ s = .item ⟨[], b.frame :: b.outer⟩ := by
  unfold Reading.enter Builder.openBracket
  split
  · rename_i h
    constructor
    · intro hs
      cases hs
      exact ⟨h, rfl⟩
    · rintro ⟨-, rfl⟩
      rfl
  · rename_i h
    constructor
    · intro hs
      cases hs
    · intro hs
      exact (h hs.1).elim

theorem leave_eq_some_iff {f : List Node} {outer : List (List Node)} {s : Reading} :
    Reading.leave ⟨f, outer⟩ = some s ↔
      ∃ below rest g, outer = below :: rest ∧ Node.completeAll f = .ok g ∧
        s = .item ⟨Node.attach g below, rest⟩ := by
  cases outer with
  | nil =>
    constructor
    · intro h
      cases h
    · rintro ⟨_, _, _, h, -, -⟩
      cases h
  | cons below rest =>
    unfold Reading.leave Builder.closeBracket
    simp only
    cases Node.completeAll f with
    | error e =>
      constructor
      · intro h
        cases h
      · rintro ⟨_, _, _, -, h, -⟩
        cases h
    | ok g =>
      constructor
      · intro h
        cases h
        exact ⟨below, rest, g, rfl, rfl, rfl⟩
      · rintro ⟨_, _, _, h, hg, rfl⟩
        cases h
        cases hg
        rfl

/-! ## Completeness -/

def Reading.builder : Reading → Builder
  | .item b => b
  | .opening b => b

/-- What reading the units of a phrase does, in any frame with `d` brackets open and whatever
comes behind. -/
def Reads (d : Nat) (us : List Lexeme) : Phrase → Prop
  | .items ts => ∀ f outer, outer.length = d → Sealed f → ∃ ns, Node.completeAll ns = .ok ts ∧
      ∀ rest, (Reading.item ⟨f, outer⟩).read (us ++ rest) =
        (Reading.item ⟨ns ++ f, outer⟩).read rest
  | .item t => ∀ f outer, outer.length = d → Sealed f → ∃ n, n.complete = .ok t ∧
      ∀ rest, (Reading.item ⟨f, outer⟩).read (us ++ rest) =
        (Reading.item ⟨n :: f, outer⟩).read rest
  | .bracketed g => ∀ r : Reading, r.builder.outer.length = d →
      ∀ rest, r.read (us ++ rest) =
        (Reading.item ⟨Node.attach g r.builder.frame, r.builder.outer⟩).read rest
  | .branches x y x' y' => ∀ g f outer, outer.length = d →
      ∀ rest, (Reading.item ⟨.pending (.cond (some g) (some x) (some y)) :: f, outer⟩).read
          (us ++ rest) =
        (Reading.item ⟨.pending (.cond (some g) (some x') (some y')) :: f, outer⟩).read rest
  | .values v v' => ∀ n f outer, outer.length = d →
      ∀ rest, (Reading.item ⟨.pending (.brk n (some v)) :: f, outer⟩).read (us ++ rest) =
        (Reading.item ⟨.pending (.brk n (some v')) :: f, outer⟩).read rest

theorem read_cons {r s : Reading} {u : Lexeme} (h : r.shift u = some s) (us : List Lexeme) :
    r.read (u :: us) = s.read us := by
  rw [Reading.read, h]
  rfl

theorem shift_leaf {u : Lexeme} {t : Term} (h : Leaf u t) (f : List Node)
    (outer : List (List Node)) :
    (Reading.item ⟨f, outer⟩).shift u = some (.item ⟨.done t :: f, outer⟩) := by
  cases h with
  | digits valid => simp only [Reading.shift, valid, Option.map_some]; rfl
  | _ => rfl

/-- A bracket fills the slot that waits for it, or else is a group of its own. -/
theorem read_bracketed {d : Nat} {us : List Lexeme} {g : Group} (room : d < maxNesting)
    (content : Reads (d + 1) us (.items g)) :
    Reads d (.opening :: us ++ [.closing]) (.bracketed g) := by
  intro r hd rest
  obtain ⟨ns, hns, hread⟩ := content [] (r.builder.frame :: r.builder.outer)
    (by simp [hd]) sealed_nil
  have hopen : r.shift .opening = some (.item ⟨[], r.builder.frame :: r.builder.outer⟩) := by
    cases r <;> exact enter_eq_some_iff.mpr ⟨hd ▸ room, rfl⟩
  have hclose : (Reading.item ⟨ns, r.builder.frame :: r.builder.outer⟩).shift .closing =
      some (.item ⟨Node.attach g r.builder.frame, r.builder.outer⟩) :=
    leave_eq_some_iff.mpr ⟨_, _, g, rfl, hns, rfl⟩
  rw [List.append_assoc, List.cons_append, read_cons hopen, hread, List.append_nil]
  exact read_cons hclose rest

theorem derives_reads {d : Nat} {p : Phrase} {us : List Lexeme} (h : Derives d p us) :
    Reads d us p := by
  induction h with
  | nil =>
    intro f outer _ _
    exact ⟨[], rfl, fun rest => rfl⟩
  | cons head tail ihHead ihTail =>
    intro f outer hd hf
    obtain ⟨n, hn, h1⟩ := ihHead f outer hd hf
    obtain ⟨ns, hns, h2⟩ := ihTail (n :: f) outer hd (hf.cons hn)
    -- newest first: the node of the head lies behind those of the tail
    refine ⟨ns ++ [n], ?_, fun rest => ?_⟩
    · rw [completeAll_append, hns, completeAll_cons_ok hn completeAll_nil]
      rfl
    · rw [List.append_assoc, h1, h2, List.append_assoc]
      rfl
  | leaf leaf =>
    intro f outer _ _
    exact ⟨.done _, rfl, fun rest => read_cons (shift_leaf leaf f outer) rest⟩
  | group content ih =>
    intro f outer hd hf
    refine ⟨.done (.group _), rfl, fun rest => ?_⟩
    rw [← attach_of_sealed hf]
    exact ih (.item ⟨f, outer⟩) hd rest
  | cond test branches ihTest ihBranches =>
    intro f outer hd _
    refine ⟨.pending (.cond (some _) (some _) (some _)), rfl, fun rest => ?_⟩
    rw [List.append_assoc]
    exact (ihTest (.opening ⟨.pending Construct.newCond :: f, outer⟩) hd _).trans
      (ihBranches _ f outer hd rest)
  | @loop d n g us body ih =>
    intro f outer hd _
    exact ⟨.pending (.loop n (some g)), rfl,
      fun rest => ih (.opening ⟨.pending (.loop n none) :: f, outer⟩) hd rest⟩
  | @brk d n g us values ih =>
    intro f outer hd _
    exact ⟨.pending (.brk n (some g)), rfl, fun rest => ih n f outer hd rest⟩
  | @closure d param g us body ih =>
    intro f outer hd _
    exact ⟨.pending (.closure param (some g)), rfl,
      fun rest => ih (.opening ⟨.pending (.closure param none) :: f, outer⟩) hd rest⟩
  | @call d n g us arg ih =>
    intro f outer hd _
    refine ⟨.pending (.call n (some g)), ?_,
      fun rest => ih (.opening ⟨.pending (.call n none) :: f, outer⟩) hd rest⟩
    cases g <;> rfl
  | bracketed room content ih => exact read_bracketed room ih
  | noBranch =>
    intro g f outer _ rest
    rfl
  | @thenBranch d g x y x' y' us vs branch rest ihBranch ihRest =>
    intro t f outer hd rest
    rw [List.append_assoc]
    exact (ihBranch (.opening ⟨.pending (.cond (some t) none (some y)) :: f, outer⟩) hd _).trans
      (ihRest t f outer hd rest)
  | @elseBranch d g x y x' y' us vs branch rest ihBranch ihRest =>
    intro t f outer hd rest
    rw [List.append_assoc]
    exact (ihBranch (.opening ⟨.pending (.cond (some t) (some x) none) :: f, outer⟩) hd _).trans
      (ihRest t f outer hd rest)
  | noValue =>
    intro n f outer _ rest
    rfl
  | withValue value rest ihValue ihRest =>
    intro n f outer hd rest
    rw [List.append_assoc]
    exact (ihValue (.opening ⟨.pending (.brk n none) :: f, outer⟩) hd _).trans
      (ihRest n f outer hd rest)

/-! ## Soundness: one frame -/

/-- The node, with the branches or values that still follow it, denotes the term. -/
def Grows (d : Nat) (us : List Lexeme) (t : Term) : Node → Prop
  | .pending (.cond (some g) (some x) (some y)) =>
    ∃ x' y', t = .cond g x' y' ∧ Derives d (.branches x y x' y') us
  | .pending (.brk n (some v)) => ∃ v', t = .brk n v' ∧ Derives d (.values v v') us
  | n => us = [] ∧ n.complete = .ok t

/-- The units close the frame: the newest node may grow, then items follow. -/
def Closes (d : Nat) (us : List Lexeme) (g : Group) : List Node → Prop
  | [] => Derives d (.items g) us
  | n :: f => ∃ ws vs hd t tl, us = ws ++ vs ∧ g = hd ++ t :: tl ∧
      Node.completeAll f = .ok hd ∧ Grows d ws t n ∧ Derives d (.items tl) vs

theorem grows_of_complete {d : Nat} {n : Node} {t : Term} (h : n.complete = .ok t) :
    Grows d [] t n := by
  cases n with
  | done u => exact ⟨rfl, h⟩
  | pending c =>
    cases c with
    | cond x y z =>
      cases x with
      | none => exact ⟨rfl, h⟩
      | some x =>
        cases y with
        | none => exact ⟨rfl, h⟩
        | some y =>
          cases z with
          | none => exact ⟨rfl, h⟩
          | some z =>
            cases h
            exact ⟨y, z, rfl, .noBranch⟩
    | brk n v =>
      cases v with
      | none => exact ⟨rfl, h⟩
      | some v =>
        cases h
        exact ⟨v, rfl, .noValue⟩
    | _ => exact ⟨rfl, h⟩

theorem closes_of_items {d : Nat} {us : List Lexeme} {f : List Node} {hd tl : Group}
    (hf : Node.completeAll f = .ok hd) (h : Derives d (.items tl) us) :
    Closes d us (hd ++ tl) f := by
  cases f with
  | nil =>
    cases hf
    exact h
  | cons n f =>
    obtain ⟨t, hd', hn, hf', rfl⟩ := of_completeAll_cons hf
    exact ⟨[], us, hd', t, tl, rfl, by simp, hf', grows_of_complete hn, h⟩

/-- A node that is not there yet: its first units come before those that let it grow. -/
theorem closes_push {d : Nat} {hs vs : List Lexeme} {n : Node} {f : List Node} {g : Group}
    (h : ∀ ws t, Grows d ws t n → Derives d (.item t) (hs ++ ws)) (hc : Closes d vs g (n :: f)) :
    Closes d (hs ++ vs) g f := by
  obtain ⟨ws, vs, hd, t, tl, rfl, rfl, hf, hn, htl⟩ := hc
  rw [← List.append_assoc]
  exact closes_of_items hf (.cons (h ws t hn) htl)

theorem closes_push_whole {d : Nat} {hs vs : List Lexeme} {n : Node} {t : Term} {f : List Node}
    {g : Group} (hc : Closes d vs g (n :: f)) (hn : n.complete = .ok t)
    (h : Derives d (.item t) hs) (hwhole : ∀ ws t, Grows d ws t n → ws = [] ∧ n.complete = .ok t) :
    Closes d (hs ++ vs) g f := by
  refine closes_push (fun ws t' hg => ?_) hc
  obtain ⟨rfl, ht⟩ := hwhole ws t' hg
  cases hn.symm.trans ht
  rwa [List.append_nil]

/-- A node that is there already, before units that let it grow. -/
theorem closes_grow {d : Nat} {hs vs : List Lexeme} {m n : Node} {f : List Node} {g : Group}
    (h : ∀ ws t, Grows d ws t m → Grows d (hs ++ ws) t n) (hc : Closes d vs g (m :: f)) :
    Closes d (hs ++ vs) g (n :: f) := by
  obtain ⟨ws, vs, hd, t, tl, rfl, rfl, hf, hm, htl⟩ := hc
  exact ⟨hs ++ ws, vs, hd, t, tl, (List.append_assoc ..).symm, rfl, hf, h ws t hm, htl⟩

/-! ## Soundness: the stack -/

/-- The units close the frames one after another and leave the tree. -/
def Completes (tree : Group) : List Node → List (List Node) → List Lexeme → Prop
  | f, [], us => Closes 0 us tree f
  | f, below :: outer, us => ∃ ws vs g, us = ws ++ .closing :: vs ∧
      Closes (outer.length + 1) ws g f ∧ Completes tree (Node.attach g below) outer vs

theorem Completes.prepend {tree : Group} {f f' : List Node} {outer : List (List Node)}
    {hs us : List Lexeme}
    (h : ∀ vs g, Closes outer.length vs g f' → Closes outer.length (hs ++ vs) g f)
    (hc : Completes tree f' outer us) : Completes tree f outer (hs ++ us) := by
  cases outer with
  | nil => exact h us tree hc
  | cons below outer =>
    obtain ⟨ws, vs, g, rfl, hw, hv⟩ := hc
    exact ⟨hs ++ ws, vs, g, (List.append_assoc ..).symm, h ws g hw, hv⟩

/-- The stack of `r` and the units to come make up the tree. -/
def Denotes (tree : Group) : Reading → List Lexeme → Prop
  | .item b, us => Completes tree b.frame b.outer us
  | .opening b, us => ∃ bs vs g, us = bs ++ vs ∧ Derives b.outer.length (.bracketed g) bs ∧
      Completes tree (Node.attach g b.frame) b.outer vs

/-- What holds between two units: each frame is sealed, or is so once its bracket is attached. -/
def Settled : Reading → Prop
  | .item b => Sealed b.frame ∧ ∀ f ∈ b.outer, ∀ g, Sealed (Node.attach g f)
  | .opening b => ∀ f ∈ b.frame :: b.outer, ∀ g, Sealed (Node.attach g f)

theorem Sealed.attach {f : List Node} (h : Sealed f) (g : Group) : Sealed (Node.attach g f) := by
  rw [attach_of_sealed h]
  exact h.cons rfl

/-! ## Soundness: one unit -/

/-- The unit asks for a bracket, which the newest node of the second frame waits for. -/
inductive Asks : List Node → Lexeme → List Node → Prop
  | ifTest {f : List Node} : Asks f .ifTest (.pending Construct.newCond :: f)
  | thenBranch {f : List Node} {g x y : Group} :
      Asks (.pending (.cond (some g) (some x) (some y)) :: f) .thenBranch
        (.pending (.cond (some g) none (some y)) :: f)
  | elseBranch {f : List Node} {g x y : Group} :
      Asks (.pending (.cond (some g) (some x) (some y)) :: f) .elseBranch
        (.pending (.cond (some g) (some x) none) :: f)
  | withValue {f : List Node} {n : String} {v : Group} :
      Asks (.pending (.brk n (some v)) :: f) .withValue (.pending (.brk n none) :: f)
  | loop {f : List Node} {n : String} : Asks f (.loop n) (.pending (.loop n none) :: f)
  | closure {f : List Node} {param : Option String} :
      Asks f (.pipes param) (.pending (.closure param none) :: f)
  | call {f : List Node} {n : String} : Asks f (.call n) (.pending (.call n none) :: f)

inductive Shifts : Builder → Lexeme → Reading → Prop
  | leaf {f : List Node} {outer : List (List Node)} {u : Lexeme} {t : Term} (leaf : Leaf u t) :
      Shifts ⟨f, outer⟩ u (.item ⟨.done t :: f, outer⟩)
  | brk {f : List Node} {outer : List (List Node)} {n : String} :
      Shifts ⟨f, outer⟩ (.brk n) (.item ⟨.pending (Construct.newBreak n) :: f, outer⟩)
  | opening {f : List Node} {outer : List (List Node)} (room : outer.length < maxNesting) :
      Shifts ⟨f, outer⟩ .opening (.item ⟨[], f :: outer⟩)
  | closing {f below : List Node} {outer : List (List Node)} {g : Group}
      (content : Node.completeAll f = .ok g) :
      Shifts ⟨f, below :: outer⟩ .closing (.item ⟨Node.attach g below, outer⟩)
  | asks {f f' : List Node} {outer : List (List Node)} {u : Lexeme} (asks : Asks f u f') :
      Shifts ⟨f, outer⟩ u (.opening ⟨f', outer⟩)

theorem asks_of_clearBranch? {f : List Node} {outer : List (List Node)} {b : Builder}
    {slot : Construct.Slot} (hf : Sealed f)
    (h : Builder.clearBranch? ⟨f, outer⟩ slot = some b) :
    ∃ g x y f', f = .pending (.cond (some g) (some x) (some y)) :: f' ∧
      b = ⟨.pending ((Construct.cond (some g) (some x) (some y)).clear slot) :: f', outer⟩ := by
  unfold Builder.clearBranch? at h
  split at h
  · rename_i x y z f' hp
    cases hp
    cases h
    obtain ⟨_, hf⟩ := hf
    obtain ⟨t, hd, hn, -, -⟩ := of_completeAll_cons hf
    cases x with
    | none => cases hn
    | some g =>
      cases y with
      | none => cases hn
      | some x =>
        cases z with
        | none => cases hn
        | some y => exact ⟨g, x, y, f', rfl, rfl⟩
  · cases h

theorem asks_of_clearValue? {f : List Node} {outer : List (List Node)} {b : Builder}
    (hf : Sealed f) (h : Builder.clearValue? ⟨f, outer⟩ = some b) :
    ∃ n v f', f = .pending (.brk n (some v)) :: f' ∧ b = ⟨.pending (.brk n none) :: f', outer⟩ := by
  unfold Builder.clearValue? at h
  split at h
  · rename_i n v f' hp
    cases hp
    cases h
    obtain ⟨_, hf⟩ := hf
    obtain ⟨t, hd, hn, -, -⟩ := of_completeAll_cons hf
    cases v with
    | none => cases hn
    | some v => exact ⟨n, v, f', rfl, rfl⟩
  · cases h

theorem shifts_of_shift {b : Builder} {u : Lexeme} {s : Reading} (hf : Sealed b.frame)
    (h : (Reading.item b).shift u = some s) : Shifts b u s := by
  obtain ⟨f, outer⟩ := b
  cases u with
  | digits run =>
    simp only [Reading.shift, Option.map_eq_some_iff] at h
    obtain ⟨x, hx, rfl⟩ := h
    exact .leaf (.digits hx)
  | name run => cases h; exact .leaf (.ident run)
  | quoted run =>
    cases run with
    | nil => cases h
    | cons c run => cases h; exact .leaf (.quoted c run)
  | op o => cases h; exact .leaf (.op o)
  | null => cases h; exact .leaf .null
  | opening =>
    obtain ⟨room, rfl⟩ := enter_eq_some_iff.mp h
    exact .opening room
  | closing =>
    obtain ⟨below, rest, g, rfl, hg, rfl⟩ := leave_eq_some_iff.mp h
    exact .closing hg
  | ifTest => cases h; exact .asks .ifTest
  | thenBranch =>
    obtain ⟨b, hb, rfl⟩ := Option.map_eq_some_iff.mp h
    obtain ⟨g, x, y, f', rfl, rfl⟩ := asks_of_clearBranch? hf hb
    exact .asks .thenBranch
  | elseBranch =>
    obtain ⟨b, hb, rfl⟩ := Option.map_eq_some_iff.mp h
    obtain ⟨g, x, y, f', rfl, rfl⟩ := asks_of_clearBranch? hf hb
    exact .asks .elseBranch
  | withValue =>
    obtain ⟨b, hb, rfl⟩ := Option.map_eq_some_iff.mp h
    obtain ⟨n, v, f', rfl, rfl⟩ := asks_of_clearValue? hf hb
    exact .asks .withValue
  | loop n => cases h; exact .asks .loop
  | brk n => cases h; exact .brk
  | call n => cases h; exact .asks .call
  | pipes param => cases h; exact .asks .closure

/-- The bracket finishes the node that asked for it. -/
theorem Asks.sealed {f f' : List Node} {u : Lexeme} (h : Asks f u f') (hf : Sealed f) (g : Group) :
    Sealed (Node.attach g f') := by
  cases h with
  | ifTest => exact hf.cons rfl
  | loop => exact hf.cons rfl
  | closure => exact hf.cons rfl
  | call => exact hf.cons rfl
  | thenBranch => exact hf.tail.cons rfl
  | elseBranch => exact hf.tail.cons rfl
  | withValue => exact hf.tail.cons rfl

theorem Asks.closes {d : Nat} {f f' : List Node} {u : Lexeme} {bs vs : List Lexeme} {g t : Group}
    (h : Asks f u f') (hb : Derives d (.bracketed g) bs)
    (hc : Closes d vs t (Node.attach g f')) : Closes d (u :: bs ++ vs) t f := by
  cases h with
  | ifTest =>
    refine closes_push (fun ws t hw => ?_) hc
    obtain ⟨x, y, rfl, hw⟩ := hw
    exact .cond hb hw
  | loop => exact closes_push_whole hc rfl (.loop hb) fun _ _ hw => hw
  | closure => exact closes_push_whole hc rfl (.closure hb) fun _ _ hw => hw
  | @call f n =>
    have hcall : Derives d (.item (.call n (Construct.argument g))) (.call n :: bs) := by
      cases g <;> exact .call hb
    exact closes_push_whole hc rfl hcall fun _ _ hw => hw
  | thenBranch =>
    refine closes_grow (fun ws t hw => ?_) hc
    obtain ⟨x, y, rfl, hw⟩ := hw
    exact ⟨x, y, rfl, .thenBranch hb hw⟩
  | elseBranch =>
    refine closes_grow (fun ws t hw => ?_) hc
    obtain ⟨x, y, rfl, hw⟩ := hw
    exact ⟨x, y, rfl, .elseBranch hb hw⟩
  | withValue =>
    refine closes_grow (fun ws t hw => ?_) hc
    obtain ⟨v, rfl, hw⟩ := hw
    exact ⟨v, rfl, .withValue hb hw⟩

theorem Shifts.settled {b : Builder} {u : Lexeme} {s : Reading} (h : Shifts b u s)
    (hb : Settled (.item b)) : Settled s := by
  obtain ⟨hf, ho⟩ := hb
  cases h with
  | leaf leaf => exact ⟨hf.cons rfl, ho⟩
  | brk => exact ⟨hf.cons rfl, ho⟩
  | opening room => exact ⟨sealed_nil, List.forall_mem_cons.mpr ⟨hf.attach, ho⟩⟩
  | closing content =>
    obtain ⟨hb, ho⟩ := List.forall_mem_cons.mp ho
    exact ⟨hb _, ho⟩
  | asks asks => exact List.forall_mem_cons.mpr ⟨asks.sealed hf, ho⟩

/-- The frame around an open bracket gets its content back. -/
theorem Completes.opening {tree : Group} {f : List Node} {outer : List (List Node)}
    {us : List Lexeme} (room : outer.length < maxNesting) (hc : Completes tree [] (f :: outer) us) :
    Denotes tree (.opening ⟨f, outer⟩) (.opening :: us) := by
  obtain ⟨ws, vs, g, rfl, hw, hv⟩ := hc
  exact ⟨.opening :: ws ++ [.closing], vs, g, by simp, .bracketed room hw, hv⟩

theorem Shifts.denotes {tree : Group} {b : Builder} {u : Lexeme} {s : Reading} {us : List Lexeme}
    (h : Shifts b u s) (hb : Settled (.item b)) (hs : Denotes tree s us) :
    Denotes tree (.item b) (u :: us) := by
  obtain ⟨hf, -⟩ := hb
  cases h with
  | @leaf f outer u t leaf =>
    show Completes tree f outer ([u] ++ us)
    refine hs.prepend fun vs g hc => ?_
    exact closes_push_whole hc rfl (.leaf leaf) fun _ _ hw => hw
  | @brk f outer n =>
    show Completes tree f outer ([.brk n] ++ us)
    refine hs.prepend fun vs g hc => closes_push (fun ws t' hw => ?_) hc
    obtain ⟨v, rfl, hw⟩ := hw
    exact .brk hw
  | opening room =>
    obtain ⟨bs, vs, g, he, hg, hv⟩ := Completes.opening room hs
    rw [he]
    rw [attach_of_sealed hf] at hv
    refine hv.prepend fun ws t hc => ?_
    exact closes_push_whole hc rfl (.group hg) fun _ _ hw => hw
  | @closing f below outer g content =>
    -- no unit of the frame itself is left, the next one is its bracket
    refine ⟨[], us, g, rfl, ?_, hs⟩
    have hc := closes_of_items (d := outer.length + 1) content .nil
    rwa [List.append_nil] at hc
  | asks asks =>
    obtain ⟨bs, vs, g, rfl, hg, hv⟩ := hs
    exact hv.prepend fun ws t hc => asks.closes hg hc

theorem denotes_shift {tree : Group} {r s : Reading} {u : Lexeme} (hr : Settled r)
    (h : r.shift u = some s) :
    Settled s ∧ ∀ us, Denotes tree s us → Denotes tree r (u :: us) := by
  cases r with
  | item b =>
    have hs := shifts_of_shift hr.1 h
    exact ⟨hs.settled hr, fun us => hs.denotes hr⟩
  | opening b =>
    cases u with
    | opening =>
      obtain ⟨room, rfl⟩ := enter_eq_some_iff.mp h
      exact ⟨⟨sealed_nil, hr⟩, fun us => Completes.opening room⟩
    | _ => cases h

theorem denotes_of_finish {tree : Group} {r : Reading} (h : r.finish = some tree) :
    Denotes tree r [] := by
  cases r with
  | opening b => cases h
  | item b =>
    obtain ⟨f, outer⟩ := b
    cases outer with
    | cons below outer => cases h
    | nil =>
      cases hf : Node.completeAll f with
      | error e =>
        simp only [Reading.finish, Builder.finish, List.isEmpty_nil, if_true, hf] at h
        cases h
      | ok g =>
        simp only [Reading.finish, Builder.finish, List.isEmpty_nil, if_true, hf] at h
        cases h
        have hc := closes_of_items (d := 0) hf .nil
        rwa [List.append_nil] at hc

theorem denotes_of_read {tree : Group} {r : Reading} {us : List Lexeme} (hr : Settled r)
    (h : r.read us = some tree) : Denotes tree r us := by
  induction us generalizing r with
  | nil => exact denotes_of_finish h
  | cons u us ih =>
    rw [Reading.read, Option.bind_eq_some_iff] at h
    obtain ⟨s, hs, h⟩ := h
    obtain ⟨hset, hback⟩ := denotes_shift hr hs
    exact hback us (ih hset h)

/-! ## The reader and its grammar -/

theorem read_eq_some_iff {tree : Group} {us : List Lexeme} :
    (Reading.item Builder.empty).read us = some tree ↔ Derives 0 (.items tree) us := by
  constructor
  · intro h
    have hr : Settled (.item Builder.empty) := ⟨sealed_nil, fun f hf => by cases hf⟩
    exact denotes_of_read hr h
  · intro h
    obtain ⟨ns, hns, hread⟩ := derives_reads h [] [] rfl sealed_nil
    have h := hread []
    rw [List.append_nil, List.append_nil] at h
    show (Reading.item ⟨[], []⟩).read us = some tree
    rw [h]
    simp only [Reading.read, Reading.finish, Builder.finish, List.isEmpty_nil, if_true, hns]
    rfl

/-- A later branch replaces an earlier one, and an empty bracket is no argument. -/
example : (Reading.item Builder.empty).read
    [.ifTest, .opening, .closing, .thenBranch, .opening, .name "a", .closing,
      .thenBranch, .opening, .closing, .call "f", .opening, .closing] =
    some [.cond [] [] [], .call "f" none] := rfl

/-- The reader gives a tree for a text exactly when the units of the text derive it. -/
theorem parse_eq_ok_iff (source : String) (tree : Group) :
    parse source = .ok tree ↔
      ∃ us, (Cursor.ofString source).lexemes = some us ∧ Derives 0 (.items tree) us := by
  have h := parse_toOption source
  constructor
  · intro hp
    rw [hp] at h
    obtain ⟨us, hus, hr⟩ := Option.bind_eq_some_iff.mp h.symm
    exact ⟨us, hus, read_eq_some_iff.mp hr⟩
  · rintro ⟨us, hus, hd⟩
    rw [hus, Option.bind_some, read_eq_some_iff.mpr hd] at h
    cases hp : parse source with
    | error e =>
      rw [hp] at h
      cases h
    | ok g =>
      rw [hp] at h
      cases h
      rfl

end Reader
end Bracket

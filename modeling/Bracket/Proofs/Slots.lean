import Bracket.Proofs.GrammarCorrect
import Mathlib.Data.List.Forall2

/-!
# Bracket.Proofs.Slots

The slots of constructs while a text is read. An empty slot waits for the bracket that is open right
above it, so a construct is finished whenever its frame is closed (`slots_filled`).

The stack does not say what opened a bracket. `Passes` follows a reading and keeps, beside the
stack, the keyword that opened each bracket; the invariant is that each frame waits for just that
keyword (`SlotsFilled`). `Keeps` states it of what a step gives, together with the one error that it
rules out, and has one lemma for each thing a step can do.
-/

namespace Bracket
namespace Reader

/-! ## Slots -/

namespace Construct

/-- The slots that wait for a bracket, in the order in which brackets fill them. -/
def emptySlots : Construct → List Slot
  | .cond a b c =>
    (if a.isNone then [.test] else []) ++ (if b.isNone then [.whenTrue] else []) ++
      if c.isNone then [.whenFalse] else []
  | .loop _ x | .brk _ x | .closure _ x | .call _ x => if x.isNone then [.body] else []

/-- Puts a group into a slot and leaves the others alone. -/
def put (slot : Slot) (g : Group) (construct : Construct) : Construct :=
  match slot, construct with
  | .test, .cond _ b c => .cond (some g) b c
  | .whenTrue, .cond a _ c => .cond a (some g) c
  | .whenFalse, .cond a b _ => .cond a b (some g)
  | .body, .loop name _ => .loop name (some g)
  | .body, .brk name _ => .brk name (some g)
  | .body, .closure param _ => .closure param (some g)
  | .body, .call name _ => .call name (some g)
  | _, construct => construct

theorem complete_of_emptySlots {c : Construct} (h : c.emptySlots = []) :
    ∃ t, c.complete = .ok t := by
  cases c with
  | cond x y z =>
    cases x <;> cases y <;> cases z <;> first | exact ⟨_, rfl⟩ | cases h
  | loop name x | brk name x | closure param x | call name x =>
    cases x <;> first | exact ⟨_, rfl⟩ | cases h

/-- A bracket goes into the first slot that is empty, and is handed back if there is none. -/
theorem fill_eq (c : Construct) (g : Group) :
    c.fill g = match c.emptySlots.head? with
      | some slot => (c.put slot g, none)
      | none => (c, some g) := by
  cases c with
  | cond x y z => cases x <;> cases y <;> cases z <;> rfl
  | loop name x | brk name x | closure param x | call name x => cases x <;> rfl

/-- A bracket goes into the one slot that is empty, and into no other. -/
theorem fill_of_emptySlots {c : Construct} {slot : Slot} (h : c.emptySlots = [slot]) (g : Group) :
    c.fill g = (c.put slot g, none) ∧ (c.put slot g).emptySlots = [] := by
  refine ⟨by rw [fill_eq, h, List.head?_cons], ?_⟩
  cases c with
  | cond x y z =>
    cases x <;> cases y <;> cases z <;> cases h <;> rfl
  | loop name x | brk name x | closure param x | call name x =>
    cases x with
    | none =>
      cases h
      rfl
    | some x => cases h

/-- A conditional that waits for nothing waits for a part that is cleared. -/
theorem emptySlots_clear {x y z : Option Group} (h : (cond x y z).emptySlots = []) {slot : Slot}
    (hslot : slot ≠ .body) : ((cond x y z).clear slot).emptySlots = [slot] := by
  cases x <;> cases y <;> cases z <;> cases h
  cases slot with
  | body => exact absurd rfl hslot
  | _ => rfl

end Construct

def Node.emptySlots : Node → List Construct.Slot
  | .done _ => []
  | .pending c => c.emptySlots

/-- No node of the frame has an empty slot. -/
def Complete (f : List Node) : Prop := ∀ n ∈ f, n.emptySlots = []

theorem Complete.sealed {f : List Node} (h : Complete f) : Sealed f := by
  induction f with
  | nil => exact sealed_nil
  | cons n f ih =>
    obtain ⟨hn, hf⟩ := List.forall_mem_cons.mp h
    cases n with
    | done t => exact (ih hf).cons rfl
    | pending c =>
      obtain ⟨t, ht⟩ := Construct.complete_of_emptySlots hn
      exact (ih hf).cons ht

theorem Complete.cons {n : Node} {f : List Node} (hn : n.emptySlots = []) (hf : Complete f) :
    Complete (n :: f) := List.forall_mem_cons.mpr ⟨hn, hf⟩

/-! ## What a frame waits for -/

/-- The slot that a bracket behind the keyword is for, and the keyword that begins the constructs
with this slot. A bracket on its own is for none. -/
def Keyword.asks? : Keyword → Option (Keyword × Construct.Slot)
  | .ifTest => some (.ifTest, .test)
  | .thenBranch => some (.ifTest, .whenTrue)
  | .elseBranch => some (.ifTest, .whenFalse)
  | .loop => some (.loop, .body)
  | .withValue => some (.brk, .body)
  | .pipe => some (.pipe, .body)
  | .call => some (.call, .body)
  | _ => none

/-- The frame below a bracket that the keyword opened: its newest node has just the slot empty that
the keyword is for, and no other node has an empty slot. -/
inductive Waits : Keyword → List Node → Prop
  | group {f : List Node} (complete : Complete f) : Waits .opening f
  | slot {k begins : Keyword} {slot : Construct.Slot} {c : Construct} {f : List Node}
      (asks : k.asks? = some (begins, slot)) (kind : c.keyword = begins)
      (empty : c.emptySlots = [slot]) (complete : Complete f) : Waits k (.pending c :: f)

/-- What the closed bracket becomes in the frame below it: the content of the slot that the keyword
is for, or a group behind everything else. -/
inductive Fills (g : Group) : Keyword → List Node → List Node → Prop
  | group {f : List Node} : Fills g .opening f (.done (.group g) :: f)
  | slot {k begins : Keyword} {slot : Construct.Slot} {c : Construct} {f : List Node}
      (asks : k.asks? = some (begins, slot)) (kind : c.keyword = begins) :
      Fills g k (.pending c :: f) (.pending (c.put slot g) :: f)

theorem Waits.fills {k : Keyword} {f : List Node} (h : Waits k f) (g : Group) :
    Fills g k f (Node.attach g f) ∧ Complete (Node.attach g f) := by
  cases h with
  | group complete =>
    rw [attach_of_sealed complete.sealed]
    exact ⟨.group, complete.cons rfl⟩
  | slot asks kind empty complete =>
    obtain ⟨hfill, hempty⟩ := Construct.fill_of_emptySlots empty g
    simp only [Node.attach, hfill]
    exact ⟨.slot asks kind, complete.cons hempty⟩

/-- The innermost frame waits for nothing, each frame around it for the keyword that opened the
bracket right above it. -/
structure SlotsFilled (openers : List Keyword) (b : Builder) : Prop where
  frame : Complete b.frame
  outer : List.Forall₂ Waits openers b.outer

/-! ## One step -/

/-- A result that keeps the slots filled, and no error about a slot. -/
def Keeps (openers : List Keyword) : Except ParseError Parser → Prop
  | .ok p => SlotsFilled openers p.builder
  | .error e => ∀ k, e ≠ .incompleteConstruct k

/-- The openers after a word: a closing bracket takes one away, an opening bracket and the keywords
that ask for a bracket add one. -/
def openersAfter (openers : List Keyword) : Option Word → List Keyword
  | some (.keyword .opening) => .opening :: openers
  | some (.keyword .closing) => openers.tail
  | some (.keyword k) => if k.asks?.isSome then k :: openers else openers
  | _ => openers

namespace Parser

variable {openers : List Keyword} {p : Parser} {k : Keyword}

theorem keeps_push {t : Term} (h : SlotsFilled openers p.builder) :
    Keeps openers (.ok (p.pushTerm t)) := ⟨h.frame.cons rfl, h.outer⟩

theorem keeps_openBracket {f : List Node} {outer : List (List Node)} {c : Text.Cursor}
    (hf : Waits k f) (ho : List.Forall₂ Waits openers outer) (position : Nat) :
    Keeps (k :: openers) (openBracket ⟨c, f, outer⟩ position) := by
  unfold openBracket Builder.openBracket
  split
  · exact ⟨nofun, .cons hf ho⟩
  · exact nofun

theorem keeps_expectOpening {f : List Node} {outer : List (List Node)} {c : Text.Cursor}
    (hf : Waits k f) (ho : List.Forall₂ Waits openers outer) (after : Keyword) :
    Keeps (k :: openers) (expectOpening ⟨c, f, outer⟩ after) := by
  unfold expectOpening
  split
  · exact keeps_openBracket hf ho _
  · exact nofun

theorem keeps_expectName {after : Keyword} {use : String → Parser → Except ParseError Parser}
    (h : ∀ name c, Keeps openers (use name ⟨c, p.builder⟩)) :
    Keeps openers (match p.expectName after with
      | .error e => .error e
      | .ok (name, q) => use name q) := by
  unfold expectName
  rcases p.cursor.ident with ⟨name, next⟩
  cases name with
  | none => exact nofun
  | some name => exact h name next

/-- The closed bracket goes where its opener says, and no frame is in the way of closing it. -/
theorem closeBracket_eq (h : SlotsFilled (k :: openers) p.builder) (position : Nat) :
    ∃ f outer g, p.builder.outer = f :: outer ∧ Node.completeAll p.builder.frame = .ok g ∧
      p.closeBracket position = .ok ⟨p.cursor, Node.attach g f, outer⟩ ∧ Waits k f ∧
      List.Forall₂ Waits openers outer := by
  obtain ⟨c, frame, outer⟩ := p
  obtain ⟨hframe, houter⟩ := h
  cases houter with
  | @cons _ f _ outer hf ho =>
    have hsealed : Sealed frame := hframe.sealed
    obtain ⟨g, hg⟩ := hsealed
    refine ⟨f, outer, g, rfl, hg, ?_, hf, ho⟩
    simp only [closeBracket, Builder.closeBracket, hg]
    rfl

theorem keeps_closeBracket (h : SlotsFilled openers p.builder) (position : Nat) :
    Keeps openers.tail (p.closeBracket position) := by
  cases openers with
  | nil =>
    obtain ⟨c, frame, outer⟩ := p
    obtain ⟨-, houter⟩ := h
    cases houter
    exact nofun
  | cons k openers =>
    obtain ⟨f, outer, g, -, -, hclose, hf, ho⟩ := closeBracket_eq h position
    rw [hclose]
    exact ⟨(hf.fills g).2, ho⟩

theorem keeps_branch (h : SlotsFilled openers p.builder) (k : Keyword) (slot : Construct.Slot)
    (hk : k.asks? = some (.ifTest, slot)) (hslot : slot ≠ .body) (position : Nat) :
    Keeps (k :: openers) (p.branch k slot position) := by
  obtain ⟨c, frame, outer⟩ := p
  obtain ⟨hframe, houter⟩ := h
  unfold branch Builder.clearBranch?
  split
  · rename_i b hb
    split at hb
    · rename_i x y z rest hnodes
      cases hnodes
      cases hb
      obtain ⟨hcond, hrest⟩ := List.forall_mem_cons.mp hframe
      have hempty : ((Construct.cond x y z).clear slot).emptySlots = [slot] :=
        Construct.emptySlots_clear hcond hslot
      have hkind : ((Construct.cond x y z).clear slot).keyword = .ifTest := by
        cases slot <;> rfl
      exact keeps_expectOpening (.slot hk hkind hempty hrest) houter k
    · cases hb
  · exact nofun

theorem keeps_value (h : SlotsFilled openers p.builder) (position : Nat) :
    Keeps (.withValue :: openers) (p.value position) := by
  obtain ⟨c, frame, outer⟩ := p
  obtain ⟨hframe, houter⟩ := h
  unfold value Builder.clearValue?
  split
  · rename_i b hb
    split at hb
    · rename_i name value rest hnodes
      cases hnodes
      cases hb
      obtain ⟨-, hrest⟩ := List.forall_mem_cons.mp hframe
      have hempty : ((Construct.brk name value).clear .body).emptySlots = [.body] := rfl
      exact keeps_expectOpening (.slot rfl rfl hempty hrest) houter .withValue
    · cases hb
  · exact nofun

theorem keeps_closure (h : SlotsFilled openers p.builder) :
    Keeps (.pipe :: openers) p.closure := by
  unfold closure
  simp only
  split
  · exact keeps_expectOpening (.slot rfl rfl rfl h.frame) h.outer .pipe
  · exact nofun

theorem keeps_charLiteral (h : SlotsFilled openers p.builder) (position : Nat) :
    Keeps openers (p.charLiteral position) := by
  unfold charLiteral Text.Cursor.charLiteral
  split
  · rename_i hc
    split at hc
    · exact keeps_push (p := ⟨_, p.builder⟩) h
    · cases hc
  · rename_i hc
    split at hc
    · cases hc
    · cases hc
      exact nofun

theorem keeps_word (h : SlotsFilled openers p.builder) (position : Nat) (w : Word) :
    Keeps (openersAfter openers (some w)) (p.word position w) := by
  cases w with
  | op o => exact keeps_push h
  | keyword k =>
    cases k with
    | null => exact keeps_push h
    | quote => exact keeps_charLiteral h position
    | opening => exact keeps_openBracket (.group h.frame) h.outer position
    | closing => exact keeps_closeBracket h position
    | ifTest => exact keeps_expectOpening (.slot rfl rfl rfl h.frame) h.outer .ifTest
    | thenBranch => exact keeps_branch h .thenBranch .whenTrue rfl nofun position
    | elseBranch => exact keeps_branch h .elseBranch .whenFalse rfl nofun position
    | loop =>
      exact keeps_expectName fun name c =>
        keeps_expectOpening (.slot rfl rfl rfl h.frame) h.outer .loop
    | brk => exact keeps_expectName fun name c => ⟨h.frame.cons rfl, h.outer⟩
    | withValue => exact keeps_value h position
    | pipe => exact keeps_closure h
    | call =>
      exact keeps_expectName fun name c =>
        keeps_expectOpening (.slot rfl rfl rfl h.frame) h.outer .call

theorem keeps_step (h : SlotsFilled openers p.builder) :
    Keeps (openersAfter openers p.cursor.reserved.1) p.step := by
  unfold step
  rcases p.cursor.reserved with ⟨w, c⟩
  cases w with
  | some w => exact keeps_word (p := ⟨c, p.builder⟩) h _ w
  | none =>
    simp only
    rcases c.number with ⟨run, d⟩
    cases run with
    | some run =>
      simp only
      cases Number.read? run.toList with
      | some x => exact keeps_push (p := ⟨d, p.builder⟩) h
      | none => exact nofun
    | none =>
      simp only
      rcases d.ident with ⟨name, next⟩
      cases name with
      | some name => exact keeps_push (p := ⟨next, p.builder⟩) h
      | none => exact nofun

/-! ## A whole reading -/

/-- Reading the text comes by the parser, with brackets open that these keywords have opened, the
innermost first. -/
inductive Passes (source : String) : List Keyword → Parser → Prop
  | start : Passes source [] (Parser.start source)
  | step {openers : List Keyword} {p q : Parser} (before : Passes source openers p)
      (more : p.cursor.isAtEnd.1 = false) (next : p.step = .ok q) :
      Passes source (openersAfter openers p.cursor.reserved.1) q

theorem Passes.slotsFilled {source : String} (h : Passes source openers p) :
    SlotsFilled openers p.builder := by
  induction h with
  | start => exact ⟨nofun, .nil⟩
  | step _ _ next ih =>
    have hkeeps := keeps_step ih
    rwa [next] at hkeeps

/-- The word at the cursor decides what the step does. -/
theorem step_of_reserved {w : Word} {next : Text.Cursor} (h : p.cursor.reserved = (some w, next)) :
    p.step = word ⟨next, p.builder⟩ p.cursor.skipBlanks.position w := by
  rw [step, h]

theorem finish_ne_incomplete (h : SlotsFilled openers p.builder) (k : Keyword) :
    p.builder.finish ≠ .error (.incompleteConstruct k) := by
  unfold Builder.finish
  split
  · obtain ⟨g, hg⟩ := h.frame.sealed
    rw [hg]
    exact nofun
  · exact nofun

theorem run_ne_incomplete (h : SlotsFilled openers p.builder) (k : Keyword) :
    p.run ≠ .error (.incompleteConstruct k) := by
  induction p using Parser.run.induct generalizing openers with
  | case1 p hend =>
    rw [run, if_pos hend]
    exact finish_ne_incomplete h k
  | case2 p hend e hs =>
    have hkeeps := keeps_step h
    rw [hs] at hkeeps
    rw [run_eq_bind (Bool.eq_false_iff.mpr hend), hs]
    exact fun heq => hkeeps k (Except.error.inj heq)
  | case3 p hend q hs ih =>
    have hkeeps := keeps_step h
    rw [hs] at hkeeps
    rw [run_eq_bind (Bool.eq_false_iff.mpr hend), hs]
    exact ih hkeeps

/-- A closing bracket that has an opener is read, and its content goes where the opener says. -/
theorem Passes.close {source : String} (h : Passes source (k :: openers) p)
    (hw : p.cursor.reserved.1 = some (.keyword .closing)) :
    ∃ q f outer g, p.step = .ok q ∧ Passes source openers q ∧
      p.builder.outer = f :: outer ∧ q.builder.outer = outer ∧
      Node.completeAll p.builder.frame = .ok g ∧ Fills g k f q.builder.frame := by
  rcases hr : p.cursor.reserved with ⟨w, next⟩
  rw [hr] at hw
  obtain rfl : w = some (.keyword .closing) := hw
  have hslots : SlotsFilled (k :: openers) (Parser.mk next p.builder).builder := h.slotsFilled
  obtain ⟨f, outer, g, houter, hg, hclose, hf, -⟩ :=
    closeBracket_eq hslots p.cursor.skipBlanks.position
  have hstep : p.step = .ok ⟨next, Node.attach g f, outer⟩ := by
    rw [step_of_reserved hr]
    exact hclose
  have hpasses := h.step (Text.Cursor.isAtEnd_of_reserved hr) hstep
  rw [hr] at hpasses
  exact ⟨_, f, outer, g, hstep, hpasses, houter, rfl, hg, (hf.fills g).1⟩

end Parser

/-- After every step of a reading no construct has an empty slot, but the newest node of a frame
may have the one that the keyword asked for which opened the bracket right above. A closing bracket
fills just this slot, or makes a group of its own if no keyword opened it; and no construct is ever
found incomplete. -/
theorem slots_filled (source : String) :
    (∀ openers p, Parser.Passes source openers p →
      Complete p.builder.frame ∧ List.Forall₂ Waits openers p.builder.outer) ∧
    (∀ k openers p, Parser.Passes source (k :: openers) p →
      p.cursor.reserved.1 = some (.keyword .closing) →
      ∃ q f outer g, p.step = .ok q ∧ Parser.Passes source openers q ∧
        p.builder.outer = f :: outer ∧ q.builder.outer = outer ∧
        Node.completeAll p.builder.frame = .ok g ∧ Fills g k f q.builder.frame) ∧
    ∀ k, parse source ≠ .error (.incompleteConstruct k) := by
  refine ⟨fun openers p h => ?_, fun k openers p h => h.close, ?_⟩
  · have hslots := h.slotsFilled
    exact ⟨hslots.frame, hslots.outer⟩
  · have hstart : Parser.Passes source [] (Parser.start source) := .start
    exact Parser.run_ne_incomplete hstart.slotsFilled

/-- A group in the body of a loop, and the body itself, where they are closed. -/
theorem slots_filled_loop :
    ∃ p q r, Parser.Passes "loop l ( ( ) )" [.opening, .loop] p ∧
      List.Forall₂ Waits [.opening, .loop] p.builder.outer ∧
      p.step = .ok q ∧ Fills [] .opening [] q.builder.frame ∧
      q.step = .ok r ∧ Fills [.group []] .loop [.pending (.loop "l" none)] r.builder.frame ∧
      Complete r.builder.frame := by
  obtain ⟨hwaits, hcloses, -⟩ := slots_filled "loop l ( ( ) )"
  have hloop : (Parser.start "loop l ( ( ) )").step =
      .ok ⟨⟨[' ', '(', ' ', ')', ' ', ')'], 8⟩, [], [[.pending (.loop "l" none)]]⟩ := rfl
  have hp : Parser.Passes "loop l ( ( ) )" [.opening, .loop]
      ⟨⟨[' ', ')', ' ', ')'], 10⟩, [], [[], [.pending (.loop "l" none)]]⟩ :=
    (Parser.Passes.start.step rfl hloop).step rfl rfl
  obtain ⟨q, f, outer, g, hq, hpasses, hf, -, hg, hfills⟩ := hcloses .opening [.loop] _ hp rfl
  cases hq
  cases hf
  cases hg
  obtain ⟨r, f', outer', g', hr, hlast, hf', -, hg', hfills'⟩ := hcloses .loop [] _ hpasses rfl
  cases hf'
  cases hg'
  exact ⟨_, _, r, hp, (hwaits _ _ hp).2, rfl, hfills, hr, hfills', (hwaits _ r hlast).1⟩

end Reader
end Bracket

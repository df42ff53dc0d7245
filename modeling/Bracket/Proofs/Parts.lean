import Bracket.Proofs.Slots
import Mathlib.Data.List.Induction

/-!
# Bracket.Proofs.Parts

The parts of a construct after any number of edits.

Groups are offered to a construct and its slots are cleared, in any order. `events` says what comes
of each edit, and `content` what a slot holds in the end: the group that it took last, if it was not
cleared since (`Latest`). The construct can be completed when no slot is empty, and the term then
has these groups as its parts (`keeps_last_taken`).
-/

namespace Bracket
namespace Reader
namespace Construct

/-! ## What a construct is made of -/

inductive Kind where
  | cond
  | loop (name : String)
  | brk (name : String)
  | closure (param : Option String)
  | call (name : String)

namespace Kind

/-- The construct as it is begun. -/
def new : Kind → Construct
  | .cond => newCond
  | .loop name => .loop name none
  | .brk name => newBreak name
  | .closure param => .closure param none
  | .call name => .call name none

/-- All slots, in the order in which brackets fill them. -/
def slots : Kind → List Slot
  | .cond => [.test, .whenTrue, .whenFalse]
  | .loop _ | .brk _ | .closure _ | .call _ => [.body]

/-- The slots of parts that may be left out. They hold an empty group from the beginning. -/
def optional : Kind → List Slot
  | .cond => [.whenTrue, .whenFalse]
  | .brk _ => [.body]
  | .loop _ | .closure _ | .call _ => []

/-- The term with these parts. A call with an empty bracket has no argument. -/
def term (parts : Slot → Group) : Kind → Term
  | .cond => .cond (parts .test) (parts .whenTrue) (parts .whenFalse)
  | .loop name => .loop name (parts .body)
  | .brk name => .brk name (parts .body)
  | .closure param => .closure param (parts .body)
  | .call name =>
    match parts .body with
    | [] => .call name none
    | g => .call name (some g)

end Kind

def kind : Construct → Kind
  | .cond .. => .cond
  | .loop name _ => .loop name
  | .brk name _ => .brk name
  | .closure param _ => .closure param
  | .call name _ => .call name

/-- What a slot holds, if it is not empty. -/
def content : Construct → Slot → Option Group
  | .cond x _ _, .test => x
  | .cond _ y _, .whenTrue => y
  | .cond _ _ z, .whenFalse => z
  | .loop _ x, .body | .brk _ x, .body | .closure _ x, .body | .call _ x, .body => x
  | _, _ => none

theorem kind_new (k : Kind) : k.new.kind = k := by
  cases k <;> rfl

theorem content_new (k : Kind) (slot : Slot) :
    k.new.content slot = if slot ∈ k.optional then some [] else none := by
  cases k <;> cases slot <;> rfl

theorem emptySlots_eq (c : Construct) :
    c.emptySlots = c.kind.slots.filter fun slot => (c.content slot).isNone := by
  cases c with
  | cond x y z => cases x <;> cases y <;> cases z <;> rfl
  | loop name x | brk name x | closure param x | call name x => cases x <;> rfl

theorem kind_put (slot : Slot) (g : Group) (c : Construct) : (c.put slot g).kind = c.kind := by
  cases c <;> cases slot <;> rfl

theorem kind_clear (slot : Slot) (c : Construct) : (c.clear slot).kind = c.kind := by
  cases c <;> cases slot <;> rfl

theorem content_put {c : Construct} {s : Slot} (hs : s ∈ c.kind.slots) (g : Group) (slot : Slot) :
    (c.put s g).content slot = if s = slot then some g else c.content slot := by
  -- a slot that the construct does not have would stay empty
  cases c with
  | cond x y z =>
    cases s with
    | test | whenTrue | whenFalse => cases slot <;> rfl
    | body => simp [kind, Kind.slots] at hs
  | loop name x | brk name x | closure param x | call name x =>
    cases List.mem_singleton.mp hs
    cases slot <;> rfl

theorem content_clear (c : Construct) (s slot : Slot) :
    (c.clear s).content slot = if s = slot then none else c.content slot := by
  cases c <;> cases s <;> cases slot <;> rfl

/-! ## Completing it -/

theorem complete_of_full {c : Construct} {parts : Slot → Group}
    (h : ∀ slot ∈ c.kind.slots, c.content slot = some (parts slot)) :
    c.complete = .ok (c.kind.term parts) := by
  cases c with
  | cond x y z =>
    obtain ⟨hx, h⟩ := List.forall_mem_cons.mp h
    obtain ⟨hy, h⟩ := List.forall_mem_cons.mp h
    have hz := List.forall_mem_singleton.mp h
    obtain rfl : x = some (parts .test) := hx
    obtain rfl : y = some (parts .whenTrue) := hy
    obtain rfl : z = some (parts .whenFalse) := hz
    rfl
  | loop name x | brk name x | closure param x =>
    obtain rfl : x = some (parts .body) := h .body List.mem_cons_self
    rfl
  | call name x =>
    obtain rfl : x = some (parts .body) := h .body List.mem_cons_self
    rw [complete, kind, Kind.term, argument]
    cases parts .body <;> rfl

theorem complete_of_empty {c : Construct} {slot : Slot} (hslot : slot ∈ c.kind.slots)
    (h : c.content slot = none) : c.complete = .error (.incompleteConstruct c.keyword) := by
  cases c with
  | cond x y z =>
    cases slot with
    | test =>
      obtain rfl : x = none := h
      rfl
    | whenTrue =>
      obtain rfl : y = none := h
      cases x <;> rfl
    | whenFalse =>
      obtain rfl : z = none := h
      cases x <;> cases y <;> rfl
    | body => simp [kind, Kind.slots] at hslot
  | loop name x | brk name x | closure param x | call name x =>
    cases List.mem_singleton.mp hslot
    obtain rfl : x = none := h
    rfl

theorem empty_or_full (c : Construct) :
    (∃ slot ∈ c.kind.slots, c.content slot = none) ∨
      ∃ parts : Slot → Group, ∀ slot ∈ c.kind.slots, c.content slot = some (parts slot) := by
  by_cases h : ∃ slot ∈ c.kind.slots, c.content slot = none
  · exact .inl h
  · refine .inr ⟨fun slot => (c.content slot).getD [], fun slot hslot => ?_⟩
    have hne : c.content slot ≠ none := fun hempty => h ⟨slot, hslot, hempty⟩
    obtain ⟨g, hg⟩ := Option.ne_none_iff_exists'.mp hne
    simp only [hg, Option.getD_some]

theorem completes_iff (c : Construct) :
    (∃ t, c.complete = .ok t) ↔ ∀ slot ∈ c.kind.slots, c.content slot ≠ none := by
  refine ⟨fun ⟨t, ht⟩ slot hslot hempty => ?_, fun hfull => ?_⟩
  · rw [complete_of_empty hslot hempty] at ht
    cases ht
  · obtain ⟨slot, hslot, hempty⟩ | ⟨parts, hparts⟩ := c.empty_or_full
    · exact absurd hempty (hfull slot hslot)
    · exact ⟨_, complete_of_full hparts⟩

theorem complete_eq_error_iff (c : Construct) :
    c.complete = .error (.incompleteConstruct c.keyword) ↔
      ∃ slot ∈ c.kind.slots, c.content slot = none := by
  refine ⟨fun h => ?_, fun ⟨slot, hslot, hempty⟩ => complete_of_empty hslot hempty⟩
  obtain hempty | ⟨parts, hparts⟩ := c.empty_or_full
  · exact hempty
  · rw [complete_of_full hparts] at h
    cases h

theorem complete_eq_ok_iff (c : Construct) (t : Term) :
    c.complete = .ok t ↔ ∃ parts, t = c.kind.term parts ∧
      ∀ slot ∈ c.kind.slots, c.content slot = some (parts slot) := by
  refine ⟨fun h => ?_, ?_⟩
  · obtain ⟨slot, hslot, hempty⟩ | ⟨parts, hparts⟩ := c.empty_or_full
    · rw [complete_of_empty hslot hempty] at h
      cases h
    · rw [complete_of_full hparts] at h
      exact ⟨parts, (Except.ok.inj h).symm, hparts⟩
  · rintro ⟨parts, rfl, hparts⟩
    exact complete_of_full hparts

/-! ## Edits -/

inductive Edit where
  | fill (g : Group)
  | clear (slot : Slot)

def edit (c : Construct) : Edit → Construct
  | .fill g => (c.fill g).1
  | .clear slot => c.clear slot

/-- What comes of an edit. -/
inductive Event where
  | taken (slot : Slot) (g : Group)
  | handedBack
  | cleared (slot : Slot)

/-- The slot that is changed. -/
def Event.slot? : Event → Option Slot
  | .taken slot _ | .cleared slot => some slot
  | .handedBack => none

def event (c : Construct) : Edit → Event
  | .fill g =>
    match c.emptySlots.head? with
    | some slot => .taken slot g
    | none => .handedBack
  | .clear slot => .cleared slot

def events (c : Construct) : List Edit → List Event
  | [] => []
  | e :: edits => c.event e :: (c.edit e).events edits

theorem events_append (c : Construct) (edits : List Edit) (e : Edit) :
    c.events (edits ++ [e]) = c.events edits ++ [(edits.foldl edit c).event e] := by
  induction edits generalizing c with
  | nil => rfl
  | cons e' edits ih => exact congrArg (c.event e' :: ·) (ih (c.edit e'))

/-- What becomes of a group that is offered: the first empty slot takes it and all else stays, or it
is handed back and nothing changes. -/
inductive Offered (c : Construct) (g : Group) : Event → Construct × Option Group → Prop
  | taken {before after : List Slot} {slot : Slot} {d : Construct}
      (slots : c.kind.slots = before ++ slot :: after)
      (full : ∀ s ∈ before, c.content s ≠ none) (empty : c.content slot = none)
      (kind : d.kind = c.kind)
      (content : ∀ s, d.content s = if slot = s then some g else c.content s) :
      Offered c g (.taken slot g) (d, none)
  | handedBack (full : ∀ s ∈ c.kind.slots, c.content s ≠ none) :
      Offered c g .handedBack (c, some g)

theorem offered_fill (c : Construct) (g : Group) :
    Offered c g (c.event (.fill g)) (c.fill g) := by
  rw [event, fill_eq, emptySlots_eq, List.head?_filter]
  cases hfind : c.kind.slots.find? fun slot => (c.content slot).isNone with
  | none =>
    have hfull := List.find?_eq_none.mp hfind
    exact .handedBack fun s hs => mt Option.isNone_iff_eq_none.mpr (hfull s hs)
  | some slot =>
    obtain ⟨hempty, before, after, hslots, hfull⟩ := List.find?_eq_some_iff_append.mp hfind
    have hslot : slot ∈ c.kind.slots := List.mem_of_find?_eq_some hfind
    refine .taken hslots (fun s hs hnone => ?_) (Option.isNone_iff_eq_none.mp hempty)
      (kind_put slot g c) (content_put hslot g)
    have hsome := hfull s hs
    rw [hnone] at hsome
    cases hsome

theorem accepts_iff (c : Construct) (g : Group) :
    (c.fill g).2 = none ↔ ∃ slot ∈ c.kind.slots, c.content slot = none := by
  have h := c.offered_fill g
  generalize c.event (.fill g) = event, c.fill g = r at h
  cases h with
  | taken slots full empty =>
    have hslot := slots ▸ List.mem_append_right _ List.mem_cons_self
    exact iff_of_true rfl ⟨_, hslot, empty⟩
  | handedBack full => exact iff_of_false nofun fun ⟨s, hs, hempty⟩ => full s hs hempty

theorem kind_edit (c : Construct) (e : Edit) : (c.edit e).kind = c.kind := by
  cases e with
  | fill g =>
    have h := c.offered_fill g
    show (c.fill g).1.kind = c.kind
    generalize c.event (.fill g) = event, c.fill g = r at h
    cases h with
    | taken _ _ _ kind => exact kind
    | handedBack => rfl
  | clear slot => exact kind_clear slot c

theorem kind_foldl_edit (c : Construct) (edits : List Edit) :
    (edits.foldl edit c).kind = c.kind := by
  induction edits generalizing c with
  | nil => rfl
  | cons e edits ih => exact (ih (c.edit e)).trans (c.kind_edit e)

/-- A slot that takes a group is empty before. -/
theorem content_of_taken {c : Construct} {e : Edit} {slot : Slot} {g : Group}
    (h : c.event e = .taken slot g) : c.content slot = none := by
  cases e with
  | fill g' =>
    have hoffered := c.offered_fill g'
    rw [h] at hoffered
    generalize c.fill g' = r at hoffered
    cases hoffered with
    | taken _ _ empty => exact empty
  | clear s => cases h

/-- What an event leaves in a slot, if it held this before. -/
def Event.leaves (slot : Slot) (held : Option Group) : Event → Option Group
  | .taken s g => if s = slot then some g else held
  | .handedBack => held
  | .cleared s => if s = slot then none else held

theorem Event.leaves_of_ne {slot : Slot} {held : Option Group} (e : Event)
    (he : e.slot? ≠ some slot) : e.leaves slot held = held := by
  cases e with
  | taken s g | cleared s => exact if_neg fun h => he (congrArg some h)
  | handedBack => rfl

theorem content_edit (c : Construct) (e : Edit) (slot : Slot) :
    (c.edit e).content slot = (c.event e).leaves slot (c.content slot) := by
  cases e with
  | fill g =>
    have h := c.offered_fill g
    show (c.fill g).1.content slot = _
    generalize c.event (.fill g) = event, c.fill g = r at h
    cases h with
    | taken _ _ _ _ content => exact content slot
    | handedBack => rfl
  | clear s => exact c.content_clear s slot

/-! ## What was taken last -/

/-- The group that a slot took last, if nothing was done to the slot since. A slot that may be left
out has the empty group as long as it was never cleared. -/
inductive Latest (k : Kind) (events : List Event) (slot : Slot) : Group → Prop
  | taken {before after : List Event} {g : Group}
      (split : events = before ++ .taken slot g :: after)
      (since : ∀ e ∈ after, e.slot? ≠ some slot) : Latest k events slot g
  | leftOut (optional : slot ∈ k.optional) (never : .cleared slot ∉ events) :
      Latest k events slot []

namespace Latest

variable {k : Kind} {events : List Event} {slot : Slot} {g : Group}

theorem nil_iff : Latest k [] slot g ↔ slot ∈ k.optional ∧ g = [] := by
  refine ⟨fun h => ?_, ?_⟩
  · cases h with
    | taken split => exact absurd split.symm (List.append_ne_nil_of_right_ne_nil _ nofun)
    | leftOut optional => exact ⟨optional, rfl⟩
  · rintro ⟨optional, rfl⟩
    exact .leftOut optional List.not_mem_nil

theorem append {e : Event} (h : Latest k events slot g) (he : e.slot? ≠ some slot) :
    Latest k (events ++ [e]) slot g := by
  cases h with
  | @taken before after _ split since =>
    have hsplit : events ++ [e] = before ++ .taken slot g :: (after ++ [e]) := by
      rw [split, List.append_assoc, List.cons_append]
    exact .taken hsplit (List.forall_mem_append.mpr ⟨since, List.forall_mem_singleton.mpr he⟩)
  | leftOut optional never =>
    refine .leftOut optional fun h => ?_
    obtain h | h := List.mem_append.mp h
    · exact never h
    · cases List.mem_singleton.mp h
      exact he rfl

/-- What the slot took last is what it took in the last event, or it took that before. -/
theorem of_append {e : Event} (h : Latest k (events ++ [e]) slot g) :
    e = .taken slot g ∨ e ≠ .cleared slot ∧ Latest k events slot g := by
  cases h with
  | @taken before after _ split since =>
    obtain rfl | ⟨after, e', rfl⟩ := List.eq_nil_or_concat' after
    · cases (List.append_inj' split rfl).2
      exact .inl rfl
    · rw [← List.cons_append, ← List.append_assoc] at split
      obtain ⟨rfl, heq⟩ := List.append_inj' split rfl
      cases heq
      obtain ⟨since, he⟩ := List.forall_mem_append.mp since
      refine .inr ⟨?_, .taken rfl since⟩
      rintro rfl
      exact he _ List.mem_cons_self rfl
  | leftOut optional never =>
    obtain ⟨hevents, he⟩ := not_or.mp (mt List.mem_append.mpr never)
    exact .inr ⟨fun h => he (List.mem_singleton.mpr h.symm), .leftOut optional hevents⟩

/-- One more event, if only an empty slot takes a group. -/
theorem append_iff {e : Event} {held : Option Group}
    (hheld : ∀ g, held = some g ↔ Latest k events slot g)
    (hempty : ∀ g, e = .taken slot g → held = none) :
    e.leaves slot held = some g ↔ Latest k (events ++ [e]) slot g := by
  refine ⟨fun h => ?_, fun h => ?_⟩
  · by_cases he : e.slot? = some slot
    · cases e with
      | taken s g' =>
        cases he
        rw [Event.leaves, if_pos rfl] at h
        cases h
        exact .taken rfl (List.forall_mem_nil _)
      | handedBack => cases he
      | cleared s =>
        cases he
        rw [Event.leaves, if_pos rfl] at h
        cases h
    · rw [e.leaves_of_ne he] at h
      exact ((hheld g).mp h).append he
  · obtain rfl | ⟨hkept, hbefore⟩ := h.of_append
    · exact if_pos rfl
    · have hg := (hheld g).mpr hbefore
      rw [e.leaves_of_ne, hg]
      -- a full slot takes nothing, and it was not cleared
      intro he
      cases e with
      | taken s g' =>
        cases he
        rw [hempty g' rfl] at hg
        cases hg
      | handedBack => cases he
      | cleared s =>
        cases he
        exact hkept rfl

end Latest

/-- A slot holds what it took last, and nothing if there is no such group. -/
theorem content_eq_some_iff (k : Kind) (edits : List Edit) (slot : Slot) (g : Group) :
    (edits.foldl edit k.new).content slot = some g ↔ Latest k (k.new.events edits) slot g := by
  -- by the last edit, since what it does to the slot outdoes all that came before
  induction edits using List.reverseRecOn generalizing g with
  | nil =>
    rw [List.foldl_nil, content_new, events, Latest.nil_iff]
    split
    · rename_i hslot
      rw [Option.some_inj, eq_comm, and_iff_right hslot]
    · rename_i hslot
      exact iff_of_false nofun fun h => hslot h.1
  | append_singleton edits e ih =>
    rw [List.foldl_append, events_append, List.foldl_cons, List.foldl_nil, content_edit]
    exact Latest.append_iff ih fun g => content_of_taken

/-- After any sequence of edits a construct takes a group exactly if one of its slots is empty, and
then into the first of these; else it hands the group back. It can be completed exactly if no slot
is empty, and the term has in each place the group that the slot took last and that was not cleared
since, or the empty group of a part that was left out. -/
theorem keeps_last_taken (k : Kind) (edits : List Edit) :
    let c := edits.foldl edit k.new
    c.kind = k ∧
    (∀ g, ((c.fill g).2 = none ↔ ∃ slot ∈ k.slots, c.content slot = none) ∧
      Offered c g (c.event (.fill g)) (c.fill g)) ∧
    ((∃ t, c.complete = .ok t) ↔ ∀ slot ∈ k.slots, c.content slot ≠ none) ∧
    (c.complete = .error (.incompleteConstruct c.keyword) ↔
      ∃ slot ∈ k.slots, c.content slot = none) ∧
    ∀ t, c.complete = .ok t ↔ ∃ parts, t = k.term parts ∧
      ∀ slot ∈ k.slots, Latest k (k.new.events edits) slot (parts slot) := by
  intro c
  have hkind : c.kind = k := (kind_foldl_edit _ edits).trans (kind_new k)
  have hcomplete := c.complete_eq_ok_iff
  rw [hkind] at hcomplete
  refine ⟨hkind, fun g => ⟨hkind ▸ c.accepts_iff g, c.offered_fill g⟩, hkind ▸ c.completes_iff,
    hkind ▸ c.complete_eq_error_iff, fun t => ?_⟩
  simp only [hcomplete, c, content_eq_some_iff]

/-- A branch that is asked for twice, and a group that comes while nothing is empty. -/
theorem keeps_last_taken_branches :
    let a : Group := [.ident "a"]
    let b : Group := [.ident "b"]
    let c : Group := [.ident "c"]
    let waiting : List Edit :=
      [.fill a, .fill b, .clear .whenFalse, .clear .whenTrue, .fill b, .clear .whenTrue]
    let edits : List Edit := waiting ++ [.fill c, .fill b]
    (waiting.foldl edit Kind.cond.new).complete = .error (.incompleteConstruct .ifTest) ∧
    (edits.foldl edit Kind.cond.new).complete = .ok (.cond a c b) ∧
    Latest .cond [.taken .test a, .handedBack, .cleared .whenFalse, .cleared .whenTrue,
      .taken .whenTrue b, .cleared .whenTrue, .taken .whenTrue c, .taken .whenFalse b]
      .whenTrue c := by
  intro a b c waiting edits
  obtain ⟨-, -, -, herror, -⟩ := keeps_last_taken .cond waiting
  obtain ⟨-, -, -, -, hok⟩ := keeps_last_taken .cond edits
  have hmem : Slot.whenTrue ∈ Kind.cond.slots := by decide
  have hcomplete : (edits.foldl edit Kind.cond.new).complete = .ok (.cond a c b) := rfl
  obtain ⟨parts, hterm, hlatest⟩ := (hok _).mp hcomplete
  have hc : c = parts .whenTrue := (Term.cond.inj hterm).2.1
  have hlast := hlatest .whenTrue hmem
  rw [← hc] at hlast
  exact ⟨herror.mpr ⟨.whenTrue, hmem, rfl⟩, hcomplete, hlast⟩

end Construct
end Reader
end Bracket

import Mathlib.Data.List.Perm.Basic
import SuiteIndex.Proofs.Node.Walk

/-! # What a walk promises its visitor

A recorder stands between a walk and a visitor and writes down every call with the answer
it got, without changing the walk. Whatever the visitor answers, the calls of a walk are
properly nested, every entered node that is not skipped has its children entered in order
before it is left, a skipped one is left at once, and nothing is called after a halt.
-/

namespace SuiteIndex.Visitor

variable {σ : Type}

/-- A call made to a visitor, and its answer. -/
inductive Event where
  | enter (node : Node) (parent : Option Node) (answer : Verdict)
  | leave (node : Node) (parent : Option Node) (answer : Verdict)

namespace Event

def answer : Event → Verdict
  | enter _ _ answer => answer
  | leave _ _ answer => answer

def entered? : Event → Option Node
  | enter node _ _ => some node
  | leave _ _ _ => none

def left? : Event → Option Node
  | enter _ _ _ => none
  | leave node _ _ => some node

end Event

/-- The visitor with a list of the calls made to it so far. -/
def recorder (visitor : Visitor σ) : Visitor (σ × List Event) where
  enter state node parent :=
    let (s, answer) := visitor.enter state.1 node parent
    ((s, state.2 ++ [.enter node parent answer]), answer)
  leave state node parent :=
    let (s, answer) := visitor.leave state.1 node parent
    ((s, state.2 ++ [.leave node parent answer]), answer)

theorem recorder_enter {visitor : Visitor σ} {s t : σ} {node : Node} {parent : Option Node}
    {answer : Verdict} (h : visitor.enter s node parent = (t, answer)) (before : List Event) :
    (recorder visitor).enter (s, before) node parent =
      ((t, before ++ [.enter node parent answer]), answer) := by
  simp [recorder, h]

theorem recorder_leave {visitor : Visitor σ} {s t : σ} {node : Node} {parent : Option Node}
    {answer : Verdict} (h : visitor.leave s node parent = (t, answer)) (before : List Event) :
    (recorder visitor).leave (s, before) node parent =
      ((t, before ++ [.leave node parent answer]), answer) := by
  simp [recorder, h]

/-- The calls that a walk through a node makes. -/
def events (visitor : Visitor σ) (root : Node) (s : σ) : List Event :=
  ((recorder visitor).run root (s, [])).1.2

/-- The events of a walk through a forest, case by case as the walk goes on. The flag tells
whether it was halted. -/
inductive Transcript : Option Node → List Node → List Event → Bool → Prop where
  | nil {parent : Option Node} : Transcript parent [] [] false
  | haltEnter {parent : Option Node} {node : Node} {rest : List Node} :
    Transcript parent (node :: rest) [.enter node parent .halt] true
  | haltSkipped {parent : Option Node} {node : Node} {rest : List Node} :
    Transcript parent (node :: rest) [.enter node parent .skip, .leave node parent .halt] true
  | skipped {parent : Option Node} {node : Node} {rest : List Node} {answer : Verdict}
    {after : List Event} {halted : Bool} (hanswer : answer ≠ .halt)
    (hrest : Transcript parent rest after halted) :
    Transcript parent (node :: rest)
      (.enter node parent .skip :: .leave node parent answer :: after) halted
  | haltBelow {parent : Option Node} {node : Node} {rest : List Node} {below : List Event}
    (hbelow : Transcript (some node) node.children below true) :
    Transcript parent (node :: rest) (.enter node parent .proceed :: below) true
  | haltLeave {parent : Option Node} {node : Node} {rest : List Node} {below : List Event}
    (hbelow : Transcript (some node) node.children below false) :
    Transcript parent (node :: rest)
      (.enter node parent .proceed :: (below ++ [.leave node parent .halt])) true
  | visited {parent : Option Node} {node : Node} {rest : List Node} {answer : Verdict}
    {below after : List Event} {halted : Bool}
    (hbelow : Transcript (some node) node.children below false) (hanswer : answer ≠ .halt)
    (hrest : Transcript parent rest after halted) :
    Transcript parent (node :: rest)
      (.enter node parent .proceed :: (below ++ .leave node parent answer :: after)) halted

/-- The recorder adds a transcript of the walk to its list and changes nothing else. -/
theorem walk_recorder (visitor : Visitor σ) (parent : Option Node) (forest : List Node) (s : σ)
    (before : List Event) :
    ∃ more, (recorder visitor).walk parent forest (s, before) =
        (((visitor.walk parent forest s).1, before ++ more), (visitor.walk parent forest s).2) ∧
      Transcript parent forest more (visitor.walk parent forest s).2 := by
  fun_induction walk visitor parent forest s generalizing before with
  | case1 parent s => exact ⟨[], by simp [walk], .nil⟩
  | case2 parent node rest s s₁ henter =>
    refine ⟨_, ?_, .haltEnter⟩
    rw [walk]
    simp only [recorder_enter henter]
  | case3 parent node rest s s₁ henter s₂ hleave =>
    refine ⟨_, ?_, .haltSkipped⟩
    rw [walk]
    simp only [recorder_enter henter, recorder_leave hleave, List.append_assoc]
    rfl
  | case4 parent node rest s s₁ henter s₂ answer hanswer hleave ih =>
    obtain ⟨after, hafter, hrest⟩ :=
      ih (before ++ [.enter node parent .skip] ++ [.leave node parent answer])
    refine ⟨_, ?_, .skipped hanswer hrest⟩
    rw [walk]
    simp only [recorder_enter henter, recorder_leave hleave, hafter]
    simp only [List.append_assoc, List.cons_append, List.nil_append]
  | case5 parent node rest s s₁ henter s₂ hbelow ih =>
    obtain ⟨below, hwalk, htranscript⟩ := ih (before ++ [.enter node parent .proceed])
    rw [hbelow] at hwalk htranscript
    refine ⟨_, ?_, .haltBelow htranscript⟩
    rw [walk]
    simp only [recorder_enter henter, hwalk, List.append_assoc]
    rfl
  | case6 parent node rest s s₁ henter s₂ hbelow s₃ hleave ih =>
    obtain ⟨below, hwalk, htranscript⟩ := ih (before ++ [.enter node parent .proceed])
    rw [hbelow] at hwalk htranscript
    refine ⟨_, ?_, .haltLeave htranscript⟩
    rw [walk]
    simp only [recorder_enter henter, hwalk, recorder_leave hleave, List.append_assoc]
    rfl
  | case7 parent node rest s s₁ henter s₂ hbelow s₃ answer hanswer hleave ihbelow ih =>
    obtain ⟨below, hwalk, htranscript⟩ := ihbelow (before ++ [.enter node parent .proceed])
    rw [hbelow] at hwalk htranscript
    obtain ⟨after, hafter, hrest⟩ :=
      ih (before ++ [.enter node parent .proceed] ++ below ++ [.leave node parent answer])
    refine ⟨_, ?_, .visited htranscript hanswer hrest⟩
    rw [walk]
    simp only [recorder_enter henter, hwalk, recorder_leave hleave, hafter]
    simp only [List.append_assoc, List.cons_append, List.nil_append]

/-- The events are read with a stack of open nodes, innermost first, from one stack to
another: a node is left only while it is the innermost open one, and the parent named in a
call is the innermost open node around the node. -/
inductive Nested : List Node → List Event → List Node → Prop where
  | nil {stack : List Node} : Nested stack [] stack
  | enter {stack last : List Node} {node : Node} {answer : Verdict} {events : List Event}
    (hrest : Nested (node :: stack) events last) :
    Nested stack (.enter node stack.head? answer :: events) last
  | leave {stack last : List Node} {node : Node} {answer : Verdict} {events : List Event}
    (hrest : Nested stack events last) :
    Nested (node :: stack) (.leave node stack.head? answer :: events) last

theorem Nested.append {first middle last : List Node} {front back : List Event}
    (hfront : Nested first front middle) (hback : Nested middle back last) :
    Nested first (front ++ back) last := by
  induction hfront with
  | nil => exact hback
  | enter _ ih => exact .enter (ih hback)
  | leave _ ih => exact .leave (ih hback)

/-- Together with the nodes that stay open, the nodes left are those entered and those open
before. -/
theorem Nested.perm {first last : List Node} {events : List Event} (h : Nested first events last) :
    (events.filterMap Event.left? ++ last).Perm (events.filterMap Event.entered? ++ first) := by
  induction h with
  | nil => exact .refl _
  | @enter stack last node answer events _ ih =>
    simp only [List.filterMap_cons, Event.left?, Event.entered?, List.cons_append]
    exact ih.trans List.perm_middle
  | @leave stack last node answer events _ ih =>
    simp only [List.filterMap_cons, Event.left?, Event.entered?, List.cons_append]
    exact (ih.cons node).trans List.perm_middle.symm

theorem Transcript.nested {parent : Option Node} {forest : List Node} {events : List Event}
    {halted : Bool} (h : Transcript parent forest events halted) (stack : List Node)
    (hparent : stack.head? = parent) :
    ∃ last, Nested stack events last ∧ (halted = false → last = stack) := by
  induction h generalizing stack with
  | nil => exact ⟨stack, .nil, fun _ => rfl⟩
  | haltEnter =>
    subst hparent
    exact ⟨_, .enter .nil, by simp⟩
  | haltSkipped =>
    subst hparent
    exact ⟨_, .enter (.leave .nil), by simp⟩
  | skipped _ _ ih =>
    subst hparent
    obtain ⟨last, hrest, hlast⟩ := ih stack rfl
    exact ⟨last, .enter (.leave hrest), hlast⟩
  | @haltBelow parent node rest below _ ih =>
    subst hparent
    obtain ⟨last, hbelow, -⟩ := ih (node :: stack) rfl
    exact ⟨last, .enter hbelow, by simp⟩
  | @haltLeave parent node rest below _ ih =>
    subst hparent
    obtain ⟨last, hbelow, hlast⟩ := ih (node :: stack) rfl
    obtain rfl := hlast rfl
    exact ⟨stack, .enter (hbelow.append (.leave .nil)), by simp⟩
  | @visited parent node rest answer below after halted _ _ _ ihbelow ih =>
    subst hparent
    obtain ⟨inner, hbelow, hinner⟩ := ihbelow (node :: stack) rfl
    obtain rfl := hinner rfl
    obtain ⟨last, hrest, hlast⟩ := ih stack rfl
    exact ⟨last, .enter (hbelow.append (.leave hrest)), hlast⟩

/-- The nodes entered by the events directly below a node that is open at the start, up to
the event that leaves it, and whether there is such an event. The depth counts the open
nodes below it. -/
def entries : Nat → List Event → List Node × Bool
  | _, [] => ([], false)
  | 0, .enter node _ _ :: events => (node :: (entries 1 events).1, (entries 1 events).2)
  | depth + 1, .enter _ _ _ :: events => entries (depth + 2) events
  | 0, .leave _ _ _ :: _ => ([], true)
  | depth + 1, .leave _ _ _ :: events => entries depth events

/-- A walk through a forest enters its trees one after another, all of them unless it is
halted. -/
theorem Transcript.entries_append {parent : Option Node} {forest : List Node}
    {events : List Event} {halted : Bool} (h : Transcript parent forest events halted)
    (back : List Event) (hback : halted = true → back = []) :
    (∃ seen, seen <+: forest ∧ (halted = false → seen = forest) ∧
      entries 0 (events ++ back) = (seen ++ (entries 0 back).1, (entries 0 back).2)) ∧
    ∀ depth, entries (depth + 1) (events ++ back) = entries (depth + 1) back := by
  induction h generalizing back with
  | nil => exact ⟨⟨[], List.prefix_rfl, fun _ => rfl, rfl⟩, fun _ => rfl⟩
  | @haltEnter parent node rest =>
    obtain rfl := hback rfl
    exact ⟨⟨[node], by simp, by simp, rfl⟩, fun _ => rfl⟩
  | @haltSkipped parent node rest =>
    obtain rfl := hback rfl
    exact ⟨⟨[node], by simp, by simp, rfl⟩, fun _ => rfl⟩
  | @skipped parent node rest answer after halted _ _ ih =>
    obtain ⟨⟨seen, hseen, hall, heq⟩, hdeep⟩ := ih back hback
    refine ⟨⟨node :: seen, by simpa using hseen, fun h => by rw [hall h], ?_⟩, hdeep⟩
    simp only [List.cons_append, entries, heq]
  | @haltBelow parent node rest below _ ih =>
    obtain rfl := hback rfl
    obtain ⟨-, hdeep⟩ := ih [] hback
    refine ⟨⟨[node], by simp, by simp, ?_⟩, fun depth => ?_⟩
    · simp only [List.cons_append, entries, hdeep 0, List.nil_append]
    · exact hdeep (depth + 1)
  | @haltLeave parent node rest below _ ih =>
    obtain rfl := hback rfl
    obtain ⟨-, hdeep⟩ := ih [.leave node parent .halt] (by simp)
    refine ⟨⟨[node], by simp, by simp, ?_⟩, fun depth => ?_⟩
    · simp only [List.append_nil, entries, hdeep 0]
    · rw [List.append_nil]
      exact hdeep (depth + 1)
  | @visited parent node rest answer below after halted _ _ _ ihbelow ih =>
    obtain ⟨-, hdeep⟩ := ihbelow (.leave node parent answer :: (after ++ back)) (by simp)
    obtain ⟨⟨seen, hseen, hall, heq⟩, hrest⟩ := ih back hback
    simp only [List.cons_append, List.append_assoc]
    refine ⟨⟨node :: seen, by simpa using hseen, fun h => by rw [hall h], ?_⟩, fun depth => ?_⟩
    · simp only [entries, hdeep 0, heq, List.cons_append]
    · rw [entries, hdeep (depth + 1)]
      exact hrest depth

/-- What is promised about the events behind an event. -/
structure Followed (event : Event) (back : List Event) : Prop where
  /-- Nothing is called after a halt. -/
  halt : event.answer = .halt → back = []
  /-- A skipped node is left at once. -/
  skip : ∀ node parent, event = .enter node parent .skip →
    ∃ answer after, back = .leave node parent answer :: after
  /-- The children are entered in their order, all of them before the node is left. -/
  proceed : ∀ node parent, event = .enter node parent .proceed →
    (entries 0 back).1 <+: node.children ∧
      ((entries 0 back).2 = true → (entries 0 back).1 = node.children)

theorem Followed.leave (node : Node) (parent : Option Node) {answer : Verdict}
    (hanswer : answer ≠ .halt) (back : List Event) : Followed (.leave node parent answer) back :=
  ⟨fun h => absurd h hanswer, by simp, by simp⟩

theorem Followed.skip_of_left (node : Node) (parent : Option Node) (answer : Verdict)
    (back : List Event) :
    Followed (.enter node parent .skip) (.leave node parent answer :: back) := by
  refine ⟨by simp [Event.answer], ?_, by simp⟩
  rintro _ _ ⟨⟩
  exact ⟨answer, back, rfl⟩

theorem Followed.last_of_halt {event : Event} (h : event.answer = .halt) : Followed event [] := by
  refine ⟨fun _ => rfl, ?_, ?_⟩
  · rintro node parent rfl
    cases h
  · rintro node parent rfl
    cases h

def AllFollowed (events : List Event) : Prop :=
  ∀ front event back, events = front ++ event :: back → Followed event back

theorem AllFollowed.nil : AllFollowed [] := by
  simp [AllFollowed]

theorem AllFollowed.cons {event : Event} {events : List Event} (h : Followed event events)
    (hrest : AllFollowed events) : AllFollowed (event :: events) := by
  intro front other back heq
  cases front with
  | nil =>
    obtain ⟨rfl, rfl⟩ := List.cons.inj heq
    exact h
  | cons first front => exact hrest front other back (List.cons.inj heq).2

theorem Followed.proceed_of_left {node : Node} {parent : Option Node} {answer : Verdict}
    {below back : List Event} (h : Transcript (some node) node.children below false) :
    Followed (.enter node parent .proceed) (below ++ .leave node parent answer :: back) := by
  obtain ⟨⟨seen, -, hall, heq⟩, -⟩ := h.entries_append (.leave node parent answer :: back)
    (by simp)
  refine ⟨by simp [Event.answer], by simp, ?_⟩
  rintro _ _ ⟨⟩
  simp [heq, hall rfl, entries]

theorem Transcript.allFollowed {parent : Option Node} {forest : List Node}
    {events back : List Event} {halted : Bool} (h : Transcript parent forest events halted)
    (hback : halted = true → back = []) (hrest : AllFollowed back) :
    AllFollowed (events ++ back) := by
  induction h generalizing back with
  | nil => exact hrest
  | haltEnter =>
    obtain rfl := hback rfl
    exact .cons (.last_of_halt rfl) .nil
  | @haltSkipped parent node rest =>
    obtain rfl := hback rfl
    exact .cons (.skip_of_left node parent .halt []) (.cons (.last_of_halt rfl) .nil)
  | @skipped parent node rest answer after halted hanswer _ ih =>
    exact .cons (.skip_of_left node parent answer _)
      (.cons (.leave node parent hanswer _) (ih hback hrest))
  | @haltBelow parent node rest below hbelow ih =>
    obtain rfl := hback rfl
    obtain ⟨⟨seen, hseen, -, heq⟩, -⟩ := hbelow.entries_append [] (fun _ => rfl)
    rw [List.append_nil] at heq ⊢
    refine .cons ⟨by simp [Event.answer], by simp, ?_⟩ (by simpa using ih hback .nil)
    rintro _ _ ⟨⟩
    simpa [heq, entries] using hseen
  | @haltLeave parent node rest below hbelow ih =>
    obtain rfl := hback rfl
    rw [List.append_nil]
    exact .cons (.proceed_of_left hbelow) (ih (by simp) (.cons (.last_of_halt rfl) .nil))
  | @visited parent node rest answer below after halted hbelow hanswer _ ihbelow ih =>
    rw [List.cons_append, List.append_assoc, List.cons_append]
    exact .cons (.proceed_of_left hbelow)
      (ihbelow (by simp) (.cons (.leave node parent hanswer _) (ih hback hrest)))

theorem Transcript.halted_iff {parent : Option Node} {forest : List Node} {events : List Event}
    {halted : Bool} (h : Transcript parent forest events halted) :
    halted = true ↔ ∃ event ∈ events, event.answer = .halt := by
  induction h with
  | nil => simp
  | haltEnter => simp [Event.answer]
  | haltSkipped => simp [Event.answer]
  | skipped hanswer _ ih => simp [Event.answer, hanswer, ih]
  | haltBelow _ ih => simpa [Event.answer] using ih
  | haltLeave _ _ => simp [Event.answer]
  | @visited parent node rest answer below after halted _ hanswer _ ihbelow ih =>
    have hbelow : ¬∃ event ∈ below, event.answer = .halt := fun h => by simp [← ihbelow] at h
    simp only [List.mem_cons, List.mem_append, or_and_right, exists_or, exists_eq_left, hbelow]
    simp [Event.answer, hanswer, ih]

/-- What a walk through the tree below a node promises about its calls. -/
structure Contract (root : Node) (events : List Event) (halted : Bool) : Prop where
  /-- The calls are nested, and no node stays open unless the walk is halted. -/
  nested : ∃ stack, Nested [] events stack ∧ (halted = false → stack = [])
  /-- Nothing but the root is entered without a node around it. -/
  root : (entries 0 events).1 = [root]
  /-- Halts, skipped nodes and children are treated as promised. -/
  followed : AllFollowed events
  halted_iff : halted = true ↔ ∃ event ∈ events, event.answer = .halt
  /-- Without a halt every entered node is left exactly once. -/
  left_once : halted = false →
    (events.filterMap Event.left?).Perm (events.filterMap Event.entered?)

theorem Transcript.exists_enter {parent : Option Node} {node : Node} {rest : List Node}
    {events : List Event} {halted : Bool} (h : Transcript parent (node :: rest) events halted) :
    ∃ answer after, events = .enter node parent answer :: after := by
  cases h <;> exact ⟨_, _, rfl⟩

theorem Transcript.contract {root : Node} {events : List Event} {halted : Bool}
    (h : Transcript none [root] events halted) : Contract root events halted := by
  obtain ⟨stack, hnested, hstack⟩ := h.nested [] rfl
  obtain ⟨⟨seen, hseen, -, heq⟩, -⟩ := h.entries_append [] (fun _ => rfl)
  have hfollowed := h.allFollowed (fun _ => rfl) .nil
  rw [List.append_nil] at heq hfollowed
  refine ⟨⟨stack, hnested, hstack⟩, ?_, hfollowed, h.halted_iff, fun hrun => ?_⟩
  · obtain ⟨answer, after, rfl⟩ := h.exists_enter
    simp only [entries, List.append_nil, Prod.mk.injEq] at heq
    rw [← heq.1, List.cons_prefix_cons, List.prefix_nil] at hseen
    rw [entries, hseen.2]
  · obtain rfl := hstack hrun
    simpa using hnested.perm

/-- The recorder hands on all calls and answers, and whatever the visitor answers, the calls
it writes down keep the promises. -/
theorem contract_events (visitor : Visitor σ) (root : Node) (s : σ) :
    (recorder visitor).run root (s, []) =
        (((visitor.run root s).1, visitor.events root s), (visitor.run root s).2) ∧
      Contract root (visitor.events root s) (visitor.run root s).2 := by
  obtain ⟨calls, hwalk, htranscript⟩ := walk_recorder visitor none [root] s []
  rw [List.nil_append] at hwalk
  have hevents : visitor.events root s = calls := by rw [events, run, hwalk]
  rw [hevents]
  exact ⟨hwalk, htranscript.contract⟩

end SuiteIndex.Visitor

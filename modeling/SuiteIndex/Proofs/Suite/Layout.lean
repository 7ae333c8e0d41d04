import SuiteIndex.Proofs.Node.Separation
import SuiteIndex.Proofs.Suite.Enclosure

/-! # What is read from different cells shares no position

The cells of a statement do not touch, and every part of a call, a step or a setting is
read from cells of its own. What is read from the cells of a statement is therefore laid
inside every span around them, a called keyword and the arguments of the call included.
-/

namespace SuiteIndex
open Node

theorem Cell.exists_ends {cells : List Cell} {span : Span} (h : range? cells = some span) :
    ∃ first ∈ cells, ∃ last ∈ cells, span = ⟨first.span.start, last.span.stop⟩ := by
  unfold range? at h
  split at h
  · rename_i first last hfirst hlast
    exact ⟨first, List.mem_of_mem_head? hfirst, last, List.mem_of_mem_getLast? hlast,
      (Option.some.inj h).symm⟩
  · cases h

/-- The trees are laid inside every span around the cells, and without cells there are none. -/
structure LaidFrom (cells : List Cell) (forest : List Node) : Prop where
  laid : ∀ outer, Cell.Inside outer cells → Laid outer forest
  nil : cells = [] → forest = []

namespace LaidFrom

variable {cells left right : List Cell} {front back : List Node}

theorem empty (cells : List Cell) : LaidFrom cells [] :=
  ⟨fun outer _ => Laid.nil outer, fun _ => rfl⟩

theorem single {node : Node} (hread : node.ReadFrom cells)
    (htidy : ∀ outer, Cell.Inside outer cells → Tidy node) (hne : cells ≠ []) :
    LaidFrom cells [node] :=
  ⟨fun outer h => Laid.single (hread outer h) (htidy outer h), fun h => absurd h hne⟩

theorem sublist (h : LaidFrom left front) (hsub : left.Sublist cells) : LaidFrom cells front :=
  ⟨fun outer hinside => h.laid outer (hinside.sublist hsub),
    fun hnil => h.nil (List.sublist_nil.1 (hnil ▸ hsub))⟩

/-- The last cell of the front part ends before the first cell of the back part. -/
theorem append (hleft : LaidFrom left front) (hright : LaidFrom right back) :
    LaidFrom (left ++ right) (front ++ back) := by
  refine ⟨fun outer hinside => ?_, fun hnil => ?_⟩
  · have hinleft := hinside.sublist (List.sublist_append_left left right)
    have hinright := hinside.sublist (List.sublist_append_right left right)
    cases hl : Cell.range? left with
    | none =>
      rw [hleft.nil (Row.range?_eq_none hl)]
      exact hright.laid outer hinright
    | some leftSpan =>
      cases hr : Cell.range? right with
      | none =>
        rw [hright.nil (Row.range?_eq_none hr), List.append_nil]
        exact hleft.laid outer hinleft
      | some rightSpan =>
        obtain ⟨-, hleftle, hleftin⟩ := hinleft.range hl
        obtain ⟨-, hrightle, hrightin⟩ := hinright.range hr
        obtain ⟨_, _, last, hlast, rfl⟩ := Cell.exists_ends hl
        obtain ⟨first, hfirst, _, _, rfl⟩ := Cell.exists_ends hr
        have hcut := (List.pairwise_append.1 hinside.ordered).2.2 last hlast first hfirst
        exact (hleft.laid _ hleftin).append (hright.laid _ hrightin) hcut hleftle hrightle
  · obtain ⟨hl, hr⟩ := List.append_eq_nil_iff.1 hnil
    rw [hleft.nil hl, hright.nil hr, List.append_nil]

end LaidFrom

@[simp] theorem Node.uses_variableExpression (use : VariableUse) :
    (variableExpression use).uses = [] := rfl

@[simp] theorem Node.uses_templateLiteral (text : TemplateText) :
    (templateLiteral text).uses = [] := by
  have hpiece (piece : Literal) : (templateElement piece).uses = [] := rfl
  rw [uses_eq]
  simp [used, children_eq, fields, List.flatMap_map, hpiece]

@[simp] theorem Expression.uses_ofCell (cell : Cell) :
    (ofExpression (.ofCell cell)).uses = [] := by
  unfold Expression.ofCell
  dsimp only
  split
  · split
    · split
      · exact uses_variableExpression _
      · exact uses_templateLiteral _
    · exact uses_templateLiteral _
  · exact uses_literal _

theorem LaidFrom.value (cell : Cell) : LaidFrom [cell] [ofExpression (.ofCell cell)] :=
  single (fun _ h => h.value List.mem_cons_self) (fun _ _ => .plain (Expression.uses_ofCell cell))
    (List.cons_ne_nil _ _)

theorem LaidFrom.literal (cell : Cell) : LaidFrom [cell] [.literal (.ofCell cell)] :=
  single (fun _ h => h.literal List.mem_cons_self) (fun _ _ => .plain rfl) (List.cons_ne_nil _ _)

theorem LaidFrom.name (cell : Cell) : LaidFrom [cell] [identifier (.ofCell cell)] :=
  single (fun _ h => h.name List.mem_cons_self) (fun _ _ => .plain rfl) (List.cons_ne_nil _ _)

theorem LaidFrom.plain (cell : Cell) : LaidFrom [cell] [identifier (.plain cell)] :=
  single (fun _ h => h.plain List.mem_cons_self) (fun _ _ => .plain rfl) (List.cons_ne_nil _ _)

theorem LaidFrom.node {cells : List Cell} {node : Node} (hread : node.ReadFrom cells)
    (hchildren : LaidFrom cells node.children) (hne : cells ≠ []) : LaidFrom cells [node] :=
  single hread (fun outer h => (hchildren.laid outer h).tidy_of_children) hne

theorem Target.uses_toDeclaration {allowDefault : Bool} {cell : Cell} {target : Target}
    (h : ofCell? allowDefault cell = some target) :
    (variableDeclaration target.toDeclaration).uses = [] := by
  simp only [ofCell?, Option.bind_eq_bind, Option.bind_eq_some_iff] at h
  obtain ⟨head, -, ⟨sigil, name⟩, -, kind, -, h⟩ := h
  split at h
  · obtain rfl := Option.some.inj h
    rfl
  · split at h
    · obtain ⟨text, -, h⟩ := Option.bind_eq_some_iff.1 h
      obtain rfl := Option.some.inj h
      rw [uses_eq]
      simp [used, children_eq, fields, toDeclaration]
    · cases h

namespace Call

theorem map_embed (call? : Option Call) :
    (embed call?).map ofExpression = call?.toList.map callExpression := by
  cases call? <;> rfl

theorem laidFrom_ofCells? (cells : List Cell) :
    LaidFrom cells ((ofCells? cells).toList.map callExpression) := by
  have hturn : InTurn fun cells es => LaidFrom cells (es.map ofExpression) := by
    refine ⟨?nil, ?append, ?value, ?separator⟩
    case nil => exact .empty []
    case append =>
      intro left right es others hleft hright
      rw [List.map_append]
      exact hleft.append hright
    case value => exact LaidFrom.value
    case separator => exact LaidFrom.literal
  rw [← map_embed]
  refine hturn.embed_ofCells? (fun first rest args hread hargs => ?_) cells
  apply LaidFrom.node
  · exact fun outer h => nests_ofCells? h _ hread
  · simpa [ofExpression, children_eq, fields] using (LaidFrom.name first).append hargs
  · exact List.cons_ne_nil _ _

end Call

theorem Node.ReadFrom.child {cells : List Cell} {node child : Node} (h : node.ReadFrom cells)
    (hchild : child ∈ node.children) : child.ReadFrom cells := by
  intro outer hinside
  obtain ⟨-, -, hwithin, hchildren⟩ := h outer hinside
  exact (hchildren child hchild).mono hwithin

theorem Step.laidFrom_ofCells? (cells : List Cell) :
    LaidFrom cells ((Step.ofCells? cells).toList.map step) := by
  cases cells with
  | nil => exact LaidFrom.empty []
  | cons first rest =>
    have hread (action : Step) (h : Step.ofCells? (first :: rest) = some action) :
        (step action).ReadFrom (first :: rest) :=
      fun outer hinside => Step.nests_ofCells? hinside action h
    cases htarget : Target.ofCell? false first with
    | some target =>
      have hstep : Step.ofCells? (first :: rest) = some ⟨.declaration ⟨target.id, target.kind,
          Call.embed (Call.ofCells? (rest.dropWhile isTarget)), Cell.reach first rest⟩,
          Cell.reach first rest⟩ := by
        simp [Step.ofCells?, htarget]
      have hid : LaidFrom [first] [identifier target.id] := by
        refine LaidFrom.single (fun outer h => ?_) (fun _ _ => .plain rfl) (List.cons_ne_nil _ _)
        have hfits := h.fits first List.mem_cons_self
        exact (Target.nested_ofCell? hfits htarget).id.mono (h.within first List.mem_cons_self)
      have hcall := (Call.laidFrom_ofCells? (rest.dropWhile isTarget)).sublist
        (List.dropWhile_sublist isTarget)
      rw [hstep]
      refine LaidFrom.node (hread _ hstep) ?_ (List.cons_ne_nil _ _)
      refine LaidFrom.node ((hread _ hstep).child List.mem_cons_self) ?_ (List.cons_ne_nil _ _)
      simpa [children_eq, fields, ofStepBody, Call.map_embed] using hid.append hcall
    | none =>
      have hlaid := Call.laidFrom_ofCells? (first :: rest)
      have hstep : Step.ofCells? (first :: rest) =
          (Call.ofCells? (first :: rest)).map fun call => ⟨.call call, Cell.reach first rest⟩ := by
        simp [Step.ofCells?, htarget]
      rw [Call.ofCells?_cons] at hlaid hstep
      rw [hstep]
      exact LaidFrom.node (hread _ hstep) hlaid (List.cons_ne_nil _ _)

section

variable (name : Cell) (values : List Cell)

theorem LaidFrom.setting {node : Node} (hread : node.ReadFrom (name :: values))
    (huses : node.uses = []) : LaidFrom (name :: values) [node] :=
  single hread (fun _ _ => .plain huses) (List.cons_ne_nil _ _)

theorem Documentation.laidFrom_ofCells :
    LaidFrom (name :: values) [documentation (.ofCells name values)] :=
  LaidFrom.setting name values readFrom_ofCells rfl

theorem Arguments.laidFrom_ofCells :
    LaidFrom (name :: values) [arguments (.ofCells name values)] := by
  apply LaidFrom.setting name values readFrom_ofCells
  have hvalues : ∀ declaration ∈ (ofCells name values).values,
      (variableDeclaration declaration).uses = [] := by
    intro declaration hdeclaration
    obtain ⟨cell, -, hread⟩ := List.mem_filterMap.1 hdeclaration
    obtain ⟨target, htarget, rfl⟩ := Option.map_eq_some_iff.1 hread
    exact Target.uses_toDeclaration htarget
  rw [uses_eq]
  simpa [used, children_eq, fields, List.flatMap_map] using hvalues

theorem Returned.laidFrom_ofCells :
    LaidFrom (name :: values) [returned (.ofCells name values)] := by
  apply LaidFrom.setting name values readFrom_ofCells
  rw [uses_eq]
  simp [used, children_eq, fields, ofCells, List.flatMap_map]

theorem Timeout.laidFrom_ofCells :
    LaidFrom (name :: values) [timeout (.ofCells name values)] := by
  apply LaidFrom.setting name values readFrom_ofCells
  rw [uses_eq]
  simp [used, children_eq, fields, ofCells, List.flatMap_map]

theorem Tags.laidFrom_ofCells :
    LaidFrom (name :: values) [tags (.ofCells name values)] := by
  apply LaidFrom.setting name values readFrom_ofCells
  rw [uses_eq]
  simp [used, children_eq, fields, ofCells, List.flatMap_map]

theorem TemplateSetting.laidFrom_ofCells :
    LaidFrom (name :: values) [template (.ofCells name values)] := by
  refine LaidFrom.node readFrom_ofCells ?_ (List.cons_ne_nil _ _)
  cases values with
  | nil => exact LaidFrom.plain name
  | cons first rest =>
    have hsub : [first].Sublist (first :: rest) := List.singleton_sublist.2 List.mem_cons_self
    exact (LaidFrom.plain name).append ((LaidFrom.name first).sublist hsub)

theorem LaidFrom.hook {node : Node} (hread : node.ReadFrom (name :: values))
    (hchildren : node.children =
      identifier (.plain name) :: (Call.ofCells? values).toList.map callExpression) :
    LaidFrom (name :: values) [node] := by
  refine LaidFrom.node hread ?_ (List.cons_ne_nil _ _)
  rw [hchildren]
  exact (LaidFrom.plain name).append (Call.laidFrom_ofCells? values)

theorem Hook.laidFrom_setup : LaidFrom (name :: values) [setup (.ofCells name values)] :=
  LaidFrom.hook name values readFrom_setup (by simp [children_eq, fields, ofCells])

theorem Hook.laidFrom_teardown : LaidFrom (name :: values) [teardown (.ofCells name values)] :=
  LaidFrom.hook name values readFrom_teardown (by simp [children_eq, fields, ofCells])

theorem SuiteHook.laidFrom_ofCells :
    LaidFrom (name :: values) [suiteSetting (.ofCells name values)] :=
  LaidFrom.hook name values readFrom_ofCells (by simp [children_eq, fields, ofCells])

end

end SuiteIndex

import SuiteIndex.Index.Symbol
import SuiteIndex.Proofs.Index.Container
import SuiteIndex.Proofs.Node.Walk

/-! # The symbols of one module

Equality of symbols compares paths by their components, so it is weaker than being the
same symbol, but every symbol equals itself. The symbols of a suite are stored under
their own names, and all of them carry the origin they were read with.
-/

namespace SuiteIndex

instance : ReflBEq Path := ⟨by simp [BEq.beq, Path.same]⟩

instance : ReflBEq Origin := ⟨fun {origin} => by
  cases origin with
  | file path => exact (BEq.rfl : (path == path) = true)
  | library name => exact (BEq.rfl : (name == name) = true)⟩

theorem KeywordSymbol.beq_eq (a b : KeywordSymbol) : (a == b) =
    (a.name == b.name && (a.moduleName == b.moduleName && (a.origin == b.origin &&
      (a.location == b.location && (a.arguments == b.arguments &&
        a.documentation == b.documentation))))) := rfl

theorem VariableSymbol.beq_eq (a b : VariableSymbol) : (a == b) =
    (a.name == b.name && (a.kind == b.kind && (a.moduleName == b.moduleName &&
      (a.origin == b.origin && a.location == b.location)))) := rfl

instance : ReflBEq KeywordSymbol := ⟨by simp [KeywordSymbol.beq_eq]⟩

instance : ReflBEq VariableSymbol := ⟨by simp [VariableSymbol.beq_eq]⟩

theorem KeywordSymbol.origin_beq {a b : KeywordSymbol} (h : (a == b) = true) :
    (a.origin == b.origin) = true := by
  simp only [beq_eq, Bool.and_eq_true] at h
  exact h.2.2.1

theorem VariableSymbol.origin_beq {a b : VariableSymbol} (h : (a == b) = true) :
    (a.origin == b.origin) = true := by
  simp only [beq_eq, Bool.and_eq_true] at h
  exact h.2.2.2.1

theorem KeywordSymbol.eq_of_beq_of_origin {a b : KeywordSymbol} (h : (a == b) = true)
    (horigin : a.origin = b.origin) : a = b := by
  obtain ⟨name, moduleName, origin, location, arguments, documentation⟩ := a
  obtain ⟨name', moduleName', origin', location', arguments', documentation'⟩ := b
  simp only [beq_eq, Bool.and_eq_true, beq_iff_eq] at h horigin
  obtain ⟨rfl, rfl, -, rfl, rfl, rfl⟩ := h
  rw [horigin]

namespace Symbols

/-- The symbols are stored under their own names and all come from one origin. -/
structure From (origin : Origin) (symbols : Symbols) : Prop where
  keywords : symbols.keywords.Valid
  vars : symbols.vars.Valid
  keyword_origin : ∀ key, ∀ item ∈ symbols.keywords.tree.get key, item.origin = origin
  var_origin : ∀ key, ∀ item ∈ symbols.vars.tree.get key, item.origin = origin

theorem from_empty (origin : Origin) : empty.From origin where
  keywords := Container.valid_empty
  vars := Container.valid_empty
  keyword_origin key item h := by cases key <;> cases h
  var_origin key item h := by cases key <;> cases h

theorem From.addKeyword {origin : Origin} {symbols : Symbols} (h : symbols.From origin)
    {item : KeywordSymbol} (hitem : item.origin = origin) :
    { symbols with keywords := symbols.keywords.add item }.From origin := by
  refine ⟨h.keywords.add item, h.vars, fun key other hother => ?_, h.var_origin⟩
  rcases h.keywords.mem_get_add hother with hother | ⟨rfl, -⟩
  · exact h.keyword_origin key other hother
  · exact hitem

theorem From.addVariable {origin : Origin} {symbols : Symbols} (h : symbols.From origin)
    {item : VariableSymbol} (hitem : item.origin = origin) :
    { symbols with vars := symbols.vars.add item }.From origin := by
  refine ⟨h.keywords, h.vars.add item, h.keyword_origin, fun key other hother => ?_⟩
  rcases h.vars.mem_get_add hother with hother | ⟨rfl, -⟩
  · exact h.var_origin key other hother
  · exact hitem

theorem From.visit {origin : Origin} {symbols : Symbols} (h : symbols.From origin)
    (moduleName : Text) (node : Node) (parent : Option Node) :
    (symbols.visit moduleName origin node parent).1.From origin := by
  cases node with
  | userKeyword keyword => exact h.addKeyword rfl
  | variableDeclaration declaration =>
    simp only [Symbols.visit]
    split
    · exact h.addVariable rfl
    · exact h
  | _ => exact h

theorem from_ofSuite (moduleName : Text) (origin : Origin) (suite : Suite) :
    (ofSuite moduleName origin suite).From origin :=
  Visitor.run_onEnter_invariant _ (fun _ node parent h => h.visit moduleName node parent) _ _
    (from_empty origin)

theorem foldl_addVariable {α : Type} (symbol : α → VariableSymbol) (items : List α)
    (symbols : Symbols) :
    items.foldl (fun symbols item => { symbols with vars := symbols.vars.add (symbol item) })
        symbols =
      { symbols with vars := (items.map symbol).foldl Container.add symbols.vars } := by
  induction items generalizing symbols with
  | nil => rfl
  | cons item items ih => rw [List.foldl_cons, ih, List.map_cons, List.foldl_cons]

theorem foldl_addKeyword {α : Type} (symbol : α → KeywordSymbol) (items : List α)
    (symbols : Symbols) :
    items.foldl (fun symbols item =>
        { symbols with keywords := symbols.keywords.add (symbol item) }) symbols =
      { symbols with keywords := (items.map symbol).foldl Container.add symbols.keywords } := by
  induction items generalizing symbols with
  | nil => rfl
  | cons item items ih => rw [List.foldl_cons, ih, List.map_cons, List.foldl_cons]

/-- The symbols of a suite are those of its keywords and of the entries of its variables
table. -/
theorem ofSuite_eq (moduleName : Text) (origin : Origin) (suite : Suite) :
    ofSuite moduleName origin suite =
      ⟨(suite.keywords.map (.ofKeyword moduleName origin)).foldl Container.add .empty,
        (suite.variableDeclarations.map (.ofDeclaration moduleName origin)).foldl
          Container.add .empty⟩ := by
  unfold ofSuite
  rw [Visitor.run_onEnter_suite rfl (fun _ _ => rfl)
    (Visitor.walk_onEnter_table Node.children_variablesTable (fun _ _ => rfl) (fun _ _ _ => rfl) _)
    (Visitor.walk_onEnter_table Node.children_keywordsTable (fun _ _ => rfl) (fun _ _ _ => rfl) _)
    (Visitor.walk_onEnter_ignored (fun _ _ => rfl) _)]
  rw [Suite.elim_variables, Suite.elim_keywords, foldl_addVariable, foldl_addKeyword]
  rfl

/-- Keywords come out sorted by name, and those of one name in the order of their table. -/
theorem items_keywords_ofSuite (moduleName : Text) (origin : Origin) (suite : Suite) :
    (ofSuite moduleName origin suite).keywords.items =
      Text.sortOn Container.nameOf (suite.keywords.map (.ofKeyword moduleName origin)) := by
  rw [ofSuite_eq, Container.items_foldl_add]

theorem items_vars_ofSuite (moduleName : Text) (origin : Origin) (suite : Suite) :
    (ofSuite moduleName origin suite).vars.items =
      Text.sortOn Container.nameOf
        (suite.variableDeclarations.map (.ofDeclaration moduleName origin)) := by
  rw [ofSuite_eq, Container.items_foldl_add]

theorem keywords_perm_ofSuite (moduleName : Text) (origin : Origin) (suite : Suite) :
    (ofSuite moduleName origin suite).keywords.items.Perm
      (suite.keywords.map (.ofKeyword moduleName origin)) := by
  rw [items_keywords_ofSuite]
  exact Text.sortOn_perm _ _

theorem vars_perm_ofSuite (moduleName : Text) (origin : Origin) (suite : Suite) :
    (ofSuite moduleName origin suite).vars.items.Perm
      (suite.variableDeclarations.map (.ofDeclaration moduleName origin)) := by
  rw [items_vars_ofSuite]
  exact Text.sortOn_perm _ _

end Symbols

end SuiteIndex

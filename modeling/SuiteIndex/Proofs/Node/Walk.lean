import Mathlib.Data.List.Basic
import SuiteIndex.Node.Walk

/-! # What a walk keeps

Whatever every single call of a visitor keeps true of its state, the whole walk keeps. A
visitor that enters the tables of a suite and nothing in them folds over their entries.
-/

namespace SuiteIndex

theorem Node.children_testSuite (suite : Suite) : (testSuite suite).children =
    suite.settings?.toList.map settingsTable ++ (suite.variables?.toList.map variablesTable ++
      (suite.keywords?.toList.map keywordsTable ++ suite.testCases?.toList.map testCasesTable)) := by
  simp [children_eq, fields]

theorem Node.children_variablesTable (table : VariablesTable) :
    (variablesTable table).children = table.declarations.map variableDeclaration := by
  simp [children_eq, fields]

theorem Node.children_keywordsTable (table : KeywordsTable) :
    (keywordsTable table).children = table.keywords.map userKeyword := by
  simp [children_eq, fields]

theorem Node.children_testCasesTable (table : TestCasesTable) :
    (testCasesTable table).children = table.testCases.map testCase := by
  simp [children_eq, fields]

namespace Suite

theorem elim_variables (suite : Suite) :
    suite.variables?.elim [] (·.declarations) = suite.variableDeclarations := by
  unfold variableDeclarations
  cases suite.variables? <;> rfl

theorem elim_keywords (suite : Suite) :
    suite.keywords?.elim [] (·.keywords) = suite.keywords := by
  unfold keywords
  cases suite.keywords? <;> rfl

theorem elim_testCases (suite : Suite) :
    suite.testCases?.elim [] (·.testCases) = suite.testCases := by
  unfold testCases
  cases suite.testCases? <;> rfl

end Suite

namespace Visitor

variable {σ : Type} {P : σ → Prop}

theorem walk_invariant (visitor : Visitor σ)
    (henter : ∀ s node parent, P s → P (visitor.enter s node parent).1)
    (hleave : ∀ s node parent, P s → P (visitor.leave s node parent).1)
    (parent : Option Node) (forest : List Node) (s : σ) (hs : P s) :
    P (visitor.walk parent forest s).1 := by
  have entered {s t node parent verdict} (h : visitor.enter s node parent = (t, verdict))
      (hs : P s) : P t := by
    have ht := henter s node parent hs
    rwa [h] at ht
  have left {s t node parent verdict} (h : visitor.leave s node parent = (t, verdict))
      (hs : P s) : P t := by
    have ht := hleave s node parent hs
    rwa [h] at ht
  fun_induction walk visitor parent forest s with
  | case1 => exact hs
  | case2 parent node rest s s₁ h => exact entered h hs
  | case3 parent node rest s s₁ h s₂ h₂ => exact left h₂ (entered h hs)
  | case4 parent node rest s s₁ h s₂ verdict _ h₂ ih => exact ih (left h₂ (entered h hs))
  | case5 parent node rest s s₁ h s₂ hbelow ih =>
    have hs₂ := ih (entered h hs)
    rwa [hbelow] at hs₂
  | case6 parent node rest s s₁ h s₂ hbelow s₃ h₃ ih =>
    have hs₂ := ih (entered h hs)
    rw [hbelow] at hs₂
    exact left h₃ hs₂
  | case7 parent node rest s s₁ h s₂ hbelow s₃ verdict _ h₃ ihbelow ih =>
    have hs₂ := ihbelow (entered h hs)
    rw [hbelow] at hs₂
    exact ih (left h₃ hs₂)

theorem run_onEnter_invariant (enter : σ → Node → Option Node → σ × Verdict)
    (henter : ∀ s node parent, P s → P (enter s node parent).1) (root : Node) (s : σ) (hs : P s) :
    P ((onEnter enter).run root s).1 :=
  walk_invariant (onEnter enter) henter (fun _ _ _ h => h) none [root] s hs

theorem walk_append {visitor : Visitor σ} {parent : Option Node} {front : List Node} {s t : σ}
    (h : visitor.walk parent front s = (t, false)) (back : List Node) :
    visitor.walk parent (front ++ back) s = visitor.walk parent back t := by
  fun_induction walk visitor parent front s with
  | case1 =>
    cases h
    rfl
  | case2 | case3 | case5 | case6 => cases h
  | case4 parent node rest s s₁ hnode s₂ verdict hverdict hleave ih =>
    rw [List.cons_append, walk]
    simp only [hnode, hleave]
    cases verdict with
    | halt => exact absurd rfl hverdict
    | skip | proceed => exact ih h
  | case7 parent node rest s s₁ hnode s₂ hbelow s₃ verdict hverdict hleave ihbelow ih =>
    rw [List.cons_append, walk]
    simp only [hnode, hbelow, hleave]
    cases verdict with
    | halt => exact absurd rfl hverdict
    | skip | proceed => exact ih h

variable {enter : σ → Node → Option Node → σ × Verdict}

theorem walk_onEnter_closed {α : Type} {node : α → Node} {act : σ → α → σ} {parent : Option Node}
    (h : ∀ s item, enter s (node item) parent = (act s item, .skip)) (items : List α) (s : σ) :
    (onEnter enter).walk parent (items.map node) s = (items.foldl act s, false) := by
  induction items generalizing s with
  | nil => simp [walk]
  | cons item items ih =>
    rw [List.map_cons, walk]
    simp only [onEnter, h]
    exact ih _

theorem walk_onEnter_ignored {α : Type} {node : α → Node} {parent : Option Node}
    (h : ∀ s item, enter s (node item) parent = (s, .skip)) (items : List α) (s : σ) :
    (onEnter enter).walk parent (items.map node) s = (s, false) := by
  have hclosed := walk_onEnter_closed h items s
  rwa [List.foldl_fixed] at hclosed

theorem walk_onEnter_opened {node : Node} {parent : Option Node} {s t : σ}
    (h : enter s node parent = (s, .proceed))
    (hbelow : (onEnter enter).walk (some node) node.children s = (t, false)) :
    (onEnter enter).walk parent [node] s = (t, false) := by
  rw [walk]
  simp only [onEnter, h] at hbelow ⊢
  rw [hbelow]
  simp [walk]

theorem walk_onEnter_table {α β : Type} {node : α → Node} {entry : β → Node}
    {entries : α → List β} {act : σ → β → σ} {parent : Option Node}
    (hchildren : ∀ table, (node table).children = (entries table).map entry)
    (hopened : ∀ s table, enter s (node table) parent = (s, .proceed))
    (hclosed : ∀ s table item, enter s (entry item) (some (node table)) = (act s item, .skip))
    (table? : Option α) (s : σ) :
    (onEnter enter).walk parent (table?.toList.map node) s =
      ((table?.elim [] entries).foldl act s, false) := by
  cases table? with
  | none => simp [walk]
  | some table =>
    apply walk_onEnter_opened (hopened s table)
    rw [hchildren]
    exact walk_onEnter_closed (fun s item => hclosed s table item) (entries table) s

theorem run_onEnter_suite {suite : Suite} {s : σ} {inVariables inKeywords inTestCases : σ → σ}
    (hroot : enter s (.testSuite suite) none = (s, .proceed))
    (hsettings : ∀ s table, enter s (.settingsTable table) (some (.testSuite suite)) = (s, .skip))
    (hvariables : ∀ s, (onEnter enter).walk (some (.testSuite suite))
      (suite.variables?.toList.map .variablesTable) s = (inVariables s, false))
    (hkeywords : ∀ s, (onEnter enter).walk (some (.testSuite suite))
      (suite.keywords?.toList.map .keywordsTable) s = (inKeywords s, false))
    (htestCases : ∀ s, (onEnter enter).walk (some (.testSuite suite))
      (suite.testCases?.toList.map .testCasesTable) s = (inTestCases s, false)) :
    (onEnter enter).run (.testSuite suite) s =
      (inTestCases (inKeywords (inVariables s)), false) := by
  apply walk_onEnter_opened hroot
  rw [Node.children_testSuite, walk_append (walk_onEnter_ignored hsettings _ s),
    walk_append (hvariables s), walk_append (hkeywords _), htestCases]

end Visitor

end SuiteIndex

import SuiteIndex.Proofs.Suite.Body

/-! # Settings offered one after another

A setting is offered to a function with the cells of its row. The offer is refused if there are
no cells, and otherwise if functions of this kind do not accept the setting; the function then
stays as it was. Every other offer is taken and replaces what was taken for the same setting
before. So a new function that has gone through any offers holds for each setting what its last
taken offer says, while its name, its steps and its location are still those it began with.
-/

namespace SuiteIndex

/-- A setting that is to be given to a function, with the cells of its row. -/
structure Offer where
  setting : Setting
  cells : List Cell

namespace Offer

/-- Why an offer is refused. Only an offer with cells knows its line. -/
inductive Refused (accepted : List Setting) (owner : Text) : Offer → SourceError → Prop
  | empty (setting : Setting) :
    Refused accepted owner ⟨setting, []⟩ (.emptySetting setting.label owner)
  | foreign {setting : Setting} (h : setting ∉ accepted) (first : Cell) (rest : List Cell) :
    Refused accepted owner ⟨setting, first :: rest⟩
      (.unexpectedSetting setting.label owner first.span.start.line)

/-- The first cell of an offer and those behind it, unless the offer is refused. -/
def taken? (accepted : List Setting) (offer : Offer) : Option (Cell × List Cell) :=
  match offer.cells with
  | first :: rest => if offer.setting ∈ accepted then some (first, rest) else none
  | [] => none

/-- A setting as the last of its offers that is taken has it. -/
def read? {α : Type} (ofCells : Cell → List Cell → α) (accepted : List Setting)
    (setting : Setting) (offers : List Offer) : Option α :=
  ((offers.filter (·.setting = setting)).filterMap (taken? accepted)).getLast?.map
    fun (first, rest) => ofCells first rest

variable {accepted : List Setting} {owner : Text} {offer : Offer} {e : SourceError}

theorem Refused.taken?_eq_none (h : offer.Refused accepted owner e) :
    offer.taken? accepted = none := by
  cases h with
  | empty => rfl
  | foreign h => exact if_neg h

variable {α : Type} (ofCells : Cell → List Cell → α) (setting : Setting) (offers : List Offer)

theorem read?_concat_refused (h : offer.taken? accepted = none) :
    read? ofCells accepted setting (offers ++ [offer]) = read? ofCells accepted setting offers := by
  by_cases hsetting : offer.setting = setting <;> simp [read?, hsetting, h]

theorem read?_concat_taken {other : Setting} (h : other ∈ accepted) (first : Cell)
    (rest : List Cell) : read? ofCells accepted setting (offers ++ [⟨other, first :: rest⟩]) =
      if other = setting then some (ofCells first rest)
      else read? ofCells accepted setting offers := by
  have htaken : taken? accepted ⟨other, first :: rest⟩ = some (first, rest) := if_pos h
  by_cases hsetting : other = setting
  · simp [read?, hsetting, hsetting ▸ htaken]
  · simp [read?, hsetting]

end Offer

/-- The keyword of this name after these offers. -/
def UserKeyword.offered (id : Identifier) (offers : List Offer) : UserKeyword :=
  { UserKeyword.named id with
    documentation := Offer.read? .ofCells Setting.ofKeyword .documentation offers
    arguments := Offer.read? .ofCells Setting.ofKeyword .arguments offers
    returned := Offer.read? .ofCells Setting.ofKeyword .returned offers
    timeout := Offer.read? .ofCells Setting.ofKeyword .timeout offers
    teardown := Offer.read? .ofCells Setting.ofKeyword .teardown offers
    tags := Offer.read? .ofCells Setting.ofKeyword .tags offers }

/-- The test case of this name after these offers. -/
def TestCase.offered (id : Identifier) (offers : List Offer) : TestCase :=
  { TestCase.named id with
    documentation := Offer.read? .ofCells Setting.ofTestCase .documentation offers
    setup := Offer.read? .ofCells Setting.ofTestCase .setup offers
    teardown := Offer.read? .ofCells Setting.ofTestCase .teardown offers
    template := Offer.read? .ofCells Setting.ofTestCase .template offers
    timeout := Offer.read? .ofCells Setting.ofTestCase .timeout offers
    tags := Offer.read? .ofCells Setting.ofTestCase .tags offers }

namespace Function

/-- The function after an offer, taken or not. -/
def give {F : Type} [Function F] (function : F) (offer : Offer) : F :=
  (apply function offer.setting offer.cells).1

/-- Functions that refuse offers under the name of their kind, and hold what the last taken
offers say. -/
class Heeds (F : Type) [Function F] where
  owner : Text
  offered : Identifier → List Offer → F
  offered_nil (id : Identifier) : offered id [] = named id
  apply_nil (function : F) (setting : Setting) :
    apply function setting [] = (function, some (.emptySetting setting.label owner))
  apply_foreign (function : F) {setting : Setting} (h : setting ∉ accepted F) (first : Cell)
    (rest : List Cell) : apply function setting (first :: rest) =
      (function, some (.unexpectedSetting setting.label owner first.span.start.line))
  apply_offered (id : Identifier) (offers : List Offer) {setting : Setting}
    (h : setting ∈ accepted F) (first : Cell) (rest : List Cell) :
    apply (offered id offers) setting (first :: rest) =
      (offered id (offers ++ [⟨setting, first :: rest⟩]), none)
  offered_refused (id : Identifier) (offers : List Offer) {offer : Offer}
    (h : offer.taken? (accepted F) = none) : offered id (offers ++ [offer]) = offered id offers

instance : Heeds UserKeyword where
  owner := "keyword".toList
  offered := UserKeyword.offered
  offered_nil _ := rfl
  apply_nil _ _ := rfl
  apply_foreign keyword setting (h : setting ∉ Setting.ofKeyword) first rest := by
    cases setting with
    | setup | template => rfl
    | documentation | arguments | returned | timeout | teardown | tags =>
      simp [Setting.ofKeyword] at h
  apply_offered id offers setting (h : setting ∈ Setting.ofKeyword) first rest := by
    change UserKeyword.apply _ _ _ = _
    cases setting with
    | setup | template => simp [Setting.ofKeyword] at h
    | documentation | arguments | returned | timeout | teardown | tags =>
      simp [UserKeyword.apply, UserKeyword.offered, Offer.read?_concat_taken _ _ _ h]
  offered_refused id offers offer (h : offer.taken? Setting.ofKeyword = none) := by
    simp [UserKeyword.offered, Offer.read?_concat_refused _ _ _ h]

instance : Heeds TestCase where
  owner := "test case".toList
  offered := TestCase.offered
  offered_nil _ := rfl
  apply_nil _ _ := rfl
  apply_foreign testCase setting (h : setting ∉ Setting.ofTestCase) first rest := by
    cases setting with
    | arguments | returned => rfl
    | documentation | setup | teardown | template | timeout | tags =>
      simp [Setting.ofTestCase] at h
  apply_offered id offers setting (h : setting ∈ Setting.ofTestCase) first rest := by
    change TestCase.apply _ _ _ = _
    cases setting with
    | arguments | returned => simp [Setting.ofTestCase] at h
    | documentation | setup | teardown | template | timeout | tags =>
      simp [TestCase.apply, TestCase.offered, Offer.read?_concat_taken _ _ _ h]
  offered_refused id offers offer (h : offer.taken? Setting.ofTestCase = none) := by
    simp [TestCase.offered, Offer.read?_concat_refused _ _ _ h]

open Heeds

variable {F : Type} [Function F] [Heeds F]

theorem apply_of_refused (function : F) {offer : Offer} {e : SourceError}
    (h : offer.Refused (accepted F) (owner F) e) :
    apply function offer.setting offer.cells = (function, some e) := by
  cases h with
  | empty setting => exact apply_nil function setting
  | foreign h first rest => exact apply_foreign function h first rest

/-- An application fails just for the offers that are refused, and for their reason. -/
theorem snd_apply_eq_some_iff [Lawful F] (function : F) (offer : Offer) (e : SourceError) :
    (apply function offer.setting offer.cells).2 = some e ↔
      offer.Refused (accepted F) (owner F) e := by
  constructor
  · intro h
    obtain ⟨setting, cells⟩ := offer
    cases cells with
    | nil =>
      rw [apply_nil] at h
      cases h
      exact .empty setting
    | cons first rest =>
      by_cases haccepted : setting ∈ accepted F
      · obtain ⟨changed, hchanged, -⟩ := Lawful.apply_accepted function haccepted first rest
        rw [hchanged] at h
        cases h
      · rw [apply_foreign function haccepted] at h
        cases h
        exact .foreign haccepted first rest
  · intro h
    rw [apply_of_refused function h]

theorem fst_apply_of_snd_eq_some [Lawful F] (function : F) {offer : Offer} {e : SourceError}
    (h : (apply function offer.setting offer.cells).2 = some e) :
    (apply function offer.setting offer.cells).1 = function := by
  rw [apply_of_refused function ((snd_apply_eq_some_iff function offer e).1 h)]

theorem give_offered (id : Identifier) (offers : List Offer) (offer : Offer) :
    give (offered id offers : F) offer = offered id (offers ++ [offer]) := by
  by_cases hrefused : ∃ e, offer.Refused (accepted F) (owner F) e
  · obtain ⟨e, hrefused⟩ := hrefused
    rw [give, apply_of_refused _ hrefused, offered_refused _ _ hrefused.taken?_eq_none]
  · obtain ⟨setting, cells⟩ := offer
    cases cells with
    | nil => exact absurd ⟨_, .empty setting⟩ hrefused
    | cons first rest =>
      have h : setting ∈ accepted F := not_not.1 fun h => hrefused ⟨_, .foreign h first rest⟩
      rw [give, apply_offered id offers h]

theorem foldl_give_named (id : Identifier) (offers : List Offer) :
    offers.foldl give (named id : F) = offered id offers := by
  induction offers using List.reverseRecOn with
  | nil => exact (offered_nil id).symm
  | append_singleton offers offer ih => rw [List.foldl_concat, ih, give_offered]

/-- An offer to a keyword or a test case fails just if it has no cells, or else a setting that
is not accepted, and then leaves the function as it was; after any offers to a new function
each setting is what the last taken offer of it says. -/
theorem last_taken_offer_stays (id : Identifier) (offers : List Offer) :
    ((∀ (keyword : UserKeyword) (offer : Offer) (e : SourceError),
        ((keyword.apply offer.setting offer.cells).2 = some e ↔
          offer.Refused Setting.ofKeyword "keyword".toList e) ∧
        ((keyword.apply offer.setting offer.cells).2 = some e →
          (keyword.apply offer.setting offer.cells).1 = keyword)) ∧
      offers.foldl give (UserKeyword.named id) = UserKeyword.offered id offers) ∧
    (∀ (testCase : TestCase) (offer : Offer) (e : SourceError),
        ((testCase.apply offer.setting offer.cells).2 = some e ↔
          offer.Refused Setting.ofTestCase "test case".toList e) ∧
        ((testCase.apply offer.setting offer.cells).2 = some e →
          (testCase.apply offer.setting offer.cells).1 = testCase)) ∧
      offers.foldl give (TestCase.named id) = TestCase.offered id offers :=
  ⟨⟨fun keyword offer e =>
      ⟨snd_apply_eq_some_iff keyword offer e, fst_apply_of_snd_eq_some keyword⟩,
    foldl_give_named id offers⟩,
    fun testCase offer e =>
      ⟨snd_apply_eq_some_iff testCase offer e, fst_apply_of_snd_eq_some testCase⟩,
    foldl_give_named id offers⟩

end Function

end SuiteIndex

import Mathlib.Data.List.Induction
import SuiteIndex.Proofs.Index.Container
import SuiteIndex.Proofs.Text.Split
import SuiteIndex.Workspace.Lookup

/-! # Groups of keywords

The keywords that match what is typed come in the order of their names and are cut into
groups, one for each name. A group holds all matching keywords of its name in their order, so
without a dot in what is typed it holds all keywords of that name in the workspace.
-/

namespace SuiteIndex

open Container (nameOf)

namespace Workspace

/-- The keywords that match what is typed, in the order of their names. -/
def matching (workspace : Workspace) (typed : Text) : List KeywordSymbol :=
  let (filter?, start) := match Text.splitLast '.' typed with
    | some (moduleStart, start) => (some (Text.lower moduleStart), start)
    | none => (none, typed)
  (workspace.symbols.keywords.startingWith start).filter fun keyword =>
    match filter? with
    | some moduleStart => Text.startsWith moduleStart (Text.lower keyword.moduleName)
    | none => true

/-- Whether a group is shown with the names of its modules. -/
def showsModule (typed : Text) (members : List KeywordSymbol) : Bool :=
  1 < members.length ||
    members.any fun keyword => agree (Text.lower typed) (Text.lower keyword.moduleName)

/-- The group that is shown for the keywords of one name. -/
def groupOf (typed : Text) (entry : Text × List KeywordSymbol) : Option KeywordGroup :=
  entry.2.head?.map fun first => ⟨first.name, entry.2, showsModule typed entry.2⟩

theorem findKeywords_eq (workspace : Workspace) (typed : Text) : workspace.findKeywords typed =
    ((workspace.matching typed).foldl addToGroups []).filterMap (groupOf typed) := rfl

theorem groupOf_eq_some {typed : Text} {entry : Text × List KeywordSymbol} {group : KeywordGroup}
    (h : groupOf typed entry = some group) :
    group.keywords = entry.2 ∧ group.keywords.head?.map KeywordSymbol.name = some group.name ∧
      group.showModule = showsModule typed group.keywords := by
  obtain ⟨first, hfirst, rfl⟩ := Option.map_eq_some_iff.1 h
  exact ⟨rfl, by rw [hfirst]; rfl, rfl⟩

theorem addToGroups_cons (entry : Text × List KeywordSymbol)
    (rest : List (Text × List KeywordSymbol)) (keyword : KeywordSymbol) :
    addToGroups (entry :: rest) keyword =
      if entry.1 = nameOf keyword then (entry.1, entry.2 ++ [keyword]) :: rest
      else entry :: addToGroups rest keyword := rfl

theorem addToGroups_append {front : List (Text × List KeywordSymbol)} {keyword : KeywordSymbol}
    (h : ∀ entry ∈ front, entry.1 ≠ nameOf keyword) (back : List (Text × List KeywordSymbol)) :
    addToGroups (front ++ back) keyword = front ++ addToGroups back keyword := by
  induction front with
  | nil => rfl
  | cons entry front ih =>
    rw [List.forall_mem_cons] at h
    rw [List.cons_append, addToGroups_cons, if_neg h.1, ih h.2, List.cons_append]

/-- The keywords of one name, of which there are some. -/
def OfOneName (entry : Text × List KeywordSymbol) : Prop :=
  entry.2 ≠ [] ∧ ∀ keyword ∈ entry.2, nameOf keyword = entry.1

/-- The groups are the keywords cut into stretches of one name, and the names increase from
group to group. -/
structure Grouped (found : List KeywordSymbol) (groups : List (Text × List KeywordSymbol)) :
    Prop where
  increasing : groups.Pairwise fun a b => a.1 < b.1
  ofOneName : ∀ entry ∈ groups, OfOneName entry
  flatMap_eq : groups.flatMap Prod.snd = found

namespace Grouped

variable {found : List KeywordSymbol} {groups : List (Text × List KeywordSymbol)}

/-- A keyword whose name comes after all others makes a group behind the others. -/
theorem concat (h : Grouped found groups) {keyword : KeywordSymbol}
    (hnew : ∀ entry ∈ groups, entry.1 < nameOf keyword) :
    Grouped (found ++ [keyword]) (groups ++ [(nameOf keyword, [keyword])]) where
  increasing := by
    refine List.pairwise_append.2 ⟨h.increasing, List.pairwise_singleton _ _, ?_⟩
    intro entry hentry
    exact List.forall_mem_singleton.2 (hnew entry hentry)
  ofOneName := List.forall_mem_append.2 ⟨h.ofOneName, by simp [OfOneName]⟩
  flatMap_eq := by simp [h.flatMap_eq]

theorem extend {front : List (Text × List KeywordSymbol)} {last : Text × List KeywordSymbol}
    (h : Grouped found (front ++ [last])) {keyword : KeywordSymbol}
    (hname : nameOf keyword = last.1) :
    Grouped (found ++ [keyword]) (front ++ [(last.1, last.2 ++ [keyword])]) where
  increasing := by
    obtain ⟨hfront, -, hbelow⟩ := List.pairwise_append.1 h.increasing
    exact List.pairwise_append.2 ⟨hfront, List.pairwise_singleton _ _, by simpa using hbelow⟩
  ofOneName := by
    obtain ⟨hfront, hlast⟩ := List.forall_mem_append.1 h.ofOneName
    obtain ⟨-, hnames⟩ := hlast last List.mem_cons_self
    refine List.forall_mem_append.2 ⟨hfront, List.forall_mem_singleton.2 ⟨by simp, ?_⟩⟩
    exact List.forall_mem_append.2 ⟨hnames, List.forall_mem_singleton.2 hname⟩
  flatMap_eq := by
    rw [← h.flatMap_eq]
    simp

/-- A keyword that comes last in the order goes into the last group or behind it. -/
theorem add (h : Grouped found groups) {keyword : KeywordSymbol}
    (hlast : ∀ other ∈ found, nameOf other ≤ nameOf keyword) :
    Grouped (found ++ [keyword]) (addToGroups groups keyword) := by
  have hle : ∀ entry ∈ groups, entry.1 ≤ nameOf keyword := by
    intro entry hentry
    obtain ⟨hne, hnames⟩ := h.ofOneName entry hentry
    obtain ⟨other, hother⟩ := List.exists_mem_of_ne_nil _ hne
    rw [← hnames other hother]
    exact hlast other (h.flatMap_eq ▸ List.mem_flatMap.2 ⟨entry, hentry, hother⟩)
  obtain rfl | ⟨front, last, rfl⟩ := List.eq_nil_or_concat' groups
  · exact h.concat (by simp)
  have hlastLe : last.1 ≤ nameOf keyword := hle last (by simp)
  have hfront : ∀ entry ∈ front, entry.1 < nameOf keyword := by
    intro entry hentry
    have hbelow := (List.pairwise_append.1 h.increasing).2.2 entry hentry last List.mem_cons_self
    exact hbelow.trans_le hlastLe
  rw [addToGroups_append fun entry hentry => (hfront entry hentry).ne, addToGroups_cons]
  by_cases hname : last.1 = nameOf keyword
  · rw [if_pos hname]
    exact h.extend hname.symm
  · rw [if_neg hname]
    show Grouped _ (front ++ ([last] ++ [(nameOf keyword, [keyword])]))
    rw [← List.append_assoc]
    refine h.concat (List.forall_mem_append.2 ⟨hfront, List.forall_mem_singleton.2 ?_⟩)
    exact lt_of_le_of_ne hlastLe hname

theorem foldl {found : List KeywordSymbol} (h : found.Pairwise (nameOf · ≤ nameOf ·)) :
    Grouped found (found.foldl addToGroups []) := by
  induction found using List.reverseRecOn with
  | nil => exact ⟨List.Pairwise.nil, by simp, rfl⟩
  | append_singleton found keyword ih =>
    obtain ⟨hfound, -, hlast⟩ := List.pairwise_append.1 h
    rw [List.foldl_append]
    exact (ih hfound).add fun other hother => hlast other hother keyword List.mem_cons_self

theorem members (h : Grouped found groups) {entry : Text × List KeywordSymbol}
    (hentry : entry ∈ groups) : entry.2 = found.filter (nameOf · = entry.1) := by
  have hown : entry.2.filter (nameOf · = entry.1) = entry.2 :=
    List.filter_eq_self.2 fun keyword hkeyword =>
      decide_eq_true ((h.ofOneName entry hentry).2 keyword hkeyword)
  have hnone : ∀ other ∈ groups, other.1 ≠ entry.1 →
      other.2.filter (nameOf · = entry.1) = [] := by
    intro other hother hne
    refine List.filter_eq_nil_iff.2 fun keyword hkeyword => ?_
    rw [(h.ofOneName other hother).2 keyword hkeyword, decide_eq_true_eq]
    exact hne
  obtain ⟨front, back, rfl⟩ := List.append_of_mem hentry
  obtain ⟨-, hback, hfront⟩ := List.pairwise_append.1 h.increasing
  have hfrontNil : (front.flatMap fun other => other.2.filter (nameOf · = entry.1)) = [] :=
    List.flatMap_eq_nil_iff.2 fun other hother => hnone other (by simp [hother])
      (hfront other hother entry List.mem_cons_self).ne
  have hbackNil : (back.flatMap fun other => other.2.filter (nameOf · = entry.1)) = [] :=
    List.flatMap_eq_nil_iff.2 fun other hother => hnone other (by simp [hother])
      ((List.pairwise_cons.1 hback).1 other hother).ne'
  rw [← h.flatMap_eq, List.filter_flatMap, List.flatMap_append, List.flatMap_cons, hfrontNil,
    hbackNil, hown, List.nil_append, List.append_nil]

end Grouped

/-- What is typed, cut around its last dot: perhaps the start of the name of a module, and the
start of the name of a keyword. -/
structure Query where
  moduleStart? : Option Text
  start : Text
  not_mem : '.' ∉ start

namespace Query

def typed (query : Query) : Text :=
  match query.moduleStart? with
  | some moduleStart => moduleStart ++ '.' :: query.start
  | none => query.start

theorem exists_typed (t : Text) : ∃ query : Query, query.typed = t := by
  by_cases hdot : '.' ∈ t
  · obtain ⟨front, behind, rfl, hbehind⟩ := Text.exists_last_mark hdot
    exact ⟨⟨some front, behind, hbehind⟩, rfl⟩
  · exact ⟨⟨none, t, hdot⟩, rfl⟩

theorem splitLast_typed (query : Query) : Text.splitLast '.' query.typed =
    query.moduleStart?.map fun moduleStart => (moduleStart, query.start) := by
  obtain ⟨moduleStart?, start, hstart⟩ := query
  cases moduleStart? with
  | none => exact Text.splitLast_eq_none hstart
  | some moduleStart => exact Text.splitLast_append hstart moduleStart

/-- The names of the keyword and of its module start like this, whatever the case. -/
def Matches (query : Query) (keyword : KeywordSymbol) : Prop :=
  Text.lower query.start <+: Text.lower keyword.name ∧
    ∀ moduleStart ∈ query.moduleStart?, Text.lower moduleStart <+: Text.lower keyword.moduleName

instance (query : Query) : DecidablePred query.Matches :=
  fun _ => inferInstanceAs (Decidable (_ ∧ _))

end Query

section

variable {workspace : Workspace} {typed : Text} {group : KeywordGroup} {keyword : KeywordSymbol}

theorem matching_typed (hvalid : workspace.symbols.keywords.Valid) (query : Query) :
    workspace.matching query.typed =
      workspace.symbols.keywords.items.filter fun keyword => decide (query.Matches keyword) := by
  rw [matching, query.splitLast_typed]
  obtain ⟨moduleStart?, start, hstart⟩ := query
  cases moduleStart? with
  | none =>
    simp only [Option.map_none, Query.typed, hvalid.startingWith_eq, List.filter_true]
    refine List.filter_congr fun keyword _ => ?_
    rw [Bool.eq_iff_iff, decide_eq_true_eq, List.isPrefixOf_iff_prefix]
    simp [Query.Matches, nameOf, Container.normalize, Keyed.key]
  | some moduleStart =>
    simp only [Option.map_some, hvalid.startingWith_eq, List.filter_filter]
    refine List.filter_congr fun keyword _ => ?_
    rw [Bool.eq_iff_iff, decide_eq_true_eq, Bool.and_eq_true, Text.startsWith,
      List.isPrefixOf_iff_prefix, List.isPrefixOf_iff_prefix]
    simp [Query.Matches, nameOf, Container.normalize, Keyed.key, and_comm]

theorem pairwise_matching (hvalid : workspace.symbols.keywords.Valid) (typed : Text) :
    (workspace.matching typed).Pairwise (nameOf · ≤ nameOf ·) := by
  obtain ⟨query, rfl⟩ := Query.exists_typed typed
  rw [matching_typed hvalid]
  exact hvalid.pairwise_items.filter _

theorem grouped_matching (hvalid : workspace.symbols.keywords.Valid) (typed : Text) :
    Grouped (workspace.matching typed) ((workspace.matching typed).foldl addToGroups []) :=
  Grouped.foldl (pairwise_matching hvalid typed)

theorem exists_entry_of_mem_findKeywords (hgroup : group ∈ workspace.findKeywords typed) :
    ∃ entry ∈ (workspace.matching typed).foldl addToGroups [], groupOf typed entry = some group :=
  List.mem_filterMap.1 hgroup

theorem head?_of_mem_findKeywords (hgroup : group ∈ workspace.findKeywords typed) :
    group.keywords.head?.map KeywordSymbol.name = some group.name := by
  obtain ⟨entry, -, hentry⟩ := exists_entry_of_mem_findKeywords hgroup
  exact (groupOf_eq_some hentry).2.1

theorem showModule_of_mem_findKeywords (hgroup : group ∈ workspace.findKeywords typed) :
    group.showModule = showsModule typed group.keywords := by
  obtain ⟨entry, -, hentry⟩ := exists_entry_of_mem_findKeywords hgroup
  exact (groupOf_eq_some hentry).2.2

theorem flatMap_findKeywords (hvalid : workspace.symbols.keywords.Valid) (typed : Text) :
    (workspace.findKeywords typed).flatMap KeywordGroup.keywords = workspace.matching typed := by
  have hgroups := (grouped_matching hvalid typed).flatMap_eq
  rw [findKeywords_eq]
  generalize (workspace.matching typed).foldl addToGroups [] = groups at hgroups ⊢
  rw [← hgroups]
  clear hgroups
  induction groups with
  | nil => rfl
  | cons entry groups ih =>
    obtain ⟨name, members⟩ := entry
    cases members with
    | nil => exact ih
    | cons first rest => exact congrArg (first :: rest ++ ·) ih

theorem OfOneName.lower_name {entry : Text × List KeywordSymbol} (h : OfOneName entry)
    (hgroup : groupOf typed entry = some group) : Text.lower group.name = entry.1 := by
  obtain ⟨hkeywords, hhead, -⟩ := groupOf_eq_some hgroup
  obtain ⟨first, hfirst, hname⟩ := Option.map_eq_some_iff.1 hhead
  rw [← hname]
  exact h.2 first (hkeywords ▸ List.mem_of_mem_head? hfirst)

theorem lower_name_of_mem_findKeywords (hvalid : workspace.symbols.keywords.Valid)
    (hgroup : group ∈ workspace.findKeywords typed) (hkeyword : keyword ∈ group.keywords) :
    Text.lower keyword.name = Text.lower group.name := by
  obtain ⟨entry, hentry, hshown⟩ := exists_entry_of_mem_findKeywords hgroup
  have hname := (grouped_matching hvalid typed).ofOneName entry hentry
  rw [hname.lower_name hshown]
  exact hname.2 keyword ((groupOf_eq_some hshown).1 ▸ hkeyword)

theorem pairwise_findKeywords (hvalid : workspace.symbols.keywords.Valid) (typed : Text) :
    (workspace.findKeywords typed).Pairwise fun a b => Text.lower a.name < Text.lower b.name := by
  have hgrouped := grouped_matching hvalid typed
  rw [findKeywords_eq, List.pairwise_filterMap]
  refine hgrouped.increasing.imp_of_mem fun {entry next} hentry hnext hlt a ha b hb => ?_
  rwa [(hgrouped.ofOneName entry hentry).lower_name ha,
    (hgrouped.ofOneName next hnext).lower_name hb]

theorem keywords_of_mem_findKeywords (hvalid : workspace.symbols.keywords.Valid)
    (hgroup : group ∈ workspace.findKeywords typed) (hkeyword : keyword ∈ group.keywords) :
    group.keywords = (workspace.matching typed).filter (nameOf · = nameOf keyword) := by
  obtain ⟨entry, hentry, hshown⟩ := exists_entry_of_mem_findKeywords hgroup
  have hgrouped := grouped_matching hvalid typed
  rw [(groupOf_eq_some hshown).1] at hkeyword ⊢
  rw [(hgrouped.ofOneName entry hentry).2 keyword hkeyword]
  exact hgrouped.members hentry

theorem mem_items_of_mem_findKeywords (hvalid : workspace.symbols.keywords.Valid)
    (hgroup : group ∈ workspace.findKeywords typed) (hkeyword : keyword ∈ group.keywords) :
    keyword ∈ workspace.symbols.keywords.items := by
  obtain ⟨query, rfl⟩ := Query.exists_typed typed
  have hmatching := List.mem_flatMap.2 ⟨group, hgroup, hkeyword⟩
  rw [flatMap_findKeywords hvalid, matching_typed hvalid] at hmatching
  exact List.mem_of_mem_filter hmatching

theorem keywords_eq_exact_of_no_dot (hvalid : workspace.symbols.keywords.Valid)
    (hgroup : group ∈ workspace.findKeywords typed) (hkeyword : keyword ∈ group.keywords)
    (hdot : '.' ∉ typed) :
    group.keywords = workspace.symbols.keywords.exact keyword.name := by
  have hmatching : workspace.matching typed = _ := matching_typed hvalid ⟨none, typed, hdot⟩
  have hmembers := keywords_of_mem_findKeywords hvalid hgroup hkeyword
  rw [hmatching] at hmembers
  have hexact : workspace.symbols.keywords.exact keyword.name =
      workspace.symbols.keywords.items.filter (nameOf · = nameOf keyword) := hvalid.get_eq _
  have hmatch := List.mem_of_mem_filter (hmembers ▸ hkeyword)
  obtain ⟨hstart, -⟩ : Query.Matches ⟨none, typed, hdot⟩ keyword :=
    of_decide_eq_true (List.mem_filter.1 hmatch).2
  rw [hmembers, hexact, List.filter_filter]
  refine List.filter_congr fun other _ => ?_
  by_cases hname : nameOf other = nameOf keyword
  · have hother : Query.Matches ⟨none, typed, hdot⟩ other := by
      refine ⟨?_, by simp⟩
      rw [show Text.lower other.name = Text.lower keyword.name from hname]
      exact hstart
    simp [hname, hother]
  · simp [hname]

end

end Workspace

end SuiteIndex

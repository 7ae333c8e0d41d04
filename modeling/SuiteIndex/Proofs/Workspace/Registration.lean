import Mathlib.Data.List.Nodup
import SuiteIndex.Proofs.Index.Symbol
import SuiteIndex.Workspace.Lookup

/-! # Registered modules and their symbols

A registered file is known by the components of its path and a registered library by its
key. The symbols of two registered modules are never equal. Therefore, if a collection of
symbols lists the symbols of some modules, one module after another under each name, then
retracting one module takes no symbol of another one with it, however many copies it
holds itself.
-/

namespace SuiteIndex

/-- What tells registered modules apart. -/
inductive ModuleId where
  | file (components : List Path.Component)
  | library (key : Text)
deriving DecidableEq

namespace Module

def id : Module → ModuleId
  | file f => .file f.path.components
  | library l => .library l.key

/-- The origin of the symbols a module declares. -/
def origin : Module → Origin
  | file f => .file f.path
  | library l => .library l.name

def file? : Module → Option SourceFile
  | file f => some f
  | library _ => none

def library? : Module → Option Library
  | file _ => none
  | library l => some l

theorem id_eq_of_origin_beq {m n : Module} (h : (m.origin == n.origin) = true) : m.id = n.id := by
  cases m with
  | file f =>
    cases n with
    | file g => exact congrArg ModuleId.file (of_decide_eq_true h)
    | library l => cases h
  | library k =>
    cases n with
    | file g => cases h
    | library l =>
      have hname : k.name = l.name := eq_of_beq h
      simp [id, Library.key, hname]

/-- The modules without the one of this identity. -/
def unregister (id : ModuleId) (modules : List Module) : List Module :=
  modules.filter (·.id ≠ id)

theorem unregister_of_forall_ne {id : ModuleId} {modules : List Module}
    (h : ∀ m ∈ modules, m.id ≠ id) : unregister id modules = modules :=
  List.filter_eq_self.2 fun m hm => decide_eq_true (h m hm)

/-- A registered module stands at one place, and unregistering it cuts it out there. -/
theorem exists_split {modules : List Module} (hnodup : (modules.map id).Nodup) {m : Module}
    (hm : m ∈ modules) : ∃ front back, modules = front ++ m :: back ∧
      unregister m.id modules = front ++ back ∧ ∀ n ∈ front, n.id ≠ m.id := by
  obtain ⟨front, back, rfl⟩ := List.append_of_mem hm
  rw [List.map_append, List.map_cons, List.nodup_append, List.nodup_cons] at hnodup
  have hfront : ∀ n ∈ front, n.id ≠ m.id := fun n hn =>
    hnodup.2.2 n.id (List.mem_map_of_mem hn) m.id List.mem_cons_self
  have hback : ∀ n ∈ back, n.id ≠ m.id := fun n hn h =>
    hnodup.2.1.1 (h ▸ List.mem_map_of_mem hn)
  refine ⟨front, back, rfl, ?_, hfront⟩
  rw [unregister, List.filter_append, List.filter_cons_of_neg (by simp)]
  exact congrArg₂ (· ++ ·) (unregister_of_forall_ne hfront) (unregister_of_forall_ne hback)

/-- Cutting a module out is cutting its file, or its library, out of the list of them. -/
theorem eraseP_filterMap {β : Type} {g : Module → Option β} {p : β → Bool} {m : Module}
    {front back : List Module} {b : β} (hm : g m = some b) (hb : p b = true)
    (hfront : ∀ n ∈ front, ∀ c, g n = some c → ¬ p c = true) :
    ((front ++ m :: back).filterMap g).eraseP p = (front ++ back).filterMap g := by
  have hne : ∀ c ∈ front.filterMap g, ¬ p c = true := by
    intro c hc
    obtain ⟨n, hn, hc⟩ := List.mem_filterMap.1 hc
    exact hfront n hn c hc
  rw [List.filterMap_append, List.eraseP_append_right _ hne, List.filterMap_cons_some hm,
    List.eraseP_cons_of_pos hb, ← List.filterMap_append]

theorem nodup_unregister {modules : List Module} (h : (modules.map id).Nodup) (key : ModuleId) :
    ((unregister key modules).map id).Nodup :=
  h.sublist (List.filter_sublist.map id)

theorem nodup_register {modules : List Module} (h : (modules.map id).Nodup) (m : Module) :
    ((unregister m.id modules ++ [m]).map id).Nodup := by
  rw [List.map_append, List.nodup_append]
  refine ⟨nodup_unregister h m.id, List.nodup_singleton _, ?_⟩
  intro a ha b hb hab
  obtain ⟨n, hn, rfl⟩ := List.mem_map.1 ha
  have hne : n.id ≠ m.id := by simpa [unregister] using (List.mem_filter.1 hn).2
  exact hne (hab.trans (by simpa using hb))

end Module

open SuiteIndex.Module (unregister id_eq_of_origin_beq exists_split nodup_unregister)

/-- The symbols are those of the modules, in the order of the modules. -/
structure Symbols.Index (symbols : Symbols) (modules : List Module) : Prop where
  nodup : (modules.map Module.id).Nodup
  sound : ∀ m ∈ modules, m.symbols.From m.origin
  keywords : symbols.keywords.Gathers (modules.map (·.symbols.keywords))
  vars : symbols.vars.Gathers (modules.map (·.symbols.vars))

namespace Symbols.Index

variable {symbols : Symbols} {modules : List Module}

theorem empty : Symbols.empty.Index [] where
  nodup := List.nodup_nil
  sound := by simp
  keywords := Container.Gathers.empty
  vars := Container.Gathers.empty

theorem valid_keywords (h : symbols.Index modules) :
    ∀ part ∈ modules.map (·.symbols.keywords), part.Valid := by
  intro part hpart
  obtain ⟨m, hm, rfl⟩ := List.mem_map.1 hpart
  exact (h.sound m hm).keywords

theorem valid_vars (h : symbols.Index modules) :
    ∀ part ∈ modules.map (·.symbols.vars), part.Valid := by
  intro part hpart
  obtain ⟨m, hm, rfl⟩ := List.mem_map.1 hpart
  exact (h.sound m hm).vars

theorem origin_ne {m n : Module} (h : m.id ≠ n.id) : ¬ (m.origin == n.origin) = true :=
  fun hbeq => h (id_eq_of_origin_beq hbeq)

theorem exists_origin (h : symbols.Index modules) {keyword : KeywordSymbol}
    (hkeyword : keyword ∈ symbols.keywords.items) :
    ∃ m ∈ modules, keyword.origin = m.origin := by
  have hmem := (h.keywords.items_perm h.valid_keywords).subset hkeyword
  obtain ⟨part, hpart, hmem⟩ := List.mem_flatMap.1 hmem
  obtain ⟨m, hm, rfl⟩ := List.mem_map.1 hpart
  have hsound := h.sound m hm
  exact ⟨m, hm, hsound.keyword_origin _ keyword (hsound.keywords.mem_get_nameOf hmem)⟩

/-- Keywords of an index that compare as equal are the same, for they come from the same
module. -/
theorem keyword_eq_of_beq (h : symbols.Index modules) {a b : KeywordSymbol}
    (ha : a ∈ symbols.keywords.items) (hb : b ∈ symbols.keywords.items)
    (hab : (a == b) = true) : a = b := by
  obtain ⟨m, hm, horigin⟩ := h.exists_origin ha
  obtain ⟨n, hn, horigin'⟩ := h.exists_origin hb
  have hsame := KeywordSymbol.origin_beq hab
  rw [horigin, horigin'] at hsame
  have hid := Module.id_eq_of_origin_beq hsame
  obtain rfl := List.inj_on_of_nodup_map h.nodup hm hn hid
  exact KeywordSymbol.eq_of_beq_of_origin hab (horigin.trans horigin'.symm)

/-- Retracting the symbols of a registered module removes that module from the index. -/
theorem retract (h : symbols.Index modules) {m : Module} (hm : m ∈ modules) :
    (symbols.retract m.symbols).Index (unregister m.id modules) := by
  obtain ⟨front, back, rfl, hsplit, hfront⟩ := exists_split h.nodup hm
  have hsound : ∀ n ∈ front, n.symbols.From n.origin :=
    fun n hn => h.sound n (List.mem_append_left _ hn)
  have hm := h.sound m (List.mem_append_right _ List.mem_cons_self)
  have hkeywords := h.keywords
  have hvars := h.vars
  rw [List.map_append, List.map_cons] at hkeywords hvars
  refine ⟨nodup_unregister h.nodup m.id, fun n hn => h.sound n (List.mem_of_mem_filter hn), ?_, ?_⟩
  · rw [hsplit, List.map_append]
    apply hkeywords.retract hm.keywords
    intro key part hpart a ha b hb hab
    obtain ⟨n, hn, rfl⟩ := List.mem_map.1 hpart
    have horigin := KeywordSymbol.origin_beq hab
    rw [(hsound n hn).keyword_origin key a ha, hm.keyword_origin key b hb] at horigin
    exact origin_ne (hfront n hn) horigin
  · rw [hsplit, List.map_append]
    apply hvars.retract hm.vars
    intro key part hpart a ha b hb hab
    obtain ⟨n, hn, rfl⟩ := List.mem_map.1 hpart
    have horigin := VariableSymbol.origin_beq hab
    rw [(hsound n hn).var_origin key a ha, hm.var_origin key b hb] at horigin
    exact origin_ne (hfront n hn) horigin

/-- Merging the symbols of a module of a new identity registers it behind the others. -/
theorem merge (h : symbols.Index modules) {m : Module} (hsound : m.symbols.From m.origin)
    (hnodup : ((modules ++ [m]).map Module.id).Nodup) :
    (symbols.merge m.symbols).Index (modules ++ [m]) := by
  refine ⟨hnodup, ?_, ?_, ?_⟩
  · intro n hn
    rcases List.mem_append.1 hn with hn | hn
    · exact h.sound n hn
    · rw [List.mem_singleton.1 hn]
      exact hsound
  · rw [List.map_append]
    exact h.keywords.merge hsound.keywords
  · rw [List.map_append]
    exact h.vars.merge hsound.vars

end Symbols.Index

end SuiteIndex

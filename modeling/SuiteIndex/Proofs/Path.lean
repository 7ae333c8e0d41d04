import SuiteIndex.Path
import SuiteIndex.Proofs.Text.Order
import SuiteIndex.Proofs.Text.Split

/-! # Components of paths and their order

The path of an entry of a folder has the components of the folder and then the name of the
entry, however the path of the folder is written. Paths are ordered by their components, and
names among these by their bytes.
-/

namespace SuiteIndex

namespace Text

variable {α : Type} [DecidableEq α] {mark : α}

theorem splitOn_ne_nil (mark : α) (t : List α) : splitOn mark t ≠ [] := by
  cases t with
  | nil => simp [splitOn]
  | cons c t =>
    rw [splitOn]
    split
    · simp
    · split <;> simp

theorem splitOn_of_not_mem {t : List α} (h : mark ∉ t) : splitOn mark t = [t] := by
  induction t with
  | nil => rfl
  | cons c t ih =>
    rw [List.mem_cons, not_or] at h
    simp [splitOn, ih h.2, Ne.symm h.1]

theorem not_mem_of_mem_splitOn {t : List α} : ∀ piece ∈ splitOn mark t, mark ∉ piece := by
  induction t with
  | nil => simp [splitOn]
  | cons c t ih =>
    rw [splitOn]
    split
    · exact List.forall_mem_cons.2 ⟨List.not_mem_nil, ih⟩
    · rename_i hmark
      obtain ⟨piece, pieces, hpieces⟩ := List.exists_cons_of_ne_nil (splitOn_ne_nil mark t)
      rw [hpieces] at ih ⊢
      rw [List.forall_mem_cons] at ih ⊢
      refine ⟨?_, ih.2⟩
      rw [List.mem_cons, not_or]
      exact ⟨Ne.symm hmark, ih.1⟩

theorem splitOn_append (front behind : List α) :
    splitOn mark (front ++ mark :: behind) = splitOn mark front ++ splitOn mark behind := by
  induction front with
  | nil => simp [splitOn]
  | cons c front ih =>
    rw [List.cons_append, splitOn, ih, splitOn]
    split
    · rfl
    · obtain ⟨piece, pieces, hpieces⟩ := List.exists_cons_of_ne_nil (splitOn_ne_nil mark front)
      rw [hpieces]
      rfl

end Text

namespace Path

theorem beq_eq_false {p q : Path} (h : p.components ≠ q.components) : (p == q) = false :=
  decide_eq_false h

/-- What an entry of a folder can be called. -/
structure IsName (name : Bytes) : Prop where
  filled : name ≠ []
  slash : slash ∉ name
  here : name ≠ [dot]
  parent : name ≠ [dot, dot]

theorem IsName.ofPiece? {name : Bytes} (h : IsName name) :
    Component.ofPiece? name = some (.name name) := by
  simp [Component.ofPiece?, h.filled, h.here, h.parent]

theorem isName_of_mem_components {path : Path} {name : Bytes}
    (h : .name name ∈ path.components) : IsName name := by
  have hpiece : .name name ∈ path.pieces.filterMap Component.ofPiece? := by
    simp only [components] at h
    split_ifs at h <;> simpa using h
  obtain ⟨piece, hmem, hpiece⟩ := List.mem_filterMap.1 hpiece
  have hslash := Text.not_mem_of_mem_splitOn piece hmem
  unfold Component.ofPiece? at hpiece
  split at hpiece
  · cases hpiece
  · rename_i hdot
    split at hpiece
    · cases hpiece
    · rename_i hdots
      cases hpiece
      simp only [Bool.or_eq_true, decide_eq_true_eq, not_or] at hdot
      exact ⟨hdot.1, hslash, hdot.2, hdots⟩

theorem components_slash {front : Bytes} (hfront : front ≠ []) (behind : Bytes) :
    components ⟨front ++ slash :: behind⟩ =
      components ⟨front⟩ ++ (Text.splitOn slash behind).filterMap Component.ofPiece? := by
  obtain ⟨c, rest, rfl⟩ := List.exists_cons_of_ne_nil hfront
  obtain ⟨piece, others, hpieces⟩ :=
    List.exists_cons_of_ne_nil (Text.splitOn_ne_nil slash (c :: rest))
  simp only [components, pieces, isAbsolute, Text.splitOn_append, hpieces]
  rw [← hpieces, List.filterMap_append, hpieces]
  simp only [List.cons_append, List.head?_cons]
  by_cases hc : c = slash
  · simp [hc]
  · by_cases hpiece : piece = [dot] <;> simp [hc, hpiece]

theorem components_root (behind : Bytes) : components ⟨slash :: behind⟩ =
    .root :: (Text.splitOn slash behind).filterMap Component.ofPiece? := by
  simp [components, pieces, isAbsolute, Text.splitOn, Component.ofPiece?]

theorem components_name {name : Bytes} (h : IsName name) : components ⟨name⟩ = [.name name] := by
  have hhead : name.head? ≠ some slash := fun hhead => h.slash (List.mem_of_head? hhead)
  simp [components, pieces, isAbsolute, Text.splitOn_of_not_mem h.slash, hhead, h.here, h.ofPiece?]

theorem components_join (folder : Path) {name : Bytes} (h : IsName name) :
    (folder.join name).components = folder.components ++ [.name name] := by
  obtain ⟨bytes⟩ := folder
  have hpiece : (Text.splitOn slash name).filterMap Component.ofPiece? = [.name name] := by
    simp [Text.splitOn_of_not_mem h.slash, h.ofPiece?]
  have hnothing : (Text.splitOn slash []).filterMap Component.ofPiece? = [] := rfl
  unfold join
  split
  · rename_i hslash
    rcases List.eq_nil_or_concat bytes with rfl | ⟨front, c, rfl⟩
    · exact components_name h
    · obtain rfl : c = slash := by simpa using hslash
      rw [List.concat_eq_append, List.append_assoc]
      show components ⟨front ++ slash :: name⟩ = components ⟨front ++ slash :: []⟩ ++ [.name name]
      by_cases hfront : front = []
      · rw [hfront]
        show components ⟨slash :: name⟩ = components ⟨slash :: []⟩ ++ [.name name]
        rw [components_root, components_root, hpiece, hnothing]
        rfl
      · rw [components_slash hfront, components_slash hfront, hpiece, hnothing, List.append_nil]
  · rename_i hslash
    have hfilled : bytes ≠ [] := by
      rintro rfl
      exact hslash rfl
    rw [components_slash hfilled, hpiece]

/-- The path at the end of a chain of names. -/
def below (folder : Path) (names : List Bytes) : Path :=
  names.foldl join folder

theorem components_below (folder : Path) {names : List Bytes} (h : ∀ name ∈ names, IsName name) :
    (folder.below names).components = folder.components ++ names.map .name := by
  induction names generalizing folder with
  | nil => exact (List.append_nil _).symm
  | cons name names ih =>
    rw [List.forall_mem_cons] at h
    show ((folder.join name).below names).components = _
    rw [ih _ h.2, components_join folder h.1, List.append_assoc]
    rfl

theorem fileName?_below (folder : Path) {above : List Bytes} {name : Bytes}
    (h : ∀ piece ∈ above ++ [name], IsName piece) :
    (folder.below (above ++ [name])).fileName? = some name := by
  simp [fileName?, components_below folder h]

/-- Which kinds of components come before which others. -/
def Component.rank : Component → Nat
  | root => 0
  | here => 1
  | parent => 2
  | name _ => 3

/-- The root comes first, then a dot, then double dots, and names come last, by their bytes. -/
def Component.Before : Component → Component → Prop
  | name s, name t => s < t
  | a, b => a.rank < b.rank

theorem Component.Before.ne {a b : Component} (h : a.Before b) : a ≠ b := by
  rintro rfl
  cases a with
  | name text => exact lt_irrefl text h
  | root => exact lt_irrefl _ h
  | here => exact lt_irrefl _ h
  | parent => exact lt_irrefl _ h

/-- The order of paths by their components. -/
def Precedes (p q : Path) : Prop :=
  List.Lex Component.Before p.components q.components

theorem Precedes.components_ne {p q : Path} (h : p.Precedes q) : p.components ≠ q.components :=
  (List.Lex.imp (fun _ _ => Component.Before.ne) _ _ h).to_ne

theorem precedes_below (folder : Path) {name other : Bytes} {names others : List Bytes}
    (hlt : name < other) (hnames : ∀ piece ∈ name :: names, IsName piece)
    (hothers : ∀ piece ∈ other :: others, IsName piece) :
    (folder.below (name :: names)).Precedes (folder.below (other :: others)) := by
  rw [Precedes, components_below folder hnames, components_below folder hothers]
  have hbefore : Component.Before (.name name) (.name other) := hlt
  exact List.Lex.append_left _ (.rel hbefore) _

end Path

end SuiteIndex

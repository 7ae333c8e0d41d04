import SuiteIndex.Index.SearchTree
import SuiteIndex.Proofs.Text.Order

/-! # Search trees as ordered multimaps

The view of a tree is the list of its values with their keys. In a tree whose siblings
lie in order this list is sorted by key, a look-up cuts a stretch out of it, and every
change rewrites the values of one key in place. Whatever operations built a tree, its
answers are those of the plain list of the entries that have been put in and not taken
out again.
-/

namespace SuiteIndex

variable {α : Type}

/-- The second list comes from the first by writing the values `new` over the values
`old` of one key; all other keys lie where the order wants them. -/
def Rewritten (key : Text) (old new : List α) (before after : List (Text × α)) : Prop :=
  ∃ front back, before = front ++ old.map (key, ·) ++ back ∧
    after = front ++ new.map (key, ·) ++ back ∧
    (∀ e ∈ front, e.1 < key) ∧ ∀ e ∈ back, key < e.1

namespace Rewritten

variable {key : Text} {old new : List α} {before after : List (Text × α)}

theorem self (key : Text) (old new : List α) :
    Rewritten key old new (old.map (key, ·)) (new.map (key, ·)) :=
  ⟨[], [], by simp⟩

theorem append_left (h : Rewritten key old new before after) {l : List (Text × α)}
    (hl : ∀ e ∈ l, e.1 < key) : Rewritten key old new (l ++ before) (l ++ after) := by
  obtain ⟨front, back, rfl, rfl, hfront, hback⟩ := h
  refine ⟨l ++ front, back, by simp, by simp, ?_, hback⟩
  intro e he
  rcases List.mem_append.1 he with he | he
  · exact hl e he
  · exact hfront e he

theorem append_right (h : Rewritten key old new before after) {r : List (Text × α)}
    (hr : ∀ e ∈ r, key < e.1) : Rewritten key old new (before ++ r) (after ++ r) := by
  obtain ⟨front, back, rfl, rfl, hfront, hback⟩ := h
  refine ⟨front, back ++ r, by simp, by simp, hfront, ?_⟩
  intro e he
  rcases List.mem_append.1 he with he | he
  · exact hback e he
  · exact hr e he

theorem map_cons (h : Rewritten key old new before after) (c : Char) :
    Rewritten (c :: key) old new (before.map fun e => (c :: e.1, e.2))
      (after.map fun e => (c :: e.1, e.2)) := by
  obtain ⟨front, back, rfl, rfl, hfront, hback⟩ := h
  refine ⟨front.map fun e => (c :: e.1, e.2), back.map fun e => (c :: e.1, e.2), by simp, by simp,
    ?_, ?_⟩
  · intro e he
    obtain ⟨e', he', rfl⟩ := List.mem_map.1 he
    exact .cons (hfront e' he')
  · intro e he
    obtain ⟨e', he', rfl⟩ := List.mem_map.1 he
    exact .cons (hback e' he')

theorem filter_before (h : Rewritten key old new before after) :
    before.filter (·.1 = key) = old.map (key, ·) := by
  obtain ⟨front, back, rfl, -, hfront, hback⟩ := h
  have hf : front.filter (·.1 = key) = [] :=
    List.filter_eq_nil_iff.2 fun e he => by simpa using (hfront e he).ne
  have hb : back.filter (·.1 = key) = [] :=
    List.filter_eq_nil_iff.2 fun e he => by simpa using (hback e he).ne'
  simp [hf, hb, List.filter_map, Function.comp_def]

theorem symm (h : Rewritten key old new before after) : Rewritten key new old after before := by
  obtain ⟨front, back, hbefore, hafter, hfront, hback⟩ := h
  exact ⟨front, back, hafter, hbefore, hfront, hback⟩

theorem filter_of_ne (h : Rewritten key old new before after) {k : Text} (hk : k ≠ key) :
    after.filter (·.1 = k) = before.filter (·.1 = k) := by
  obtain ⟨front, back, rfl, rfl, -, -⟩ := h
  simp [List.filter_map, Function.comp_def, hk.symm]

theorem length_add (h : Rewritten key old new before after) :
    after.length + old.length = before.length + new.length := by
  obtain ⟨front, back, rfl, rfl, -, -⟩ := h
  simp only [List.length_append, List.length_map]
  omega

end Rewritten

namespace Branch

/-- All values with their keys, in the order of the tree. -/
def entries : Branch α → List (Text × α)
  | leaf => []
  | node c values less same greater =>
    less.entries ++ (values.map ([c], ·) ++ same.entries.map fun e => (c :: e.1, e.2)) ++
      greater.entries

/-- All characters at which keys of the branch can start satisfy `p`. -/
def Heads (p : Char → Prop) : Branch α → Prop
  | leaf => True
  | node c _ less _ greater => p c ∧ less.Heads p ∧ greater.Heads p

/-- Siblings lie in the order of their characters, everywhere in the branch. -/
def Ordered : Branch α → Prop
  | leaf => True
  | node c _ less same greater =>
    less.Heads (· < c) ∧ greater.Heads (c < ·) ∧ less.Ordered ∧ same.Ordered ∧ greater.Ordered

theorem toList_eq (b : Branch α) : b.toList = b.entries.map Prod.snd := by
  induction b with
  | leaf => rfl
  | node c values less same greater ihl ihs ihg =>
    simp [toList, entries, ihl, ihs, ihg, Function.comp_def]

theorem Heads.imp {p q : Char → Prop} (h : ∀ c, p c → q c) {b : Branch α} (hb : b.Heads p) :
    b.Heads q := by
  induction b with
  | leaf => trivial
  | node c values less same greater ihl _ ihg => exact ⟨h c hb.1, ihl hb.2.1, ihg hb.2.2⟩

theorem heads_true (b : Branch α) : b.Heads fun _ => True := by
  induction b with
  | leaf => trivial
  | node c values less same greater ihl _ ihg => exact ⟨trivial, ihl, ihg⟩

theorem exists_cons_of_mem_own {c : Char} {values : List α} {same : Branch α} {e : Text × α}
    (he : e ∈ values.map ([c], ·) ++ same.entries.map fun e => (c :: e.1, e.2)) :
    ∃ rest, e.1 = c :: rest := by
  rcases List.mem_append.1 he with he | he
  · obtain ⟨a, -, rfl⟩ := List.mem_map.1 he
    exact ⟨[], rfl⟩
  · obtain ⟨e, -, rfl⟩ := List.mem_map.1 he
    exact ⟨e.1, rfl⟩

theorem Heads.exists_cons {p : Char → Prop} {b : Branch α} (hb : b.Heads p)
    {e : Text × α} (he : e ∈ b.entries) : ∃ c rest, e.1 = c :: rest ∧ p c := by
  induction b with
  | leaf => simp [entries] at he
  | node c values less same greater ihl _ ihg =>
    rcases List.mem_append.1 he with he | he
    · rcases List.mem_append.1 he with he | he
      · exact ihl hb.2.1 he
      · obtain ⟨rest, hrest⟩ := exists_cons_of_mem_own he
        exact ⟨c, rest, hrest, hb.1⟩
    · exact ihg hb.2.2 he

theorem Heads.lt_of_mem {c : Char} {b : Branch α} (hb : b.Heads (c < ·)) (rest : Text)
    {e : Text × α} (he : e ∈ b.entries) : c :: rest < e.1 := by
  obtain ⟨d, t, hd, hcd⟩ := hb.exists_cons he
  rw [hd]
  exact .rel hcd

theorem Heads.mem_lt {c : Char} {b : Branch α} (hb : b.Heads (· < c)) (rest : Text)
    {e : Text × α} (he : e ∈ b.entries) : e.1 < c :: rest := by
  obtain ⟨d, t, hd, hdc⟩ := hb.exists_cons he
  rw [hd]
  exact .rel hdc

theorem pairwise_entries {b : Branch α} (hb : b.Ordered) : b.entries.Pairwise (·.1 ≤ ·.1) := by
  induction b with
  | leaf => exact List.Pairwise.nil
  | node c values less same greater ihl ihs ihg =>
    obtain ⟨hless, hgreater, hl, hs, hg⟩ := hb
    have hvalues : (values.map (([c], ·) : α → Text × α)).Pairwise (·.1 ≤ ·.1) :=
      List.pairwise_map.2 (List.pairwise_of_forall fun _ _ => le_refl _)
    have hsame : (same.entries.map fun e => (c :: e.1, e.2)).Pairwise (·.1 ≤ ·.1) :=
      List.pairwise_map.2 ((ihs hs).imp fun h => List.cons_le_cons c h)
    refine List.pairwise_append.2 ⟨List.pairwise_append.2 ⟨ihl hl, List.pairwise_append.2
      ⟨hvalues, hsame, ?_⟩, ?_⟩, ihg hg, ?_⟩
    · intro x hx y hy
      obtain ⟨a, -, rfl⟩ := List.mem_map.1 hx
      obtain ⟨e, -, rfl⟩ := List.mem_map.1 hy
      exact List.cons_le_cons c (Text.nil_le e.1)
    · intro x hx y hy
      obtain ⟨rest, hrest⟩ := exists_cons_of_mem_own hy
      exact hrest ▸ (hless.mem_lt rest hx).le
    · intro x hx y hy
      rcases List.mem_append.1 hx with hx | hx
      · exact ((hless.mem_lt [] hx).trans (hgreater.lt_of_mem [] hy)).le
      · obtain ⟨rest, hrest⟩ := exists_cons_of_mem_own hx
        exact hrest ▸ (hgreater.lt_of_mem rest hy).le

/-- The entries of what a look-up for `key` finds, under their full keys. -/
def foundEntries (key : Text) : Option (List α × Branch α) → List (Text × α)
  | some (values, longer) =>
    values.map (key, ·) ++ longer.entries.map fun e => (key ++ e.1, e.2)
  | none => []

theorem Heads.filter_isPrefixOf {c : Char} {p : Char → Prop} {b : Branch α} (hb : b.Heads p)
    (hc : ¬ p c) (rest : Text) :
    b.entries.filter (fun e => (c :: rest).isPrefixOf e.1) = [] := by
  apply List.filter_eq_nil_iff.2
  intro e he
  obtain ⟨d, t, hd, hpd⟩ := hb.exists_cons he
  have hcd : c ≠ d := fun h => hc (h ▸ hpd)
  simp [hd, hcd]

theorem filter_entries_eq (c : Char) (rest : Text) {b : Branch α} (hb : b.Ordered) :
    b.entries.filter (fun e => (c :: rest).isPrefixOf e.1) =
      foundEntries (c :: rest) (b.find? c rest) := by
  induction b generalizing c rest with
  | leaf => rfl
  | node char values less same greater ihl ihs ihg =>
    obtain ⟨hless, hgreater, hl, hs, hg⟩ := hb
    simp only [entries, List.filter_append, List.filter_map, find?, Text.toNat_lt_iff]
    by_cases hlt : c < char
    · rw [if_pos hlt, ← ihl c rest hl, hgreater.filter_isPrefixOf (lt_asymm hlt)]
      simp [List.isPrefixOf, beq_false_of_ne hlt.ne, Function.comp_def]
    · by_cases hgt : char < c
      · rw [if_neg hlt, if_pos hgt, ← ihg c rest hg, hless.filter_isPrefixOf (lt_asymm hgt)]
        simp [List.isPrefixOf, beq_false_of_ne hgt.ne', Function.comp_def]
      · obtain rfl : c = char := le_antisymm (not_lt.1 hgt) (not_lt.1 hlt)
        rw [if_neg hlt, if_neg hgt, hless.filter_isPrefixOf (lt_irrefl c),
          hgreater.filter_isPrefixOf (lt_irrefl c)]
        cases rest with
        | nil => simp [foundEntries, Function.comp_def]
        | cons d rest =>
          simp only [Function.comp_def, List.isPrefixOf_cons_cons_self]
          rw [ihs d rest hs]
          cases same.find? d rest with
          | none => simp [foundEntries]
          | some found => simp [foundEntries, Function.comp_def]

/-- Of what a look-up finds, the entries of the key itself are the values in front. -/
theorem filter_foundEntries (key : Text) (values : List α) (longer : Branch α) :
    (foundEntries key (some (values, longer))).filter (·.1 = key) = values.map (key, ·) := by
  have hlonger : (longer.entries.map fun e => (key ++ e.1, e.2)).filter (·.1 = key) = [] := by
    apply List.filter_eq_nil_iff.2
    intro e he
    obtain ⟨e', he', rfl⟩ := List.mem_map.1 he
    obtain ⟨c, rest, hc, -⟩ := longer.heads_true.exists_cons he'
    simp [hc]
  simp [foundEntries, List.filter_append, hlonger, List.filter_map, Function.comp_def]

@[simp] theorem entries_single (a : α) (c : Char) (rest : Text) :
    (single a c rest).entries = [(c :: rest, a)] := by
  induction rest generalizing c with
  | nil => rfl
  | cons d rest ih => simp [single, entries, ih]

theorem rewritten_less {c char : Char} {rest : Text} {old new values : List α}
    {less less' same greater : Branch α} (hlt : c < char) (hgreater : greater.Heads (char < ·))
    (h : Rewritten (c :: rest) old new less.entries less'.entries) :
    Rewritten (c :: rest) old new (node char values less same greater).entries
      (node char values less' same greater).entries := by
  refine (h.append_right fun e he => ?_).append_right fun e he => ?_
  · obtain ⟨t, ht⟩ := exists_cons_of_mem_own he
    exact ht ▸ .rel hlt
  · exact (hgreater.imp fun _ hc => hlt.trans hc).lt_of_mem rest he

theorem rewritten_greater {c char : Char} {rest : Text} {old new values : List α}
    {less same greater greater' : Branch α} (hgt : char < c) (hless : less.Heads (· < char))
    (h : Rewritten (c :: rest) old new greater.entries greater'.entries) :
    Rewritten (c :: rest) old new (node char values less same greater).entries
      (node char values less same greater').entries := by
  apply h.append_left
  intro e he
  rcases List.mem_append.1 he with he | he
  · exact (hless.imp fun _ hc => hc.trans hgt).mem_lt rest he
  · obtain ⟨t, ht⟩ := exists_cons_of_mem_own he
    exact ht ▸ .rel hgt

theorem rewritten_same {c d : Char} {rest : Text} {old new values : List α}
    {less same same' greater : Branch α} (hless : less.Heads (· < c))
    (hgreater : greater.Heads (c < ·))
    (h : Rewritten (d :: rest) old new same.entries same'.entries) :
    Rewritten (c :: d :: rest) old new (node c values less same greater).entries
      (node c values less same' greater).entries := by
  refine (((h.map_cons c).append_left fun e he => ?_).append_left fun e he => ?_).append_right
    fun e he => hgreater.lt_of_mem _ he
  · obtain ⟨a, -, rfl⟩ := List.mem_map.1 he
    exact .cons .nil
  · exact hless.mem_lt _ he

theorem rewritten_values {c : Char} {values new : List α} {less same greater : Branch α}
    (hless : less.Heads (· < c)) (hgreater : greater.Heads (c < ·)) :
    Rewritten [c] values new (node c values less same greater).entries
      (node c new less same greater).entries := by
  refine (((Rewritten.self [c] values new).append_right fun e he => ?_).append_left
    fun e he => hless.mem_lt _ he).append_right fun e he => hgreater.lt_of_mem _ he
  obtain ⟨e', he', rfl⟩ := List.mem_map.1 he
  obtain ⟨d, t, hd, -⟩ := (heads_true same).exists_cons he'
  rw [hd]
  exact .cons .nil

theorem ordered_single (a : α) (c : Char) (rest : Text) : (single a c rest).Ordered := by
  induction rest generalizing c with
  | nil => exact ⟨trivial, trivial, trivial, trivial, trivial⟩
  | cons d rest ih => exact ⟨trivial, trivial, trivial, ih d, trivial⟩

/-- A change goes down to the node of its key, and what it does to the values there is `f`. An
empty branch gets the values that `f` makes of none. -/
structure Edits (f : List α → List α) (edit : Char → Text → Branch α → Branch α) : Prop where
  rewritten_leaf (c : Char) (rest : Text) :
    Rewritten (c :: rest) [] (f []) [] (edit c rest leaf).entries
  heads_leaf {p : Char → Prop} {c : Char} (hc : p c) (rest : Text) : (edit c rest leaf).Heads p
  ordered_leaf (c : Char) (rest : Text) : (edit c rest leaf).Ordered
  node (c : Char) (rest : Text) (char : Char) (values : List α) (less same greater : Branch α) :
    edit c rest (node char values less same greater) =
      if c < char then node char values (edit c rest less) same greater
      else if char < c then node char values less same (edit c rest greater)
      else match rest with
        | [] => node char (f values) less same greater
        | d :: rest => node char values less (edit d rest same) greater

theorem edits_insert (a : α) : Edits (· ++ [a]) (insert a) where
  rewritten_leaf c rest := by
    simpa [insert, entries] using Rewritten.self (c :: rest) [] [a]
  heads_leaf hc rest := by cases rest <;> exact ⟨hc, trivial, trivial⟩
  ordered_leaf := ordered_single a
  node c rest char values less same greater := by
    cases rest <;> simp only [insert, Text.toNat_lt_iff]

/-- A change that makes the values of a key no more leaves an empty branch empty. -/
theorem edits_modify {f : List α → List α} (hf : ∀ l, (f l).length ≤ l.length) :
    Edits f (modify f) where
  rewritten_leaf c rest := by
    have hnil : f [] = [] := List.eq_nil_of_length_eq_zero (Nat.le_zero.1 (hf []))
    simpa [modify, entries, hnil] using Rewritten.self (c :: rest) ([] : List α) []
  heads_leaf _ _ := trivial
  ordered_leaf _ _ := trivial
  node c rest char values less same greater := by
    cases rest <;> simp only [modify, Text.toNat_lt_iff]

namespace Edits

variable {f : List α → List α} {edit : Char → Text → Branch α → Branch α} {b : Branch α}

theorem exists_rewritten (h : Edits f edit) (c : Char) (rest : Text) (hb : b.Ordered) :
    ∃ old, Rewritten (c :: rest) old (f old) b.entries (edit c rest b).entries := by
  induction b generalizing c rest with
  | leaf => exact ⟨[], h.rewritten_leaf c rest⟩
  | node char values less same greater ihl ihs ihg =>
    obtain ⟨hless, hgreater, hl, hs, hg⟩ := hb
    rw [h.node]
    by_cases hlt : c < char
    · obtain ⟨old, h⟩ := ihl c rest hl
      rw [if_pos hlt]
      exact ⟨old, rewritten_less hlt hgreater h⟩
    · by_cases hgt : char < c
      · obtain ⟨old, h⟩ := ihg c rest hg
        rw [if_neg hlt, if_pos hgt]
        exact ⟨old, rewritten_greater hgt hless h⟩
      · obtain rfl : c = char := le_antisymm (not_lt.1 hgt) (not_lt.1 hlt)
        rw [if_neg hlt, if_neg hgt]
        cases rest with
        | nil => exact ⟨values, rewritten_values hless hgreater⟩
        | cons d rest =>
          obtain ⟨old, h⟩ := ihs d rest hs
          exact ⟨old, rewritten_same hless hgreater h⟩

theorem heads (h : Edits f edit) {p : Char → Prop} (hb : b.Heads p) {c : Char} (hc : p c)
    (rest : Text) : (edit c rest b).Heads p := by
  induction b with
  | leaf => exact h.heads_leaf hc rest
  | node char values less same greater ihl _ ihg =>
    rw [h.node]
    split
    · exact ⟨hb.1, ihl hb.2.1, hb.2.2⟩
    · split
      · exact ⟨hb.1, hb.2.1, ihg hb.2.2⟩
      · cases rest <;> exact hb

theorem ordered (h : Edits f edit) (c : Char) (rest : Text) (hb : b.Ordered) :
    (edit c rest b).Ordered := by
  induction b generalizing c rest with
  | leaf => exact h.ordered_leaf c rest
  | node char values less same greater ihl ihs ihg =>
    obtain ⟨hless, hgreater, hl, hs, hg⟩ := hb
    rw [h.node]
    split
    · rename_i hlt
      exact ⟨h.heads hless hlt rest, hgreater, ihl c rest hl, hs, hg⟩
    · split
      · rename_i hgt
        exact ⟨hless, h.heads hgreater hgt rest, hl, hs, ihg c rest hg⟩
      · cases rest with
        | nil => exact ⟨hless, hgreater, hl, hs, hg⟩
        | cons d rest => exact ⟨hless, hgreater, hl, ihs d rest hs, hg⟩

end Edits

end Branch

namespace SearchTree

/-- All values with their keys, the empty key first. -/
def entries (tree : SearchTree α) : List (Text × α) :=
  tree.atEmpty.map ([], ·) ++ tree.root.entries

/-- The nodes lie in order and the number of values is right. -/
structure Valid (tree : SearchTree α) : Prop where
  ordered : tree.root.Ordered
  size_eq : tree.size = tree.entries.length

theorem valid_empty : (empty : SearchTree α).Valid :=
  ⟨trivial, rfl⟩

theorem nil_lt_of_mem_root {tree : SearchTree α} {e : Text × α} (he : e ∈ tree.root.entries) :
    [] < e.1 := by
  obtain ⟨c, rest, hc, -⟩ := tree.root.heads_true.exists_cons he
  exact hc ▸ .nil

namespace Valid

variable {tree : SearchTree α}

theorem pairwise_entries (h : tree.Valid) : tree.entries.Pairwise (·.1 ≤ ·.1) := by
  refine List.pairwise_append.2 ⟨List.pairwise_map.2 (List.pairwise_of_forall fun _ _ => le_refl _),
    Branch.pairwise_entries h.ordered, ?_⟩
  intro x hx y hy
  obtain ⟨a, -, rfl⟩ := List.mem_map.1 hx
  exact Text.nil_le y.1

/-- A search gives the values whose keys start with the text, in the order of the view. -/
theorem startingWith_eq (h : tree.Valid) (start : Text) :
    tree.startingWith start =
      (tree.entries.filter fun e => start.isPrefixOf e.1).map Prod.snd := by
  cases start with
  | nil => simp [startingWith, entries, Branch.toList_eq, Function.comp_def]
  | cons c rest =>
    rw [entries, List.filter_append, Branch.filter_entries_eq c rest h.ordered]
    cases hfind : tree.root.find? c rest with
    | none => simp [startingWith, hfind, Branch.foundEntries, List.filter_map, Function.comp_def]
    | some found =>
      simp [startingWith, hfind, Branch.foundEntries, List.filter_map, Branch.toList_eq,
        Function.comp_def]

theorem get_eq (h : tree.Valid) (key : Text) :
    tree.get key = (tree.entries.filter (·.1 = key)).map Prod.snd := by
  cases key with
  | nil =>
    have hroot : tree.root.entries.filter (·.1 = []) = [] :=
      List.filter_eq_nil_iff.2 fun e he => by simpa using (nil_lt_of_mem_root he).ne'
    simp [get, entries, hroot, List.filter_map, Function.comp_def]
  | cons c rest =>
    -- The entries of a key are among those whose keys start with it.
    have hcut : tree.root.entries.filter (·.1 = c :: rest) =
        (Branch.foundEntries (c :: rest) (tree.root.find? c rest)).filter (·.1 = c :: rest) := by
      rw [← Branch.filter_entries_eq c rest h.ordered, List.filter_filter]
      apply List.filter_congr
      intro e _
      by_cases he : e.1 = c :: rest <;> simp [he]
    rw [entries, List.filter_append, hcut]
    cases hfind : tree.root.find? c rest with
    | none => simp [get, hfind, Branch.foundEntries, List.filter_map, Function.comp_def]
    | some found =>
      rw [Branch.filter_foundEntries]
      simp [get, hfind, List.filter_map, Function.comp_def]

theorem get_of_rewritten {after : SearchTree α} {key : Text} {old new : List α} (h : tree.Valid)
    (hafter : after.Valid) (hr : Rewritten key old new tree.entries after.entries) (k : Text) :
    after.get k = if k = key then new else tree.get k := by
  rw [h.get_eq, hafter.get_eq]
  by_cases hk : k = key
  · subst hk
    simp [hr.symm.filter_before, Function.comp_def]
  · rw [hr.filter_of_ne hk, if_neg hk]

theorem get_eq_of_rewritten {after : List (Text × α)} {key : Text} {old new : List α}
    (h : tree.Valid) (hr : Rewritten key old new tree.entries after) : tree.get key = old := by
  simp [h.get_eq, hr.filter_before, Function.comp_def]

theorem rewritten_root (h : tree.Valid) {f : List α → List α}
    {edit : Char → Text → Branch α → Branch α} (hedit : Branch.Edits f edit) (c : Char)
    (rest : Text) :
    Rewritten (c :: rest) (tree.get (c :: rest)) (f (tree.get (c :: rest))) tree.entries
      (tree.atEmpty.map ([], ·) ++ (edit c rest tree.root).entries) := by
  obtain ⟨old, hr⟩ := hedit.exists_rewritten c rest h.ordered
  have hall : Rewritten (c :: rest) old (f old) tree.entries
      (tree.atEmpty.map ([], ·) ++ (edit c rest tree.root).entries) := by
    apply hr.append_left
    intro e he
    obtain ⟨b, -, rfl⟩ := List.mem_map.1 he
    exact .nil
  rwa [h.get_eq_of_rewritten hall]

theorem rewritten_insert (h : tree.Valid) (key : Text) (a : α) :
    Rewritten key (tree.get key) (tree.get key ++ [a]) tree.entries
      (tree.insert key a).entries := by
  cases key with
  | nil =>
    exact (Rewritten.self [] tree.atEmpty (tree.atEmpty ++ [a])).append_right
      fun e he => nil_lt_of_mem_root he
  | cons c rest => exact h.rewritten_root (Branch.edits_insert a) c rest

theorem rewritten_shrink (h : tree.Valid) (key : Text) {f : List α → List α}
    (hf : ∀ l, (f l).length ≤ l.length) :
    Rewritten key (tree.get key) (f (tree.get key)) tree.entries
      (tree.shrink key f).entries := by
  cases key with
  | nil =>
    exact (Rewritten.self [] tree.atEmpty (f tree.atEmpty)).append_right
      fun e he => nil_lt_of_mem_root he
  | cons c rest => exact h.rewritten_root (Branch.edits_modify hf) c rest

theorem insert (h : tree.Valid) (key : Text) (a : α) : (tree.insert key a).Valid := by
  constructor
  · cases key with
    | nil => exact h.ordered
    | cons c rest => exact (Branch.edits_insert a).ordered c rest h.ordered
  · have hlength := (h.rewritten_insert key a).length_add
    have hsize : (tree.insert key a).size = tree.size + 1 := by cases key <;> rfl
    rw [List.length_append, List.length_singleton] at hlength
    rw [hsize, h.size_eq]
    omega

theorem shrink (h : tree.Valid) (key : Text) {f : List α → List α}
    (hf : ∀ l, (f l).length ≤ l.length) : (tree.shrink key f).Valid := by
  constructor
  · cases key with
    | nil => exact h.ordered
    | cons c rest => exact (Branch.edits_modify hf).ordered c rest h.ordered
  · have hlength := (h.rewritten_shrink key hf).length_add
    have hsize : (tree.shrink key f).size =
        tree.size - ((tree.get key).length - (f (tree.get key)).length) := by cases key <;> rfl
    have hle := hf (tree.get key)
    rw [hsize, h.size_eq]
    omega

theorem get_insert (h : tree.Valid) (key : Text) (a : α) (k : Text) :
    (tree.insert key a).get k = if k = key then tree.get key ++ [a] else tree.get k :=
  h.get_of_rewritten (h.insert key a) (h.rewritten_insert key a) k

theorem get_shrink (h : tree.Valid) (key : Text) {f : List α → List α}
    (hf : ∀ l, (f l).length ≤ l.length) (k : Text) :
    (tree.shrink key f).get k = if k = key then f (tree.get key) else tree.get k :=
  h.get_of_rewritten (h.shrink key hf) (h.rewritten_shrink key hf) k

theorem removeWhere (h : tree.Valid) (key : Text) (p : α → Bool) :
    (tree.removeWhere key p).1.Valid :=
  h.shrink key fun l => List.length_filter_le _ l

theorem get_removeWhere (h : tree.Valid) (key : Text) (p : α → Bool) (k : Text) :
    (tree.removeWhere key p).1.get k =
      if k = key then (tree.get key).filter (!p ·) else tree.get k :=
  h.get_shrink key (fun l => List.length_filter_le _ l) k

end Valid

/-- A change of a tree. -/
inductive Operation (α : Type) where
  | insert (key : Text) (a : α)
  | removeWhere (key : Text) (p : α → Bool)
  | clear

def apply (tree : SearchTree α) : Operation α → SearchTree α
  | .insert key a => tree.insert key a
  | .removeWhere key p => (tree.removeWhere key p).1
  | .clear => empty

/-- The tree that a sequence of operations builds from the empty one. -/
def run (operations : List (Operation α)) : SearchTree α :=
  operations.foldl apply empty

/-- What an operation means for a list of entries in the order they were put in. -/
def Operation.keep (held : List (Text × α)) : Operation α → List (Text × α)
  | .insert key a => held ++ [(key, a)]
  | .removeWhere key p => held.filter fun e => !(e.1 = key && p e.2)
  | .clear => []

/-- The entries that a sequence of operations puts in and does not take out again. -/
def survivors (operations : List (Operation α)) : List (Text × α) :=
  operations.foldl Operation.keep []

/-- The values of one key among some entries. -/
def valuesOf (key : Text) (held : List (Text × α)) : List α :=
  (held.filter (·.1 = key)).map Prod.snd

/-- A valid tree that has the values of a list of entries under each key. -/
structure Holds (tree : SearchTree α) (held : List (Text × α)) : Prop where
  valid : tree.Valid
  get_eq : ∀ key, tree.get key = valuesOf key held

theorem filter_eq_map_valuesOf (key : Text) (held : List (Text × α)) :
    held.filter (·.1 = key) = (valuesOf key held).map (key, ·) := by
  conv_lhs => rw [← List.map_id (held.filter (·.1 = key))]
  rw [valuesOf, List.map_map]
  apply List.map_congr_left
  intro e he
  have hkey : e.1 = key := by simpa using List.of_mem_filter he
  simp [← hkey]

namespace Holds

variable {tree : SearchTree α} {held : List (Text × α)}

theorem empty : (SearchTree.empty : SearchTree α).Holds [] :=
  ⟨valid_empty, fun key => by cases key <;> rfl⟩

theorem apply (h : tree.Holds held) (operation : Operation α) :
    (tree.apply operation).Holds (operation.keep held) := by
  cases operation with
  | insert key a =>
    refine ⟨h.valid.insert key a, fun k => ?_⟩
    rw [SearchTree.apply, h.valid.get_insert, h.get_eq, h.get_eq]
    by_cases hk : k = key
    · simp [Operation.keep, valuesOf, hk]
    · simp [Operation.keep, valuesOf, hk, Ne.symm hk]
  | removeWhere key p =>
    refine ⟨h.valid.removeWhere key p, fun k => ?_⟩
    rw [SearchTree.apply, h.valid.get_removeWhere, h.get_eq, h.get_eq]
    simp only [Operation.keep, valuesOf, List.filter_map, List.filter_filter]
    by_cases hk : k = key
    · subst hk
      rw [if_pos rfl]
      congr 1
      apply List.filter_congr
      intro e _
      by_cases he : e.1 = k <;> simp [he]
    · rw [if_neg hk]
      congr 1
      apply List.filter_congr
      intro e _
      by_cases he : e.1 = k <;> simp [he, hk]
  | clear => exact empty

theorem foldl (h : tree.Holds held) (operations : List (Operation α)) :
    (operations.foldl SearchTree.apply tree).Holds (operations.foldl Operation.keep held) := by
  induction operations generalizing tree held with
  | nil => exact h
  | cons operation operations ih => exact ih (h.apply operation)

theorem filter_entries (h : tree.Holds held) (key : Text) :
    tree.entries.filter (·.1 = key) = held.filter (·.1 = key) := by
  rw [filter_eq_map_valuesOf, filter_eq_map_valuesOf, ← h.get_eq, h.valid.get_eq]
  rfl

theorem size_eq (h : tree.Holds held) : tree.size = held.length :=
  h.valid.size_eq.trans (Text.perm_of_filter_eq Prod.fst h.filter_entries).length_eq

theorem startingWith_eq (h : tree.Holds held) (start : Text) :
    tree.startingWith start =
      (Text.sortOn Prod.fst (held.filter fun e => Text.startsWith start e.1)).map Prod.snd := by
  rw [h.valid.startingWith_eq]
  congr 1
  apply Text.eq_sortOn Prod.fst (h.valid.pairwise_entries.filter _)
  intro k
  have hk := congrArg (List.filter fun e => start.isPrefixOf e.1) (h.filter_entries k)
  rw [List.filter_filter, List.filter_filter] at hk ⊢
  simpa [Text.startsWith, Bool.and_comm] using hk

theorem removeWhere_snd (h : tree.Holds held) (key : Text) (p : α → Bool) :
    (tree.removeWhere key p).2 = held.countP fun e => e.1 = key && p e.2 := by
  rw [removeWhere, h.get_eq, valuesOf, List.countP_map, List.countP_filter]
  apply List.countP_congr
  intro e _
  simp [and_comm]

end Holds

/-- After any sequence of operations a tree answers like the list of the surviving
entries: look-ups give the values of a key in order of insertion, searches sort stably by
key, and removal takes and counts exactly the matching values of one key. -/
theorem run_refines_multimap (operations : List (Operation α)) :
    (∀ key, (run operations).get key =
      ((survivors operations).filter (·.1 = key)).map Prod.snd) ∧
    (∀ start, (run operations).startingWith start =
      (Text.sortOn Prod.fst
        ((survivors operations).filter fun e => Text.startsWith start e.1)).map Prod.snd) ∧
    (run operations).toList = (run operations).startingWith [] ∧
    (∀ key p, ((run operations).removeWhere key p).2 =
      (survivors operations).countP fun e => e.1 = key && p e.2) ∧
    (∀ key p k, ((run operations).removeWhere key p).1.get k =
      if k = key then ((run operations).get key).filter (!p ·) else (run operations).get k) ∧
    (run operations).size = (survivors operations).length ∧
    ((run operations).isEmpty = true ↔ (survivors operations).length = 0) := by
  have h : (run operations).Holds (survivors operations) := Holds.empty.foldl operations
  refine ⟨h.get_eq, h.startingWith_eq, rfl, h.removeWhere_snd, h.valid.get_removeWhere,
    h.size_eq, ?_⟩
  rw [isEmpty, decide_eq_true_iff, h.size_eq]

end SearchTree

end SuiteIndex

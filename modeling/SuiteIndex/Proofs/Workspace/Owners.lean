import SuiteIndex.Proofs.Text.Lowercase
import SuiteIndex.Proofs.Text.Order
import SuiteIndex.Proofs.Workspace.Run

/-! # Owners of module names

The owners are a map kept in the order of the names, so two of them that answer every
look-up alike are the same. A module that is removed hands its name over to the heir if it
owned it, and no other name changes hands. In a workspace of files alone every name belongs
to the file of that name that was added last, whatever files were added, replaced or removed
before.
-/

namespace SuiteIndex

namespace Owners

def Sorted (owners : Owners) : Prop :=
  owners.Pairwise (·.1 < ·.1)

theorem mem_set {key : Text} {owner : Owner} {owners : Owners} {entry : Text × Owner}
    (h : entry ∈ set key owner owners) : entry = (key, owner) ∨ entry ∈ owners := by
  induction owners with
  | nil => exact .inl (List.mem_singleton.1 h)
  | cons first rest ih =>
    simp only [set] at h
    split at h
    · exact (List.mem_cons.1 h).imp id (List.mem_cons_of_mem _)
    · split at h
      · exact List.mem_cons.1 h
      · rcases List.mem_cons.1 h with rfl | h
        · exact .inr List.mem_cons_self
        · exact (ih h).imp id (List.mem_cons_of_mem _)

theorem lookup_cons (k : Text) (first : Text × Owner) (rest : Owners) :
    List.lookup k (first :: rest) = if k = first.1 then some first.2 else rest.lookup k := by
  obtain ⟨other, owner⟩ := first
  by_cases hk : k = other
  · simp [hk]
  · simp [List.lookup_cons, hk, beq_false_of_ne hk]

theorem lookup_set (key : Text) (owner : Owner) (owners : Owners) (k : Text) :
    (set key owner owners).lookup k = if k = key then some owner else owners.lookup k := by
  induction owners with
  | nil => simp [set, lookup_cons]
  | cons first rest ih =>
    simp only [set]
    split
    · rename_i heq
      simp only [lookup_cons, ← heq]
      by_cases hk : k = key <;> simp [hk]
    · rename_i hne
      split
      · simp only [lookup_cons]
      · simp only [lookup_cons, ih]
        by_cases hk : k = key
        · simp [hk, hne]
        · simp [hk]

theorem lookup_erase (key : Text) (owners : Owners) (k : Text) :
    (erase key owners).lookup k = if k = key then none else owners.lookup k := by
  induction owners with
  | nil => simp [erase]
  | cons first rest ih =>
    rw [erase] at ih
    rw [erase, List.filter_cons]
    split
    · rename_i hfirst
      have hne : first.1 ≠ key := of_decide_eq_true hfirst
      rw [lookup_cons, lookup_cons, ih]
      by_cases hk : k = key
      · simp [hk, hne.symm]
      · simp [hk]
    · rename_i hfirst
      have heq : first.1 = key := by simpa using hfirst
      rw [ih, lookup_cons, heq]
      by_cases hk : k = key <;> simp [hk]

namespace Sorted

variable {owners : Owners}

theorem set (h : Sorted owners) (key : Text) (owner : Owner) : Sorted (owners.set key owner) := by
  induction owners with
  | nil => exact List.pairwise_singleton _ _
  | cons first rest ih =>
    obtain ⟨hfirst, hrest⟩ := List.pairwise_cons.1 h
    simp only [Owners.set]
    split
    · rename_i heq
      exact List.pairwise_cons.2 ⟨fun entry hentry => heq ▸ hfirst entry hentry, hrest⟩
    · rename_i hne
      split
      · rename_i hbefore
        have hlt := (Text.before_iff_lt _ _).1 hbefore
        refine List.pairwise_cons.2 ⟨List.forall_mem_cons.2 ⟨hlt, fun entry hentry => ?_⟩, h⟩
        exact hlt.trans (hfirst entry hentry)
      · rename_i hbefore
        have hlt : first.1 < key :=
          lt_of_le_of_ne (not_lt.1 fun hlt => hbefore ((Text.before_iff_lt _ _).2 hlt)) (Ne.symm hne)
        refine List.pairwise_cons.2 ⟨fun entry hentry => ?_, ih hrest⟩
        rcases mem_set hentry with rfl | hentry
        · exact hlt
        · exact hfirst entry hentry

theorem erase (h : Sorted owners) (key : Text) : Sorted (owners.erase key) :=
  h.filter _

theorem filter_eq (h : Sorted owners) (key : Text) :
    owners.filter (·.1 = key) = (owners.lookup key).toList.map (key, ·) := by
  induction owners with
  | nil => rfl
  | cons first rest ih =>
    obtain ⟨hfirst, hrest⟩ := List.pairwise_cons.1 h
    by_cases hk : first.1 = key
    · subst hk
      have hnone : rest.filter (·.1 = first.1) = [] :=
        List.filter_eq_nil_iff.2 fun entry hentry => by simpa using (hfirst entry hentry).ne'
      rw [List.filter_cons_of_pos (by simp), hnone, lookup_cons, if_pos rfl]
      rfl
    · simp [lookup_cons, hk, Ne.symm hk, ih hrest]

theorem ext {other : Owners} (h : Sorted owners) (hother : Sorted other)
    (hlookup : ∀ key, owners.lookup key = other.lookup key) : owners = other := by
  apply Text.eq_of_sorted Prod.fst (h.imp fun hlt => hlt.le) (hother.imp fun hlt => hlt.le)
  intro key
  rw [h.filter_eq, hother.filter_eq, hlookup]

end Sorted

end Owners

namespace Workspace

theorem heir?_of_no_libraries (workspace : Workspace) (h : workspace.libraries = []) (key : Text) :
    workspace.heir? key =
      (workspace.files.reverse.find? (·.key = key)).map fun file => .file file.path := by
  simp [heir?, libraryOfKey?, h]

theorem heir?_congr {a b : Workspace} (hfiles : a.files = b.files)
    (hlibraries : a.libraries = b.libraries) : a.heir? = b.heir? := by
  funext key
  simp only [heir?, libraryOfKey?, hfiles, hlibraries]

theorem ownedModule?_congr {a b : Workspace} (hfiles : a.files = b.files)
    (hlibraries : a.libraries = b.libraries) : a.ownedModule? = b.ownedModule? := by
  funext owner
  cases owner <;> simp only [ownedModule?, file?, libraryOfKey?, hfiles, hlibraries]

theorem lookup_reassign (workspace : Workspace) (key k : Text) :
    (workspace.reassign key).owners.lookup k =
      if k = key then workspace.heir? key else workspace.owners.lookup k := by
  unfold reassign
  split
  · rename_i owner howner
    rw [Owners.lookup_set, howner]
  · rename_i hnone
    rw [Owners.lookup_erase, hnone]

theorem sorted_reassign {workspace : Workspace} (h : workspace.owners.Sorted) (key : Text) :
    (workspace.reassign key).owners.Sorted := by
  unfold reassign
  split
  · exact h.set key _
  · exact h.erase key

theorem isOwnedByFile_iff {workspace : Workspace} {key : Text} {path : Path} :
    workspace.isOwnedByFile key path = true ↔
      ∃ owner, workspace.owners.lookup key = some (.file owner) ∧ (owner == path) = true := by
  unfold isOwnedByFile
  split <;> simp_all

theorem isOwnedByLibrary_iff {workspace : Workspace} {key : Text} :
    workspace.isOwnedByLibrary key = true ↔
      workspace.owners.lookup key = some (.library key) := by
  unfold isOwnedByLibrary
  split <;> simp_all

theorem lookup_reassign_if (workspace : Workspace) (owned : Bool) (key k : Text) :
    (if owned then workspace.reassign key else workspace).owners.lookup k =
      if k = key ∧ owned = true then workspace.heir? k else workspace.owners.lookup k := by
  cases owned with
  | true =>
    simp only [if_true, and_true]
    rw [lookup_reassign]
    by_cases hk : k = key <;> simp [hk]
  | false => simp

theorem sorted_reassign_if {workspace : Workspace} (h : workspace.owners.Sorted) (owned : Bool)
    (key : Text) : (if owned then workspace.reassign key else workspace).owners.Sorted := by
  cases owned with
  | true => exact sorted_reassign h key
  | false => exact h

section

variable {workspace : Workspace}

theorem lookup_removeFile {path : Path} {file : SourceFile} (h : workspace.file? path = some file)
    (key : Text) :
    (workspace.removeFile path).owners.lookup key =
      if key = file.key ∧ workspace.isOwnedByFile file.key path = true then
        (workspace.removeFile path).heir? key
      else workspace.owners.lookup key := by
  obtain ⟨hfiles, hlibraries, -⟩ := removeFile_of_some h
  rw [heir?_congr (b := { workspace with files := workspace.files.eraseP (·.path == path) })
    hfiles hlibraries]
  simp only [removeFile, h]
  rw [lookup_reassign_if]
  rfl

theorem lookup_removeKey {key : Text} {library : Library}
    (h : workspace.libraryOfKey? key = some library) (k : Text) :
    (workspace.removeKey key).owners.lookup k =
      if k = key ∧ workspace.isOwnedByLibrary key = true then (workspace.removeKey key).heir? k
      else workspace.owners.lookup k := by
  obtain ⟨hfiles, hlibraries, -⟩ := removeKey_of_some h
  rw [heir?_congr (b := { workspace with libraries := workspace.libraries.eraseP (·.key = key) })
    hfiles hlibraries]
  simp only [removeKey, h]
  rw [lookup_reassign_if]
  rfl

theorem sorted_removeFile (h : workspace.owners.Sorted) (path : Path) :
    (workspace.removeFile path).owners.Sorted := by
  unfold removeFile
  split
  · exact h
  · exact sorted_reassign_if (by exact h) _ _

theorem sorted_removeKey (h : workspace.owners.Sorted) (key : Text) :
    (workspace.removeKey key).owners.Sorted := by
  unfold removeKey
  split
  · exact h
  · exact sorted_reassign_if (by exact h) _ _

end

/-- There are only files, and every module name belongs to its heir: the file of that name
that was added last. Nobody owns the empty name. -/
structure OwnedByLast (workspace : Workspace) : Prop where
  libraries : workspace.libraries = []
  sorted : workspace.owners.Sorted
  lookup_eq : ∀ key, workspace.owners.lookup key = if key = [] then none else workspace.heir? key

namespace OwnedByLast

variable {workspace : Workspace}

theorem empty : Workspace.empty.OwnedByLast :=
  ⟨rfl, List.Pairwise.nil, fun _ => (ite_self _).symm⟩

/-- Taking a file away from between others changes the heir of its own name at most, and
not even that if there is a file of the same name behind it. -/
theorem find?_reverse_erase {front back : List SourceFile} {file : SourceFile} {key : Text}
    (h : file.key ≠ key ∨ (back.reverse.find? (·.key = key)).isSome) :
    (front ++ back).reverse.find? (·.key = key) =
      (front ++ file :: back).reverse.find? (·.key = key) := by
  simp only [List.reverse_append, List.reverse_cons, List.find?_append]
  rcases h with hkey | hsome
  · simp [hkey]
  · obtain ⟨other, hother⟩ := Option.isSome_iff_exists.1 hsome
    simp [hother]

theorem removeFile (h : workspace.OwnedByLast) (path : Path) :
    (workspace.removeFile path).OwnedByLast := by
  cases hfind : workspace.file? path with
  | none =>
    rw [removeFile_of_none hfind]
    exact h
  | some file =>
    have hlibraries := (removeFile_of_some hfind).2.1.trans h.libraries
    obtain ⟨hpath, front, back, hsplit, hchanged⟩ := exists_split_removeFile hfind
    refine ⟨hlibraries, sorted_removeFile h.sorted path, fun key => ?_⟩
    rw [lookup_removeFile hfind]
    by_cases hnamed : key = []
    · have hnone : workspace.owners.lookup [] = none := (h.lookup_eq []).trans (if_pos rfl)
      rw [if_pos hnamed, if_neg, hnamed, hnone]
      rintro ⟨hkey, howned⟩
      obtain ⟨owner, howner, -⟩ := isOwnedByFile_iff.1 howned
      rw [← hkey, hnamed, hnone] at howner
      cases howner
    rw [if_neg hnamed]
    split
    · rfl
    · rename_i hkept
      have hstays : file.key ≠ key ∨ (back.reverse.find? (·.key = key)).isSome := by
        by_cases hkey : file.key = key
        · -- With no later file of its name the removed file would own the name.
          refine .inr (Option.isSome_iff_ne_none.2 fun hlast => hkept ⟨hkey.symm, ?_⟩)
          refine isOwnedByFile_iff.2 ⟨file.path, ?_, hpath⟩
          rw [h.lookup_eq, hkey, if_neg hnamed, heir?_of_no_libraries _ h.libraries, hsplit]
          simp [hlast, hkey]
        · exact .inl hkey
      rw [h.lookup_eq, if_neg hnamed, heir?_of_no_libraries _ h.libraries,
        heir?_of_no_libraries _ hlibraries, hchanged, hsplit, find?_reverse_erase hstays]

theorem addFile (h : workspace.OwnedByLast) (file : SourceFile) :
    (workspace.addFile file).OwnedByLast := by
  have hremoved := h.removeFile file.path
  have hheir (key : Text) : (workspace.addFile file).heir? key =
      if key = file.key then some (.file file.path)
      else (workspace.removeFile file.path).heir? key := by
    rw [heir?_of_no_libraries _ hremoved.libraries,
      heir?_of_no_libraries (workspace.addFile file) hremoved.libraries]
    by_cases hkey : key = file.key
    · simp [Workspace.addFile, hkey]
    · simp [Workspace.addFile, hkey, Ne.symm hkey]
  by_cases hname : file.moduleName = []
  · have howners : (workspace.addFile file).owners = (workspace.removeFile file.path).owners := by
      simp [Workspace.addFile, hname]
    refine ⟨hremoved.libraries, howners ▸ hremoved.sorted, fun key => ?_⟩
    have hfree : file.key = [] := by simp [SourceFile.key, hname, Text.lower, Text.lowerAfter]
    rw [howners, hremoved.lookup_eq, hheir, hfree]
    by_cases hkey : key = [] <;> simp [hkey]
  · have howners : (workspace.addFile file).owners =
        (workspace.removeFile file.path).owners.set file.key (.file file.path) := by
      simp [Workspace.addFile, hname]
    refine ⟨hremoved.libraries, howners ▸ hremoved.sorted.set _ _, fun key => ?_⟩
    rw [howners, Owners.lookup_set, hremoved.lookup_eq, hheir]
    by_cases hkey : key = file.key
    · have hfilled : file.key ≠ [] := Text.lower_ne_nil hname
      rw [if_pos hkey, if_neg (hkey ▸ hfilled), if_pos hkey]
    · rw [if_neg hkey, if_neg hkey]

end OwnedByLast

end Workspace

end SuiteIndex

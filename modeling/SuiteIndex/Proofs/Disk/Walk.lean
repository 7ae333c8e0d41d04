import SuiteIndex.Disk.Walk
import SuiteIndex.Proofs.Path

/-! # What a walk finds

The laws of a walk settle which files it finds and in what order. In a folder all entries have
different names, so visiting them in the order of their names, each with all that it holds,
lists files in the order of their whole paths. A file is found exactly if all folders on the way
may be opened and no name on the way is passed over.
-/

namespace SuiteIndex

open SuiteIndex.Path (IsName)

namespace Entry

/-- In each folder the entries are named apart from one another. -/
inductive WellNamed : Entry → Prop where
  | closed {entry : Entry} (h : ∀ entries, entry ≠ .folder entries) : WellNamed entry
  | folder {entries : List (Bytes × Entry)} (hnodup : (entries.map Prod.fst).Nodup)
    (hnames : ∀ named ∈ entries, IsName named.1) (hinner : ∀ named ∈ entries, WellNamed named.2) :
    WellNamed (.folder entries)

/-- A regular file stands at the end of a chain of names through folders that may be opened. -/
inductive HasFile : Entry → List Bytes → Prop where
  | file {entry : Entry} (h : entry.kind = .file) : HasFile entry []
  | folder {entries : List (Bytes × Entry)} {name : Bytes} {entry : Entry} {names : List Bytes}
    (hmem : (name, entry) ∈ entries) (h : HasFile entry names) :
    HasFile (.folder entries) (name :: names)

theorem WellNamed.of_folder {entries : List (Bytes × Entry)}
    (h : (Entry.folder entries).WellNamed) :
    (entries.map Prod.fst).Nodup ∧ ∀ named ∈ entries, IsName named.1 ∧ named.2.WellNamed := by
  cases h with
  | closed h => exact absurd rfl (h entries)
  | folder hnodup hnames hinner =>
    exact ⟨hnodup, fun named hnamed => ⟨hnames named hnamed, hinner named hnamed⟩⟩

theorem HasFile.isName {entry : Entry} {names : List Bytes} (h : entry.HasFile names)
    (hentry : entry.WellNamed) : ∀ name ∈ names, IsName name := by
  induction h with
  | file => simp
  | folder hmem _ ih =>
    obtain ⟨hname, hinner⟩ := hentry.of_folder.2 _ hmem
    exact List.forall_mem_cons.2 ⟨hname, ih hinner⟩

theorem HasFile.eq_nil {entry : Entry} {names : List Bytes} (h : entry.HasFile names)
    (hentry : ∀ entries, entry ≠ .folder entries) : names = [] ∧ entry.kind = .file := by
  cases h with
  | file h => exact ⟨rfl, h⟩
  | folder => exact absurd rfl (hentry _)

end Entry

/-- The path of a finding that is a regular file. -/
def Visited.file? : Except Disk.Fault Visited → Option Path
  | .ok visited => if visited.kind = .file then some visited.path else none
  | .error _ => none

def Visited.files (findings : List (Except Disk.Fault Visited)) : List Path :=
  findings.filterMap file?

theorem Visited.files_folder {visited : Visited} (h : visited.kind ≠ .file)
    (sorted : List (Bytes × Entry)) (found : Bytes × Entry → List (Except Disk.Fault Visited)) :
    files (.ok visited :: sorted.flatMap found) =
      sorted.flatMap fun named => files (found named) := by
  simp [files, file?, h, List.filterMap_flatMap]

namespace Entry.Visits

open Visited (files_folder)

variable {keep : Visited → Bool} {visited : Visited} {entry : Entry} {p : Path}
  {findings : List (Except Disk.Fault Visited)}

theorem eq_nil_of_pruned (h : entry.Visits keep visited findings) (hkeep : keep visited = false) :
    findings = [] := by
  cases h with
  | pruned => rfl
  | leaf hkept | closed hkept | folder hkept => simp [hkeep] at hkept

/-- Below the root only the name of an entry decides whether it is passed over. -/
def PassesOver (keep : Visited → Bool) (hides : Bytes → Bool) : Prop :=
  ∀ (folder : Visited) (named : Bytes × Entry), IsName named.1 →
    keep (folder.inner named) = !hides named.1

variable {hides : Bytes → Bool}

/-- A walk finds the files that it reaches without passing over a name on the way. -/
theorem mem_files_iff (hkeep : PassesOver keep hides) (h : entry.Visits keep visited findings)
    (hentry : entry.WellNamed) (hkept : keep visited = true)
    (hkind : visited.kind = .file ↔ entry.kind = .file) :
    p ∈ Visited.files findings ↔ ∃ names, entry.HasFile names ∧
      (∀ name ∈ names, hides name = false) ∧ p = visited.path.below names := by
  induction h with
  | pruned hpruned => simp [hkept] at hpruned
  | @leaf visited _ entry hleaf =>
    constructor
    · intro hp
      obtain ⟨hfile, rfl⟩ : visited.kind = .file ∧ visited.path = p := by
        simpa [Visited.files, Visited.file?] using hp
      exact ⟨[], .file (hkind.1 hfile), by simp, rfl⟩
    · rintro ⟨names, hreached, -, rfl⟩
      obtain ⟨rfl, hfile⟩ := hreached.eq_nil fun entries heq => hleaf (heq ▸ rfl)
      simp [Visited.files, Visited.file?, Path.below, hkind.2 hfile]
  | @closed visited _ entry hfolder fault =>
    have hnofile : (locked entry).kind ≠ .file := by simp [Entry.kind, hfolder]
    -- A locked folder shows what it is, but no chain of names leads into it.
    constructor
    · intro hp
      simp [Visited.files, Visited.file?, mt hkind.1 hnofile] at hp
    · rintro ⟨names, hfile, -⟩
      exact absurd (hfile.eq_nil fun entries heq => by cases heq).2 hnofile
  | @folder visited _ entries sorted hperm _ found hfound ih =>
    have hinner : ∀ named ∈ entries, p ∈ Visited.files (found named) ↔ hides named.1 = false ∧
        ∃ names, named.2.HasFile names ∧ (∀ name ∈ names, hides name = false) ∧
          p = (visited.path.join named.1).below names := by
      intro named hnamed
      obtain ⟨hname, hwell⟩ := hentry.of_folder.2 named hnamed
      have hkept := hkeep visited named hname
      cases hhidden : hides named.1 with
      | true =>
        rw [eq_nil_of_pruned (hfound named hnamed) (by rw [hkept, hhidden]; rfl)]
        simp [Visited.files]
      | false =>
        rw [ih named hnamed hwell (by rw [hkept, hhidden]; rfl) Iff.rfl]
        simp [Visited.inner]
    have hnofile : visited.kind ≠ .file := mt hkind.1 (by simp [Entry.kind])
    rw [files_folder hnofile, List.mem_flatMap]
    constructor
    · rintro ⟨named, hnamed, hp⟩
      have hmem := hperm.mem_iff.1 hnamed
      obtain ⟨hshown, names, hfile, hnames, rfl⟩ := (hinner named hmem).1 hp
      exact ⟨named.1 :: names, .folder hmem hfile, List.forall_mem_cons.2 ⟨hshown, hnames⟩, rfl⟩
    · rintro ⟨_, hfile, hnames, rfl⟩
      cases hfile with
      | file hkind => cases hkind
      | folder hmem hfile =>
        rw [List.forall_mem_cons] at hnames
        exact ⟨_, hperm.mem_iff.2 hmem, (hinner _ hmem).2 ⟨hnames.1, _, hfile, hnames.2, rfl⟩⟩

theorem pairwise_files (hkeep : PassesOver keep hides) (h : entry.Visits keep visited findings)
    (hentry : entry.WellNamed) (hkind : visited.kind = .file ↔ entry.kind = .file) :
    (Visited.files findings).Pairwise Path.Precedes := by
  induction h with
  | pruned => exact List.Pairwise.nil
  | @leaf visited =>
    by_cases hfile : visited.kind = .file <;> simp [Visited.files, Visited.file?, hfile]
  | @closed visited _ entry hfolder =>
    have hnofile : visited.kind ≠ .file := mt hkind.1 (by simp [Entry.kind, hfolder])
    simp [Visited.files, Visited.file?, hnofile, List.filterMap_cons]
  | @folder visited _ entries sorted hperm hsorted found hfound ih =>
    obtain ⟨hnodup, hinner⟩ := hentry.of_folder
    have hnofile : visited.kind ≠ .file := mt hkind.1 (by simp [Entry.kind])
    have hbelow : ∀ named ∈ entries, ∀ p ∈ Visited.files (found named),
        ∃ names, p = visited.path.below (named.1 :: names) ∧
          ∀ name ∈ named.1 :: names, IsName name := by
      intro named hnamed p hp
      obtain ⟨hname, hwell⟩ := hinner named hnamed
      cases hkept : keep (visited.inner named) with
      | false =>
        rw [eq_nil_of_pruned (hfound named hnamed) hkept] at hp
        simp [Visited.files] at hp
      | true =>
        obtain ⟨names, hfile, -, rfl⟩ :=
          (mem_files_iff hkeep (hfound named hnamed) hwell hkept Iff.rfl).1 hp
        exact ⟨names, rfl, List.forall_mem_cons.2 ⟨hname, hfile.isName hwell⟩⟩
    have happart := (hperm.map Prod.fst).nodup_iff.2 hnodup
    have hstrict : sorted.Pairwise fun a b => a.1 < b.1 :=
      hsorted.imp₂ (fun _ _ hle hne => lt_of_le_of_ne (not_lt.1 hle) hne)
        (List.pairwise_map.1 happart)
    rw [files_folder hnofile, List.pairwise_flatMap]
    -- Files of one entry are in order by induction, those of two differ first in the entries' names.
    constructor
    · exact fun named hnamed => ih named (hperm.mem_iff.1 hnamed)
        (hinner named (hperm.mem_iff.1 hnamed)).2 Iff.rfl
    · refine hstrict.imp_of_mem fun {a b} ha hb hlt p hp q hq => ?_
      obtain ⟨names, rfl, hnames⟩ := hbelow a (hperm.mem_iff.1 ha) p hp
      obtain ⟨others, rfl, hothers⟩ := hbelow b (hperm.mem_iff.1 hb) q hq
      exact Path.precedes_below visited.path hlt hnames hothers

end Entry.Visits

namespace Entry

variable {keep : Visited → Bool}

theorem insideEach_eq (folder : Visited) (entries : List (Bytes × Entry)) :
    insideEach keep folder entries =
      entries.map fun named => (named.1, visits keep (folder.inner named) named.2) := by
  induction entries with
  | nil => rfl
  | cons named entries ih => rw [insideEach, ih, List.map_cons, visits]

theorem inside_folder (visited : Visited) (entries : List (Bytes × Entry)) :
    inside keep visited (.folder entries) = (entries.mergeSort nameNotAfter).flatMap fun named =>
      visits keep (visited.inner named) named.2 := by
  have hsort := List.map_mergeSort (r := nameNotAfter) (s := nameNotAfter)
    (f := fun named : Bytes × Entry => (named.1, visits keep (visited.inner named) named.2))
    (l := entries) fun _ _ _ _ => rfl
  rw [inside, insideEach_eq, ← hsort, List.flatMap_map]

theorem pairwise_nameNotAfter {α : Type} (entries : List (Bytes × α)) :
    (entries.mergeSort nameNotAfter).Pairwise fun a b => ¬ b.1 < a.1 := by
  refine (List.pairwise_mergeSort ?_ ?_ entries).imp fun h => by simpa [nameNotAfter] using h
  · intro a b c hab hbc
    simp only [nameNotAfter, Bool.not_eq_true', decide_eq_false_iff_not, not_lt] at hab hbc ⊢
    exact hab.trans hbc
  · intro a b
    simp only [nameNotAfter, Bool.or_eq_true, Bool.not_eq_true', decide_eq_false_iff_not, not_lt]
    exact le_total _ _

theorem visits_visits (visited : Visited) (entry : Entry) :
    Visits keep visited entry (visits keep visited entry) := by
  rw [visits]
  cases hkeep : keep visited with
  | false => exact .pruned hkeep entry
  | true =>
    rw [cond_true]
    cases entry with
    | folder entries =>
      rw [inside_folder]
      refine .folder hkeep (List.mergeSort_perm _ _) (pairwise_nameNotAfter entries) ?_
      exact fun named hnamed => visits_visits (visited.inner named) named.2
    | locked entry =>
      rw [inside]
      split
      · rename_i hkind
        exact .closed hkeep hkind .denied
      · rename_i hkind
        exact .leaf hkeep hkind
    | file | link | special => exact .leaf hkeep (by simp [kind])
termination_by sizeOf entry
decreasing_by
  have hsize := List.sizeOf_lt_of_mem hnamed
  obtain ⟨name, entry⟩ := named
  grind

end Entry

theorem Disk.isDepthFirst_walk : walk.IsDepthFirst := by
  intro disk root keep entry hfind hkind
  refine ⟨entry.kind, by simp [hkind], ?_⟩
  rw [walk, hfind]
  exact Entry.visits_visits _ entry

end SuiteIndex

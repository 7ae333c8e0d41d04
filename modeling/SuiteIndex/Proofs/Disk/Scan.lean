import SuiteIndex.Disk.Load
import SuiteIndex.Proofs.Disk.Walk

/-! # What a scan collects

A scan of a folder collects the regular files below it that can be reached, in the order of their
paths: just those with a wanted extension and, if hidden entries are left out, without a name on
the way that is UTF-8 and begins with a dot. A name that is not UTF-8 hides nothing, whatever its
first byte is.
-/

namespace SuiteIndex

open SuiteIndex.Path (IsName)

namespace Entry

theorem wellNamed_empty : (folder []).WellNamed :=
  .folder List.nodup_nil (by simp) (by simp)

theorem wellNamed_of_lookup {entries : List (Bytes × Entry)} (h : (folder entries).WellNamed)
    {name : Bytes} {entry : Entry} (hlookup : entries.lookup name = some entry) :
    entry.WellNamed := by
  obtain ⟨_, _, rfl, -⟩ := List.lookup_eq_some_iff.1 hlookup
  exact (h.of_folder.2 (name, entry) (by simp)).2

/-- A jump from well-named folders leads to well-named entries only. -/
def JumpsWell (jump : List Entry → Entry → Path → List Bytes → Except Disk.Fault Entry) : Prop :=
  ∀ above folder target rest found, (∀ outer ∈ above, outer.WellNamed) → folder.WellNamed →
    jump above folder target rest = .ok found → found.WellNamed

theorem wellNamed_of_descend
    {jump : List Entry → Entry → Path → List Bytes → Except Disk.Fault Entry}
    (hjump : JumpsWell jump) {above : List Entry} {entry found : Entry} {pieces : List Bytes}
    (habove : ∀ outer ∈ above, outer.WellNamed) (hentry : entry.WellNamed)
    (h : descend jump above entry pieces = .ok found) : found.WellNamed := by
  fun_induction descend jump above entry pieces with
  | case1 => exact Except.ok.inj h ▸ hentry
  | case2 _ _ _ _ _ ih => exact ih habove hentry h
  | case3 _ _ _ _ _ ih =>
    rw [List.forall_mem_cons] at habove
    exact ih habove.2 habove.1 h
  | case4 _ _ _ ih => exact ih habove hentry h
  | case5 => exact hjump _ _ _ _ _ habove hentry h
  | case6 _ _ _ _ _ _ entry _ hlookup ih =>
    exact ih (List.forall_mem_cons.2 ⟨hentry, habove⟩) (wellNamed_of_lookup hentry hlookup) h
  | case7 => cases h
  | case8 => cases h
  | case9 => cases h

theorem wellNamed_of_follow {root : Entry} (hroot : root.WellNamed) (links : Nat)
    {above : List Entry} {entry found : Entry} {pieces : List Bytes}
    (habove : ∀ outer ∈ above, outer.WellNamed) (hentry : entry.WellNamed)
    (h : follow root links above entry pieces = .ok found) : found.WellNamed := by
  induction links generalizing above entry found pieces with
  | zero => exact wellNamed_of_descend (fun _ _ _ _ _ _ _ h => by cases h) habove hentry h
  | succ links ih =>
    refine wellNamed_of_descend (fun above folder target rest found habove hfolder h => ?_)
      habove hentry h
    split at h
    · exact ih (by simp) hroot h
    · exact ih habove hfolder h

theorem fst_set (name : Bytes) (entry : Entry) (entries : List (Bytes × Entry)) :
    (set name entry entries).map Prod.fst = entries.map Prod.fst ∨
      name ∉ entries.map Prod.fst ∧
        (set name entry entries).map Prod.fst = entries.map Prod.fst ++ [name] := by
  induction entries with
  | nil => exact .inr ⟨by simp, rfl⟩
  | cons named entries ih =>
    obtain ⟨other, old⟩ := named
    rw [set]
    by_cases hname : other = name
    · exact .inl (by simp [hname])
    · rw [if_neg hname]
      rcases ih with hkept | ⟨hnew, hlast⟩
      · exact .inl (by simp [hkept])
      · exact .inr ⟨by simpa [Ne.symm hname] using hnew, by simp [hlast]⟩

theorem mem_of_mem_set {name : Bytes} {entry : Entry} {entries : List (Bytes × Entry)}
    {named : Bytes × Entry} (h : named ∈ set name entry entries) :
    named = (name, entry) ∨ named ∈ entries := by
  induction entries with
  | nil => exact .inl (List.mem_singleton.1 h)
  | cons first rest ih =>
    rw [set] at h
    split at h
    · exact (List.mem_cons.1 h).imp_right (List.mem_cons_of_mem _)
    · rcases List.mem_cons.1 h with rfl | h
      · exact .inr List.mem_cons_self
      · exact (ih h).imp_right (List.mem_cons_of_mem _)

theorem wellNamed_set {entries : List (Bytes × Entry)} (h : (folder entries).WellNamed)
    {name : Bytes} (hname : IsName name) {entry : Entry} (hentry : entry.WellNamed) :
    (folder (set name entry entries)).WellNamed := by
  obtain ⟨hnodup, hinner⟩ := h.of_folder
  refine .folder ?_ (fun named hnamed => ?_) (fun named hnamed => ?_)
  · rcases fst_set name entry entries with hkept | ⟨hnew, hlast⟩
    · exact hkept ▸ hnodup
    · exact hlast ▸ List.nodup_append.2 ⟨hnodup, by simp, by grind⟩
  · rcases mem_of_mem_set hnamed with rfl | hnamed
    exacts [hname, (hinner named hnamed).1]
  · rcases mem_of_mem_set hnamed with rfl | hnamed
    exacts [hentry, (hinner named hnamed).2]

theorem wellNamed_put {entry : Entry} (hentry : entry.WellNamed) {names : List Bytes}
    (hnames : ∀ name ∈ names, IsName name) {siblings : List (Bytes × Entry)}
    (h : (folder siblings).WellNamed) : (folder (put entry names siblings)).WellNamed := by
  fun_induction put entry names siblings with
  | case1 => exact h
  | case2 => exact h
  | case3 => exact wellNamed_set h (hnames _ List.mem_cons_self) hentry
  | case4 name rest siblings _ ih =>
    rw [List.forall_mem_cons] at hnames
    refine wellNamed_set h hnames.1 (ih hnames.2 ?_)
    cases hlookup : siblings.lookup name with
    | none => exact wellNamed_empty
    | some inner =>
      cases inner with
      | folder entries => exact wellNamed_of_lookup h hlookup
      | file | link | special | locked => exact wellNamed_empty

end Entry

namespace ScanOptions

variable {options : ScanOptions}

/-- Whether an entry of this name is left out. -/
def hides (options : ScanOptions) (name : Bytes) : Bool :=
  options.skipHidden && (Bytes.text? name).any (Text.startsWith ['.'])

theorem hides_eq_false_iff {name : Bytes} : options.hides name = false ↔
    (options.skipHidden = true → ∀ text, Bytes.text? name = some text → text.head? ≠ some '.') := by
  cases hname : Bytes.text? name <;> simp [hides, hname, Text.startsWith_singleton]

theorem forall_hides_eq_false_iff {names : List Bytes} :
    (∀ name ∈ names, options.hides name = false) ↔
      (options.skipHidden = true → ∀ name ∈ names, ∀ text,
        Bytes.text? name = some text → text.head? ≠ some '.') := by
  simp only [hides_eq_false_iff]
  exact ⟨fun h hskip name hname => h name hname hskip, fun h name hname hskip => h hskip name hname⟩

theorem passesOver_hides : Entry.Visits.PassesOver (!options.passesOver ·) options.hides := by
  intro folder named hname
  have hpieces : ∀ piece ∈ [] ++ [named.1], IsName piece := by simpa using hname
  have hcalled : (folder.inner named).name = named.1 := by
    rw [Visited.name]
    exact congrArg (Option.getD · _) (Path.fileName?_below folder.path hpieces)
  have hdepth : 0 < (folder.inner named).depth := Nat.succ_pos _
  simp [passesOver, hides, hcalled, hdepth]

theorem filterMap_picked? (findings : List (Except Disk.Fault Visited)) :
    findings.filterMap options.picked? = (Visited.files findings).filter options.accepts := by
  rw [Visited.files, List.filter_filterMap]
  refine List.filterMap_congr fun finding _ => ?_
  cases finding with
  | error fault => rfl
  | ok visited =>
    by_cases hfile : visited.kind = .file <;> simp [picked?, Visited.file?, hfile, Option.filter]

theorem accepts_below_iff {folder : Path} {above : List Bytes} {name : Bytes}
    (h : ∀ piece ∈ above ++ [name], IsName piece) :
    options.accepts (folder.below (above ++ [name])) = true ↔
      ∃ extension wanted, (Path.cutName name).2.bind Bytes.text? = some extension ∧
        wanted ∈ options.extensions ∧ Text.sameIgnoringAsciiCase wanted extension = true := by
  have hextension : (folder.below (above ++ [name])).extension? =
      (Path.cutName name).2.bind Bytes.text? := by
    rw [Path.extension?, Path.fileName?_below folder h]
    rfl
  rw [accepts, hextension]
  cases (Path.cutName name).2.bind Bytes.text? with
  | none => simp
  | some extension => simp [List.any_eq_true]

end ScanOptions

namespace Disk

section

variable {walk : Walk} {disk : Disk} {options : ScanOptions} {root : Path} {entry : Entry}

/-- No folder of the disk has two entries of one name. -/
def WellNamed (disk : Disk) : Prop :=
  disk.root.WellNamed

theorem wellNamed_empty : empty.WellNamed :=
  Entry.wellNamed_empty

/-- A disk with these entries, put in place one after another from the root. -/
def ofEntries (entries : List (Path × Entry)) : Disk :=
  entries.foldl (fun disk named => disk.put named.1 named.2) empty

/-- Putting an entry at a path makes folders on the way, and so names them all apart. -/
theorem wellNamed_put (hdisk : disk.WellNamed) (hcurrent : disk.current = []) (path : Path)
    (hentry : entry.WellNamed) :
    (disk.put path entry).WellNamed ∧ (disk.put path entry).current = [] := by
  refine ⟨Entry.wellNamed_put hentry (fun name hname => ?_) hdisk, hcurrent⟩
  rw [hcurrent, List.nil_append, ite_self] at hname
  obtain ⟨component, hcomponent, heq⟩ := List.mem_filterMap.1 hname
  cases component with
  | name piece =>
    cases heq
    exact Path.isName_of_mem_components hcomponent
  | _ => cases heq

theorem wellNamed_ofEntries {entries : List (Path × Entry)}
    (h : ∀ named ∈ entries, named.2.WellNamed) : (ofEntries entries).WellNamed :=
  (List.foldlRecOn (motive := fun disk : Disk => disk.WellNamed ∧ disk.current = []) entries _
    ⟨wellNamed_empty, rfl⟩ fun _ hdisk named hnamed =>
      wellNamed_put hdisk.1 hdisk.2 named.1 (h named hnamed)).1

theorem wellNamed_of_find (hdisk : disk.WellNamed) (h : disk.find root = .ok entry) :
    entry.WellNamed := by
  unfold find at h
  split at h
  · cases h
  · exact Entry.wellNamed_of_follow hdisk 40 (by simp) hdisk h

theorem collect_of_folder (h : disk.find root = .ok entry) (hkind : entry.kind = .folder) :
    disk.collect walk options root =
      .ok ((Visited.files (walk disk root (!options.passesOver ·))).filter options.accepts) := by
  rw [collect, scan, h, ← ScanOptions.filterMap_picked?]
  simp only [bind, Except.bind, hkind]
  rfl

theorem files_walk (hwalk : walk.IsDepthFirst) (hdisk : disk.WellNamed)
    (hfind : disk.find root = .ok entry) (hkind : entry.kind = .folder) :
    (Visited.files (walk disk root (!options.passesOver ·))).Pairwise Path.Precedes ∧
      ∀ path, path ∈ Visited.files (walk disk root (!options.passesOver ·)) ↔
        ∃ names, entry.HasFile names ∧ (∀ name ∈ names, options.hides name = false) ∧
          path = root.below names := by
  obtain ⟨kind, hroot, hvisits⟩ := hwalk disk root (!options.passesOver ·) entry hfind hkind
  have hentry := wellNamed_of_find hdisk hfind
  have hfile : kind = .file ↔ entry.kind = .file := by simp [hroot, hkind]
  exact ⟨hvisits.pairwise_files ScanOptions.passesOver_hides hentry hfile, fun path =>
    hvisits.mem_files_iff ScanOptions.passesOver_hides hentry
      (by simp [ScanOptions.passesOver]) hfile⟩

theorem mem_collected_iff (hwalk : walk.IsDepthFirst) (hdisk : disk.WellNamed)
    (hfind : disk.find root = .ok entry) (hkind : entry.kind = .folder) {path : Path} :
    path ∈ (Visited.files (walk disk root (!options.passesOver ·))).filter options.accepts ↔
      ∃ above name, entry.HasFile (above ++ [name]) ∧ path = root.below (above ++ [name]) ∧
        (∃ extension wanted, (Path.cutName name).2.bind Bytes.text? = some extension ∧
          wanted ∈ options.extensions ∧ Text.sameIgnoringAsciiCase wanted extension = true) ∧
        ∀ piece ∈ above ++ [name], options.hides piece = false := by
  have hentry := wellNamed_of_find hdisk hfind
  rw [List.mem_filter, (files_walk hwalk hdisk hfind hkind).2]
  constructor
  · -- The root itself is a folder, so the chain of names to a file has a last one.
    rintro ⟨⟨names, hfile, hshown, rfl⟩, haccepted⟩
    rcases List.eq_nil_or_concat names with rfl | ⟨above, name, rfl⟩
    · cases hfile with
      | file hfile => simp [hkind] at hfile
    · rw [List.concat_eq_append] at hfile hshown haccepted ⊢
      exact ⟨above, name, hfile, rfl,
        (ScanOptions.accepts_below_iff (hfile.isName hentry)).1 haccepted, hshown⟩
  · rintro ⟨above, name, hfile, rfl, hwanted, hshown⟩
    exact ⟨⟨_, hfile, hshown, rfl⟩,
      (ScanOptions.accepts_below_iff (hfile.isName hentry)).2 hwanted⟩

/-- With a depth-first walk the scan of a folder gives, in strictly increasing order, the paths of
the files below it that have one of the wanted extensions and, if hidden entries are left out, no
name on the way from the folder that is UTF-8 and begins with a dot. -/
theorem collect_lists_files (hwalk : walk.IsDepthFirst) (hdisk : disk.WellNamed)
    (hfind : disk.find root = .ok entry) (hkind : entry.kind = .folder) (options : ScanOptions) :
    ∃ paths, disk.collect walk options root = .ok paths ∧ paths.Pairwise Path.Precedes ∧
      ∀ path, path ∈ paths ↔ ∃ above name, entry.HasFile (above ++ [name]) ∧
        path = root.below (above ++ [name]) ∧
        (∃ extension wanted, (Path.cutName name).2.bind Bytes.text? = some extension ∧
          wanted ∈ options.extensions ∧ Text.sameIgnoringAsciiCase wanted extension = true) ∧
        (options.skipHidden = true → ∀ piece ∈ above ++ [name], ∀ text,
          Bytes.text? piece = some text → text.head? ≠ some '.') := by
  refine ⟨_, collect_of_folder hfind hkind, (files_walk hwalk hdisk hfind hkind).1.filter _,
    fun path => ?_⟩
  simp only [← ScanOptions.forall_hides_eq_false_iff]
  exact mem_collected_iff hwalk hdisk hfind hkind

end

/-- A hidden root is scanned, and so is what lies below a folder in it that is not hidden. What
cannot be opened does no harm. -/
theorem collect_of_hidden_root :
    let disk := ofEntries [(.ofText "/.w/a.robot".toList, .file .empty),
      (.ofText "/.w/a/.git/h.robot".toList, .file .empty),
      (.ofText "/.w/a/x.PY".toList, .file .empty),
      (.ofText "/.w/b".toList, .locked (.folder [(Text.utf8 "y.robot".toList, .file .empty)]))]
    let root := Path.ofText "/.w/a/..".toList
    ∃ entry paths, walk.IsDepthFirst ∧ disk.WellNamed ∧ disk.find root = .ok entry ∧
      entry.kind = .folder ∧ disk.collect walk .default root = .ok paths ∧
      paths.Pairwise Path.Precedes ∧ Path.ofText "/.w/a/../a/x.PY".toList ∈ paths ∧
      ∀ path, path ∈ paths ↔ ∃ above name, entry.HasFile (above ++ [name]) ∧
        path = root.below (above ++ [name]) ∧
        (∃ extension wanted, (Path.cutName name).2.bind Bytes.text? = some extension ∧
          wanted ∈ ScanOptions.default.extensions ∧
          Text.sameIgnoringAsciiCase wanted extension = true) ∧
        (ScanOptions.default.skipHidden = true → ∀ piece ∈ above ++ [name], ∀ text,
          Bytes.text? piece = some text → text.head? ≠ some '.') := by
  intro disk root
  have hdisk : disk.WellNamed := wellNamed_ofEntries (by
    simp only [List.forall_mem_cons, List.not_mem_nil, false_imp_iff, implies_true, and_true]
    exact ⟨.closed nofun, .closed nofun, .closed nofun, .closed nofun⟩)
  have hfind : disk.find root = .ok (.folder [(Text.utf8 "a.robot".toList, .file .empty),
      (Text.utf8 "a".toList, .folder [
        (Text.utf8 ".git".toList, .folder [(Text.utf8 "h.robot".toList, .file .empty)]),
        (Text.utf8 "x.PY".toList, .file .empty)]),
      (Text.utf8 "b".toList, .locked (.folder [(Text.utf8 "y.robot".toList, .file .empty)]))]) := by
    rfl
  obtain ⟨paths, hpaths, hsorted, hmem⟩ :=
    collect_lists_files isDepthFirst_walk hdisk hfind rfl .default
  have hshown : ∀ piece ∈ [Text.utf8 "a".toList] ++ [Text.utf8 "x.PY".toList],
      ScanOptions.default.hides piece = false := by decide +kernel
  refine ⟨_, paths, isDepthFirst_walk, hdisk, hfind, rfl, hpaths, hsorted, (hmem _).2 ?_, hmem⟩
  exact ⟨[Text.utf8 "a".toList], Text.utf8 "x.PY".toList,
    .folder (.tail _ (.head _)) (.folder (.tail _ (.head _)) (.file rfl)), by rfl,
    ⟨"PY".toList, "py".toList, Bytes.text?_utf8 _, by decide, by decide⟩,
    ScanOptions.forall_hides_eq_false_iff.1 hshown⟩

/-- A name that begins with a dot and is not UTF-8 is collected although hidden entries are left
out. -/
theorem collect_of_undecodable_name :
    let name : Bytes := Path.dot :: 0xFF :: Text.utf8 ".robot".toList
    let root := Path.ofText "w".toList
    let disk := ofEntries [(root.join name, .file .empty)]
    ScanOptions.default.skipHidden = true ∧ walk.IsDepthFirst ∧ disk.WellNamed ∧
      disk.find root = .ok (.folder [(name, .file .empty)]) ∧
      (Entry.folder [(name, .file .empty)]).HasFile [name] ∧
      ∃ paths, disk.collect walk .default root = .ok paths ∧ root.join name ∈ paths := by
  intro name root disk
  have hdisk : disk.WellNamed := wellNamed_ofEntries (by simpa using .closed nofun)
  have hfind : disk.find root = .ok (.folder [(name, .file .empty)]) := by rfl
  have hfile : (Entry.folder [(name, .file .empty)]).HasFile [name] :=
    .folder List.mem_cons_self (.file rfl)
  have hshown : ∀ piece ∈ [] ++ [name], ScanOptions.default.hides piece = false := by
    simp only [name]
    decide +kernel
  refine ⟨rfl, isDepthFirst_walk, hdisk, hfind, hfile, _, collect_of_folder hfind rfl, ?_⟩
  exact (mem_collected_iff isDepthFirst_walk hdisk hfind rfl).2 ⟨[], name, hfile, rfl,
    ⟨"robot".toList, "robot".toList, Bytes.text?_utf8 _, by decide, by decide⟩, hshown⟩

end Disk

end SuiteIndex

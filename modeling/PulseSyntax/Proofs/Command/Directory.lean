import Mathlib.Data.List.Basic
import PulseSyntax.Command.Run

namespace PulseSyntax

namespace FileTree

mutual

def files (path : String) : FileTree → List (String × Except ReadError String)
  | file content => [(path, content)]
  | directory entries => filesOf path entries

def filesOf (path : String) :
    List (String × FileTree) → List (String × Except ReadError String)
  | [] => []
  | (name, tree) :: entries => files (Path.join path name) tree ++ filesOf path entries

end

mutual

/-- The paths of the directories of a tree, its own before those of its entries. -/
def directories (path : String) : FileTree → List String
  | file _ => []
  | directory entries => path :: directoriesOf path entries

def directoriesOf (path : String) : List (String × FileTree) → List String
  | [] => []
  | (name, tree) :: entries => directories (Path.join path name) tree ++ directoriesOf path entries

end

def components (path : String) (tree : FileTree) : List (String × String) :=
  ((tree.files path).filter fun f => Path.isComponent f.1).filterMap fun f =>
    f.2.toOption.map (f.1, ·)

def misnamed (path : String) (tree : FileTree) : Nat :=
  (tree.directories path).countP Path.isComponent

/-- The walk can list every directory, and every component can be read as text. -/
structure Readable (path : String) (tree : FileTree) : Prop where
  listed : ∀ d ∈ tree.directories path, Path.isLong d = false
  short : ∀ f ∈ tree.files path, Path.isComponent f.1 = true → Path.isLong f.1 = false
  text : ∀ f ∈ tree.files path, Path.isComponent f.1 = true → ∃ source, f.2 = .ok source

def content? : String × FileTree → Option (String × Except ReadError String)
  | (path, file content) => some (path, content)
  | (_, directory _) => none

def directory? : String × FileTree → Option String
  | (_, file _) => none
  | (path, directory _) => some path

mutual

theorem walk_split (path : String) : (tree : FileTree) →
    (∀ d ∈ tree.directories path, Path.isLong d = false) →
    (tree.walk path).filterMap content? = tree.files path ∧
      (tree.walk path).filterMap directory? = tree.directories path
  | file content, _ => ⟨rfl, rfl⟩
  | directory entries, listed => by
    have own : Path.isLong path = false := listed path (by simp [directories])
    obtain ⟨files, directories⟩ := walkEntries_split path entries fun d member =>
      listed d (by simp [directories, member])
    simp only [walk, own, Bool.false_eq_true, ↓reduceIte]
    exact ⟨files, congrArg (path :: ·) directories⟩

theorem walkEntries_split (path : String) : (entries : List (String × FileTree)) →
    (∀ d ∈ directoriesOf path entries, Path.isLong d = false) →
    (walkEntries path entries).filterMap content? = filesOf path entries ∧
      (walkEntries path entries).filterMap directory? = directoriesOf path entries
  | [], _ => ⟨rfl, rfl⟩
  | (name, tree) :: entries, listed => by
    obtain ⟨first, firstNamed⟩ := walk_split (Path.join path name) tree fun d member =>
      listed d (by simp [directoriesOf, member])
    obtain ⟨rest, restNamed⟩ := walkEntries_split path entries fun d member =>
      listed d (by simp [directoriesOf, member])
    simp [walkEntries, filesOf, directoriesOf, first, firstNamed, rest, restNamed]

end

theorem countP_entries {chosen : String × FileTree → Bool}
    (ofFile : String × Except ReadError String → Bool) (ofDirectory : String → Bool)
    (onFile : ∀ path content, chosen (path, file content) = ofFile (path, content))
    (onDirectory : ∀ path entries, chosen (path, directory entries) = ofDirectory path)
    (entries : List (String × FileTree)) :
    entries.countP chosen = (entries.filterMap content?).countP ofFile +
      (entries.filterMap directory?).countP ofDirectory := by
  induction entries with
  | nil => rfl
  | cons entry entries ih =>
    obtain ⟨path, content | below⟩ := entry
    · simp only [List.countP_cons, List.filterMap_cons, content?, directory?, ih, onFile]
      omega
    · simp only [List.countP_cons, List.filterMap_cons, content?, directory?, ih, onDirectory]
      omega

theorem filter_entries {named : String → Bool} {entries : List (String × FileTree)}
    (unnamed : (entries.filterMap directory?).countP named = 0) :
    (entries.filter fun e => named e.1) =
      ((entries.filterMap content?).filter fun f => named f.1).map fun f => (f.1, file f.2) := by
  induction entries with
  | nil => rfl
  | cons entry entries ih =>
    obtain ⟨path, content | below⟩ := entry
    · simp only [List.filter_cons, List.filterMap_cons, content?, directory?] at unnamed ⊢
      rw [ih unnamed]
      split <;> rfl
    · simp only [List.filterMap_cons, directory?, List.countP_cons, Nat.add_eq_zero_iff]
        at unnamed
      have other : named path = false := by simpa using unnamed.2
      simp only [List.filter_cons, List.filterMap_cons, content?, other]
      exact ih unnamed.1

namespace Readable

variable {path : String} {tree : FileTree}

theorem files_eq (h : tree.Readable path) :
    ((tree.files path).filter fun f => Path.isComponent f.1) =
      (tree.components path).map fun f => (f.1, .ok f.2) := by
  have text : ∀ f ∈ (tree.files path).filter fun f => Path.isComponent f.1,
      (f.2.toOption.map (f.1, ·)).map (fun f => (f.1, .ok f.2)) = some f := by
    rintro ⟨name, content⟩ member
    have member := List.mem_filter.mp member
    obtain ⟨source, rfl⟩ := h.text _ member.1 member.2
    rfl
  rw [components, List.map_filterMap]
  exact ((List.filterMap_eq_map_iff_forall_eq_some.mpr text).trans (List.map_id _)).symm

theorem read (h : tree.Readable path) {f : String × String} (member : f ∈ tree.components path) :
    (file (.ok f.2)).read f.1 = .ok f.2 := by
  have found : (f.1, .ok f.2) ∈ (tree.files path).filter fun f => Path.isComponent f.1 := by
    rw [h.files_eq]
    exact List.mem_map_of_mem member
  have found := List.mem_filter.mp found
  simp [FileTree.read, h.short _ found.1 found.2]

end Readable

end FileTree

def Component.failures (options : Options) (components : List (String × String)) : Nat :=
  components.countP fun f => !(Component.parse f.2 options).isOk

/-- The outcome for these components: what each of them leaves, in their order, how many they are
    and how many fail, and success where there is one and all are read. -/
structure Outcome.Reports (colored : Bool) (options : Options) (path : String)
    (components : List (String × String)) (o : Outcome) : Prop where
  out : o.out = ""
  err : o.err = if components = [] then "No .pulse files found in " ++ path ++ "\n"
    else String.join (components.map fun f =>
      (Command.parseFile colored f.1 (.ok f.2) false options).err)
  summary : o.summary = if components = [] then none
    else some ⟨components.length, Component.failures options components⟩
  ok : o.ok = true ↔
    components ≠ [] ∧ ∀ f ∈ components, (Component.parse f.2 options).isOk = true

namespace Command

variable {colored : Bool} {options : Options}

theorem parseFile_ok {path source : String} {json : Bool} :
    (parseFile colored path (.ok source) json options).ok =
      (Component.parse source options).isOk := by
  dsimp only [parseFile]
  split
  next e failed => rw [failed]; rfl
  next c parsed => rw [parsed]; cases json <;> rfl

theorem parseFile_directory {path name : String} {entries : List (String × FileTree)}
    {json : Bool} :
    (parseFile colored path ((FileTree.directory entries).read name) json options).ok = false := by
  unfold FileTree.read
  split <;> rfl

open FileTree

variable {path : String} {tree : FileTree}

def outcomeOf (colored : Bool) (options : Options) (entry : String × FileTree) : Outcome :=
  parseFile colored entry.1 (entry.2.read entry.1) false options

theorem length_entries (h : tree.Readable path) :
    ((tree.walk path).filter fun e => Path.isComponent e.1).length =
      (tree.components path).length + tree.misnamed path := by
  obtain ⟨files, directories⟩ := walk_split path tree h.listed
  rw [← List.countP_eq_length_filter,
    countP_entries (fun f => Path.isComponent f.1) Path.isComponent (fun _ _ => rfl)
      (fun _ _ => rfl),
    files, directories, List.countP_eq_length_filter, h.files_eq, List.length_map, misnamed]

theorem countP_failed (colored : Bool) (options : Options) (h : tree.Readable path) :
    ((tree.walk path).filter fun e => Path.isComponent e.1).countP
        (fun e => !(outcomeOf colored options e).ok) =
      Component.failures options (tree.components path) + tree.misnamed path := by
  obtain ⟨files, directories⟩ := walk_split path tree h.listed
  rw [List.countP_filter,
    countP_entries
      (fun f => !(outcomeOf colored options (f.1, file f.2)).ok && Path.isComponent f.1)
      Path.isComponent (fun _ _ => rfl) (fun _ _ => by simp [outcomeOf, parseFile_directory]),
    files, directories, ← List.countP_filter, h.files_eq, List.countP_map]
  congr 1
  refine List.countP_congr fun f member => ?_
  simp [outcomeOf, h.read member, parseFile_ok]

theorem map_outcomeOf (colored : Bool) (options : Options) (h : tree.Readable path)
    (unnamed : tree.misnamed path = 0) :
    ((tree.walk path).filter fun e => Path.isComponent e.1).map (outcomeOf colored options) =
      (tree.components path).map fun f => parseFile colored f.1 (.ok f.2) false options := by
  obtain ⟨files, directories⟩ := walk_split path tree h.listed
  rw [misnamed, ← directories] at unnamed
  rw [filter_entries unnamed, files, h.files_eq, List.map_map, List.map_map]
  refine List.map_congr_left fun f member => ?_
  simp [outcomeOf, h.read member]

theorem parseDirectory_eq :
    parseDirectory colored path tree options =
      let entries := (tree.walk path).filter fun e => Path.isComponent e.1
      let failed := entries.countP fun e => !(outcomeOf colored options e).ok
      if entries = [] then .failure ("No .pulse files found in " ++ path)
      else ⟨"", String.join ((entries.map (outcomeOf colored options)).map (·.err)),
        some ⟨entries.length, failed⟩, failed == 0⟩ := by
  simp only [parseDirectory, List.countP_map, List.isEmpty_iff]
  rfl

/-- The summary counts the components, those that fail, and every directory that is named as a
    component on both sides. -/
theorem summary_parseDirectory (h : tree.Readable path) :
    (parseDirectory colored path tree options).summary =
      if (tree.components path).length + tree.misnamed path = 0 then none
      else some ⟨(tree.components path).length + tree.misnamed path,
        Component.failures options (tree.components path) + tree.misnamed path⟩ := by
  rw [parseDirectory_eq, ← length_entries h, ← countP_failed colored options h]
  simp only [List.length_eq_zero_iff]
  split <;> rfl

theorem ok_parseDirectory (h : tree.Readable path) :
    (parseDirectory colored path tree options).ok = true ↔
      tree.components path ≠ [] ∧ Component.failures options (tree.components path) = 0 ∧
        tree.misnamed path = 0 := by
  have read := length_entries h
  have failed := countP_failed colored options h
  rw [parseDirectory_eq]
  by_cases nothing : ((tree.walk path).filter fun e => Path.isComponent e.1) = []
  · rw [nothing, List.length_nil] at read
    have empty : tree.components path = [] := List.length_eq_zero_iff.mp (by omega)
    simp [nothing, empty, Outcome.failure]
  · have chosen := List.length_pos_iff.mpr nothing
    simp only [nothing, failed, ↓reduceIte, beq_iff_eq, Nat.add_eq_zero_iff,
      ← List.length_pos_iff]
    omega

theorem reports_parseDirectory (h : tree.Readable path) (unnamed : tree.misnamed path = 0) :
    (parseDirectory colored path tree options).Reports colored options path
      (tree.components path) := by
  have written := map_outcomeOf colored options h unnamed
  have chosen : ((tree.walk path).filter fun e => Path.isComponent e.1) = [] ↔
      tree.components path = [] := by
    rw [← List.length_eq_zero_iff, length_entries h, unnamed, Nat.add_zero,
      List.length_eq_zero_iff]
  constructor
  case out =>
    rw [parseDirectory_eq]
    dsimp only
    split <;> rfl
  case err =>
    rw [parseDirectory_eq]
    simp only [written, chosen, List.map_map]
    split <;> rfl
  case summary =>
    rw [summary_parseDirectory h, unnamed]
    simp [List.length_eq_zero_iff]
  case ok =>
    rw [ok_parseDirectory h]
    simp [unnamed, Component.failures, List.countP_eq_zero]

theorem misnamed_of_reports (h : tree.Readable path)
    (reports : (parseDirectory colored path tree options).Reports colored options path
      (tree.components path)) : tree.misnamed path = 0 := by
  by_contra named
  have counted := reports.summary
  rw [summary_parseDirectory h, if_neg (by omega)] at counted
  split at counted
  · cases counted
  · have number := congrArg Summary.files (Option.some.inj counted)
    dsimp only at number
    omega

/-- The command on a directory whose components can be read: its summary counts the components,
    those that fail, and every directory that is named as a component on both sides; it succeeds
    where there is a component, none fails and no directory is named so. Its report is that of the
    components exactly where no directory is named so. -/
theorem parse_directory_reports (colored : Bool) (options : Options)
    (stdin : Except ReadError String) {entries : List (String × FileTree)}
    (h : (directory entries).Readable path) :
    let o := run colored stdin (.ok (directory entries)) (.parse (.path path) false options)
    let components := (directory entries).components path
    let failures := Component.failures options components
    let misnamed := (directory entries).misnamed path
    o.summary = (if components.length + misnamed = 0 then none
      else some ⟨components.length + misnamed, failures + misnamed⟩) ∧
    (o.ok = true ↔ components ≠ [] ∧ failures = 0 ∧ misnamed = 0) ∧
    (o.Reports colored options path components ↔ misnamed = 0) :=
  ⟨summary_parseDirectory h, ok_parseDirectory h, misnamed_of_reports h,
    reports_parseDirectory h⟩

/-- A component in a directory that is named as one: two files are counted, and one fails. -/
theorem parse_directory_reports_misnamed :
    let entries := [("x.pulse", FileTree.directory [("in.pulse", .file (.ok "state { a: 1 }"))])]
    let o := run false (.ok "") (.ok (directory entries)) (.parse (.path "d") false .standard)
    (directory entries).Readable "d" ∧ o.summary = some ⟨2, 1⟩ ∧ o.ok = false ∧
      ¬ o.Reports false .standard "d" ((directory entries).components "d") := by
  intro entries o
  have files : (directory entries).files "d" =
      [("d/x.pulse/in.pulse", .ok "state { a: 1 }")] := by decide +kernel
  have readable : (directory entries).Readable "d" := by
    refine ⟨by decide +kernel, ?_, ?_⟩ <;> simp only [files, List.mem_singleton]
    · rintro f rfl -
      decide +kernel
    · rintro f rfl -
      exact ⟨_, rfl⟩
  have components : (directory entries).components "d" =
      [("d/x.pulse/in.pulse", "state { a: 1 }")] := by decide +kernel
  have failures :
      Component.failures .standard [("d/x.pulse/in.pulse", "state { a: 1 }")] = 0 := by
    decide +kernel
  have misnamed : (directory entries).misnamed "d" = 1 := by decide +kernel
  obtain ⟨summary, ok, reports⟩ :=
    parse_directory_reports false .standard (.ok "") readable
  simp only [components, failures, misnamed] at summary ok reports
  exact ⟨readable, summary, by simpa using ok, components ▸ reports.not.mpr Nat.one_ne_zero⟩

end Command

end PulseSyntax

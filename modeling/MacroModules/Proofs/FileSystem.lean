import MacroModules.FileSystem
import MacroModules.Proofs.Except

/-!
# Reading what has been written

A path that leads anywhere leads to the location that its spelling names, through directories
(`locate_eq_ok_iff`). Writing puts a file there and nothing else: directories stay (`Keeps`), so
what could be reached can still be reached, and other locations hold what they held
(`node?_create`). If a file is not written as a whole, this is so for the part of it that is
(`write_eq_ok_iff`).

* `writeAll`: files written one after the other.
* `node?_writeAll`: **a location holds what was written there last**, or else what it held before.
* `Opens`, `opens_writeAll_iff`: which files can be written, and that writing does not change this.
* `shortfall?_writeAll`: each file that is written uses up one delivery.
* `IsTree`: what a file system has to be for names to be in directories.
-/

namespace MacroModules.FileSystem

variable {fs fs' fs'' : FileSystem} {l k : Location} {p q : Path} {content : List UInt8}

/-! ## What is at a location -/

theorem node?_of_isPrefix (h : l <+: fs.workingDirectory) : fs.node? l = some .directory :=
  if_pos h

theorem node?_base (fs : FileSystem) (p : Path) : fs.node? (fs.base p) = some .directory := by
  apply node?_of_isPrefix
  unfold base
  split
  · exact List.prefix_rfl
  · exact List.nil_prefix

theorem lookup_filter_ne {nodes : List (Location × Node)} (h : k ≠ l) :
    (nodes.filter (·.1 != l)).lookup k = nodes.lookup k := by
  induction nodes with
  | nil => rfl
  | cons e nodes ih =>
    obtain ⟨m, node⟩ := e
    by_cases hm : m = l
    · subst hm
      have hkm : (k == m) = false := beq_false_of_ne h
      rw [List.filter_cons_of_neg (by simp), ih, List.lookup_cons, hkm]
    · rw [List.filter_cons_of_pos (by simpa using hm), List.lookup_cons, List.lookup_cons, ih]

theorem node?_put (h : fs.node? l ≠ some .directory) (k : Location) :
    (fs.put l content).node? k = if k = l then some (.file content) else fs.node? k := by
  have hl : ¬ l <+: fs.workingDirectory := fun hl => h (node?_of_isPrefix hl)
  unfold node? put
  by_cases hk : k = l
  · subst hk
    rw [if_pos rfl, if_neg hl, List.lookup_cons_self]
  · rw [if_neg hk, List.lookup_cons, beq_false_of_ne hk]
    dsimp only
    rw [lookup_filter_ne hk]

/-! ## Where paths lead -/

theorem enter_eq_ok_iff {name : String} :
    enter l name = .ok k ↔ name.utf8ByteSize ≤ maxNameSize ∧ k = step l name := by
  unfold enter
  split
  · rename_i h
    constructor
    · intro hk
      exact ⟨h, (Except.ok.inj hk).symm⟩
    · rintro ⟨-, rfl⟩
      rfl
  · rename_i h
    constructor
    · rintro ⟨⟩
    · rintro ⟨hname, -⟩
      exact (h hname).elim

theorem follow_cons_cons {name next : String} {names : List String} :
    fs.follow l (name :: next :: names) = .ok k ↔
      name.utf8ByteSize ≤ maxNameSize ∧ fs.node? (step l name) = some .directory ∧
        fs.follow (step l name) (next :: names) = .ok k := by
  rw [follow.eq_def]
  dsimp only
  constructor
  · intro h
    obtain ⟨m, hm, h⟩ := bind_eq_ok_iff.1 h
    obtain ⟨hname, rfl⟩ := enter_eq_ok_iff.1 hm
    split at h
    · cases h
    · cases h
    · rename_i hnode
      exact ⟨hname, hnode, h⟩
  · rintro ⟨hname, hnode, h⟩
    refine bind_eq_ok_iff.2 ⟨_, enter_eq_ok_iff.2 ⟨hname, rfl⟩, ?_⟩
    rw [hnode]
    exact h

/-- Names lead from a directory through directories. -/
theorem follow_eq_ok_iff {names : List String} (hl : fs.node? l = some .directory) :
    fs.follow l names = .ok k ↔
      (∀ name ∈ names, name.utf8ByteSize ≤ maxNameSize) ∧
      (∀ before after, names = before ++ after → after ≠ [] →
        fs.node? (before.foldl step l) = some .directory) ∧
      k = names.foldl step l := by
  induction names generalizing l with
  | nil =>
    constructor
    · intro h
      refine ⟨fun _ hname => (List.not_mem_nil hname).elim, ?_, (Except.ok.inj h).symm⟩
      intro before after h hafter
      exact (hafter (List.append_eq_nil_iff.1 h.symm).2).elim
    · rintro ⟨-, -, rfl⟩
      rfl
  | cons name names ih =>
    -- the first cut is before all names, where the directory is the one to begin with
    have hcuts : (∀ before after, name :: names = before ++ after → after ≠ [] →
          fs.node? (before.foldl step l) = some .directory) ↔
        ∀ before after, names = before ++ after → after ≠ [] →
          fs.node? (before.foldl step (step l name)) = some .directory := by
      constructor
      · intro h before after hnames hafter
        exact h (name :: before) after (by rw [hnames]; rfl) hafter
      · intro h before after hnames hafter
        rcases List.cons_eq_append_iff.1 hnames with ⟨rfl, -⟩ | ⟨before, rfl, hrest⟩
        · exact hl
        · exact h before after hrest hafter
    rw [hcuts, List.forall_mem_cons, List.foldl_cons]
    cases names with
    | nil =>
      rw [follow, enter_eq_ok_iff]
      constructor
      · rintro ⟨hname, rfl⟩
        refine ⟨⟨hname, fun _ h => (List.not_mem_nil h).elim⟩, ?_, rfl⟩
        intro before after h hafter
        exact (hafter (List.append_eq_nil_iff.1 h.symm).2).elim
      · rintro ⟨⟨hname, -⟩, -, rfl⟩
        exact ⟨hname, rfl⟩
    | cons next names =>
      rw [follow_cons_cons]
      constructor
      · rintro ⟨hname, hnode, h⟩
        obtain ⟨hnames, hcuts, hk⟩ := (ih hnode).1 h
        exact ⟨⟨hname, hnames⟩, hcuts, hk⟩
      · rintro ⟨⟨hname, hnames⟩, hcuts, hk⟩
        have hnode : fs.node? (step l name) = some .directory :=
          hcuts [] (next :: names) rfl (List.cons_ne_nil _ _)
        exact ⟨hname, hnode, (ih hnode).2 ⟨hnames, hcuts, hk⟩⟩

/-- **A path that leads anywhere leads through directories to the location it names.** -/
theorem locate_eq_ok_iff : fs.locate p = .ok k ↔
    p.hasNull = false ∧ p.size ≤ maxPathSize ∧
    (∀ name ∈ p.names, name.utf8ByteSize ≤ maxNameSize) ∧
    (∀ before after, p.names = before ++ after → after ≠ [] →
      fs.node? (before.foldl step (fs.base p)) = some .directory) ∧
    k = fs.normalize p := by
  unfold locate normalize
  by_cases hnull : p.hasNull = true
  · rw [if_pos hnull]
    constructor
    · rintro ⟨⟩
    · rintro ⟨hnull', -⟩
      exact absurd (hnull.symm.trans hnull') (by decide)
  · rw [if_neg hnull]
    by_cases hsize : maxPathSize < p.size
    · rw [if_pos hsize]
      constructor
      · rintro ⟨⟩
      · rintro ⟨-, hsize', -⟩
        omega
    · rw [if_neg hsize, follow_eq_ok_iff (fs.node?_base p)]
      constructor
      · intro h
        exact ⟨eq_false_of_ne_true hnull, by omega, h⟩
      · rintro ⟨-, -, h⟩
        exact h

theorem eq_normalize_of_locate (h : fs.locate p = .ok k) : k = fs.normalize p :=
  (locate_eq_ok_iff.1 h).2.2.2.2

theorem read_eq_ok_iff : fs.read p = .ok content ↔
    fs.locate p = .ok (fs.normalize p) ∧ fs.node? (fs.normalize p) = some (.file content) := by
  unfold read
  constructor
  · intro h
    obtain ⟨k, hk, h⟩ := bind_eq_ok_iff.1 h
    obtain rfl := eq_normalize_of_locate hk
    refine ⟨hk, ?_⟩
    split at h
    · cases h
    · cases h
    · rename_i hnode
      rw [hnode, Except.ok.inj h]
  · rintro ⟨hk, hnode⟩
    refine bind_eq_ok_iff.2 ⟨_, hk, ?_⟩
    rw [hnode]
    rfl

/-- A file has a name, because paths begin in directories. -/
theorem names_ne_nil_of_read (h : fs.read p = .ok content) : p.names ≠ [] := by
  intro hnil
  obtain ⟨-, hfile⟩ := read_eq_ok_iff.1 h
  have hbase := fs.node?_base p
  rw [normalize, hnil, List.foldl_nil, hbase] at hfile
  cases hfile

/-! ## What the system does -/

variable {access : Access} {shortfall : Option Shortfall}

theorem reach_eq_ok_iff : fs.reach access p = .ok k ↔
    fs.locate p = .ok k ∧ fs.refusals.lookup (k, access) = none := by
  unfold reach
  constructor
  · intro h
    obtain ⟨l, hl, h⟩ := bind_eq_ok_iff.1 h
    split at h
    · cases h
    · rename_i hrefusal
      cases h
      exact ⟨hl, hrefusal⟩
  · rintro ⟨hk, hrefusal⟩
    refine bind_eq_ok_iff.2 ⟨k, hk, ?_⟩
    rw [hrefusal]
    rfl

theorem eq_normalize_of_reach (h : fs.reach access p = .ok k) : k = fs.normalize p :=
  eq_normalize_of_locate (reach_eq_ok_iff.1 h).1

/-- What the system gives away for a path is the content of the file there. -/
theorem read_of_load (h : fs.load p = .ok content) : fs.read p = .ok content := by
  obtain ⟨-, -, h⟩ := bind_eq_ok_iff.1 h
  exact h

theorem create_eq_ok_iff : fs.create p content = .ok fs' ↔
    fs.reach .write p = .ok (fs.normalize p) ∧ fs.node? (fs.normalize p) ≠ some .directory ∧
      fs' = fs.put (fs.normalize p) content := by
  unfold create
  constructor
  · intro h
    obtain ⟨k, hk, h⟩ := bind_eq_ok_iff.1 h
    obtain rfl := eq_normalize_of_reach hk
    split at h
    · cases h
    · rename_i hnode
      exact ⟨hk, hnode, (Except.ok.inj h).symm⟩
  · rintro ⟨hk, hnode, rfl⟩
    refine bind_eq_ok_iff.2 ⟨_, hk, ?_⟩
    rw [if_neg hnode]
    rfl

/-- Writing creates a file with what is delivered of the content. -/
theorem write_eq_ok_iff : fs.write p content = .ok (fs', shortfall) ↔
    fs.create p (Shortfall.delivered content shortfall) = .ok fs' ∧
      fs.shortfall? 0 = shortfall := by
  unfold write
  constructor
  · intro h
    obtain ⟨next, hnext, h⟩ := bind_eq_ok_iff.1 h
    cases h
    exact ⟨hnext, rfl⟩
  · rintro ⟨h, rfl⟩
    exact bind_eq_ok_iff.2 ⟨fs', h, rfl⟩

/-! ## Null characters -/

theorem follow_ne_nullCharacter {names : List String} :
    fs.follow l names ≠ .error .nullCharacter := by
  induction names generalizing l with
  | nil => rintro ⟨⟩
  | cons name names ih =>
    have henter : enter l name ≠ .error .nullCharacter := by
      unfold enter
      split <;> simp
    cases names with
    | nil => exact henter
    | cons next names =>
      intro h
      rcases bind_eq_error_iff.1 h with h | ⟨k, -, h⟩
      · exact henter h
      · split at h
        · cases h
        · cases h
        · exact ih h

theorem locate_ne_nullCharacter (hp : p.hasNull = false) :
    fs.locate p ≠ .error .nullCharacter := by
  unfold locate
  rw [hp, if_neg (by decide)]
  split
  · simp
  · exact follow_ne_nullCharacter

theorem reach_ne_nullCharacter (hp : p.hasNull = false) :
    fs.reach access p ≠ .error .nullCharacter := by
  intro h
  rcases bind_eq_error_iff.1 h with h | ⟨k, -, h⟩
  · exact locate_ne_nullCharacter hp h
  · split at h <;> cases h

theorem load_ne_nullCharacter (hp : p.hasNull = false) : fs.load p ≠ .error .nullCharacter := by
  intro h
  rcases bind_eq_error_iff.1 h with h | ⟨-, -, h⟩
  · exact reach_ne_nullCharacter hp h
  · rcases bind_eq_error_iff.1 h with h | ⟨k, -, h⟩
    · exact locate_ne_nullCharacter hp h
    · split at h <;> cases h

theorem write_ne_nullCharacter (hp : p.hasNull = false) :
    fs.write p content ≠ .error .nullCharacter := by
  intro h
  rcases bind_eq_error_iff.1 h with h | ⟨fs', -, h⟩
  · rcases bind_eq_error_iff.1 h with h | ⟨k, -, h⟩
    · exact reach_ne_nullCharacter hp h
    · split at h <;> cases h
  · cases h

/-! ## What writing keeps -/

/-- The directories of a file system are directories of the other, paths begin in the same places,
and the same is refused. -/
structure Keeps (fs fs' : FileSystem) : Prop where
  workingDirectory : fs'.workingDirectory = fs.workingDirectory
  refusals : fs'.refusals = fs.refusals
  directory : ∀ l, fs.node? l = some .directory → fs'.node? l = some .directory

namespace Keeps

theorem refl (fs : FileSystem) : Keeps fs fs := ⟨rfl, rfl, fun _ h => h⟩

theorem trans (h : Keeps fs fs') (h' : Keeps fs' fs'') : Keeps fs fs'' :=
  ⟨h'.workingDirectory.trans h.workingDirectory, h'.refusals.trans h.refusals,
    fun l hl => h'.directory l (h.directory l hl)⟩

theorem base (h : Keeps fs fs') (p : Path) : fs'.base p = fs.base p := by
  unfold FileSystem.base
  rw [h.workingDirectory]

theorem normalize (h : Keeps fs fs') (p : Path) : fs'.normalize p = fs.normalize p := by
  unfold FileSystem.normalize
  rw [h.base]

/-- What a path leads to, it still leads to. -/
theorem locate (h : Keeps fs fs') (hk : fs.locate p = .ok k) : fs'.locate p = .ok k := by
  obtain ⟨hnull, hsize, hnames, hcuts, hend⟩ := locate_eq_ok_iff.1 hk
  refine locate_eq_ok_iff.2 ⟨hnull, hsize, hnames, ?_, by rw [h.normalize, hend]⟩
  intro before after heq hafter
  rw [h.base]
  exact h.directory _ (hcuts before after heq hafter)

theorem reach (h : Keeps fs fs') (hk : fs.reach access p = .ok k) :
    fs'.reach access p = .ok k := by
  rw [reach_eq_ok_iff] at hk ⊢
  rw [h.refusals]
  exact ⟨h.locate hk.1, hk.2⟩

/-- A file that could be read still can, as long as what is there has not changed. -/
theorem read (h : Keeps fs fs') (hnode : fs'.node? (fs.normalize p) = some (.file content))
    (hk : fs.locate p = .ok (fs.normalize p)) : fs'.read p = .ok content := by
  rw [read_eq_ok_iff, h.normalize]
  exact ⟨h.locate hk, hnode⟩

end Keeps

theorem node?_create (h : fs.create p content = .ok fs') (l : Location) :
    fs'.node? l = if l = fs.normalize p then some (.file content) else fs.node? l := by
  obtain ⟨-, hnode, rfl⟩ := create_eq_ok_iff.1 h
  exact node?_put hnode l

theorem keeps_create (h : fs.create p content = .ok fs') : Keeps fs fs' := by
  have hnode? := node?_create h
  obtain ⟨-, hnode, rfl⟩ := create_eq_ok_iff.1 h
  refine ⟨rfl, rfl, fun l hl => ?_⟩
  have hne : l ≠ fs.normalize p := by
    rintro rfl
    exact hnode hl
  rw [hnode?, if_neg hne, hl]

theorem shortfall?_create (h : fs.create p content = .ok fs') (i : Nat) :
    fs'.shortfall? i = fs.shortfall? (i + 1) := by
  obtain ⟨-, -, rfl⟩ := create_eq_ok_iff.1 h
  unfold shortfall? put
  rw [List.getElem?_tail]

/-! ## Files written one after the other -/

/-- The file system after files have been written, in order. -/
def writeAll (fs : FileSystem) : List (Path × List UInt8) → Except Fault FileSystem
  | [] => .ok fs
  | (p, content) :: writes => do (← fs.create p content).writeAll writes

variable {writes : List (Path × List UInt8)}

theorem writeAll_cons_eq_ok_iff : fs.writeAll ((p, content) :: writes) = .ok fs'' ↔
    ∃ fs', fs.create p content = .ok fs' ∧ fs'.writeAll writes = .ok fs'' :=
  bind_eq_ok_iff

theorem writeAll_append_eq_ok_iff {others : List (Path × List UInt8)} :
    fs.writeAll (writes ++ others) = .ok fs'' ↔
      ∃ fs', fs.writeAll writes = .ok fs' ∧ fs'.writeAll others = .ok fs'' := by
  induction writes generalizing fs with
  | nil =>
    constructor
    · intro h
      exact ⟨fs, rfl, h⟩
    · rintro ⟨_, ⟨⟩, h⟩
      exact h
  | cons w writes ih =>
    obtain ⟨p, content⟩ := w
    simp only [List.cons_append, writeAll_cons_eq_ok_iff, ih]
    constructor
    · rintro ⟨next, hw, fs', hwrites, h⟩
      exact ⟨fs', ⟨next, hw, hwrites⟩, h⟩
    · rintro ⟨fs', ⟨next, hw, hwrites⟩, h⟩
      exact ⟨next, hw, fs', hwrites, h⟩

theorem keeps_writeAll (h : fs.writeAll writes = .ok fs') : Keeps fs fs' := by
  induction writes generalizing fs with
  | nil =>
    cases h
    exact .refl _
  | cons w writes ih =>
    obtain ⟨middle, hw, h⟩ := writeAll_cons_eq_ok_iff.1 h
    exact (keeps_create hw).trans (ih h)

/-- The last of some writes to a location. -/
def lastWrite? (fs : FileSystem) (writes : List (Path × List UInt8)) (l : Location) :
    Option (Path × List UInt8) :=
  writes.reverse.find? fun w => fs.normalize w.1 = l

/-- **A location holds what was written there last**, or else what it held before. -/
theorem node?_writeAll (h : fs.writeAll writes = .ok fs') (l : Location) :
    fs'.node? l = ((fs.lastWrite? writes l).map fun w => .file w.2).or (fs.node? l) := by
  induction writes generalizing fs with
  | nil =>
    cases h
    rfl
  | cons w writes ih =>
    obtain ⟨middle, hw, h⟩ := writeAll_cons_eq_ok_iff.1 h
    have hrest : middle.lastWrite? writes l = fs.lastWrite? writes l := by
      unfold lastWrite?
      simp only [(keeps_create hw).normalize]
    rw [ih h, hrest, node?_create hw]
    unfold lastWrite?
    rw [List.reverse_cons, List.find?_append]
    cases writes.reverse.find? fun w => fs.normalize w.1 = l with
    | some later => rfl
    | none =>
      by_cases hl : l = fs.normalize w.1
      · subst hl
        simp
      · have hl' : ¬ fs.normalize w.1 = l := fun heq => hl heq.symm
        simp [hl, hl']

/-- A write is the last one to its location, or another one is. -/
theorem exists_lastWrite (fs : FileSystem) {i : Nat} {w : Path × List UInt8}
    (hw : writes[i]? = some w) :
    ∃ j last, i ≤ j ∧ writes[j]? = some last ∧ fs.normalize last.1 = fs.normalize w.1 ∧
      (∀ k later, j < k → writes[k]? = some later → fs.normalize later.1 ≠ fs.normalize w.1) ∧
      fs.lastWrite? writes (fs.normalize w.1) = some last := by
  have hfound : (fs.lastWrite? writes (fs.normalize w.1)).isSome := by
    rw [lastWrite?, List.find?_isSome]
    exact ⟨w, List.mem_reverse.2 (List.mem_of_getElem? hw), by simp⟩
  obtain ⟨last, hlast⟩ := Option.isSome_iff_exists.1 hfound
  obtain ⟨hsame, after, before, hsplit, hafter⟩ := List.find?_eq_some_iff_append.1 hlast
  have hwrites : writes = before.reverse ++ last :: after.reverse := by
    rw [← List.reverse_inj, hsplit]
    simp
  have hlater : ∀ k later, before.length < k → writes[k]? = some later →
      fs.normalize later.1 ≠ fs.normalize w.1 := by
    intro k later hk hlater
    rw [hwrites, List.getElem?_append_right (by simp; omega), List.length_reverse] at hlater
    obtain ⟨m, hm⟩ : ∃ m, k - before.length = m + 1 := ⟨k - before.length - 1, by omega⟩
    rw [hm, List.getElem?_cons_succ] at hlater
    simpa using hafter later (List.mem_reverse.1 (List.mem_of_getElem? hlater))
  refine ⟨before.length, last, ?_, ?_, by simpa using hsame, hlater, hlast⟩
  · by_contra hlt
    exact hlater i w (by omega) hw rfl
  · rw [hwrites, List.getElem?_append_right (by simp), List.length_reverse, Nat.sub_self]
    rfl

/-- Where nothing is written, everything stays. -/
theorem node?_writeAll_of_ne (h : fs.writeAll writes = .ok fs')
    (hl : ∀ w ∈ writes, fs.normalize w.1 ≠ l) : fs'.node? l = fs.node? l := by
  have hnone : fs.lastWrite? writes l = none := by
    rw [lastWrite?, List.find?_eq_none]
    intro w hw
    simpa using hl w (List.mem_reverse.1 hw)
  rw [node?_writeAll h, hnone]
  rfl

/-- A path that has been written to leads to its location. -/
theorem locate_of_mem_writes (h : fs.writeAll writes = .ok fs') {w : Path × List UInt8}
    (hw : w ∈ writes) : fs'.locate w.1 = .ok (fs.normalize w.1) := by
  induction writes generalizing fs with
  | nil => cases hw
  | cons first writes ih =>
    obtain ⟨middle, hwrite, hrest⟩ := writeAll_cons_eq_ok_iff.1 h
    rcases List.mem_cons.1 hw with rfl | hw
    · have hk := (reach_eq_ok_iff.1 (create_eq_ok_iff.1 hwrite).1).1
      exact (keeps_writeAll hrest).locate ((keeps_create hwrite).locate hk)
    · rw [← (keeps_create hwrite).normalize]
      exact ih hrest hw

/-- What has been written can be read. -/
theorem read_of_lastWrite (h : fs.writeAll writes = .ok fs') {w last : Path × List UInt8}
    (hw : w ∈ writes) (hlast : fs.lastWrite? writes (fs.normalize w.1) = some last) :
    fs'.read w.1 = .ok last.2 := by
  have hnode : fs'.node? (fs.normalize w.1) = some (.file last.2) := by
    rw [node?_writeAll h, hlast]
    rfl
  rw [read_eq_ok_iff, (keeps_writeAll h).normalize]
  exact ⟨locate_of_mem_writes h hw, hnode⟩

/-- Each file that is written uses up one delivery. -/
theorem shortfall?_writeAll (h : fs.writeAll writes = .ok fs') (i : Nat) :
    fs'.shortfall? i = fs.shortfall? (i + writes.length) := by
  induction writes generalizing fs with
  | nil =>
    cases h
    rfl
  | cons w writes ih =>
    obtain ⟨middle, hw, h⟩ := writeAll_cons_eq_ok_iff.1 h
    rw [ih h, shortfall?_create hw, List.length_cons, Nat.add_assoc]

/-- The files are written one after the other, each of them as a whole. -/
structure WritesWhole (fs : FileSystem) (writes : List (Path × List UInt8)) (fs' : FileSystem) :
    Prop where
  all : fs.writeAll writes = .ok fs'
  whole : ∀ i < writes.length, fs.shortfall? i = none

theorem writesWhole_nil (fs : FileSystem) : fs.WritesWhole [] fs :=
  ⟨rfl, fun _ h => absurd h (Nat.not_lt_zero _)⟩

theorem writesWhole_cons_iff : fs.WritesWhole ((p, content) :: writes) fs'' ↔
    ∃ fs', fs.write p content = .ok (fs', none) ∧ fs'.WritesWhole writes fs'' := by
  constructor
  · rintro ⟨hall, hwhole⟩
    obtain ⟨fs', hcreate, hall⟩ := writeAll_cons_eq_ok_iff.1 hall
    have hfirst : fs.shortfall? 0 = none := hwhole 0 (Nat.zero_lt_succ _)
    refine ⟨fs', write_eq_ok_iff.2 ⟨hcreate, hfirst⟩, hall, fun i hi => ?_⟩
    rw [shortfall?_create hcreate]
    exact hwhole (i + 1) (Nat.succ_lt_succ hi)
  · rintro ⟨fs', hwrite, hall, hwhole⟩
    obtain ⟨hcreate, hfirst⟩ := write_eq_ok_iff.1 hwrite
    refine ⟨writeAll_cons_eq_ok_iff.2 ⟨fs', hcreate, hall⟩, fun i hi => ?_⟩
    cases i with
    | zero => exact hfirst
    | succ i =>
      rw [← shortfall?_create hcreate]
      exact hwhole i (Nat.lt_of_succ_lt_succ hi)

/-! ## Opening files -/

/-- A file can be opened for writing at the path, whatever is to be written. -/
def Opens (fs : FileSystem) (p : Path) : Prop :=
  ∃ l, fs.reach .write p = .ok l ∧ fs.node? l ≠ some .directory

theorem exists_create_iff (content : List UInt8) :
    (∃ fs', fs.create p content = .ok fs') ↔ fs.Opens p := by
  constructor
  · rintro ⟨fs', h⟩
    obtain ⟨hreach, hnode, -⟩ := create_eq_ok_iff.1 h
    exact ⟨_, hreach, hnode⟩
  · rintro ⟨l, hreach, hnode⟩
    obtain rfl := eq_normalize_of_reach hreach
    exact ⟨_, create_eq_ok_iff.2 ⟨hreach, hnode, rfl⟩⟩

theorem exists_write_iff (content : List UInt8) :
    (∃ written, fs.write p content = .ok written) ↔ fs.Opens p := by
  rw [← exists_create_iff (Shortfall.delivered content (fs.shortfall? 0))]
  constructor
  · rintro ⟨⟨fs', shortfall⟩, h⟩
    obtain ⟨h, rfl⟩ := write_eq_ok_iff.1 h
    exact ⟨fs', h⟩
  · rintro ⟨fs', h⟩
    exact ⟨_, write_eq_ok_iff.2 ⟨h, rfl⟩⟩

theorem Keeps.opens (h : Keeps fs fs') (h' : Keeps fs' fs) (hp : fs.Opens p) : fs'.Opens p := by
  obtain ⟨l, hreach, hnode⟩ := hp
  exact ⟨l, h.reach hreach, fun hl => hnode (h'.directory l hl)⟩

/-- Writing makes no directories, so there are no more of them than before. -/
theorem keeps_of_writeAll (h : fs.writeAll writes = .ok fs') : Keeps fs' fs := by
  have hkeeps := keeps_writeAll h
  refine ⟨hkeeps.workingDirectory.symm, hkeeps.refusals.symm, fun l hl => ?_⟩
  rw [node?_writeAll h] at hl
  cases hlast : fs.lastWrite? writes l with
  | none =>
    rw [hlast] at hl
    exact hl
  | some w =>
    rw [hlast] at hl
    cases hl

/-- **Writing files does not change which files can be opened.** -/
theorem opens_writeAll_iff (h : fs.writeAll writes = .ok fs') : fs'.Opens p ↔ fs.Opens p :=
  ⟨(keeps_of_writeAll h).opens (keeps_writeAll h), (keeps_writeAll h).opens (keeps_of_writeAll h)⟩

/-- What has been written could be opened from the beginning. -/
theorem opens_of_mem_writes (h : fs.writeAll writes = .ok fs') {w : Path × List UInt8}
    (hw : w ∈ writes) : fs.Opens w.1 := by
  induction writes generalizing fs with
  | nil => cases hw
  | cons first writes ih =>
    obtain ⟨middle, hfirst, hrest⟩ := writeAll_cons_eq_ok_iff.1 h
    have hone : fs.writeAll [first] = .ok middle := writeAll_cons_eq_ok_iff.2 ⟨middle, hfirst, rfl⟩
    rcases List.mem_cons.1 hw with rfl | hw
    · exact (exists_create_iff w.2).1 ⟨middle, hfirst⟩
    · exact (opens_writeAll_iff hone).1 (ih hrest hw)

/-! ## Trees -/

/-- Whatever there is, is in a directory. -/
def IsTree (fs : FileSystem) : Prop :=
  ∀ e ∈ fs.nodes, fs.node? e.1.dropLast = some .directory

instance (fs : FileSystem) : Decidable fs.IsTree :=
  inferInstanceAs (Decidable (∀ e ∈ fs.nodes, _))

theorem IsTree.node?_dropLast (h : fs.IsTree) (hl : fs.node? l ≠ none) :
    fs.node? l.dropLast = some .directory := by
  by_cases hwd : l <+: fs.workingDirectory
  · exact node?_of_isPrefix ((List.dropLast_prefix l).trans hwd)
  · rw [node?, if_neg hwd] at hl
    obtain ⟨node, hnode⟩ := Option.ne_none_iff_exists'.1 hl
    obtain ⟨before, after, hnodes, -⟩ := List.lookup_eq_some_iff.1 hnode
    exact h (l, node) (by rw [hnodes]; simp)

/-- The path of a file in a tree ends with the name of the file. -/
theorem IsTree.normalize_eq (h : fs.IsTree) (hp : fs.read p = .ok content) :
    fs.normalize p = fs.normalize p.parent ++ [p.name] := by
  obtain ⟨hlocate, hfile⟩ := read_eq_ok_iff.1 hp
  obtain ⟨-, -, -, hcuts, -⟩ := locate_eq_ok_iff.1 hlocate
  obtain ⟨names, name, hsplit⟩ : ∃ names name, p.names = names ++ [name] :=
    ⟨_, _, (List.dropLast_append_getLast (names_ne_nil_of_read hp)).symm⟩
  have hparent : fs.normalize p.parent = names.foldl step (fs.base p) := by
    rw [normalize, Path.parent, hsplit, List.dropLast_concat]
    rfl
  have hdirectory : fs.node? (fs.normalize p.parent) = some .directory := by
    rw [hparent]
    exact hcuts names [name] hsplit (List.cons_ne_nil _ _)
  have hstep : fs.normalize p = step (fs.normalize p.parent) name := by
    rw [hparent, normalize, hsplit, List.foldl_append]
    rfl
  -- two dots would lead back to a directory
  have hdots : name ≠ ".." := by
    rintro rfl
    rw [hstep, step, if_pos rfl, h.node?_dropLast (by rw [hdirectory]; simp)] at hfile
    cases hfile
  have hname : p.name = name := by
    rw [Path.name, hsplit]
    simp
  rw [hstep, step, if_neg hdots, hname]

end MacroModules.FileSystem

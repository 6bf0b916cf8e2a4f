import MacroModules.CommandLine.Run
import MacroModules.Proofs.Except

/-!
# Where options come from

A command line that can be read may still leave a run without options: the configuration may be
unusable, the extension may be bad, and on some platforms the extension may be asked for without a
value.

* `Arguments.dropsDashes_of_read`: **an option lacks its value only where dashes are dropped**.
* `Options.UnusableConfig`, `Options.loadConfig_eq_error_iff`: a configuration that cannot be read
  or decoded.
* `Options.BadExtension`, `Options.merge_of_extension`: an extension that cannot be used.
-/

namespace MacroModules

variable {v : Platform} {words : List String} {args : Arguments} {config : Config}

/-! ## Settings without a value -/

namespace Arguments

variable {p q : Progress}

/-- The extension has a value if it is set, unless dashes are dropped. -/
def Progress.Valued (v : Platform) (p : Progress) : Prop :=
  p.args.extension = .void → v.dropsDashes = true

namespace Progress

theorem valued_start (v : Platform) : Progress.start.Valued v := by
  rintro ⟨⟩

theorem Valued.of_eq (h : q.args.extension = p.args.extension) (hp : p.Valued v) : q.Valued v := by
  unfold Valued
  rw [h]
  exact hp

theorem extension_addValue (p : Progress) (word : String) :
    (p.addValue word).args.extension = p.args.extension := by
  unfold addValue
  split <;> rfl

theorem extension_addRest (p : Progress) (words : List String) :
    (p.addRest words).args.extension = p.args.extension := by
  unfold addRest
  split <;> rfl

theorem extension_foldl_addSwitch (p : Progress) (switches : List Opt) :
    (switches.foldl addSwitch p).args.extension = p.args.extension := by
  induction switches generalizing p with
  | nil => rfl
  | cons o switches ih =>
    rw [List.foldl_cons, ih]
    cases o <;> rfl

theorem extension_addSwitches {switches : List Opt} (h : p.addSwitches switches = .ok q) :
    q.args.extension = p.args.extension := by
  unfold addSwitches at h
  split at h
  · cases h
  · cases h
    exact extension_foldl_addSwitch p.close switches

theorem Valued.addOption (hp : p.Valued v) (o : Opt) (text : String) :
    (p.addOption v o text).Valued v := by
  cases o with
  | extension =>
    intro hvoid
    unfold Progress.addOption Setting.ofValue at hvoid
    by_cases hdrops : v.dropsDashes = true
    · exact hdrops
    · simp [hdrops] at hvoid
  | help | config | debug | verbose => exact hp

end Progress

/-- One more item does not take the value away. -/
theorem valued_step {item : Item} (h : step v p item = .ok q) (hp : p.Valued v) : q.Valued v := by
  unfold step at h
  split at h
  · obtain ⟨next, hnext, h⟩ := bind_eq_ok_iff.1 h
    cases h
    exact (hp.of_eq (Progress.extension_addSwitches hnext)).addOption _ _
  · cases h
  · cases h
    exact hp.of_eq (p.extension_addValue _)
  · cases h
    exact hp
  · cases h
  · obtain ⟨u, -, h⟩ := bind_eq_ok_iff.1 h
    unfold Progress.addUnfolded at h
    split at h
    · obtain ⟨next, hnext, h⟩ := bind_eq_ok_iff.1 h
      cases h
      have hvalued : next.Valued v := hp.of_eq (Progress.extension_addSwitches hnext)
      exact hvalued
    · obtain ⟨next, hnext, h⟩ := bind_eq_ok_iff.1 h
      cases h
      exact (hp.of_eq (Progress.extension_addSwitches hnext)).addOption _ _
    · cases h
      exact hp

theorem valued_foldlM {items : List Item} (h : items.foldlM (step v) p = .ok q)
    (hp : p.Valued v) : q.Valued v := by
  induction items generalizing p with
  | nil =>
    cases h
    exact hp
  | cons item items ih =>
    obtain ⟨next, hnext, h⟩ := bind_eq_ok_iff.1 h
    exact ih h (valued_step hnext hp)

theorem Progress.Valued.finish (hp : p.Valued v) (h : p.finish = .ok args)
    (hvoid : args.extension = .void) : v.dropsDashes = true := by
  unfold Progress.finish at h
  split at h
  · cases h
  · split at h
    · cases h
      exact hp hvoid
    · cases h

/-- **An option lacks its value only where dashes are dropped.** -/
theorem dropsDashes_of_read (h : read v words = .ok args) (hvoid : args.extension = .void) :
    v.dropsDashes = true := by
  obtain ⟨items, -, h⟩ := bind_eq_ok_iff.1 h
  obtain ⟨p, hp, h⟩ := bind_eq_ok_iff.1 h
  obtain ⟨q, hq, hp⟩ := bind_eq_ok_iff.1 hp
  have hvalued := valued_foldlM hq (Progress.valued_start v)
  split at hp
  · cases hp
  · cases hp
    split at h
    · exact hvalued.finish h hvoid
    · exact (hvalued.of_eq (p.extension_addRest _)).finish h hvoid

end Arguments

namespace Options

/-! ## Configurations -/

/-- The configuration at a path cannot be read or decoded. -/
inductive UnusableConfig (v : Platform) (fs : FileSystem) (path : Path) : Prop
  /-- The system does not say what is there. -/
  | unseen {f} : fs.look path = .error f → overlooks v f = false → UnusableConfig v fs path
  /-- There is a file, but the system does not give it away. -/
  | unread {content f} : fs.look path = .ok (.file content) → fs.load path = .error f →
      UnusableConfig v fs path
  /-- There is a file with something else in it. -/
  | undecoded {content bytes f} : fs.look path = .ok (.file content) →
      fs.load path = .ok bytes → Config.ofBytes bytes = .error f → UnusableConfig v fs path

variable {fs : FileSystem} {path : Path}

theorem loadConfig_eq_error_iff :
    (∃ f, loadConfig v fs path = .error f) ↔ UnusableConfig v fs path := by
  unfold loadConfig
  constructor
  · rintro ⟨f, h⟩
    split at h
    · rename_i g hlook
      split at h
      · cases h
      · rename_i hseen
        exact .unseen hlook (eq_false_of_ne_true hseen)
    · cases h
    · rename_i content hlook
      rcases bind_eq_error_iff.1 h with h | ⟨bytes, hbytes, h⟩
      · obtain ⟨g, hload, -⟩ := mapError_eq_error_iff.1 h
        exact .unread hlook hload
      · obtain ⟨g, hg, -⟩ := mapError_eq_error_iff.1 h
        exact .undecoded hlook (mapError_eq_ok_iff.1 hbytes) hg
  · intro h
    cases h with
    | unseen hlook hseen =>
      rw [hlook]
      dsimp only
      rw [hseen]
      exact ⟨_, rfl⟩
    | unread hlook hload =>
      rw [hlook]
      exact ⟨_, bind_eq_error_iff.2 (.inl (mapError_eq_error_iff.2 ⟨_, hload, rfl⟩))⟩
    | undecoded hlook hload hf =>
      rw [hlook]
      exact ⟨_, bind_eq_error_iff.2 (.inr ⟨_, mapError_eq_ok_iff.2 hload,
        mapError_eq_error_iff.2 ⟨_, hf, rfl⟩⟩)⟩

/-- Without a configuration that can be used there is an exit code. -/
theorem optionsEnding_of_loadConfig {f : Fault}
    (h : loadConfig v fs path = .error f) : (CommandLine.optionsEnding f).1 = .exit 2 := by
  unfold loadConfig at h
  split at h
  · split at h
    · cases h
    · cases h
      rfl
  · cases h
  · rcases bind_eq_error_iff.1 h with h | ⟨bytes, -, h⟩
    · obtain ⟨g, -, rfl⟩ := mapError_eq_error_iff.1 h
      rfl
    · obtain ⟨c, -, rfl⟩ := mapError_eq_error_iff.1 h
      cases c <;> rfl

/-! ## Extensions -/

/-- An extension that is empty or holds a slash or a backslash. -/
def BadExtension (extension : String) : Prop :=
  extension = "" ∨ '/' ∈ extension.toList ∨ '\\' ∈ extension.toList

instance (extension : String) : Decidable (BadExtension extension) :=
  inferInstanceAs (Decidable (_ ∨ _ ∨ _))

theorem isExtension_iff {extension : String} :
    isExtension extension = true ↔ ¬ BadExtension extension := by
  simp [isExtension, BadExtension, and_assoc]

theorem extensionOf_eq_error {f : Fault} (h : extensionOf args config = .error f) :
    args.extension = .void ∧ f = .voidExtension := by
  unfold extensionOf at h
  split at h
  · cases h
  · rename_i hvoid
    cases h
    exact ⟨hvoid, rfl⟩
  · cases h

theorem merge_of_extension {extension : String}
    (h : extensionOf args config = .ok extension) : merge args config =
      if isExtension (stripDots extension) then
        .ok ⟨args.files.map .ofString, stripDots extension, args.debug || config.debug,
          args.verbose || config.verbose⟩
      else .error (.invalidExtension (stripDots extension)) := by
  unfold merge
  rw [h]
  rfl

end Options

end MacroModules

import CanonicalTree.Telemetry

/-!
# Diagnostics are installed once

A process may set up its diagnostics as often as it likes, and calls may fail at any time. If the
library takes a subscriber as long as the process has none, a call fails for the sake of its filter
only, and a call that fails leaves no trace. So the first call that succeeds installs its format,
and every later one that succeeds finds this format in use
(`Telemetry.Process.history_installs_once`).
-/

namespace CanonicalTree.Telemetry

variable {σ : Type} {library : Library σ} {process : Process σ} {format : LogFormat}

/-- A call with what the process was before it and what it is afterwards. -/
structure Call (σ : Type) where
  before : Process σ
  config : LogConfig
  outcome : Except Fault Report
  after : Process σ

/-- The call fails. -/
def Call.Fails (call : Call σ) : Prop :=
  ∃ fault, call.outcome = .error fault

theorem Call.not_fails_of_eq_ok {call : Call σ} {report : Report} (h : call.outcome = .ok report) :
    ¬ call.Fails := by
  rintro ⟨fault, hfault⟩
  rw [h] at hfault
  cases hfault

namespace Process

/-- Set up diagnostics. -/
def call (library : Library σ) (process : Process σ) (config : LogConfig) : Call σ where
  before := process
  config := config
  outcome := (process.initialise library config).1
  after := (process.initialise library config).2

/-- Set up diagnostics time and again. -/
def history (library : Library σ) (process : Process σ) : List LogConfig → List (Call σ)
  | [] => []
  | config :: rest =>
    process.call library config :: (process.call library config).after.history library rest

/-- As long as nothing is installed, the library takes a subscriber. -/
def Ready (library : Library σ) (process : Process σ) : Prop :=
  process.telemetry.installed = none → ∀ config, library.parses config.filter = true →
    (library.install config process.subscriber).1 = .ok ()

/-! ## One call -/

/-- The library does not refuse a process that is ready, so only the filter can make a call fail. -/
theorem initialise_of_ready (hready : process.Ready library) (config : LogConfig) :
    process.initialise library config =
      match process.telemetry.initialiseWith library config with
      | .error fault => (.error (.filter fault), process)
      | .ok (report, telemetry) =>
        (.ok report, ⟨telemetry, if report.installedNow then
          (library.install config process.subscriber).2 else process.subscriber⟩) := by
  obtain ⟨⟨installed⟩, subscriber⟩ := process
  unfold Process.initialise initialiseWith
  by_cases hparses : library.parses config.filter = true
  · rw [if_pos hparses]
    cases installed with
    | some format => rfl
    | none =>
      have haccepts := hready rfl config hparses
      cases hinstall : library.install config subscriber with
      | mk answer next =>
        rw [hinstall] at haccepts
        cases haccepts
        simp
  · rw [if_neg hparses]

variable {config : LogConfig}

/-- A text that is no filter makes a call fail, which leaves the process as it was. -/
theorem call_of_not_parses (hparses : ¬ library.parses config.filter = true) :
    process.call library config =
      ⟨process, config, .error (.filter ⟨config.filter, library.complaint config.filter⟩),
        process⟩ := by
  unfold call
  rw [initialise, initialiseWith, if_neg hparses]

/-- A call after an installation succeeds and reports the format that is installed. -/
theorem call_of_installed (hinstalled : process.telemetry.installed = some format)
    (hparses : library.parses config.filter = true) :
    process.call library config = ⟨process, config, .ok ⟨format, false⟩, process⟩ := by
  unfold call
  rw [initialise, initialiseWith, if_pos hparses, hinstalled]
  rfl

/-- The first call whose filter can be parsed installs its format. -/
theorem call_of_ready (hready : process.Ready library)
    (hinstalled : process.telemetry.installed = none)
    (hparses : library.parses config.filter = true) :
    process.call library config =
      ⟨process, config, .ok ⟨config.format, true⟩,
        ⟨⟨some config.format⟩, (library.install config process.subscriber).2⟩⟩ := by
  unfold call
  rw [initialise_of_ready hready, initialiseWith, if_pos hparses, hinstalled]
  rfl

/-- A call fails exactly if its filter cannot be parsed. -/
theorem call_fails_iff (hready : process.Ready library) :
    (process.call library config).Fails ↔ ¬ library.parses config.filter = true := by
  by_cases hparses : library.parses config.filter = true
  · refine iff_of_false (fun hfails => ?_) (not_not_intro hparses)
    cases hinstalled : process.telemetry.installed with
    | none =>
      rw [call_of_ready hready hinstalled hparses] at hfails
      exact Call.not_fails_of_eq_ok rfl hfails
    | some format =>
      rw [call_of_installed hinstalled hparses] at hfails
      exact Call.not_fails_of_eq_ok rfl hfails
  · rw [call_of_not_parses hparses]
    exact iff_of_true ⟨_, rfl⟩ hparses

/-- A call that fails says that the filter is to blame, and leaves the process as it was. -/
theorem call_of_fails (hready : process.Ready library)
    (hfails : (process.call library config).Fails) :
    process.call library config =
      ⟨process, config, .error (.filter ⟨config.filter, library.complaint config.filter⟩),
        process⟩ :=
  call_of_not_parses ((call_fails_iff hready).mp hfails)

/-- A call leaves the process ready for another. -/
theorem Ready.call (hready : process.Ready library) (config : LogConfig) :
    (process.call library config).after.Ready library := by
  by_cases hparses : library.parses config.filter = true
  · cases hinstalled : process.telemetry.installed with
    | none =>
      rw [call_of_ready hready hinstalled hparses]
      intro hnone
      cases hnone
    | some format =>
      rw [call_of_installed hinstalled hparses]
      exact hready
  · rw [call_of_not_parses hparses]
    exact hready

/-! ## Any number of calls -/

variable {configs : List LogConfig}

theorem map_config_history (library : Library σ) (process : Process σ) (configs : List LogConfig) :
    (process.history library configs).map Call.config = configs := by
  induction configs generalizing process with
  | nil => rfl
  | cons config rest ih =>
    rw [history, List.map_cons, ih]
    rfl

/-- In the whole history, a call fails exactly if its filter does not parse, and then it changes
nothing. -/
theorem history_fails (hready : process.Ready library) :
    ∀ call ∈ process.history library configs,
      (call.Fails ↔ ¬ library.parses call.config.filter = true) ∧
        (call.Fails → call.outcome =
            .error (.filter ⟨call.config.filter, library.complaint call.config.filter⟩) ∧
          call.after = call.before) := by
  induction configs generalizing process with
  | nil => simp [history]
  | cons config rest ih =>
    rw [history]
    refine List.forall_mem_cons.mpr
      ⟨⟨call_fails_iff hready, fun hfails => ?_⟩, ih (hready.call config)⟩
    rw [call_of_fails hready hfails]
    exact ⟨rfl, rfl⟩

/-- Once a format is installed, all calls that succeed find it in use. -/
theorem history_of_installed (hinstalled : process.telemetry.installed = some format) :
    ∀ call ∈ process.history library configs,
      ¬ call.Fails → call.outcome = .ok ⟨format, false⟩ := by
  induction configs with
  | nil => simp [history]
  | cons config rest ih =>
    rw [history]
    by_cases hparses : library.parses config.filter = true
    · rw [call_of_installed hinstalled hparses]
      exact List.forall_mem_cons.mpr ⟨fun _ => rfl, ih⟩
    · rw [call_of_not_parses hparses]
      exact List.forall_mem_cons.mpr ⟨fun hsucceeds => absurd ⟨_, rfl⟩ hsucceeds, ih⟩

/-- The first call that succeeds installs its format for all later ones. -/
theorem history_of_first (hready : process.Ready library)
    (hinstalled : process.telemetry.installed = none) {earlier later : List (Call σ)}
    {first : Call σ} (h : process.history library configs = earlier ++ first :: later)
    (hearlier : ∀ call ∈ earlier, call.Fails) (hfirst : ¬ first.Fails) :
    first.outcome = .ok ⟨first.config.format, true⟩ ∧
      ∀ call ∈ later, ¬ call.Fails → call.outcome = .ok ⟨first.config.format, false⟩ := by
  induction earlier generalizing configs with
  | nil =>
    cases configs with
    | nil => cases h
    | cons config rest =>
      obtain ⟨rfl, rfl⟩ := List.cons.inj h
      have hparses : library.parses config.filter = true :=
        Decidable.not_not.mp (mt (call_fails_iff hready).mpr hfirst)
      rw [call_of_ready hready hinstalled hparses]
      exact ⟨rfl, history_of_installed rfl⟩
  | cons call earlier ih =>
    cases configs with
    | nil => cases h
    | cons config rest =>
      -- a call that fails leaves the process as it was, so the later calls start from there
      obtain ⟨rfl, hrest⟩ := List.cons.inj h
      obtain ⟨hfails, hothers⟩ := List.forall_mem_cons.mp hearlier
      rw [call_of_fails hready hfails] at hrest
      exact ih hrest hothers

/-- Let the library take a subscriber from a process that has none. Then, however often diagnostics
are set up, a call fails if and only if its filter does not parse; it reports this filter and
changes nothing. Of the calls that succeed the first one says that it has installed its format, and
all later ones say that they have not, and that this format is in use. -/
theorem history_installs_once (library : Library σ) (subscriber : σ)
    (haccepts : ∀ config, library.parses config.filter = true →
      (library.install config subscriber).1 = .ok ()) (configs : List LogConfig) :
    let calls := ({ subscriber } : Process σ).history library configs
    calls.map Call.config = configs ∧
    (∀ call ∈ calls, (call.Fails ↔ ¬ library.parses call.config.filter = true) ∧
      (call.Fails → call.outcome =
          .error (.filter ⟨call.config.filter, library.complaint call.config.filter⟩) ∧
        call.after = call.before)) ∧
    ∀ earlier first later, calls = earlier ++ first :: later → (∀ call ∈ earlier, call.Fails) →
      ¬ first.Fails → first.outcome = .ok ⟨first.config.format, true⟩ ∧
        ∀ call ∈ later, ¬ call.Fails → call.outcome = .ok ⟨first.config.format, false⟩ := by
  have hready : ({ subscriber } : Process σ).Ready library := fun _ => haccepts
  exact ⟨map_config_history library _ configs, history_fails hready,
    fun earlier first later => history_of_first hready rfl⟩

/-- Whether a text is a row of levels, with commas between them. -/
def areLevels (filter : String) : Bool :=
  ((filter.toList.splitOn ',').map String.ofList).all
    (["off", "error", "warn", "info", "debug", "trace"].contains ·)

/-- A library that takes one subscriber, and rows of levels for its filter. -/
def exclusive : Library (Option LogConfig) where
  parses := areLevels
  complaint _ := "invalid filter directive"
  install
    | config, none => (.ok (), some config)
    | _, some installed =>
      (.error "a global default trace dispatcher has already been set", some installed)

/-- Four calls; in the filters of the first and the third, a bracket is not closed. -/
def fourConfigs : List LogConfig :=
  [⟨.compact, "warn,uast["⟩, ⟨.json, "off"⟩, ⟨.json, "off,["⟩, ⟨.compact, "off"⟩]

/-- Of the four calls the second installs its format, which the last one finds in use; the other two
fail. -/
theorem history_installs_once_fourConfigs :
    (∀ config, exclusive.parses config.filter = true →
      (exclusive.install config none).1 = .ok ()) ∧
    ∃ refused first refused' last,
      ({ subscriber := none } : Process (Option LogConfig)).history exclusive fourConfigs =
        [refused, first, refused', last] ∧
      refused.Fails ∧ first.outcome = .ok ⟨.json, true⟩ ∧ refused'.Fails ∧
        last.outcome = .ok ⟨.json, false⟩ := by
  have haccepts : ∀ config, exclusive.parses config.filter = true →
      (exclusive.install config none).1 = .ok () := fun _ _ => rfl
  have hoff : areLevels "off" = true := by decide
  have hspan : ¬ areLevels "warn,uast[" = true := by decide
  have hbracket : ¬ areLevels "off,[" = true := by decide
  obtain ⟨-, hfails, hfirst⟩ := history_installs_once exclusive none haccepts fourConfigs
  obtain ⟨⟨hcall₁, -⟩, hrest⟩ := List.forall_mem_cons.mp hfails
  obtain ⟨⟨hcall₂, -⟩, hrest⟩ := List.forall_mem_cons.mp hrest
  obtain ⟨⟨hcall₃, -⟩, hrest⟩ := List.forall_mem_cons.mp hrest
  obtain ⟨hcall₄, -⟩ := List.forall_mem_singleton.mp hrest
  have hfailed := hcall₁.mpr hspan
  obtain ⟨hinstalls, hlater⟩ := hfirst [_] _ [_, _] rfl (List.forall_mem_singleton.mpr hfailed)
    (mt hcall₂.mp (not_not_intro hoff))
  have hlast := hlater _ (List.mem_cons_of_mem _ List.mem_cons_self)
    (mt hcall₄.mp (not_not_intro hoff))
  exact ⟨haccepts, _, _, _, _, rfl, hfailed, hinstalls, hcall₃.mpr hbracket, hlast⟩

end Process

end CanonicalTree.Telemetry

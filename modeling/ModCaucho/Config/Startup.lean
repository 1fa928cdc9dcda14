import ModCaucho.Config.Order
import ModCaucho.Config.Runners

/-!
# Starting the server

What the directives of a server come to if all of them are accepted. The error of the
configuration is never cleared, so every file was read without an error, and every runner
has an address. The result can then be told from what the files contain, without going
through the commands one after the other.
-/

namespace ModCaucho

open LinkedForest

/-! ## What a directive asks for -/

/-- The `http-server` block of the file at a path, or NULL. -/
def Machine.serverAt (m : Machine) (path : Text) : Registry :=
  match m.files path with
  | none => .nil
  | some file =>
      match m.parsed path file with
      | .ok r => httpServer (r.1.getD .nil)
      | .error _ => .nil

/-- The file was read without an error. -/
def Machine.ReadsWell (m : Machine) (path : Text) : Prop :=
  ∃ file root, m.files path = some file ∧ m.parsed path file = .ok (root, none)

/-- Whether a result of `cse_parse` is one without an error. -/
def isClean : Except Stop (Option Registry × Option Text) → Bool
  | .ok (_, none) => true
  | _ => false

theorem isClean_iff (result : Except Stop (Option Registry × Option Text)) :
    isClean result = true ↔ ∃ root, result = .ok (root, none) := by
  rcases result with stop | ⟨root, _ | message⟩ <;> simp [isClean]

instance (m : Machine) (path : Text) : Decidable (m.ReadsWell path) :=
  decidable_of_iff (((m.files path).any fun file => isClean (m.parsed path file)) = true) <| by
    simp only [Option.any_eq_true, isClean_iff, Machine.ReadsWell, exists_and_left]

/-- A `web.xml` is not there, or was read without an error. -/
def Machine.ReadsWellIfThere (m : Machine) (path : Text) : Prop :=
  m.files path = none ∨ m.ReadsWell path

instance (m : Machine) (path : Text) : Decidable (m.ReadsWellIfThere path) :=
  inferInstanceAs (Decidable (_ ∨ _))

namespace Directive

variable (m : Machine)

/-- The path of a configuration file. -/
def path? : Directive → Option Text
  | configFile value => some (m.serverRoot value)
  | _ => none

/-- The `http-server` block that is loaded. -/
def server (d : Directive) : Registry :=
  match d.path? m with
  | some path => m.serverAt path
  | none => .nil

/-- The runners that are added. -/
def runners : Directive → List Runner
  | host hostArg portArg =>
      [HostCall.runner ⟨hostArg, directivePort portArg, false, false, m.hostent hostArg⟩]
  | backup hostArg portArg =>
      [HostCall.runner ⟨hostArg, directivePort portArg, true, false, m.hostent hostArg⟩]
  | configFile value =>
      if m.serverAt (m.serverRoot value) = .nil then []
      else serverRunners m.hostent (m.serverAt (m.serverRoot value)).first
  | _ => []

/-- The page of a `CauchoErrorPage`. -/
def page? : Directive → Option Text
  | errorPage page => some page
  | _ => none

/-- Everything that the directive names is found and read without an error. -/
structure Sound (home : Text) (d : Directive) : Prop where
  file : ∀ path ∈ d.path? m, m.ReadsWell path
  webXml : d.server m ≠ .nil →
    ∀ call ∈ serverCalls (d.server m) home, m.ReadsWellIfThere (webXmlIn call.appDir)
  runners : ∀ r ∈ d.runners m, r.call.hostent ≠ none

instance (home : Text) (d : Directive) : Decidable (d.Sound m home) :=
  decidable_of_iff ((∀ path ∈ d.path? m, m.ReadsWell path) ∧
    (d.server m ≠ .nil →
      ∀ call ∈ serverCalls (d.server m) home, m.ReadsWellIfThere (webXmlIn call.appDir)) ∧
    ∀ r ∈ d.runners m, r.call.hostent ≠ none)
    ⟨fun h => ⟨h.1, h.2.1, h.2.2⟩, fun h => ⟨h.file, h.webXml, h.runners⟩⟩

end Directive

/-- Resin's home in a configuration that is given it by the first of these directives that
has a file. -/
def homeAfter (m : Machine) (home : Option Text) (ds : List Directive) : Option Text :=
  home.or (ds.findSome? fun d => (d.path? m).map resinHomeOf)

/-! ## One directive -/

theorem setError_eq {config : ModuleConfig} (h : config.error = none) :
    config.setError none = config := by
  cases config with
  | mk t path resinHome off page locations =>
      cases t with
      | mk srunList srunSize error size_le =>
          cases h
          rfl

theorem webXmlError_none_iff (m : Machine) (calls : List WebAppCall) (error : Option Text) :
    m.webXmlError calls error = .ok none ↔
      error = none ∧ ∀ call ∈ calls, m.ReadsWellIfThere (webXmlIn call.appDir) := by
  induction calls generalizing error with
  | nil => simp [Machine.webXmlError]
  | cons c calls ih =>
      rw [Machine.webXmlError, List.forall_mem_cons]
      cases hfile : m.files (webXmlIn c.appDir) with
      | none =>
          simp only [ih]
          have hwell : m.ReadsWellIfThere (webXmlIn c.appDir) := Or.inl hfile
          tauto
      | some file =>
          simp only [m.parse_eq]
          have hwell : m.ReadsWellIfThere (webXmlIn c.appDir) ↔
              ∃ root, m.parsed (webXmlIn c.appDir) file = .ok (root, none) := by
            simp [Machine.ReadsWellIfThere, Machine.ReadsWell, hfile]
          rcases hparsed : m.parsed (webXmlIn c.appDir) file with stop | ⟨root, e⟩
          · simp [Except.map, hwell, hparsed]
          · simp only [Except.map, ih, hwell, hparsed, Option.or_eq_none_iff]
            constructor
            · rintro ⟨⟨rfl, rfl⟩, hcalls⟩
              exact ⟨rfl, ⟨root, rfl⟩, hcalls⟩
            · rintro ⟨rfl, ⟨root', hroot⟩, hcalls⟩
              cases hroot
              exact ⟨⟨rfl, rfl⟩, hcalls⟩

/-- The configuration with the path of its file, and with Resin's home. -/
def ModuleConfig.located (config : ModuleConfig) (path : Text) : ModuleConfig :=
  { config with path := path, resinHome := some (config.resinHome.getD (resinHomeOf path)) }

/-- The configuration when a file was loaded without an error. -/
def loaded (m : Machine) (config : ModuleConfig) (path : Text) : ModuleConfig :=
  let home := config.resinHome.getD (resinHomeOf path)
  let config := config.located path
  let node := m.serverAt path
  if node = .nil then config
  else
    { config with
      disableCauchoStatus := config.disableCauchoStatus || turnsStatusOff node
      locations := cseInitServer m.webXml config.locations node home
      srunTable := cseInitHosts m.hostent config.srunTable node.first
      errorPage := cseInitErrorPage config.errorPage node.first }

/-- The settings when a directive was accepted. -/
def Directive.apply (m : Machine) (s : Settings) : Directive → Settings
  | configFile value => { s with config := loaded m s.config (m.serverRoot value) }
  | host hostArg portArg => (cseHostCommand m s hostArg portArg).2
  | backup hostArg portArg => (cseBackupCommand m s hostArg portArg).2
  | keepalive _ => s
  | errorPage page => { s with gErrorPage := some page }

theorem initServerBlock_none_iff (m : Machine) {config config' : ModuleConfig} (node : Registry)
    (home : Text) :
    initServerBlock m config node home = .ok config' ∧ config'.error = none ↔
      (config.error = none ∧
        (∀ call ∈ serverCalls node home, m.ReadsWellIfThere (webXmlIn call.appDir)) ∧
        ∀ r ∈ serverRunners m.hostent node.first, r.call.hostent ≠ none) ∧
      config' = { config with
        disableCauchoStatus := config.disableCauchoStatus || turnsStatusOff node
        locations := cseInitServer m.webXml config.locations node home
        srunTable := cseInitHosts m.hostent config.srunTable node.first
        errorPage := cseInitErrorPage config.errorPage node.first } := by
  have hhosts (t : SrunTable) : (cseInitHosts m.hostent t node.first).error = none ↔
      t.error = none ∧ ∀ r ∈ serverRunners m.hostent node.first, r.call.hostent ≠ none :=
    (builds_cseInitHosts m.hostent t node.first).error
  have hcalls := webXmlError_none_iff m (serverCalls node home) config.error
  unfold initServerBlock
  cases hxml : m.webXmlError (serverCalls node home) config.error with
  | error stop =>
      rw [hxml] at hcalls
      simp only [reduceCtorEq, false_iff, false_and] at hcalls ⊢
      tauto
  | ok error =>
      simp only [hxml, Except.ok.injEq] at hcalls ⊢
      constructor
      · rintro ⟨rfl, hnone⟩
        obtain ⟨herror, hfound⟩ := (hhosts _).mp hnone
        obtain ⟨hconfig, hwell⟩ := hcalls.mp herror
        cases herror
        rw [setError_eq hconfig]
        exact ⟨⟨hconfig, hwell, hfound⟩, rfl⟩
      · rintro ⟨⟨hconfig, hwell, hfound⟩, rfl⟩
        cases hcalls.mpr ⟨hconfig, hwell⟩
        rw [setError_eq hconfig]
        exact ⟨rfl, (hhosts _).mpr ⟨hconfig, hfound⟩⟩

theorem serverAt_eq {m : Machine} {path file : Text} (hfile : m.files path = some file)
    {root : Option Registry} {error : Option Text} (h : m.parsed path file = .ok (root, error)) :
    m.serverAt path = httpServer (root.getD .nil) := by
  simp only [Machine.serverAt, hfile, h]

theorem readsWell_iff {m : Machine} {path file : Text} (hfile : m.files path = some file) :
    m.ReadsWell path ↔ ∃ root, m.parsed path file = .ok (root, none) := by
  simp [Machine.ReadsWell, hfile]

theorem cseInitConfig_eq (m : Machine) (config : ModuleConfig) (path : Text) :
    cseInitConfig m { config with path := path } =
      match m.files path with
      | none =>
          .ok ((config.located path).setError
            (some ("Resin cannot open config file `".toList ++ path ++ "'\n".toList)))
      | some file =>
          match m.parse path file config.error with
          | .error stop => .error stop
          | .ok (root, error) =>
              if httpServer (root.getD .nil) = .nil then
                .ok ((config.located path).setError error)
              else
                initServerBlock m ((config.located path).setError error)
                  (httpServer (root.getD .nil)) (config.resinHome.getD (resinHomeOf path)) := rfl

/-- `cse_init_config` records no error exactly if everything is found and read well. -/
theorem cseInitConfig_none_iff (m : Machine) {config config' : ModuleConfig}
    (hnone : config.error = none) (path : Text) :
    cseInitConfig m { config with path := path } = .ok config' ∧ config'.error = none ↔
      (m.ReadsWell path ∧
        (m.serverAt path ≠ .nil →
          (∀ call ∈ serverCalls (m.serverAt path) (config.resinHome.getD (resinHomeOf path)),
            m.ReadsWellIfThere (webXmlIn call.appDir)) ∧
          ∀ r ∈ serverRunners m.hostent (m.serverAt path).first, r.call.hostent ≠ none)) ∧
      config' = loaded m config path := by
  have hlocated : (config.located path).error = none := hnone
  rw [cseInitConfig_eq]
  cases hfile : m.files path with
  | none =>
      have hwell : ¬ m.ReadsWell path := by simp [Machine.ReadsWell, hfile]
      refine iff_of_false ?_ (fun h => hwell h.1.1)
      rintro ⟨h, herror⟩
      cases h
      cases herror
  | some file =>
      have hparse : m.parse path file config.error = m.parsed path file := by
        rw [hnone, Machine.parsed]
      simp only [hparse]
      rcases hparsed : m.parsed path file with stop | ⟨root, error⟩
      · have hwell : ¬ m.ReadsWell path := by simp [readsWell_iff hfile, hparsed]
        simp [hwell]
      · simp only [← serverAt_eq hfile hparsed]
        cases error with
        | some message =>
            have hwell : ¬ m.ReadsWell path := by simp [readsWell_iff hfile, hparsed]
            refine iff_of_false ?_ (fun h => hwell h.1.1)
            split
            · rintro ⟨h, herror⟩
              cases h
              cases herror
            · rw [initServerBlock_none_iff]
              rintro ⟨⟨herror, -⟩, -⟩
              cases herror
        | none =>
            have hwell : m.ReadsWell path := ⟨file, root, hfile, hparsed⟩
            rw [setError_eq hlocated]
            by_cases hnil : m.serverAt path = .nil
            · simp only [if_pos hnil, loaded, Except.ok.injEq]
              constructor
              · rintro ⟨rfl, -⟩
                exact ⟨⟨hwell, fun h => absurd hnil h⟩, rfl⟩
              · rintro ⟨-, rfl⟩
                exact ⟨rfl, hlocated⟩
            · rw [if_neg hnil, initServerBlock_none_iff]
              simp only [loaded, if_neg hnil]
              constructor
              · rintro ⟨⟨-, hcalls, hfound⟩, hresult⟩
                exact ⟨⟨hwell, fun _ => ⟨hcalls, hfound⟩⟩, hresult⟩
              · rintro ⟨⟨-, h⟩, hresult⟩
                exact ⟨⟨hlocated, h hnil⟩, hresult⟩

/-- A directive without a file names its runner only. -/
theorem sound_iff_runners {m : Machine} {d : Directive} (h : d.path? m = none) (home : Text) :
    d.Sound m home ↔ ∀ r ∈ d.runners m, r.call.hostent ≠ none := by
  have hserver : d.server m = .nil := by rw [Directive.server, h]
  exact ⟨Directive.Sound.runners, fun hrunners =>
    ⟨by simp [h], fun hne => absurd hserver hne, hrunners⟩⟩

/-- A directive with a file names what the file asks for. -/
theorem sound_configFile_iff {m : Machine} {value home : Text} :
    (Directive.configFile value).Sound m home ↔
      m.ReadsWell (m.serverRoot value) ∧
        (m.serverAt (m.serverRoot value) ≠ .nil →
          (∀ call ∈ serverCalls (m.serverAt (m.serverRoot value)) home,
            m.ReadsWellIfThere (webXmlIn call.appDir)) ∧
          ∀ r ∈ serverRunners m.hostent (m.serverAt (m.serverRoot value)).first,
            r.call.hostent ≠ none) := by
  constructor
  · intro h
    refine ⟨h.file _ rfl, fun hne => ⟨h.webXml hne, fun r hr => h.runners r ?_⟩⟩
    rw [Directive.runners, if_neg hne]
    exact hr
  · rintro ⟨hfile, hblock⟩
    refine ⟨fun path hpath => ?_, fun hne => (hblock hne).1, fun r hr => ?_⟩
    · cases hpath
      exact hfile
    · rw [Directive.runners] at hr
      split at hr
      · cases hr
      · next hne => exact (hblock hne).2 r hr

/-- A command returns no error exactly if everything that its directive names is found. -/
theorem exec_none_iff (m : Machine) {s s' : Settings} (hnone : s.config.error = none)
    (d : Directive) :
    d.exec m s = .ok (none, s') ↔
      d.Sound m ((homeAfter m s.config.resinHome [d]).getD []) ∧ s' = d.apply m s := by
  have hadd (call : HostCall) :
      (cseAddHostInt s.config.srunTable call).2.error = none ↔ call.hostent ≠ none := by
    rw [error_cseAddHostInt]
    exact and_iff_right hnone
  cases d with
  | keepalive flag =>
      rw [sound_iff_runners rfl]
      simp only [Directive.runners, List.not_mem_nil, false_implies, implies_true, true_and,
        Directive.exec, cseKeepaliveCommand, Directive.apply, Except.ok.injEq, Prod.mk.injEq]
      exact eq_comm
  | errorPage page =>
      rw [sound_iff_runners rfl]
      simp only [Directive.runners, List.not_mem_nil, false_implies, implies_true, true_and,
        Directive.exec, cseErrorPageCommand, Directive.apply, Except.ok.injEq, Prod.mk.injEq]
      exact eq_comm
  | host hostArg portArg =>
      rw [sound_iff_runners rfl, Directive.runners, List.forall_mem_singleton, HostCall.runner,
        ← hadd]
      simp only [Directive.exec, cseHostCommand, Directive.apply, Except.ok.injEq, Prod.mk.injEq]
      exact and_congr Iff.rfl eq_comm
  | backup hostArg portArg =>
      rw [sound_iff_runners rfl, Directive.runners, List.forall_mem_singleton, HostCall.runner,
        ← hadd]
      simp only [Directive.exec, cseBackupCommand, Directive.apply, Except.ok.injEq, Prod.mk.injEq]
      exact and_congr Iff.rfl eq_comm
  | configFile value =>
      have hhome : (homeAfter m s.config.resinHome [.configFile value]).getD [] =
          s.config.resinHome.getD (resinHomeOf (m.serverRoot value)) := by
        cases s.config.resinHome <;> simp [homeAfter, Directive.path?]
      have hconfig (config' : ModuleConfig) :=
        @cseInitConfig_none_iff m s.config config' hnone (m.serverRoot value)
      rw [hhome, sound_configFile_iff]
      simp only [Directive.exec, cseConfigFileCommand, Directive.apply]
      rcases hinit : cseInitConfig m { s.config with path := m.serverRoot value } with
        stop | config'
      · simp only [hinit, reduceCtorEq, false_and, false_iff, not_and] at hconfig
        simp only [Except.map, reduceCtorEq, false_iff, not_and]
        exact fun hsound => absurd rfl (hconfig _ hsound)
      · simp only [Except.map, Except.ok.injEq, Prod.mk.injEq]
        constructor
        · rintro ⟨herror, rfl⟩
          obtain ⟨hsound, rfl⟩ := (hconfig config').mp ⟨hinit, herror⟩
          exact ⟨hsound, rfl⟩
        · rintro ⟨hsound, rfl⟩
          obtain ⟨hloaded, herror⟩ := (hconfig _).mpr ⟨hsound, rfl⟩
          rw [hinit] at hloaded
          cases hloaded
          exact ⟨herror, rfl⟩

/-! ## All directives -/

theorem homeAfter_cons (m : Machine) (home : Option Text) (d : Directive) (ds : List Directive) :
    homeAfter m home (d :: ds) = homeAfter m (homeAfter m home [d]) ds := by
  simp only [homeAfter, List.findSome?_cons, List.findSome?_nil]
  cases (d.path? m).map resinHomeOf with
  | none => simp
  | some home' => cases home <;> simp

theorem apply_resinHome (m : Machine) (s : Settings) (d : Directive) :
    (d.apply m s).config.resinHome = homeAfter m s.config.resinHome [d] := by
  cases d with
  | configFile value =>
      have hhome : (loaded m s.config (m.serverRoot value)).resinHome =
          some (s.config.resinHome.getD (resinHomeOf (m.serverRoot value))) := by
        unfold loaded
        simp only
        split <;> rfl
      rw [show ((Directive.configFile value).apply m s).config =
        loaded m s.config (m.serverRoot value) from rfl, hhome]
      cases s.config.resinHome <;> simp [homeAfter, Directive.path?]
  | _ => simp [homeAfter, Directive.path?, Directive.apply, cseHostCommand, cseBackupCommand]

/-- A directive with a file settles the home. -/
theorem homeAfter_of_path {m : Machine} {d : Directive} {path : Text} (h : d.path? m = some path)
    (home : Option Text) (ds : List Directive) :
    homeAfter m home (d :: ds) = homeAfter m home [d] := by
  rw [homeAfter_cons]
  cases home <;> simp [homeAfter, h]

/-- The home is not looked at without a file, and with a file it is settled. -/
theorem sound_home {m : Machine} {d : Directive} (home : Option Text) (ds : List Directive) :
    d.Sound m ((homeAfter m home [d]).getD []) ↔
      d.Sound m ((homeAfter m home (d :: ds)).getD []) := by
  cases hpath : d.path? m with
  | none => rw [sound_iff_runners hpath, sound_iff_runners hpath]
  | some path => rw [homeAfter_of_path hpath home ds]

theorem apply_error {m : Machine} {s : Settings} (hnone : s.config.error = none) {d : Directive}
    (h : d.Sound m ((homeAfter m s.config.resinHome [d]).getD [])) :
    (d.apply m s).config.error = none := by
  have hexec := (exec_none_iff m hnone d).mpr ⟨h, rfl⟩
  cases d with
  | keepalive flag => exact hnone
  | errorPage page => exact hnone
  | host hostArg portArg => exact congrArg Prod.fst (Except.ok.inj hexec)
  | backup hostArg portArg => exact congrArg Prod.fst (Except.ok.inj hexec)
  | configFile value =>
      simp only [Directive.exec, cseConfigFileCommand] at hexec
      rcases hinit : cseInitConfig m { s.config with path := m.serverRoot value } with
        stop | config'
      · rw [hinit] at hexec
        cases hexec
      · rw [hinit] at hexec
        simp only [Except.map, Except.ok.injEq, Prod.mk.injEq] at hexec
        rw [← hexec.2]
        exact hexec.1

/-- The server gets through its directives exactly if each of them names what is there. -/
theorem configure_ok_iff (m : Machine) (ds : List Directive) {s s' : Settings}
    (hnone : s.config.error = none) :
    configure m ds s = .ok s' ↔
      (∀ d ∈ ds, d.Sound m ((homeAfter m s.config.resinHome ds).getD [])) ∧
        s' = ds.foldl (fun s d => d.apply m s) s := by
  induction ds generalizing s with
  | nil =>
      simp only [configure, Except.ok.injEq, List.not_mem_nil, false_implies, implies_true,
        true_and, List.foldl_nil]
      exact eq_comm
  | cons d ds ih =>
      have hexec := @exec_none_iff m s
      rw [List.forall_mem_cons, List.foldl_cons, ← sound_home s.config.resinHome ds, configure]
      by_cases hsound : d.Sound m ((homeAfter m s.config.resinHome [d]).getD [])
      · rw [(hexec hnone d).mpr ⟨hsound, rfl⟩]
        simp only [ih (apply_error hnone hsound), apply_resinHome, ← homeAfter_cons, hsound,
          true_and]
      · refine iff_of_false ?_ (fun h => hsound h.1.1)
        rcases hd : d.exec m s with stop | ⟨_ | message, s₁⟩
        · simp
        · exact absurd ((hexec hnone d).mp hd).1 hsound
        · simp

end ModCaucho

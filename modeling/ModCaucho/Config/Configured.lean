import ModCaucho.Config.Startup

/-!
# The configured server

What the plugin has when the server has started: its runners, what it makes of a request,
and the page that it shows when it reaches no runner. Each is told from the directives as a
whole.
-/

namespace ModCaucho

open LinkedForest Placeholder Subword

/-! ## Dispatching -/

/-- The content handlers, by what `r->handler` is set to. -/
inductive ContentHandler
  | cauchoRequest
  | cauchoStatus
deriving DecidableEq, Repr

/-- The URI of the status page. -/
def cauchoStatusUri : Text := "/caucho-status".toList

/-- `cse_dispatch`, with the handler that it sets, or nothing if it declines. There is no
result where the search of `cse_match_request` is never left. -/
def cseDispatch (config : ModuleConfig) (host : Text) (port : ℤ) (uri : Text) :
    Option (Option ContentHandler) :=
  match cseMatchRequest config.locations host port uri with
  | none => none
  | some true => some (some .cauchoRequest)
  | some false =>
      if config.disableCauchoStatus = false ∧ uri = cauchoStatusUri then some (some .cauchoStatus)
      else some none

/-! ## What the directives ask for -/

section

variable (m : Machine) (ds : List Directive)

/-- Resin's home, which the first file decides. -/
def homeOf : Text := (homeAfter m none ds).getD []

/-- The table of runners. -/
def runnerTable : List Srun :=
  match ds.flatMap (Directive.runners m) with
  | [] => [Listed.builtIn.entry 0]
  | rs => ((standingRunners rs).map Runner.found).mapIdx Listed.entry

/-- A file declares the location. -/
def Declared (loc : Location) : Prop :=
  ∃ d ∈ ds, d.server m ≠ .nil ∧ loc ∈ cseInitServer m.webXml [] (d.server m) (homeOf m ds)

/-- The request is one for the servlet runners. -/
def ForRunners (host : Text) (port : ℤ) (uri : Text) : Prop :=
  (∃ loc, Declared m ds loc ∧ loc.Accepts host port ∧ loc.Covers (stripSession uri)) ∨
    securityCheck <:+: stripSession uri

/-- A file turns the status page off. -/
def StatusOff : Prop := ∃ d ∈ ds, turnsStatusOff (d.server m) = true

/-- The `error-page` elements of all files. -/
def errorPages : List Registry := ds.flatMap fun d => linksTo "error-page".toList (d.server m).first

end

/-! ## One directive -/

variable {m : Machine} {s s' : Settings} {d : Directive} {ds : List Directive}

theorem apply_runners (m : Machine) (s : Settings) (d : Directive) :
    Builds (d.runners m) s.config.srunTable (d.apply m s).config.srunTable := by
  cases d with
  | keepalive flag => exact .refl _
  | errorPage page => exact .refl _
  | host hostArg portArg => exact builds_cseAddHostInt _ _
  | backup hostArg portArg => exact builds_cseAddHostInt _ _
  | configFile value =>
      simp only [Directive.runners, Directive.apply, loaded]
      split
      · exact .refl _
      · exact builds_cseInitHosts m.hostent s.config.srunTable _

theorem mem_cseInitServer_from (webXml : WebXml) (locations : List Location) (server : Registry)
    (home : Text) (loc : Location) :
    loc ∈ cseInitServer webXml locations server home ↔
      loc ∈ locations ∨ loc ∈ cseInitServer webXml [] server home := by
  unfold cseInitServer
  rw [mem_foldl_addHost, mem_foldl_addHost, (adds_cseInitHost webXml server [] home).2 locations,
    or_assoc]

theorem nodup_cseInitServer_from (webXml : WebXml) {locations : List Location} (server : Registry)
    (home : Text) (h : locations.Nodup) : (cseInitServer webXml locations server home).Nodup := by
  have hhost (appDir : Text) (node : Registry) :
      KeepsNodup fun locations => addHost webXml appDir locations node := by
    intro locations h
    change (addHost webXml appDir locations node).Nodup
    rw [addHost_eq]
    split
    · exact keepsNodup_cseInitHost webXml node node.id _ locations h
    · exact h
  exact keepsNodup_foldl (hhost _) server.first.siblings _
    (keepsNodup_cseInitHost webXml server [] home locations h)

/-- What directives make of the settings. -/
structure Sets (m : Machine) (ds : List Directive) (s s' : Settings) : Prop where
  runners : Builds (ds.flatMap (Directive.runners m)) s.config.srunTable s'.config.srunTable
  locations : ∀ loc, loc ∈ s'.config.locations ↔ loc ∈ s.config.locations ∨
    ∃ d ∈ ds, d.server m ≠ .nil ∧
      loc ∈ cseInitServer m.webXml [] (d.server m) ((homeAfter m s.config.resinHome ds).getD [])
  nodup : s.config.locations.Nodup → s'.config.locations.Nodup
  status : s'.config.disableCauchoStatus =
    (s.config.disableCauchoStatus || ds.any fun d => turnsStatusOff (d.server m))
  errorPage : s'.config.errorPage = (errorPages m ds).foldl errorPageRound s.config.errorPage
  gErrorPage : s'.gErrorPage = (ds.reverse.findSome? Directive.page?).or s.gErrorPage

theorem Sets.refl (m : Machine) (s : Settings) : Sets m [] s s where
  runners := .refl _
  locations := by simp
  nodup := id
  status := by simp
  errorPage := rfl
  gErrorPage := rfl

/-- A directive without a file leaves what files decide. -/
theorem sets_of_server_nil (hserver : d.server m = .nil)
    (hlocations : (d.apply m s).config.locations = s.config.locations)
    (hstatus : (d.apply m s).config.disableCauchoStatus = s.config.disableCauchoStatus)
    (hpage : (d.apply m s).config.errorPage = s.config.errorPage)
    (hg : (d.apply m s).gErrorPage = d.page?.or s.gErrorPage) : Sets m [d] s (d.apply m s) where
  runners := by simpa using apply_runners m s d
  locations := by simp [hlocations, hserver]
  nodup := by rw [hlocations]; exact id
  status := by simp [hstatus, hserver, turnsStatusOff, cseFindValue, Forest.first]
  errorPage := by simp [hpage, errorPages, hserver, linksTo, Forest.first]
  gErrorPage := by simpa using hg

theorem sets_apply (m : Machine) (s : Settings) (d : Directive) :
    Sets m [d] s (d.apply m s) := by
  cases d with
  | keepalive flag => exact sets_of_server_nil rfl rfl rfl rfl rfl
  | errorPage page => exact sets_of_server_nil rfl rfl rfl rfl rfl
  | host hostArg portArg => exact sets_of_server_nil rfl rfl rfl rfl rfl
  | backup hostArg portArg => exact sets_of_server_nil rfl rfl rfl rfl rfl
  | configFile value =>
      have hhome : (homeAfter m s.config.resinHome [.configFile value]).getD [] =
          s.config.resinHome.getD (resinHomeOf (m.serverRoot value)) := by
        cases s.config.resinHome <;> simp [homeAfter, Directive.path?]
      by_cases hnil : m.serverAt (m.serverRoot value) = .nil
      · have hloaded : loaded m s.config (m.serverRoot value) =
            s.config.located (m.serverRoot value) := by
          rw [loaded, if_pos hnil]
        refine sets_of_server_nil hnil ?_ ?_ ?_ rfl
        all_goals rw [Directive.apply, hloaded]; rfl
      · have hserver :
            (Directive.configFile value).server m = m.serverAt (m.serverRoot value) := rfl
        refine ⟨by simpa using apply_runners m s (.configFile value), ?_, ?_, ?_, ?_, rfl⟩
        all_goals simp only [Directive.apply, loaded, if_neg hnil]
        · intro loc
          rw [mem_cseInitServer_from, hhome]
          simp [hserver, hnil]
          rfl
        · exact nodup_cseInitServer_from _ _ _
        · simp [hserver]
          rfl
        · simp [errorPages, hserver, cseInitErrorPage]
          rfl

/-! ## All directives -/

theorem Sets.cons {s₁ : Settings} (h : Sets m [d] s s₁) (hd : s₁ = d.apply m s)
    (h' : Sets m ds s₁ s') : Sets m (d :: ds) s s' where
  runners := by simpa using h.runners.trans h'.runners
  locations := by
    intro loc
    rw [h'.locations, h.locations, hd, apply_resinHome, ← homeAfter_cons]
    simp only [List.mem_singleton, exists_eq_left]
    rw [List.exists_mem_cons_iff, or_assoc]
    refine or_congr_right (or_congr_left (and_congr_right fun hne => ?_))
    obtain ⟨path, hpath⟩ : ∃ path, d.path? m = some path := by
      cases hpath : d.path? m with
      | none => exact absurd (by rw [Directive.server, hpath]) hne
      | some path => exact ⟨path, rfl⟩
    rw [homeAfter_of_path hpath s.config.resinHome ds]
  nodup := fun hnodup => h'.nodup (h.nodup hnodup)
  status := by
    rw [h'.status, h.status]
    simp [Bool.or_assoc]
  errorPage := by
    rw [h'.errorPage, h.errorPage]
    simp [errorPages]
  gErrorPage := by
    rw [h'.gErrorPage, h.gErrorPage]
    simp [List.findSome?_append, Option.or_assoc]

theorem sets_foldl (m : Machine) (s : Settings) (ds : List Directive) :
    Sets m ds s (ds.foldl (fun s d => d.apply m s) s) := by
  induction ds generalizing s with
  | nil => exact .refl m s
  | cons d ds ih => exact (sets_apply m s d).cons rfl (ih _)

/-- What a server that has started was configured to. -/
theorem configure_sets (h : configure m ds .start = .ok s) : Sets m ds .start s := by
  obtain ⟨-, rfl⟩ := (configure_ok_iff m ds rfl).mp h
  exact sets_foldl m .start ds

/-- The server starts exactly if every file that a directive points to is there and is read
without an error, every `web.xml` in a directory of its applications is, and every runner
has an address. -/
theorem configure_starts_iff (m : Machine) (ds : List Directive) :
    (∃ s, configure m ds .start = .ok s) ↔ ∀ d ∈ ds, d.Sound m (homeOf m ds) := by
  constructor
  · rintro ⟨s, h⟩
    exact ((configure_ok_iff m ds rfl).mp h).1
  · intro h
    exact ⟨_, (configure_ok_iff m ds rfl).mpr ⟨h, rfl⟩⟩

/-- A file with a runner, a mapping and an error page. -/
def smallFile : Text :=
  ("<caucho.com><http-server><srun host='a'/><servlet-mapping url-pattern='/x'/>" ++
    "<error-page exception-type='connection' location='/e'/></http-server></caucho.com>").toList

/-- A machine that has the file and knows one host. -/
def smallMachine : Machine where
  fresh := fun _ _ => ' '
  files := fun path => if path = "/r/conf/f".toList then some smallFile else none
  depth := 1
  hostent := fun name => if name = "a".toList then some 7 else none
  serverRoot := id

def smallDirectives : List Directive := [.keepalive true, .configFile "/r/conf/f".toList]

theorem smallDirectives_sound :
    ∀ d ∈ smallDirectives, d.Sound smallMachine (homeOf smallMachine smallDirectives) := by
  decide +kernel

/-- The settings of the server with this file. -/
def smallSettings : Settings := smallDirectives.foldl (fun s d => d.apply smallMachine s) .start

theorem smallSettings_configured :
    configure smallMachine smallDirectives .start = .ok smallSettings :=
  (configure_ok_iff smallMachine smallDirectives rfl).mpr ⟨smallDirectives_sound, rfl⟩

theorem found_configured (h : configure m ds .start = .ok s) :
    ∀ r ∈ ds.flatMap (Directive.runners m), r.call.hostent ≠ none := by
  intro r hr
  obtain ⟨d, hd, hr⟩ := List.mem_flatMap.mp hr
  exact (((configure_ok_iff m ds rfl).mp h).1 d hd).runners r hr

theorem entries_configured (h : configure m ds .start = .ok s) :
    s.config.srunTable.entries = runnerTable m ds := by
  have hbuilds := (configure_sets h).runners
  have hfound := found_configured h
  unfold runnerTable
  cases hrs : ds.flatMap (Directive.runners m) with
  | nil =>
      rw [hrs] at hbuilds
      exact (hbuilds.lists _ lists_cseCreateServerConfig).entries
  | cons r rs =>
      rw [hrs] at hbuilds hfound
      exact hbuilds.entries hfound (by simp)

/-- The table of a server that has started lists the runners that its directives and files
ask for, in that order, each with its address, its role and its times. Only the defaults
that are followed by another runner before any other one are missing. -/
theorem configure_runners (h : configure m ds .start = .ok s) :
    s.config.srunTable.entries = runnerTable m ds ∧
      ∀ r ∈ ds.flatMap (Directive.runners m), r.call.hostent ≠ none :=
  ⟨entries_configured h, found_configured h⟩

theorem configure_runners_small :
    smallSettings.config.srunTable.entries = runnerTable smallMachine smallDirectives ∧
      ∀ r ∈ smallDirectives.flatMap (Directive.runners smallMachine), r.call.hostent ≠ none :=
  configure_runners smallSettings_configured

theorem mem_locations_configured (h : configure m ds .start = .ok s) (loc : Location) :
    loc ∈ s.config.locations ↔ Declared m ds loc := by
  rw [(configure_sets h).locations]
  exact or_iff_right List.not_mem_nil

/-- What the server does with a request is told from its files: it is one for the runners
if a file declares a location that it matches, it is one for the status page if it is not
and no file turns that page off, and nothing else is handled. -/
theorem configure_dispatches (h : configure m ds .start = .ok s) (host : Text) (port : ℤ)
    (uri : Text) :
    ∃ answer, cseDispatch s.config host port uri = some answer ∧
      (answer = some .cauchoRequest ↔ ForRunners m ds host port uri) ∧
      (answer = some .cauchoStatus ↔
        ¬ ForRunners m ds host port uri ∧ uri = cauchoStatusUri ∧ ¬ StatusOff m ds) := by
  have hsets := configure_sets h
  have hmem := mem_locations_configured h
  have hoff : s.config.disableCauchoStatus = true ↔ StatusOff m ds := by
    rw [hsets.status]
    simp [Settings.start, StatusOff]
  obtain ⟨b, hb, hiff⟩ := cseMatchLocation_eq
    (fun loc hloc => by
      obtain ⟨d, -, -, hd⟩ := (hmem loc).mp hloc
      exact compiled_of_mem_cseInitServer m.webXml _ _ hd) host port (stripSession uri)
  have hserves : ForRunners m ds host port uri ↔
      b = true ∨ (find securityCheck (stripSession uri)).isSome = true := by
    rw [ForRunners, hiff, Option.isSome_iff_ne_none, ne_eq, find_eq_none_iff, not_not]
    simp only [hmem]
  have hmatch : cseMatchRequest s.config.locations host port uri =
      some (b || (find securityCheck (stripSession uri)).isSome) := by
    rw [cseMatchRequest_eq, hb]
    cases b <;> rfl
  rw [cseDispatch, hmatch, hserves, ← Bool.or_eq_true]
  cases b || (find securityCheck (stripSession uri)).isSome with
  | true => exact ⟨_, rfl, by simp, by simp⟩
  | false =>
      simp only
      split
      · next hstatus =>
          refine ⟨_, rfl, by simp, ?_⟩
          simp only [true_iff]
          refine ⟨by simp, hstatus.2, fun hoff' => ?_⟩
          rw [← hoff, hstatus.1] at hoff'
          cases hoff'
      · next hstatus =>
          refine ⟨_, rfl, by simp, ?_⟩
          simp only [reduceCtorEq, false_iff]
          rintro ⟨-, huri, hnot⟩
          refine hstatus ⟨?_, huri⟩
          rw [← hoff] at hnot
          exact Bool.eq_false_iff.mpr hnot

theorem configure_dispatches_small :
    ∃ answer, cseDispatch smallSettings.config [] 0 "/x".toList = some answer ∧
      (answer = some .cauchoRequest ↔ ForRunners smallMachine smallDirectives [] 0 "/x".toList) ∧
      (answer = some .cauchoStatus ↔
        ¬ ForRunners smallMachine smallDirectives [] 0 "/x".toList ∧ "/x".toList = cauchoStatusUri ∧
          ¬ StatusOff smallMachine smallDirectives) :=
  configure_dispatches smallSettings_configured [] 0 "/x".toList

/-! ## Error pages -/

/-- An `error-page` for failing connections. -/
def isConnectionPage (node : Registry) : Bool :=
  cseFindValue node.first "exception-type".toList = some "connection".toList

/-- The location of an `error-page` that is not for an exception or a code. -/
def generalPage (node : Registry) : Option Text :=
  if cseFindValue node.first "exception-type".toList = none ∧
      cseFindValue node.first "error-code".toList = none then
    cseFindValue node.first "location".toList
  else none

/-- The page that these `error-page` elements choose: the last one for failing connections,
or the first general one behind it that has a location. -/
def chosenPage (nodes : List Registry) : Option Text :=
  let behind := (nodes.reverse.takeWhile fun node => ! isConnectionPage node).reverse
  ((nodes.reverse.find? isConnectionPage).bind fun node =>
    cseFindValue node.first "location".toList).or (behind.findSome? generalPage)

theorem errorPageRound_eq (page : Option Text) (node : Registry) :
    errorPageRound page node =
      if isConnectionPage node then cseFindValue node.first "location".toList
      else page.or (generalPage node) := by
  simp only [errorPageRound, isConnectionPage, generalPage, decide_eq_true_eq]
  split
  · rfl
  · cases page with
    | none => simp only [and_true, Option.none_or]
    | some page => simp only [reduceCtorEq, and_false, if_false, Option.some_or]

theorem foldl_errorPageRound (nodes : List Registry) :
    nodes.foldl errorPageRound none = chosenPage nodes := by
  induction nodes using List.reverseRecOn with
  | nil => rfl
  | append_singleton nodes node ih =>
      rw [List.foldl_append, ih, List.foldl_cons, List.foldl_nil, errorPageRound_eq]
      simp only [chosenPage, List.reverse_append, List.reverse_cons, List.reverse_nil,
        List.nil_append, List.singleton_append]
      cases hnode : isConnectionPage node with
      | true =>
          rw [List.takeWhile_cons_of_neg (by rw [hnode]; decide), List.find?_cons_of_pos hnode,
            if_pos rfl]
          exact (Option.or_none).symm
      | false =>
          rw [List.takeWhile_cons_of_pos (by rw [hnode]; decide),
            List.find?_cons_of_neg (by rw [hnode]; decide), if_neg Bool.false_ne_true,
            List.reverse_cons, List.findSome?_append, List.findSome?_singleton, Option.or_assoc]

/-- The page for failing connections that a server has: that of its last `CauchoErrorPage`,
or the one that its files choose. -/
def connectionPage (m : Machine) (ds : List Directive) : Option Text :=
  (ds.reverse.findSome? Directive.page?).or (chosenPage (errorPages m ds))

theorem configure_page (h : configure m ds .start = .ok s) :
    s.gErrorPage.or s.config.errorPage = connectionPage m ds := by
  have hsets := configure_sets h
  rw [hsets.gErrorPage, hsets.errorPage, Settings.start, Option.or_none, foldl_errorPageRound]
  rfl

end ModCaucho

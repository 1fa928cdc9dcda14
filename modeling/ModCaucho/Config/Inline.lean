import ModCaucho.Config.Configured

/-!
# The `web.xml` files as part of the configuration

`cse_init_web_app` reads the `web.xml` of a directory next to the block that it belongs to,
and the registry itself is not updated. Nothing would change if it were: the mappings of a
`web.xml` can be copied to the end of the block, for the web-apps, for the hosts, and for the
root application that each host has. A server without any `web.xml` is left.
-/

namespace ModCaucho

open LinkedForest LinkedForest.Forest

/-! ## Copying -/

section

variable (webXml : WebXml)

/-- The `servlet-mapping` elements in the `web.xml` of a directory. -/
def mappingsIn (dir : Text) : Registry :=
  match webXml (dir ++ "/WEB-INF/web.xml".toList) with
  | some web => web.first.first.only fun entry => entry.key = "servlet-mapping".toList
  | none => .nil

/-- The children of a sibling in a directory, where a web-app has got the mappings of its
`web.xml`. -/
def inlineWebApp (dir : Text) (entry : Entry) (first : Registry) : Registry :=
  if entry.key = "web-app".toList then
    first.append (mappingsIn webXml (cseAppDir (.node entry first .nil) dir))
  else first

/-- The children of a host, with the mappings for its root application and its web-apps. -/
def inlineHost (dir : Text) (entry : Entry) (first : Registry) : Registry :=
  (first.mapFirst (inlineWebApp webXml (cseAppDir (.node entry first .nil) dir))).append
    (mappingsIn webXml dir)

/-- The children of a sibling in a server, where a host has got the mappings for it. -/
def inlineBlock (dir : Text) (entry : Entry) (first : Registry) : Registry :=
  if entry.key = "host".toList then
    inlineHost webXml (cseAppDir (.node entry first .nil) dir) entry first
  else inlineWebApp webXml dir entry first

/-- The server with the mappings of all `web.xml` files. -/
def inlineServer (resinHome : Text) : Registry → Registry
  | .nil => .nil
  | .node entry first next =>
      .node entry ((first.mapFirst (inlineBlock webXml
        (cseAppDir (.node entry first .nil) resinHome))).append (mappingsIn webXml resinHome)) next

end

/-- There is no `web.xml`. -/
def noWebXml : WebXml := fun _ => none

/-! ## What a block is asked -/

section

variable {webXml : WebXml}

/-- What is copied are mappings. -/
theorem key_mappingsIn {dir : Text} {x : Entry × Registry}
    (hx : x ∈ (mappingsIn webXml dir).children) : x.1.key = "servlet-mapping".toList := by
  unfold mappingsIn at hx
  split at hx
  · rw [children_only, List.mem_filter] at hx
    exact of_decide_eq_true hx.2
  · cases hx

theorem cseFindValue_append {s t : Registry} {key : Text} (h : ∀ x ∈ t.children, x.1.key ≠ key) :
    cseFindValue (s.append t) key = cseFindValue s key := by
  induction s with
  | nil =>
      rcases cseFindValue_eq t key with ⟨x, hx, hkey, -⟩ | ⟨-, hnone⟩
      · exact absurd hkey (h x hx)
      · exact hnone
  | node entry first next _ ih => simp only [node_append, cseFindValue, ih]

theorem cseFindValue_mapFirst (g : Entry → Registry → Registry) (s : Registry) (key : Text) :
    cseFindValue (s.mapFirst g) key = cseFindValue s key := by
  induction s with
  | nil => rfl
  | node entry first next _ ih => simp only [mapFirst, cseFindValue, ih]

theorem appDir_ne_mapping : "servlet-mapping".toList ≠ "app-dir".toList := by decide

theorem webApp_ne_mapping : "servlet-mapping".toList ≠ "web-app".toList := by decide

theorem host_ne_mapping : "servlet-mapping".toList ≠ "host".toList := by decide

theorem host_ne_webApp : "host".toList ≠ "web-app".toList := by decide

/-- The mappings do not count for the directory of a block. -/
theorem cseAppDir_append (entry : Entry) (first next next' : Registry) (dir parent : Text) :
    cseAppDir (.node entry (first.append (mappingsIn webXml dir)) next) parent =
      cseAppDir (.node entry first next') parent := by
  have hfind : cseFindValue (first.append (mappingsIn webXml dir)) "app-dir".toList =
      cseFindValue first "app-dir".toList :=
    cseFindValue_append fun x hx => key_mappingsIn hx ▸ appDir_ne_mapping
  simp only [cseAppDir, hfind]

/-- Nor does what is below the children. -/
theorem cseAppDir_inlined (g : Entry → Registry → Registry) (entry : Entry)
    (first next next' : Registry) (dir parent : Text) :
    cseAppDir (.node entry ((first.mapFirst g).append (mappingsIn webXml dir)) next) parent =
      cseAppDir (.node entry first next') parent := by
  rw [cseAppDir_append entry (first.mapFirst g) next .nil]
  simp only [cseAppDir, cseFindValue_mapFirst]

theorem inlineWebApp_of_ne {entry : Entry} (h : entry.key ≠ "web-app".toList) (dir : Text)
    (first : Registry) : inlineWebApp webXml dir entry first = first := if_neg h

theorem inlineBlock_of_ne {entry : Entry} (h : entry.key ≠ "host".toList) (dir : Text)
    (first : Registry) : inlineBlock webXml dir entry first = inlineWebApp webXml dir entry first :=
  if_neg h

/-! ## The locations of a block -/

/-- The mappings behind a block declare what the `web.xml` does. -/
theorem contents_append (s : Registry) (dir host webApp : Text) (loc : Location) :
    loc ∈ cseInitWebAppContents [] (s.append (mappingsIn webXml dir)) host webApp ↔
      loc ∈ cseInitWebAppContents [] s host webApp ∨
        ∃ web ∈ webXml (dir ++ "/WEB-INF/web.xml".toList), web.first ≠ .nil ∧
          loc ∈ cseInitWebAppContents [] web.first.first host webApp := by
  simp only [mem_cseInitWebAppContents, children_append, List.mem_append, or_and_right, exists_or]
  unfold mappingsIn
  cases webXml (dir ++ "/WEB-INF/web.xml".toList) with
  | none => simp
  | some web =>
      have hcopied : (∃ x ∈ (web.first.first.only fun entry =>
            entry.key = "servlet-mapping".toList).children, MapsPattern host webApp loc x) ↔
          ∃ x ∈ web.first.first.children, MapsPattern host webApp loc x := by
        simp only [children_only, List.mem_filter, decide_eq_true_eq]
        exact ⟨fun ⟨x, hx, h⟩ => ⟨x, hx.1, h⟩, fun ⟨x, hx, h⟩ => ⟨x, ⟨hx, h.1⟩, h⟩⟩
      simp only [hcopied, Option.mem_some_iff, exists_eq_left']
      by_cases hweb : web.first = .nil
      · have hnone : (Forest.nil : Registry).first.children = [] := rfl
        simp only [hweb, hnone, ne_eq, not_true_eq_false, List.not_mem_nil, false_and,
          exists_false, or_false]
      · simp only [ne_eq, hweb, not_false_eq_true, true_and]
        exact or_or_distrib_left

/-- Only the mappings of a block declare something. -/
theorem contents_mapFirst {g : Entry → Registry → Registry}
    (hkeep : ∀ entry first, entry.key = "servlet-mapping".toList → g entry first = first)
    (s : Registry) (host webApp : Text) (loc : Location) :
    loc ∈ cseInitWebAppContents [] (s.mapFirst g) host webApp ↔
      loc ∈ cseInitWebAppContents [] s host webApp := by
  have hsame (x : Entry × Registry) :
      MapsPattern host webApp loc (x.1, g x.1 x.2) ↔ MapsPattern host webApp loc x := by
    unfold MapsPattern
    refine and_congr_right fun hkey => ?_
    rw [hkeep x.1 x.2 hkey]
  simp only [mem_cseInitWebAppContents, children_mapFirst, List.mem_map, exists_exists_and_eq_and,
    hsame]

/-- A block with its mappings needs no `web.xml`. -/
theorem webApp_inlined (entry : Entry) (s next next' : Registry) (host webApp dir : Text)
    (loc : Location) :
    loc ∈ cseInitWebApp noWebXml [] (.node entry (s.append (mappingsIn webXml dir)) next) host
        webApp dir ↔
      loc ∈ cseInitWebApp webXml [] (.node entry s next') host webApp dir := by
  rw [mem_cseInitWebApp, mem_cseInitWebApp, contents_append]
  refine or_iff_left ?_
  rintro ⟨web, hweb, -⟩
  cases hweb

theorem addWebApp_inlined (entry : Entry) (first : Registry) (host hostDir : Text)
    (loc : Location) :
    WebAppDeclares noWebXml host hostDir loc (entry, inlineWebApp webXml hostDir entry first) ↔
      WebAppDeclares webXml host hostDir loc (entry, first) := by
  unfold WebAppDeclares addWebApp
  simp only [Registry.value]
  cases entry.value with
  | none => exact Iff.rfl
  | some webApp =>
      simp only [Registry.hasKey, beq_iff_eq]
      by_cases hkey : entry.key = "web-app".toList
      · rw [if_pos hkey, if_pos hkey, inlineWebApp, if_pos hkey, cseAppDir_append]
        exact webApp_inlined entry first .nil .nil host webApp _ loc
      · rw [if_neg hkey, if_neg hkey]

theorem key_of_webAppDeclares {host hostDir : Text} {loc : Location} {x : Entry × Registry}
    (h : WebAppDeclares webXml host hostDir loc x) : x.1.key = "web-app".toList := by
  unfold WebAppDeclares addWebApp at h
  split at h
  · split at h
    · next hkey => exact beq_iff_eq.mp hkey
    · cases h
  · cases h

/-- A host with its mappings needs no `web.xml`. -/
theorem host_inlined {g : Entry → Registry → Registry} {entry : Entry} {first : Registry}
    {dir : Text}
    (hkeep : ∀ entry first, entry.key = "servlet-mapping".toList → g entry first = first)
    (hweb : ∀ entry' first', entry'.key = "web-app".toList → g entry' first' =
      inlineWebApp webXml (cseAppDir (.node entry first .nil) dir) entry' first')
    (next next' : Registry) (host : Text) (loc : Location) :
    loc ∈ cseInitHost noWebXml []
        (.node entry ((first.mapFirst g).append (mappingsIn webXml dir)) next) host dir ↔
      loc ∈ cseInitHost webXml [] (.node entry first next') host dir := by
  have hroot : loc ∈ cseInitWebApp noWebXml []
        (.node entry ((first.mapFirst g).append (mappingsIn webXml dir)) next) host [] dir ↔
      loc ∈ cseInitWebApp webXml [] (.node entry first next') host [] dir := by
    rw [webApp_inlined entry (first.mapFirst g) next next', mem_cseInitWebApp, mem_cseInitWebApp,
      contents_mapFirst hkeep]
  have hdir := @cseAppDir_inlined webXml g entry first next next' dir dir
  have hdeclares (x : Entry × Registry) :
      WebAppDeclares noWebXml host (cseAppDir (.node entry first next') dir) loc (x.1, g x.1 x.2) ↔
        WebAppDeclares webXml host (cseAppDir (.node entry first next') dir) loc x := by
    by_cases hkey : x.1.key = "web-app".toList
    · rw [hweb x.1 x.2 hkey]
      exact addWebApp_inlined x.1 x.2 host _ loc
    · exact iff_of_false
        (fun h => hkey (key_of_webAppDeclares (x := (x.1, g x.1 x.2)) h))
        fun h => hkey (key_of_webAppDeclares h)
  have hmappings : ¬ ∃ x ∈ (mappingsIn webXml dir).children,
      WebAppDeclares noWebXml host (cseAppDir (.node entry first next') dir) loc x := by
    rintro ⟨x, hx, h⟩
    exact webApp_ne_mapping ((key_mappingsIn hx).symm.trans (key_of_webAppDeclares h))
  rw [mem_cseInitHost, mem_cseInitHost, hroot, hdir]
  refine or_congr_right ?_
  simp only [children_append, List.mem_append, or_and_right, exists_or, or_iff_left hmappings,
    children_mapFirst, List.mem_map, exists_exists_and_eq_and, hdeclares]

/-- A host block with its mappings needs no `web.xml`. -/
theorem addHost_inlined (entry : Entry) (first : Registry) (dir : Text) (loc : Location) :
    HostDeclares noWebXml dir loc (entry, inlineBlock webXml dir entry first) ↔
      HostDeclares webXml dir loc (entry, first) := by
  unfold HostDeclares addHost
  simp only [Registry.value]
  cases entry.value with
  | none => exact Iff.rfl
  | some name =>
      simp only [Registry.hasKey, beq_iff_eq]
      by_cases hkey : entry.key = "host".toList
      · rw [if_pos hkey, if_pos hkey, inlineBlock, if_pos hkey, inlineHost,
          cseAppDir_inlined _ entry first .nil .nil]
        refine host_inlined (fun entry' first' hmapping => ?_) (fun _ _ _ => rfl) .nil .nil name loc
        exact inlineWebApp_of_ne (hmapping ▸ webApp_ne_mapping) _ first'
      · rw [if_neg hkey, if_neg hkey]

theorem key_of_hostDeclares {dir : Text} {loc : Location} {x : Entry × Registry}
    (h : HostDeclares webXml dir loc x) : x.1.key = "host".toList := by
  unfold HostDeclares addHost at h
  split at h
  · split at h
    · next hkey => exact beq_iff_eq.mp hkey
    · cases h
  · cases h

/-- A server with the mappings of its `web.xml` files declares the same locations without
them. -/
theorem server_inlined (server : Registry) (resinHome : Text) (loc : Location) :
    loc ∈ cseInitServer noWebXml [] (inlineServer webXml resinHome server) resinHome ↔
      loc ∈ cseInitServer webXml [] server resinHome := by
  cases server with
  | nil => exact Iff.rfl
  | node entry first next =>
      have hmappings : ¬ ∃ x ∈ (mappingsIn webXml resinHome).children,
          HostDeclares noWebXml (cseAppDir (.node entry first next) resinHome) loc x := by
        rintro ⟨x, hx, h⟩
        exact host_ne_mapping ((key_mappingsIn hx).symm.trans (key_of_hostDeclares h))
      have hkeep : ∀ entry' first', entry'.key = "servlet-mapping".toList → inlineBlock webXml
          (cseAppDir (.node entry first .nil) resinHome) entry' first' = first' := by
        intro entry' first' hkey
        rw [inlineBlock_of_ne (hkey ▸ host_ne_mapping),
          inlineWebApp_of_ne (hkey ▸ webApp_ne_mapping)]
      have hweb : ∀ entry' first', entry'.key = "web-app".toList → inlineBlock webXml
          (cseAppDir (.node entry first .nil) resinHome) entry' first' =
            inlineWebApp webXml (cseAppDir (.node entry first .nil) resinHome) entry' first' :=
        fun entry' first' hkey => inlineBlock_of_ne (hkey ▸ host_ne_webApp.symm) _ first'
      rw [inlineServer, mem_cseInitServer_node, mem_cseInitServer_node,
        host_inlined hkeep hweb next next, cseAppDir_inlined _ entry first next next]
      refine or_congr_right ?_
      simp only [children_append, List.mem_append, or_and_right, exists_or, or_iff_left hmappings,
        children_mapFirst, List.mem_map, exists_exists_and_eq_and]
      exact exists_congr fun x => and_congr_right fun _ => addHost_inlined x.1 x.2 _ loc

end

/-! ## The configuration -/

section

variable (m : Machine) (ds : List Directive)

/-- The locations of the files with the mappings copied to their blocks. -/
def inlinedLocations : List Location :=
  ds.foldl (fun locations d => cseInitServer noWebXml locations
    (inlineServer m.webXml (homeOf m ds) (d.server m)) (homeOf m ds)) []

variable {m ds} {s : Settings}

theorem mem_inlinedLocations (loc : Location) :
    loc ∈ inlinedLocations m ds ↔ Declared m ds loc := by
  have hfold (ds' : List Directive) (locations : List Location) :
      loc ∈ ds'.foldl (fun locations d => cseInitServer noWebXml locations
          (inlineServer m.webXml (homeOf m ds) (d.server m)) (homeOf m ds)) locations ↔
        loc ∈ locations ∨
          ∃ d ∈ ds', loc ∈ cseInitServer m.webXml [] (d.server m) (homeOf m ds) := by
    induction ds' generalizing locations with
    | nil => simp
    | cons d ds' ih =>
        rw [List.foldl_cons, ih, mem_cseInitServer_from, server_inlined, List.exists_mem_cons_iff,
          or_assoc]
  rw [inlinedLocations, hfold, or_iff_right List.not_mem_nil]
  refine exists_congr fun d => and_congr_right fun _ => (and_iff_right_of_imp ?_).symm
  intro hloc hnil
  rw [hnil] at hloc
  cases hloc

/-- A server that has started dispatches every request as one does that has no `web.xml` and
finds the mappings in its blocks. -/
theorem configure_inlined (h : configure m ds .start = .ok s) (host : Text) (port : ℤ)
    (uri : Text) :
    ∃ answer, cseDispatch s.config host port uri = some answer ∧
      cseDispatch { s.config with locations := inlinedLocations m ds } host port uri =
        some answer := by
  have hmem := mem_locations_configured h
  obtain ⟨b, hb, hb'⟩ := cseMatchRequest_congr
    (fun loc hloc => by
      obtain ⟨d, -, -, hd⟩ := (hmem loc).mp hloc
      exact compiled_of_mem_cseInitServer m.webXml _ _ hd)
    (fun loc => (hmem loc).trans (mem_inlinedLocations loc).symm) host port uri
  simp only [cseDispatch, hb, hb']
  cases b with
  | true => exact ⟨_, rfl, rfl⟩
  | false =>
      by_cases hstatus : s.config.disableCauchoStatus = false ∧ uri = cauchoStatusUri
      · exact ⟨_, if_pos hstatus, if_pos hstatus⟩
      · exact ⟨_, if_neg hstatus, if_neg hstatus⟩

/-- The small machine with a `web.xml` for the root application. -/
def mappedMachine : Machine :=
  { smallMachine with
    files := fun path =>
      if path = "/r/WEB-INF/web.xml".toList then
        some "<web-app><servlet-mapping url-pattern='/y'/></web-app>".toList
      else smallMachine.files path }

theorem mappedMachine_sound :
    ∀ d ∈ smallDirectives, d.Sound mappedMachine (homeOf mappedMachine smallDirectives) := by
  decide +kernel

/-- The settings of the server with both files. -/
def mappedSettings : Settings := smallDirectives.foldl (fun s d => d.apply mappedMachine s) .start

theorem mappedSettings_configured :
    configure mappedMachine smallDirectives .start = .ok mappedSettings :=
  (configure_ok_iff mappedMachine smallDirectives rfl).mpr ⟨mappedMachine_sound, rfl⟩

theorem configure_inlined_mapped :
    (inlinedLocations mappedMachine smallDirectives).map Location.locPrefix =
        ["/y".toList, "/x".toList, "/WEB-INF".toList] ∧
      ∃ answer, cseDispatch mappedSettings.config [] 0 "/y".toList = some answer ∧
        cseDispatch
          { mappedSettings.config with
            locations := inlinedLocations mappedMachine smallDirectives }
          [] 0 "/y".toList = some answer :=
  ⟨by decide +kernel, configure_inlined mappedSettings_configured [] 0 "/y".toList⟩

end

end ModCaucho

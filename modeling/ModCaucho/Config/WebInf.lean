import ModCaucho.Config.AppDirs
import ModCaucho.Config.Pattern

/-!
# The directory WEB-INF

Every call of `cse_init_web_app` adds the pattern `/WEB-INF/*`, and nothing takes a location
away. So a request below the `WEB-INF` of an application is always handed to Resin, unless
what looks like a session in the context of the application hides the directory.
-/

namespace ModCaucho

open CString Subword

/-- The name in the id of a host. -/
def hostName (id : Text) : Text := id.takeWhile (· ≠ ':')

/-- The port in the id of a host, or 0. -/
def hostPort (id : Text) : ℤ :=
  if ':' ∈ id then atoi (ascii (id.drop ((hostName id).length + 1))) else 0

/-- The host and the id of a web-app of the server, where `[]` stands for the default host
and for a root application. -/
def Application (server : Registry) (host webApp : Text) : Prop :=
  ∃ block, (block = server ∧ host = [] ∨ block ∈ hosts server ∧ host = block.id) ∧
    (webApp = [] ∨ ∃ w ∈ webApps block, webApp = w.id)

/-- The directory in a context. -/
def webInf : Text := "/WEB-INF".toList

/-- The URI is in the `WEB-INF` of a web-app. It may have a session. -/
def InWebInf (webApp uri : Text) : Prop :=
  ∃ base, Under (contextOf webApp ++ webInf) base ∧
    (uri = base ∨ ∃ session, uri = base ++ (sessionParam ++ session))

/-! ## The location of the directory -/

/-- The host of a location and the rest of it are compiled apart. -/
theorem compile_host (host webApp pattern : Text) :
    compile host webApp pattern =
      { compile [] webApp pattern with host := hostName host, port := hostPort host } := by
  unfold compile hostPort hostName
  by_cases hnil : pattern = []
  · simp only [if_pos hnil]
  by_cases hstar : pattern.head? = some '*'
  · simp only [if_neg hnil, if_pos hstar]
  simp only [if_neg hnil, if_neg hstar]
  split_ifs <;> rfl

/-- The location that `/WEB-INF/*` is compiled to. -/
theorem compile_webInf (host webApp : Text) :
    compile host webApp "/WEB-INF/*".toList =
      ⟨hostName host, hostPort host, contextOf webApp ++ webInf, none, false⟩ := by
  have hbelow : (UrlPattern.below "WEB-INF".toList (by decide)).text = "/WEB-INF/*".toList := rfl
  have hroot := compile_text webApp (.below "WEB-INF".toList (by decide))
  rw [hbelow] at hroot
  rw [compile_host, hroot]
  rfl

theorem run_mem {webXml : WebXml} {locations : List Location} {c : WebAppCall} {loc : Location}
    (h : loc ∈ locations) : loc ∈ c.run webXml locations :=
  ((adds_cseInitWebApp webXml c.node c.host c.webApp c.appDir).2 locations loc).mpr (Or.inl h)

/-- Every call adds the directory of its application. -/
theorem webInf_mem_run (webXml : WebXml) (locations : List Location) {c : WebAppCall}
    (hnode : c.node ≠ .nil) :
    compile c.host c.webApp "/WEB-INF/*".toList ∈ c.run webXml locations := by
  have hcontents (node : Registry) :
      compile c.host c.webApp "/WEB-INF/*".toList ∈
        cseInitWebAppContents locations node c.host c.webApp := by
    have hadds := adds_foldl node.siblings fun node' _ => adds_addMapping c.host c.webApp node'
    refine (hadds.2 _ _).mpr (Or.inl ?_)
    unfold cseAddLocation cseAddUniqueLocation
    split
    · assumption
    · exact List.mem_cons_self
  obtain ⟨node, host, webApp, appDir⟩ := c
  cases node with
  | nil => exact absurd rfl hnode
  | node entry first next =>
      have hfirst := hcontents first
      have hmore (web : Registry) :=
        (adds_cseInitWebAppContents web host webApp).2
          (cseInitWebAppContents locations first host webApp)
          (compile host webApp "/WEB-INF/*".toList)
      simp only [WebAppCall.run, cseInitWebApp]
      split
      · split
        · exact hfirst
        · exact (hmore _).mpr (Or.inl hfirst)
      · exact hfirst

/-- What one of the calls has added is there in the end. -/
theorem mem_of_calls (webXml : WebXml) {calls : List WebAppCall} {c : WebAppCall}
    (hc : c ∈ calls) (hnode : c.node ≠ .nil) (locations : List Location) :
    compile c.host c.webApp "/WEB-INF/*".toList ∈
      calls.foldl (WebAppCall.run webXml) locations := by
  have hkeep (calls : List WebAppCall) {loc : Location} {locations : List Location}
      (h : loc ∈ locations) : loc ∈ calls.foldl (WebAppCall.run webXml) locations := by
    induction calls generalizing locations with
    | nil => exact h
    | cons c calls ih => exact ih (run_mem h)
  induction calls generalizing locations with
  | nil => cases hc
  | cons c' calls ih =>
      rcases List.mem_cons.mp hc with rfl | hmem
      · exact hkeep calls (webInf_mem_run webXml locations hnode)
      · exact ih hmem _

/-- The directory of every application is in the list. -/
theorem webInf_mem (webXml : WebXml) {server : Registry} (hserver : server ≠ .nil)
    (resinHome : Text) {host webApp : Text} (happ : Application server host webApp) :
    compile host webApp "/WEB-INF/*".toList ∈ cseInitServer webXml [] server resinHome := by
  obtain ⟨block, hblock, hwebApp⟩ := happ
  have hcalls {block : Registry} (hnode : block ≠ .nil) (host appDir : Text)
      (hwebApp : webApp = [] ∨ ∃ w ∈ webApps block, webApp = w.id) :
      ∃ c ∈ hostCalls block host appDir, c.node ≠ .nil ∧ c.host = host ∧ c.webApp = webApp := by
    rcases hwebApp with rfl | ⟨w, hw, rfl⟩
    · exact ⟨_, List.mem_cons_self, hnode, rfl, rfl⟩
    · exact ⟨_, List.mem_cons_of_mem _ (List.mem_map_of_mem hw), ne_nil_of_mem_webApps hw, rfl, rfl⟩
  have hcall : ∃ c ∈ serverCalls server resinHome,
      c.node ≠ .nil ∧ c.host = host ∧ c.webApp = webApp := by
    rcases hblock with ⟨rfl, rfl⟩ | ⟨hmem, rfl⟩
    · obtain ⟨c, hc, hrest⟩ := hcalls hserver [] resinHome hwebApp
      exact ⟨c, List.mem_append_left _ hc, hrest⟩
    · obtain ⟨c, hc, hrest⟩ := hcalls (ne_nil_of_mem_hosts hmem) block.id
        (cseAppDir block (cseAppDir server resinHome)) hwebApp
      exact ⟨c, List.mem_append_right _ (List.mem_flatMap.mpr ⟨block, hmem, hc⟩), hrest⟩
  obtain ⟨c, hc, hnode, rfl, rfl⟩ := hcall
  rw [cseInitServer_eq]
  exact mem_of_calls webXml hc hnode []

/-! ## Sessions -/

theorem sessionParam_eq : sessionParam = ';' :: "jsessionid=".toList := rfl

/-- Without a session in the context, what is left of a URI in the directory is in it. -/
theorem under_stripSession {webApp uri : Text} (hcontext : ¬ sessionParam <:+: contextOf webApp)
    (h : InWebInf webApp uri) : Under (contextOf webApp ++ webInf) (stripSession uri) := by
  have hdir (rest : Text) : stripSession (contextOf webApp ++ webInf ++ rest) =
      contextOf webApp ++ webInf ++ stripSession rest := by
    have hcut := @before_append _ _ sessionParam _ ("WEB-INF".toList ++ rest) '/' hcontext
      (by decide)
    have hpass := @before_append_of_not_mem _ _ ';' "jsessionid=".toList webInf rest (by decide)
    rw [← sessionParam_eq] at hpass
    have hall : contextOf webApp ++ webInf ++ rest =
        contextOf webApp ++ '/' :: ("WEB-INF".toList ++ rest) := by
      rw [List.append_assoc]
      rfl
    rw [stripSession, hall, hcut, List.append_assoc]
    exact congrArg _ hpass
  have hslash (rest : Text) : stripSession ('/' :: rest) = '/' :: stripSession rest := by
    have hnot : ¬ sessionParam <+: '/' :: rest := by
      rw [sessionParam_eq, List.cons_prefix_cons]
      exact fun h => absurd h.1 (by decide)
    rw [stripSession, before, if_neg hnot]
    rfl
  have hbelow (rest : Text) : contextOf webApp ++ webInf ++ ['/'] <+:
      stripSession (contextOf webApp ++ webInf ++ ['/'] ++ rest) := by
    rw [List.append_assoc _ ['/'], List.singleton_append, hdir, hslash]
    exact ⟨stripSession rest, by simp⟩
  have hsession (session : Text) : stripSession (sessionParam ++ session) = [] := by
    rw [stripSession, sessionParam_eq]
    exact before_self
  obtain ⟨base, hbase, hrest⟩ := h
  rcases hbase with rfl | ⟨below, rfl⟩
  · left
    rcases hrest with rfl | ⟨session, rfl⟩
    · have hnone := hdir []
      rw [List.append_nil] at hnone
      rw [hnone]
      exact List.append_nil _
    · rw [hdir, hsession, List.append_nil]
  · right
    rcases hrest with rfl | ⟨session, rfl⟩
    · exact hbelow below
    · rw [List.append_assoc _ below]
      exact hbelow _

/-- Whatever the configuration contains, requests to the `WEB-INF` of an application are
handed to Resin, unless the context of the application looks like a session. -/
theorem webInf_matched (webXml : WebXml) (entry : Entry) (first next : Registry)
    (resinHome : Text) {host webApp host' uri : Text} {port : ℤ}
    (happ : Application (.node entry first next) host webApp)
    (hcontext : ¬ sessionParam <:+: contextOf webApp)
    (hhost : hostName host = [] ∨ host' = hostName host)
    (hport : hostPort host = 0 ∨ port = hostPort host) (huri : InWebInf webApp uri) :
    cseMatchRequest (cseInitServer webXml [] (.node entry first next) resinHome) host' port uri =
      some true := by
  have hmem :=
    webInf_mem webXml (by simp : (.node entry first next : Registry) ≠ .nil) resinHome happ
  obtain ⟨b, hb, hiff⟩ := cseMatchLocation_eq
    (fun loc => compiled_of_mem_cseInitServer webXml (.node entry first next) resinHome)
    host' port (stripSession uri)
  have htrue : b = true := by
    refine hiff.mpr ⟨_, hmem, ?_, ?_⟩
    · rw [compile_webInf]
      refine ⟨hhost.imp_right ?_, Or.inr hport⟩
      rintro rfl
      exact List.infix_rfl
    · rw [compile_webInf]
      exact ⟨under_stripSession hcontext huri, by simp⟩
  rw [cseMatchRequest_eq, hb, htrue]

theorem webInf_matched_sample :
    cseMatchRequest (cseInitServer (fun _ => none) [] sampleServer []) "vhost2.acme.com".toList 80
      "/WEB-INF/web.xml;jsessionid=a".toList = some true := by
  refine @webInf_matched _ _ _ _ _ "vhost2.acme.com".toList [] _ _ _ ?_ ?_ ?_ ?_ ?_
  · exact ⟨_, Or.inr ⟨List.mem_cons_of_mem _ List.mem_cons_self, rfl⟩, Or.inl rfl⟩
  · decide
  · decide
  · decide
  · exact ⟨"/WEB-INF/web.xml".toList, by decide, Or.inr ⟨"a".toList, rfl⟩⟩

/-- A web-app whose id looks like a session. -/
theorem not_webInf_matched_session :
    ¬ ∀ (webXml : WebXml) (entry : Entry) (first next : Registry) (resinHome : Text)
      (host webApp host' uri : Text) (port : ℤ),
      Application (.node entry first next) host webApp →
      (hostName host = [] ∨ host' = hostName host) →
      (hostPort host = 0 ∨ port = hostPort host) → InWebInf webApp uri →
      cseMatchRequest (cseInitServer webXml [] (.node entry first next) resinHome) host' port uri =
        some true := by
  intro hclaim
  have hmatched := hclaim (fun _ => none) ⟨"http-server".toList, none⟩
    (.node ⟨"web-app".toList, some "/a;jsessionid=1".toList⟩ .nil .nil) .nil [] []
    "/a;jsessionid=1".toList "h".toList "/a;jsessionid=1/WEB-INF".toList 80
    ⟨_, Or.inl ⟨rfl, rfl⟩, Or.inr ⟨_, List.mem_cons_self, rfl⟩⟩ (Or.inl rfl) (Or.inl rfl)
    ⟨_, Or.inl rfl, Or.inl rfl⟩
  revert hmatched
  decide

end ModCaucho

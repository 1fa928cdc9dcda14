import ModCaucho.Config.Hosts

/-!
# Application directories

Each block of a server has a directory: its `app-dir`, or for a web-app without one its id,
under the directory of the block around it. `cse_init_server` gives each host its directory,
and `cse_init_host` computes one from what it is given once more. The web-apps of a host get
the second one and the root application of the default host gets none, so the directories
compose as they should only where computing them once more changes nothing.
-/

namespace ModCaucho

open LinkedForest

/-! ## The calls of `cse_init_web_app` -/

/-- A `web-app` with an id. -/
def Registry.isWebApp (node : Registry) : Bool := node.value.isSome && node.hasKey "web-app".toList

/-- The `web-app`s with an id in a block. -/
def webApps (block : Registry) : List Registry := block.first.siblings.filter Registry.isWebApp

/-- A call of `cse_init_web_app`. -/
structure WebAppCall where
  node : Registry
  host : Text
  webApp : Text
  appDir : Text

/-- The locations that a call leaves. -/
def WebAppCall.run (webXml : WebXml) (locations : List Location) (c : WebAppCall) :
    List Location :=
  cseInitWebApp webXml locations c.node c.host c.webApp c.appDir

/-- The calls that `cse_init_host` makes. -/
def hostCalls (node : Registry) (host appDir : Text) : List WebAppCall :=
  ⟨node, host, [], appDir⟩ ::
    (webApps node).map fun w => ⟨w, host, w.id, cseAppDir w (cseAppDir node appDir)⟩

/-- The calls that `cse_init_server` makes. -/
def serverCalls (server : Registry) (resinHome : Text) : List WebAppCall :=
  hostCalls server [] resinHome ++ (hosts server).flatMap fun block =>
    hostCalls block block.id (cseAppDir block (cseAppDir server resinHome))

theorem addWebApp_eq (webXml : WebXml) (host hostDir : Text) (locations : List Location)
    (node : Registry) :
    addWebApp webXml host hostDir locations node =
      if node.isWebApp then
        WebAppCall.run webXml locations ⟨node, host, node.id, cseAppDir node hostDir⟩
      else locations := by
  unfold addWebApp Registry.isWebApp Registry.id
  cases node.value with
  | none => rfl
  | some name => rfl

/-- `cse_init_host` makes these calls. -/
theorem cseInitHost_eq (webXml : WebXml) (locations : List Location) (node : Registry)
    (host appDir : Text) :
    cseInitHost webXml locations node host appDir =
      (hostCalls node host appDir).foldl (WebAppCall.run webXml) locations := by
  have hnodes (nodes : List Registry) (hostDir : Text) (locations : List Location) :
      nodes.foldl (addWebApp webXml host hostDir) locations =
        ((nodes.filter Registry.isWebApp).map fun w =>
          (⟨w, host, w.id, cseAppDir w hostDir⟩ : WebAppCall)).foldl
            (WebAppCall.run webXml) locations := by
    induction nodes generalizing locations with
    | nil => rfl
    | cons node nodes ih =>
        rw [List.foldl_cons, ih, addWebApp_eq]
        by_cases hw : node.isWebApp
        · rw [if_pos hw, List.filter_cons_of_pos hw, List.map_cons, List.foldl_cons]
        · rw [if_neg hw, List.filter_cons_of_neg hw]
  exact hnodes _ _ _

/-- `cse_init_server` makes these calls. -/
theorem cseInitServer_eq (webXml : WebXml) (locations : List Location) (server : Registry)
    (resinHome : Text) :
    cseInitServer webXml locations server resinHome =
      (serverCalls server resinHome).foldl (WebAppCall.run webXml) locations := by
  have hnodes (nodes : List Registry) (appDir : Text) (locations : List Location) :
      nodes.foldl (addHost webXml appDir) locations =
        ((nodes.filter Registry.isHost).flatMap fun block =>
          hostCalls block block.id (cseAppDir block appDir)).foldl
            (WebAppCall.run webXml) locations := by
    induction nodes generalizing locations with
    | nil => rfl
    | cons node nodes ih =>
        rw [List.foldl_cons, ih, addHost_eq]
        by_cases hhost : node.isHost
        · rw [if_pos hhost, List.filter_cons_of_pos hhost, List.flatMap_cons, List.foldl_append,
            cseInitHost_eq]
        · rw [if_neg hhost, List.filter_cons_of_neg hhost]
  rw [serverCalls, List.foldl_append, ← cseInitHost_eq]
  exact hnodes _ _ _

/-- A `web.xml` that is looked for, with the host and the web-app that it is read for. -/
structure Lookup where
  host : Text
  webApp : Text
  file : Text
deriving DecidableEq, Repr

/-- The `web.xml` of a directory. -/
def webXmlIn (dir : Text) : Text := dir ++ "/WEB-INF/web.xml".toList

/-- What a call looks for. -/
def WebAppCall.lookup (c : WebAppCall) : Lookup := ⟨c.host, c.webApp, webXmlIn c.appDir⟩

/-! ## Directories of blocks -/

/-- The directory that a block names for itself. -/
def ownDir (node : Registry) : Text :=
  let appDir := (cseFindValue node.first "app-dir".toList).getD []
  if appDir = [] ∧ node.hasKey "web-app".toList then
    match node.id with
    | '/' :: dir => dir
    | dir => dir
  else appDir

/-- The directory of a block in a parent directory. -/
def resolve (parent : Text) (node : Registry) : Text :=
  if isAbsolute (ownDir node) then ownDir node
  else
    let parent := if parent = [] then ['.'] else parent
    if ownDir node = [] then parent else parent ++ '/' :: ownDir node

/-- What should be looked for in a block with this directory. -/
def hostLookups (node : Registry) (host dir : Text) : List Lookup :=
  ⟨host, [], webXmlIn dir⟩ ::
    (webApps node).map fun w => ⟨host, w.id, webXmlIn (resolve dir w)⟩

/-- What should be looked for in a server. -/
def serverLookups (server : Registry) (resinHome : Text) : List Lookup :=
  hostLookups server [] (resolve resinHome server) ++ (hosts server).flatMap fun block =>
    hostLookups block block.id (resolve (resolve resinHome server) block)

/-- The directory of the server is Resin's home, and a host does not name a relative
directory unless all its web-apps name absolute ones. -/
def ComposesOnce (server : Registry) (resinHome : Text) : Prop :=
  (ownDir server = [] ∧ resinHome ≠ [] ∨
      isAbsolute (ownDir server) = true ∧ ownDir server = resinHome) ∧
    ∀ block ∈ hosts server, ownDir block = [] ∨ isAbsolute (ownDir block) = true ∨
      ∀ w ∈ webApps block, isAbsolute (ownDir w) = true

/-- `cse_app_dir` resolves the directory of a node that is there. -/
theorem cseAppDir_eq {node : Registry} (h : node ≠ .nil) (parent : Text) :
    cseAppDir node parent = resolve parent node := by
  cases node with
  | nil => exact absurd rfl h
  | node entry first next =>
      have hkey : Registry.hasKey (.node entry first next) "web-app".toList = true ↔
          entry.key = "web-app".toList := beq_iff_eq
      have hdir : cseAppDir (.node entry first next) parent =
          if ownDir (.node entry first next) = [] then (if parent = [] then ['.'] else parent)
          else if isAbsolute (ownDir (.node entry first next)) then ownDir (.node entry first next)
          else (if parent = [] then ['.'] else parent) ++
            '/' :: ownDir (.node entry first next) := by
        unfold cseAppDir ownDir
        simp only [hkey]
        rfl
      rw [hdir, resolve]
      by_cases hnil : ownDir (.node entry first next) = []
      · rw [if_pos hnil, hnil]
        rfl
      · simp only [if_neg hnil]

theorem resolve_ne_nil (parent : Text) (node : Registry) : resolve parent node ≠ [] := by
  unfold resolve
  split
  · next h =>
      intro hnil
      rw [hnil] at h
      cases h
  · split <;> split <;> simp_all

/-- Where a directory stays what it is. -/
theorem resolve_eq_self_iff (parent : Text) (node : Registry) :
    resolve parent node = parent ↔
      ownDir node = [] ∧ parent ≠ [] ∨
        isAbsolute (ownDir node) = true ∧ ownDir node = parent := by
  unfold resolve
  by_cases habs : isAbsolute (ownDir node) = true
  · have hne : ownDir node ≠ [] := by
      intro hnil
      rw [hnil] at habs
      cases habs
    simp [habs, hne]
  · by_cases hnil : ownDir node = []
    · by_cases hparent : parent = []
      · simp [hnil, hparent, isAbsolute]
      · simp [hnil, hparent, isAbsolute]
    · by_cases hparent : parent = []
      · simp [habs, hnil, hparent]
      · simp [habs, hnil, hparent]

/-- Only an absolute directory is the same in two different parents. -/
theorem resolve_inj_iff {parent parent' : Text} (h : parent ≠ []) (h' : parent' ≠ [])
    (node : Registry) :
    resolve parent node = resolve parent' node ↔
      isAbsolute (ownDir node) = true ∨ parent = parent' := by
  unfold resolve
  by_cases habs : isAbsolute (ownDir node) = true
  · simp [habs]
  · by_cases hnil : ownDir node = []
    · simp [hnil, h, h', isAbsolute]
    · simp [habs, hnil, h, h']

/-- The directory of a host, computed twice, is the same for its web-apps. -/
theorem resolve_twice_iff (parent : Text) (block w : Registry) :
    resolve (resolve (resolve parent block) block) w = resolve (resolve parent block) w ↔
      ownDir block = [] ∨ isAbsolute (ownDir block) = true ∨ isAbsolute (ownDir w) = true := by
  have hne := resolve_ne_nil parent block
  have hself : isAbsolute (ownDir block) = true → ownDir block = resolve parent block := by
    intro habs
    rw [resolve, if_pos habs]
  rw [resolve_inj_iff (resolve_ne_nil _ _) hne, resolve_eq_self_iff]
  tauto

/-! ## What is looked for -/

theorem flatMap_eq_flatMap_iff {α β : Type*} {f g : α → List β} {as : List α}
    (hlength : ∀ a ∈ as, (f a).length = (g a).length) :
    as.flatMap f = as.flatMap g ↔ ∀ a ∈ as, f a = g a := by
  induction as with
  | nil => simp
  | cons a as ih =>
      have hrest := ih fun a' ha' => hlength a' (List.mem_cons_of_mem a ha')
      rw [List.flatMap_cons, List.flatMap_cons, List.forall_mem_cons, ← hrest]
      constructor
      · exact fun h => List.append_inj h (hlength a List.mem_cons_self)
      · rintro ⟨ha, has⟩
        rw [ha, has]

theorem webXmlIn_inj {dir dir' : Text} : webXmlIn dir = webXmlIn dir' ↔ dir = dir' :=
  List.append_left_inj _

theorem ne_nil_of_value {node : Registry} (h : node.value.isSome = true) : node ≠ .nil := by
  rintro rfl
  cases h

theorem ne_nil_of_mem_webApps {block w : Registry} (h : w ∈ webApps block) : w ≠ .nil := by
  have hw := (List.mem_filter.mp h).2
  rw [Registry.isWebApp, Bool.and_eq_true] at hw
  exact ne_nil_of_value hw.1

theorem ne_nil_of_mem_hosts {server block : Registry} (h : block ∈ hosts server) :
    block ≠ .nil := by
  have hblock := (List.mem_filter.mp h).2
  rw [Registry.isHost, Bool.and_eq_true] at hblock
  exact ne_nil_of_value hblock.1

/-- What is looked for in a block is right where its two directories are. -/
theorem hostCalls_lookup_iff {node : Registry} (hnode : node ≠ .nil) (host appDir dir : Text) :
    (hostCalls node host appDir).map WebAppCall.lookup = hostLookups node host dir ↔
      appDir = dir ∧ ∀ w ∈ webApps node, resolve (resolve appDir node) w = resolve dir w := by
  have hcalls : (hostCalls node host appDir).map WebAppCall.lookup =
      ⟨host, [], webXmlIn appDir⟩ ::
        (webApps node).map fun w => ⟨host, w.id, webXmlIn (resolve (resolve appDir node) w)⟩ := by
    rw [hostCalls, List.map_cons, List.map_map]
    congr 1
    refine List.map_congr_left fun w hw => ?_
    rw [Function.comp_apply, WebAppCall.lookup, cseAppDir_eq (ne_nil_of_mem_webApps hw),
      cseAppDir_eq hnode]
  rw [hcalls, hostLookups, List.cons.injEq, List.map_inj_left]
  simp only [Lookup.mk.injEq, true_and, webXmlIn_inj]

/-- The files that `cse_init_server` looks for are those of directories that compose once
per level exactly where computing the directory of a block once more makes no
difference. -/
theorem serverCalls_lookup_iff (entry : Entry) (first next : Registry) (resinHome : Text) :
    (serverCalls (.node entry first next) resinHome).map WebAppCall.lookup =
        serverLookups (.node entry first next) resinHome ↔
      ComposesOnce (.node entry first next) resinHome := by
  generalize hserver : Forest.node entry first next = server
  have hnode : server ≠ .nil := by
    rw [← hserver]
    simp
  rw [serverCalls, serverLookups, List.map_append, List.map_flatMap]
  have hlength : ((hostCalls server [] resinHome).map WebAppCall.lookup).length =
      (hostLookups server [] (resolve resinHome server)).length := by
    simp [hostCalls, hostLookups]
  have happend : ∀ {l₁ l₂ r₁ r₂ : List Lookup}, l₁.length = l₂.length →
      (l₁ ++ r₁ = l₂ ++ r₂ ↔ l₁ = l₂ ∧ r₁ = r₂) := by
    intro l₁ l₂ r₁ r₂ hlen
    exact ⟨fun h => List.append_inj h hlen, fun ⟨hl, hr⟩ => by rw [hl, hr]⟩
  rw [happend hlength, hostCalls_lookup_iff hnode,
    flatMap_eq_flatMap_iff fun block _ => by simp [hostCalls, hostLookups], ComposesOnce]
  have hroot : (resinHome = resolve resinHome server ∧ ∀ w ∈ webApps server,
      resolve (resolve resinHome server) w = resolve (resolve resinHome server) w) ↔
      (ownDir server = [] ∧ resinHome ≠ [] ∨
        isAbsolute (ownDir server) = true ∧ ownDir server = resinHome) := by
    rw [← resolve_eq_self_iff]
    exact ⟨fun h => h.1.symm, fun h => ⟨h.symm, fun _ _ => rfl⟩⟩
  refine and_congr hroot (forall₂_congr fun block hblock => ?_)
  have hblock' := ne_nil_of_mem_hosts hblock
  rw [hostCalls_lookup_iff hblock', cseAppDir_eq hblock', cseAppDir_eq hnode]
  simp only [true_and, resolve_twice_iff]
  constructor
  · intro h
    by_cases hw : ∃ w, w ∈ webApps block ∧ isAbsolute (ownDir w) ≠ true
    · obtain ⟨w, hmem, hrel⟩ := hw
      rcases h w hmem with hnil | habs | habs
      · exact Or.inl hnil
      · exact Or.inr (Or.inl habs)
      · exact absurd habs hrel
    · refine Or.inr (Or.inr fun w hmem => ?_)
      by_contra hrel
      exact hw ⟨w, hmem, hrel⟩
  · rintro (hnil | habs | hall) w hmem
    · exact Or.inl hnil
    · exact Or.inr (Or.inl habs)
    · exact Or.inr (Or.inr (hall w hmem))

/-- A server with the directory `doc` in `/resin`. Its `web.xml` is looked for in `/resin`. -/
theorem not_serverCalls_lookup_doc :
    ¬ ∀ (entry : Entry) (first next : Registry) (resinHome : Text),
      (serverCalls (.node entry first next) resinHome).map WebAppCall.lookup =
        serverLookups (.node entry first next) resinHome := by
  intro hclaim
  have hlookups := hclaim ⟨"http-server".toList, none⟩
    (.node ⟨"app-dir".toList, some "doc".toList⟩ .nil .nil) .nil "/resin".toList
  revert hlookups
  decide

end ModCaucho

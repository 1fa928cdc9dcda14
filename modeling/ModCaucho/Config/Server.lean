import ModCaucho.Config.Location
import ModCaucho.Registry.Tree

/-!
# The locations of a server

How `config.c` collects the locations of an `http-server` block: those of the
default host, declared in the block itself, and those of each `host` block in
it. What stands in the `web.xml` of a directory is a parameter, as `cse_parse`
returns it for the file.
-/

namespace ModCaucho

/-- What `cse_parse` returns for a file, or `none` if it cannot be opened. -/
abbrev WebXml := Text → Option Registry

/-- `cse_app_dir` -/
def cseAppDir (node : Registry) (parent : Text) : Text :=
  match node with
  | .nil => parent
  | .node entry first _ =>
      let appDir := (cseFindValue first "app-dir".toList).getD []
      let parent := if parent = [] then ['.'] else parent
      let dir :=
        if appDir = [] ∧ entry.key = "web-app".toList then
          match entry.value.getD [] with
          | '/' :: dir => dir
          | dir => dir
        else appDir
      if dir = [] then parent
      else if isAbsolute dir then dir
      else parent ++ '/' :: dir

/-- One round of the loop of `cse_init_web_app_contents`. -/
def addMapping (host webApp : Text) (locations : List Location) (node : Registry) :
    List Location :=
  if node.hasKey "servlet-mapping".toList then
    match (cseNextLink node.first "url-pattern".toList).value with
    | some pattern => cseAddLocation locations host webApp pattern
    | none => locations
  else locations

/-- `cse_init_web_app_contents` -/
def cseInitWebAppContents (locations : List Location) (node : Registry) (host webApp : Text) :
    List Location :=
  node.siblings.foldl (addMapping host webApp)
    (cseAddLocation locations host webApp "/WEB-INF/*".toList)

/-- `cse_init_web_app` -/
def cseInitWebApp (webXml : WebXml) (locations : List Location) (node : Registry)
    (host webApp appDir : Text) : List Location :=
  match node with
  | .nil => locations
  | .node _ first _ =>
      let locations := cseInitWebAppContents locations first host webApp
      match webXml (appDir ++ "/WEB-INF/web.xml".toList) with
      | some web =>
          if web.first = .nil then locations
          else cseInitWebAppContents locations web.first.first host webApp
      | none => locations

/-- One round of the loop of `cse_init_host`. -/
def addWebApp (webXml : WebXml) (host hostDir : Text) (locations : List Location)
    (node : Registry) : List Location :=
  match node.value with
  | some webApp =>
      if node.hasKey "web-app".toList then
        cseInitWebApp webXml locations node host webApp (cseAppDir node hostDir)
      else locations
  | none => locations

/-- `cse_init_host`. The root application gets `app_dir`, not the directory of the host. -/
def cseInitHost (webXml : WebXml) (locations : List Location) (node : Registry)
    (host appDir : Text) : List Location :=
  node.first.siblings.foldl (addWebApp webXml host (cseAppDir node appDir))
    (cseInitWebApp webXml locations node host [] appDir)

/-- One round of the loop of `cse_init_server`. -/
def addHost (webXml : WebXml) (appDir : Text) (locations : List Location) (node : Registry) :
    List Location :=
  match node.value with
  | some name =>
      if node.hasKey "host".toList then
        cseInitHost webXml locations node name (cseAppDir node appDir)
      else locations
  | none => locations

/-- `cse_init_server` on a block that is there -/
def cseInitServer (webXml : WebXml) (locations : List Location) (node : Registry)
    (resinHome : Text) : List Location :=
  node.first.siblings.foldl (addHost webXml (cseAppDir node resinHome))
    (cseInitHost webXml locations node [] resinHome)

/-! ## The locations that are added -/

/-- A location that some pattern of the host is compiled to. -/
def Compiled (host : Text) (loc : Location) : Prop :=
  ∃ webApp pattern, loc = compile host webApp pattern

/-- The function adds locations of the host, and the same ones to every list. -/
def Adds (host : Text) (f : List Location → List Location) : Prop :=
  (∀ loc ∈ f [], Compiled host loc) ∧
    ∀ locations loc, loc ∈ f locations ↔ loc ∈ locations ∨ loc ∈ f []

theorem adds_id (host : Text) : Adds host fun locations => locations := by
  constructor <;> simp

theorem Adds.comp {host : Text} {f g : List Location → List Location} (hg : Adds host g)
    (hf : Adds host f) : Adds host fun locations => g (f locations) := by
  constructor
  · intro loc hloc
    rcases (hg.2 _ _).mp hloc with h | h
    · exact hf.1 loc h
    · exact hg.1 loc h
  · intro locations loc
    rw [hg.2 (f locations), hf.2 locations, hg.2 (f [])]
    tauto

theorem adds_foldl {α : Type*} {host : Text} {f : List Location → α → List Location}
    (nodes : List α) (hf : ∀ node ∈ nodes, Adds host fun locations => f locations node) :
    Adds host fun locations => nodes.foldl f locations := by
  induction nodes with
  | nil => exact adds_id host
  | cons node nodes ih =>
      have hrest := ih fun node' h => hf node' (List.mem_cons_of_mem node h)
      exact hrest.comp (hf node List.mem_cons_self)

theorem mem_foldl_adds {α : Type*} {f : List Location → α → List Location} (nodes : List α)
    (hf : ∀ node ∈ nodes, ∃ host, Adds host fun locations => f locations node)
    (locations : List Location) (loc : Location) :
    loc ∈ nodes.foldl f locations ↔ loc ∈ locations ∨ ∃ node ∈ nodes, loc ∈ f [] node := by
  induction nodes generalizing locations with
  | nil => simp
  | cons node nodes ih =>
      obtain ⟨host, hadds⟩ := hf node List.mem_cons_self
      rw [List.foldl_cons, ih (fun node' h => hf node' (List.mem_cons_of_mem node h)),
        hadds.2 locations, List.exists_mem_cons_iff, or_assoc]

theorem adds_cseAddLocation (host webApp pattern : Text) :
    Adds host fun locations => cseAddLocation locations host webApp pattern := by
  have hmem (locations : List Location) (loc : Location) :
      loc ∈ cseAddLocation locations host webApp pattern ↔
        loc ∈ locations ∨ loc = compile host webApp pattern := by
    unfold cseAddLocation cseAddUniqueLocation
    split
    · next h =>
        constructor
        · exact Or.inl
        · rintro (h' | rfl)
          · exact h'
          · exact h
    · rw [List.mem_cons, or_comm]
  constructor
  · intro loc hloc
    rcases (hmem _ _).mp hloc with h | h
    · cases h
    · exact ⟨webApp, pattern, h⟩
  · intro locations loc
    rw [hmem locations, hmem []]
    simp

theorem adds_addMapping (host webApp : Text) (node : Registry) :
    Adds host fun locations => addMapping host webApp locations node := by
  unfold addMapping
  split
  · split
    · exact adds_cseAddLocation host webApp _
    · exact adds_id host
  · exact adds_id host

theorem adds_cseInitWebAppContents (node : Registry) (host webApp : Text) :
    Adds host fun locations => cseInitWebAppContents locations node host webApp :=
  (adds_foldl _ fun node _ => adds_addMapping host webApp node).comp
    (adds_cseAddLocation host webApp _)

theorem adds_cseInitWebApp (webXml : WebXml) (node : Registry) (host webApp appDir : Text) :
    Adds host fun locations => cseInitWebApp webXml locations node host webApp appDir := by
  cases node with
  | nil => exact adds_id host
  | node entry first next =>
      simp only [cseInitWebApp]
      cases webXml (appDir ++ "/WEB-INF/web.xml".toList) with
      | none => exact adds_cseInitWebAppContents first host webApp
      | some web =>
          by_cases hweb : web.first = .nil
          · simp only [if_pos hweb]
            exact adds_cseInitWebAppContents first host webApp
          · simp only [if_neg hweb]
            exact (adds_cseInitWebAppContents web.first.first host webApp).comp
              (adds_cseInitWebAppContents first host webApp)

theorem adds_addWebApp (webXml : WebXml) (host hostDir : Text) (node : Registry) :
    Adds host fun locations => addWebApp webXml host hostDir locations node := by
  unfold addWebApp
  split
  · split
    · exact adds_cseInitWebApp webXml node host _ _
    · exact adds_id host
  · exact adds_id host

/-- A host block adds locations of its host only. -/
theorem adds_cseInitHost (webXml : WebXml) (node : Registry) (host appDir : Text) :
    Adds host fun locations => cseInitHost webXml locations node host appDir :=
  (adds_foldl _ fun node _ => adds_addWebApp webXml host _ node).comp
    (adds_cseInitWebApp webXml node host [] appDir)

end ModCaucho

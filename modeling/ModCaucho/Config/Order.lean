import ModCaucho.Config.Hosts
import ModCaucho.Lib.Rearrange

/-!
# Order and repetition

The locations of a server are those of its declarations, and a request is matched by some
location of the list or by none. So neither the order of the declarations nor a
repetition of one changes what is matched. An `app-dir` and a `url-pattern` are looked
for among the children of an element, where the first one counts, so there must not be
two of them.
-/

namespace ModCaucho

open LinkedForest LinkedForest.Forest

/-- At most one sibling has this key. -/
def AtMostOne (s : Registry) (key : Text) : Prop :=
  (s.children.filter fun x => x.1.key = key).length ≤ 1

/-- No element has two children with the key `app-dir` or two with the key `url-pattern`. -/
def Unambiguous : Registry → Prop
  | .nil => True
  | .node _ first next =>
      AtMostOne first "app-dir".toList ∧ AtMostOne first "url-pattern".toList ∧
        Unambiguous first ∧ Unambiguous next

instance (s : Registry) (key : Text) : Decidable (AtMostOne s key) :=
  inferInstanceAs (Decidable (_ ≤ _))

theorem Unambiguous.of_mem {s : Registry} (h : Unambiguous s) {entry : Entry} {first : Registry}
    (hmem : (entry, first) ∈ s.children) :
    AtMostOne first "app-dir".toList ∧ AtMostOne first "url-pattern".toList ∧
      Unambiguous first := by
  induction s with
  | nil => cases hmem
  | node entry' first' next _ ih =>
      obtain ⟨hdir, hpattern, hfirst, hnext⟩ := h
      rcases List.mem_cons.mp hmem with heq | hmem
      · cases heq
        exact ⟨hdir, hpattern, hfirst⟩
      · exact ih hnext hmem

/-! ## Values that are looked for -/

/-- What is found is one of the siblings. -/
theorem cseFindValue_eq (s : Registry) (key : Text) :
    (∃ x ∈ s.children, x.1.key = key ∧ cseFindValue s key = x.1.value) ∨
      (∀ x ∈ s.children, x.1.key ≠ key) ∧ cseFindValue s key = none := by
  induction s with
  | nil => exact Or.inr ⟨fun x hx => absurd hx List.not_mem_nil, rfl⟩
  | node entry first next _ ih =>
      rw [cseFindValue]
      by_cases hkey : entry.key = key
      · rw [if_pos hkey]
        exact Or.inl ⟨(entry, first), List.mem_cons_self, hkey, rfl⟩
      · rw [if_neg hkey]
        rcases ih with ⟨x, hx, hfound⟩ | ⟨hnone, hvalue⟩
        · exact Or.inl ⟨x, List.mem_cons_of_mem _ hx, hfound⟩
        · exact Or.inr ⟨List.forall_mem_cons.mpr ⟨hkey, hnone⟩, hvalue⟩

theorem cseNextLink_value (s : Registry) (key : Text) :
    (cseNextLink s key).value = cseFindValue s key := by
  induction s with
  | nil => rfl
  | node entry first next _ ih =>
      rw [cseNextLink, cseFindValue]
      by_cases hkey : entry.key = key
      · rw [if_pos hkey, if_pos hkey]
        rfl
      · rw [if_neg hkey, if_neg hkey, ih]

theorem AtMostOne.eq {s : Registry} {key : Text} (h : AtMostOne s key) {x y : Entry × Registry}
    (hx : x ∈ s.children) (hxkey : x.1.key = key) (hy : y ∈ s.children) (hykey : y.1.key = key) :
    x = y := by
  have hx' : x ∈ s.children.filter fun x => x.1.key = key :=
    List.mem_filter.mpr ⟨hx, decide_eq_true hxkey⟩
  have hy' : y ∈ s.children.filter fun x => x.1.key = key :=
    List.mem_filter.mpr ⟨hy, decide_eq_true hykey⟩
  rw [AtMostOne] at h
  generalize s.children.filter (fun x => x.1.key = key) = found at h hx' hy'
  match found, h with
  | [], _ => exact absurd hx' List.not_mem_nil
  | [z], _ => exact (List.mem_singleton.mp hx').trans (List.mem_singleton.mp hy').symm

/-- A key that only one sibling has is found wherever that sibling stands. -/
theorem cseFindValue_rearranged {s t : Registry} (h : Rearranged s t) {key : Text}
    (hone : AtMostOne s key) : cseFindValue s key = cseFindValue t key := by
  rcases cseFindValue_eq s key with ⟨⟨entry, f⟩, hmem, hkey, hvalue⟩ | ⟨hnone, hvalue⟩
  · obtain ⟨f', hmem', -⟩ := h.counterparts.1 entry f hmem
    rcases cseFindValue_eq t key with ⟨⟨entry', g'⟩, hmem'', hkey', hvalue'⟩ | ⟨hnone, -⟩
    · obtain ⟨g, hmem''', -⟩ := h.counterparts.2 entry' g' hmem''
      have hsame := hone.eq hmem hkey hmem''' hkey'
      rw [hvalue, hvalue', (Prod.mk.inj hsame).1]
    · exact absurd hkey (hnone (entry, f') hmem')
  · rcases cseFindValue_eq t key with ⟨⟨entry', g'⟩, hmem, hkey, -⟩ | ⟨-, hvalue'⟩
    · obtain ⟨g, hmem', -⟩ := h.counterparts.2 entry' g' hmem
      exact absurd hkey (hnone (entry', g) hmem')
    · rw [hvalue, hvalue']

theorem cseAppDir_rearranged {entry : Entry} {first first' next next' : Registry}
    (h : Rearranged first first') (hone : AtMostOne first "app-dir".toList) (parent : Text) :
    cseAppDir (.node entry first next) parent = cseAppDir (.node entry first' next') parent := by
  simp only [cseAppDir, cseFindValue_rearranged h hone]

/-! ## The locations of the declarations -/

/-- The block with these children maps this pattern. -/
def MapsPattern (host webApp : Text) (loc : Location) (x : Entry × Registry) : Prop :=
  x.1.key = "servlet-mapping".toList ∧
    ∃ pattern ∈ cseFindValue x.2 "url-pattern".toList, loc = compile host webApp pattern

theorem mem_cseAddLocation_nil (host webApp pattern : Text) (loc : Location) :
    loc ∈ cseAddLocation [] host webApp pattern ↔ loc = compile host webApp pattern := by
  rw [cseAddLocation, cseAddUniqueLocation, if_neg List.not_mem_nil, List.mem_singleton]

theorem mem_cseInitWebAppContents (first : Registry) (host webApp : Text) (loc : Location) :
    loc ∈ cseInitWebAppContents [] first host webApp ↔
      loc = compile host webApp "/WEB-INF/*".toList ∨
        ∃ x ∈ first.children, MapsPattern host webApp loc x := by
  rw [cseInitWebAppContents,
    mem_foldl_adds _ (fun node _ => ⟨host, adds_addMapping host webApp node⟩),
    mem_cseAddLocation_nil]
  refine or_congr_right (exists_siblings_iff (fun entry f n => ?_) first)
  rw [addMapping, MapsPattern]
  by_cases hkey : entry.key = "servlet-mapping".toList
  · have hhas : Registry.hasKey (.node entry f n) "servlet-mapping".toList = true :=
      beq_iff_eq.mpr hkey
    rw [if_pos hhas, Forest.first, cseNextLink_value]
    cases cseFindValue f "url-pattern".toList with
    | none => simp
    | some pattern => simp [mem_cseAddLocation_nil, hkey]
  · have hhas : ¬ Registry.hasKey (.node entry f n) "servlet-mapping".toList = true :=
      fun h => hkey (beq_iff_eq.mp h)
    rw [if_neg hhas]
    exact iff_of_false List.not_mem_nil fun h => hkey h.1

/-! ## Rearranged blocks -/

section

variable (webXml : WebXml) {entry : Entry} {first first' : Registry} (next next' : Registry)

theorem contents_rearranged (h : Rearranged first first') (hsingle : Unambiguous first)
    (host webApp : Text) (loc : Location) :
    loc ∈ cseInitWebAppContents [] first host webApp ↔
      loc ∈ cseInitWebAppContents [] first' host webApp := by
  rw [mem_cseInitWebAppContents, mem_cseInitWebAppContents]
  refine or_congr_right (h.exists_iff fun entry f f' hmem hrest => ?_)
  rw [MapsPattern, MapsPattern, cseFindValue_rearranged hrest (hsingle.of_mem hmem).2.1]

/-- A web-app block declares what its children and its `web.xml` map. -/
theorem mem_cseInitWebApp (host webApp appDir : Text) (loc : Location) :
    loc ∈ cseInitWebApp webXml [] (.node entry first next) host webApp appDir ↔
      loc ∈ cseInitWebAppContents [] first host webApp ∨
        ∃ web ∈ webXml (appDir ++ "/WEB-INF/web.xml".toList), web.first ≠ .nil ∧
          loc ∈ cseInitWebAppContents [] web.first.first host webApp := by
  simp only [cseInitWebApp]
  cases webXml (appDir ++ "/WEB-INF/web.xml".toList) with
  | none => simp
  | some web =>
      by_cases hweb : web.first = .nil
      · simp [hweb]
      · have hadds := (adds_cseInitWebAppContents web.first.first host webApp).2
        simp [hweb, hadds (cseInitWebAppContents [] first host webApp)]

theorem webApp_rearranged (h : Rearranged first first') (hsingle : Unambiguous first)
    (host webApp appDir : Text) (loc : Location) :
    loc ∈ cseInitWebApp webXml [] (.node entry first next) host webApp appDir ↔
      loc ∈ cseInitWebApp webXml [] (.node entry first' next') host webApp appDir := by
  rw [mem_cseInitWebApp, mem_cseInitWebApp, contents_rearranged h hsingle]

/-- A web-app with this label and these children declares the location. -/
def WebAppDeclares (host hostDir : Text) (loc : Location) (x : Entry × Registry) : Prop :=
  loc ∈ addWebApp webXml host hostDir [] (.node x.1 x.2 .nil)

theorem mem_cseInitHost (host appDir : Text) (loc : Location) :
    loc ∈ cseInitHost webXml [] (.node entry first next) host appDir ↔
      loc ∈ cseInitWebApp webXml [] (.node entry first next) host [] appDir ∨
        ∃ x ∈ first.children,
          WebAppDeclares webXml host (cseAppDir (.node entry first next) appDir) loc x := by
  rw [cseInitHost, mem_foldl_adds _ (fun node _ => ⟨host, adds_addWebApp webXml host _ node⟩)]
  exact or_congr_right (exists_siblings_iff (fun entry f n => Iff.rfl) first)

theorem addWebApp_rearranged (h : Rearranged first first') (hsingle : Unambiguous first)
    (hone : AtMostOne first "app-dir".toList) (host hostDir : Text) (loc : Location) :
    WebAppDeclares webXml host hostDir loc (entry, first) ↔
      WebAppDeclares webXml host hostDir loc (entry, first') := by
  unfold WebAppDeclares addWebApp
  simp only [Registry.value]
  cases entry.value with
  | none => exact Iff.rfl
  | some webApp =>
      by_cases hkey : Registry.hasKey (.node entry first .nil) "web-app".toList = true
      · have hkey' : Registry.hasKey (.node entry first' .nil) "web-app".toList = true := hkey
        simp only [if_pos hkey, if_pos hkey']
        rw [@cseAppDir_rearranged entry _ _ .nil .nil h hone hostDir]
        exact webApp_rearranged webXml .nil .nil h hsingle host webApp _ loc
      · have hkey' : ¬ Registry.hasKey (.node entry first' .nil) "web-app".toList = true := hkey
        simp only [if_neg hkey, if_neg hkey']

theorem host_rearranged (h : Rearranged first first') (hsingle : Unambiguous first)
    (hone : AtMostOne first "app-dir".toList) (host appDir : Text) (loc : Location) :
    loc ∈ cseInitHost webXml [] (.node entry first next) host appDir ↔
      loc ∈ cseInitHost webXml [] (.node entry first' next') host appDir := by
  rw [mem_cseInitHost, mem_cseInitHost, webApp_rearranged webXml next next' h hsingle,
    @cseAppDir_rearranged _ _ _ next next' h hone appDir]
  refine or_congr_right (h.exists_iff fun entry' f f' hmem hrest => ?_)
  obtain ⟨hdir, -, hbelow⟩ := hsingle.of_mem hmem
  exact addWebApp_rearranged webXml hrest hbelow hdir host _ loc

/-- A host with this label and these children declares the location. -/
def HostDeclares (appDir : Text) (loc : Location) (x : Entry × Registry) : Prop :=
  loc ∈ addHost webXml appDir [] (.node x.1 x.2 .nil)

theorem mem_cseInitServer_node (resinHome : Text) (loc : Location) :
    loc ∈ cseInitServer webXml [] (.node entry first next) resinHome ↔
      loc ∈ cseInitHost webXml [] (.node entry first next) [] resinHome ∨
        ∃ x ∈ first.children,
          HostDeclares webXml (cseAppDir (.node entry first next) resinHome) loc x := by
  rw [cseInitServer, mem_foldl_adds _ fun node _ => ⟨node.id, adds_addHost webXml _ node⟩]
  exact or_congr_right (exists_siblings_iff (fun entry f n => Iff.rfl) first)

theorem addHost_rearranged (h : Rearranged first first') (hsingle : Unambiguous first)
    (hone : AtMostOne first "app-dir".toList) (appDir : Text) (loc : Location) :
    HostDeclares webXml appDir loc (entry, first) ↔
      HostDeclares webXml appDir loc (entry, first') := by
  unfold HostDeclares addHost
  simp only [Registry.value]
  cases entry.value with
  | none => exact Iff.rfl
  | some name =>
      by_cases hkey : Registry.hasKey (.node entry first .nil) "host".toList = true
      · have hkey' : Registry.hasKey (.node entry first' .nil) "host".toList = true := hkey
        simp only [if_pos hkey, if_pos hkey']
        rw [@cseAppDir_rearranged entry _ _ .nil .nil h hone appDir]
        exact host_rearranged webXml .nil .nil h hsingle hone name _ loc
      · have hkey' : ¬ Registry.hasKey (.node entry first' .nil) "host".toList = true := hkey
        simp only [if_neg hkey, if_neg hkey']

/-- Both trees of a server declare the same locations. -/
theorem server_rearranged (resinHome : Text) (h : Rearranged first first')
    (hsingle : Unambiguous (.node entry first .nil)) (loc : Location) :
    loc ∈ cseInitServer webXml [] (.node entry first next) resinHome ↔
      loc ∈ cseInitServer webXml [] (.node entry first' next') resinHome := by
  obtain ⟨hone, -, hbelow, -⟩ := hsingle
  rw [mem_cseInitServer_node, mem_cseInitServer_node,
    host_rearranged webXml next next' h hbelow hone,
    @cseAppDir_rearranged _ _ _ next next' h hone resinHome]
  refine or_congr_right (h.exists_iff fun entry' f f' hmem hrest => ?_)
  obtain ⟨hdir, -, hbelow'⟩ := hbelow.of_mem hmem
  exact addHost_rearranged webXml hrest hbelow' hdir _ loc

end

/-! ## The list of locations -/

/-- The function adds no location that is in the list already. -/
def KeepsNodup (f : List Location → List Location) : Prop :=
  ∀ locations, locations.Nodup → (f locations).Nodup

theorem keepsNodup_foldl {α : Type*} {f : List Location → α → List Location}
    (hf : ∀ node, KeepsNodup fun locations => f locations node) (nodes : List α) :
    KeepsNodup fun locations => nodes.foldl f locations := by
  induction nodes with
  | nil => exact fun _ h => h
  | cons node nodes ih => exact fun locations h => ih _ (hf node locations h)

theorem keepsNodup_cseAddLocation (host webApp pattern : Text) :
    KeepsNodup fun locations => cseAddLocation locations host webApp pattern := by
  intro locations h
  change (cseAddLocation locations host webApp pattern).Nodup
  unfold cseAddLocation cseAddUniqueLocation
  split
  · exact h
  · next hnew => exact List.nodup_cons.mpr ⟨hnew, h⟩

theorem keepsNodup_addMapping (host webApp : Text) (node : Registry) :
    KeepsNodup fun locations => addMapping host webApp locations node := by
  unfold addMapping
  split
  · split
    · exact keepsNodup_cseAddLocation host webApp _
    · exact fun _ h => h
  · exact fun _ h => h

theorem keepsNodup_cseInitWebAppContents (first : Registry) (host webApp : Text) :
    KeepsNodup fun locations => cseInitWebAppContents locations first host webApp :=
  fun locations h => keepsNodup_foldl (keepsNodup_addMapping host webApp) first.siblings _
    (keepsNodup_cseAddLocation host webApp _ locations h)

theorem keepsNodup_cseInitWebApp (webXml : WebXml) (node : Registry) (host webApp appDir : Text) :
    KeepsNodup fun locations => cseInitWebApp webXml locations node host webApp appDir := by
  intro locations h
  cases node with
  | nil => exact h
  | node entry first next =>
      have hfirst := keepsNodup_cseInitWebAppContents first host webApp locations h
      simp only [cseInitWebApp]
      split
      · split
        · exact hfirst
        · exact keepsNodup_cseInitWebAppContents _ host webApp _ hfirst
      · exact hfirst

theorem keepsNodup_addWebApp (webXml : WebXml) (host hostDir : Text) (node : Registry) :
    KeepsNodup fun locations => addWebApp webXml host hostDir locations node := by
  unfold addWebApp
  split
  · split
    · exact keepsNodup_cseInitWebApp webXml node host _ _
    · exact fun _ h => h
  · exact fun _ h => h

theorem keepsNodup_cseInitHost (webXml : WebXml) (node : Registry) (host appDir : Text) :
    KeepsNodup fun locations => cseInitHost webXml locations node host appDir :=
  fun locations h => keepsNodup_foldl (keepsNodup_addWebApp webXml host _) node.first.siblings _
    (keepsNodup_cseInitWebApp webXml node host [] appDir locations h)

/-- The list of locations of a server has no location twice. -/
theorem cseInitServer_nodup (webXml : WebXml) (server : Registry) (resinHome : Text) :
    (cseInitServer webXml [] server resinHome).Nodup := by
  have hhost (appDir : Text) (node : Registry) :
      KeepsNodup fun locations => addHost webXml appDir locations node := by
    intro locations h
    change (addHost webXml appDir locations node).Nodup
    rw [addHost_eq]
    split
    · exact keepsNodup_cseInitHost webXml node node.id _ locations h
    · exact h
  exact keepsNodup_foldl (hhost _) server.first.siblings _
    (keepsNodup_cseInitHost webXml server [] resinHome [] List.nodup_nil)

/-! ## Matching -/

/-- Lists with the same locations match the same requests. -/
theorem cseMatchRequest_congr {locations locations' : List Location}
    (h : ∀ loc ∈ locations, ∃ host, Compiled host loc)
    (hsame : ∀ loc, loc ∈ locations ↔ loc ∈ locations') (host : Text) (port : ℤ) (uri : Text) :
    ∃ b, cseMatchRequest locations host port uri = some b ∧
      cseMatchRequest locations' host port uri = some b := by
  obtain ⟨b, hb, hiff⟩ := cseMatchLocation_eq h host port (stripSession uri)
  obtain ⟨b', hb', hiff'⟩ := cseMatchLocation_eq (fun loc hloc => h loc ((hsame loc).mpr hloc))
    host port (stripSession uri)
  have hbool : b = b' := by
    rw [Bool.eq_iff_iff, hiff, hiff']
    simp only [hsame]
  subst hbool
  rw [cseMatchRequest_eq, cseMatchRequest_eq, hb, hb']
  cases b with
  | true => exact ⟨true, rfl, rfl⟩
  | false => exact ⟨_, rfl, rfl⟩

/-- A server block may be rearranged: requests are matched as before, and no location is
in the list twice. -/
theorem cseInitServer_rearranged (webXml : WebXml) (resinHome : Text) {entry : Entry}
    {first first' : Registry} (next next' : Registry)
    (hsingle : Unambiguous (.node entry first .nil)) (h : Rearranged first first') :
    (∀ host port uri, ∃ b,
        cseMatchRequest (cseInitServer webXml [] (.node entry first next) resinHome) host port uri =
            some b ∧
          cseMatchRequest (cseInitServer webXml [] (.node entry first' next') resinHome)
            host port uri = some b) ∧
      (cseInitServer webXml [] (.node entry first next) resinHome).Nodup ∧
      (cseInitServer webXml [] (.node entry first' next') resinHome).Nodup := by
  refine ⟨fun host port uri => ?_, cseInitServer_nodup _ _ _, cseInitServer_nodup _ _ _⟩
  exact cseMatchRequest_congr (fun loc => compiled_of_mem_cseInitServer webXml _ resinHome)
    (server_rearranged webXml next next' resinHome h hsingle) host port uri

/-- A `host` block with a web-app. -/
def oneHost : Registry :=
  .node ⟨"host".toList, some "a".toList⟩
    (.node ⟨"web-app".toList, some "/app".toList⟩ .nil .nil) .nil

theorem cseInitServer_rearranged_twice :
    (∀ host port uri, ∃ b,
        cseMatchRequest (cseInitServer (fun _ => none) []
            (.node ⟨"http-server".toList, none⟩ oneHost .nil) []) host port uri = some b ∧
          cseMatchRequest (cseInitServer (fun _ => none) []
            (.node ⟨"http-server".toList, none⟩
              (.node ⟨"host".toList, some "a".toList⟩
                (.node ⟨"web-app".toList, some "/app".toList⟩ .nil .nil) oneHost) .nil) [])
            host port uri = some b) ∧
      (cseInitServer (fun _ => none) []
        (.node ⟨"http-server".toList, none⟩ oneHost .nil) []).Nodup ∧
      (cseInitServer (fun _ => none) []
        (.node ⟨"http-server".toList, none⟩
          (.node ⟨"host".toList, some "a".toList⟩
            (.node ⟨"web-app".toList, some "/app".toList⟩ .nil .nil) oneHost) .nil) []).Nodup :=
  cseInitServer_rearranged (fun _ => none) [] .nil .nil
    ⟨by decide, by decide, ⟨by decide, by decide, ⟨by decide, by decide, trivial, trivial⟩,
      trivial⟩, trivial⟩
    (.again _ _ _)

end ModCaucho

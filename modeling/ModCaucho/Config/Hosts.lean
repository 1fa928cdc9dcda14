import Mathlib.Data.List.Lattice
import Mathlib.Data.List.Pairwise
import Mathlib.Data.List.TakeWhile
import ModCaucho.Config.Server

/-!
# Virtual hosts

Which locations decide on a request for a host name. The documentation gives a
request to the `host` block that lists the name, and to the outer block if none
does. The code puts the locations of all blocks in one list, and passes over
those whose block does not contain the name as a substring; the locations of the
outer block are never passed over. The two agree unless a location of a foreign
block serves the URI and none of the deciding block does.
-/

namespace ModCaucho

open Subword

/-! ## One location -/

/-- The location is not passed over for this host and port. -/
def Location.Accepts (loc : Location) (host : Text) (port : ℤ) : Prop :=
  (loc.host = [] ∨ host <:+: loc.host) ∧ (port = 0 ∨ loc.port = 0 ∨ port = loc.port)

/-- The pattern of the location fits a URI without session. -/
def Location.Covers (loc : Location) (uri : Text) : Prop :=
  if loc.isExact then uri = loc.locPrefix
  else Under loc.locPrefix uri ∧
    ∀ suffix ∈ loc.locSuffix, suffix = [] ∨ ∃ rest, Met suffix uri rest ∧ AtEnd rest

theorem cleanPrefix_rooted {webApp pattern : Text} (h : pattern.head? = some '*') :
    AtEnd (cleanPrefix webApp pattern) := by
  have hdrop {clean : Text} (hclean : AtEnd clean) :
      AtEnd (if clean.getLast? = some '/' then clean.dropLast else clean) := by
    split
    · cases clean with
      | nil => exact hclean
      | cons ch clean =>
          cases clean with
          | nil => exact Or.inl rfl
          | cons ch' clean => simpa [AtEnd] using hclean
    · exact hclean
  cases webApp with
  | nil => simp [cleanPrefix, h, AtEnd]
  | cons ch webApp =>
      apply hdrop
      by_cases hch : ch = '/'
      · simp [hch, AtEnd]
      · simp [hch, AtEnd]

theorem Under.atEnd {path uri : Text} (h : Under path uri) (hpath : AtEnd path) : AtEnd uri := by
  rcases h with rfl | ⟨rest, rfl⟩
  · exact hpath
  · cases path with
    | nil => exact Or.inr rfl
    | cons ch path => simpa [AtEnd] using hpath

theorem cseMatchSuffix_nil {full : Text} (h : AtEnd full) : cseMatchSuffix full [] = some true := by
  have hfind : find [] full = some full := find_prefix [] full
  simp only [cseMatchSuffix, matchSuffixLoop, hfind, List.length_nil, List.drop_zero]
  exact if_pos h

/-- Only a pattern that begins with a star is compiled to a suffix. -/
theorem Compiled.rooted {host suffix : Text} {loc : Location} (h : Compiled host loc)
    (hsuffix : loc.locSuffix = some suffix) : AtEnd loc.locPrefix := by
  obtain ⟨webApp, pattern, rfl⟩ := h
  unfold compile at hsuffix ⊢
  by_cases hnil : pattern = []
  · simp [hnil] at hsuffix
  · by_cases hstar : pattern.head? = some '*'
    · simpa only [if_neg hnil, if_pos hstar] using cleanPrefix_rooted hstar
    · simp only [if_neg hnil, if_neg hstar] at hsuffix
      split_ifs at hsuffix

/-- The search for a suffix comes to an end on every compiled location. -/
theorem Compiled.test_eq {host : Text} {loc : Location} (h : Compiled host loc) (host' : Text)
    (port : ℤ) (uri : Text) :
    ∃ b, loc.test host' port uri = some b ∧
      (b = true ↔ loc.Accepts host' port ∧ loc.Covers uri) := by
  unfold Location.test Location.Accepts Location.Covers
  by_cases hhost : loc.host ≠ [] ∧ find host' loc.host = none
  · refine ⟨false, if_pos hhost, ?_⟩
    rw [find_eq_none_iff] at hhost
    tauto
  rw [if_neg hhost]
  by_cases hport : port ≠ 0 ∧ loc.port ≠ 0 ∧ port ≠ loc.port
  · exact ⟨false, if_pos hport, by tauto⟩
  rw [if_neg hport]
  have haccepts : (loc.host = [] ∨ host' <:+: loc.host) ∧
      (port = 0 ∨ loc.port = 0 ∨ port = loc.port) := by
    rw [find_eq_none_iff] at hhost
    tauto
  by_cases hexact : loc.isExact
  · exact ⟨decide (uri = loc.locPrefix), by simp [hexact], by simp [hexact, haccepts]⟩
  simp only [if_neg hexact]
  by_cases hunder : Under loc.locPrefix uri
  · have hstarts := (cseStartsWith_iff uri loc.locPrefix).mpr hunder
    cases hsuffix : loc.locSuffix with
    | none => exact ⟨true, by simp [hstarts], by simp [haccepts, hunder]⟩
    | some suffix =>
        by_cases hnil : suffix = []
        · have hat := hunder.atEnd (h.rooted hsuffix)
          refine ⟨true, by simp [hstarts, hnil, cseMatchSuffix_nil hat], ?_⟩
          simp [haccepts, hunder, hnil]
        · obtain ⟨b, hb, hiff⟩ := cseMatchSuffix_eq hnil uri
          refine ⟨b, by simp [hstarts, hb], ?_⟩
          simp [haccepts, hunder, hnil, hiff]
  · have hstarts : cseStartsWith uri loc.locPrefix = false := by
      rw [← Bool.not_eq_true, cseStartsWith_iff]
      exact hunder
    exact ⟨false, by simp [hstarts], by simp [hunder]⟩

/-- The list is searched to its end or to the first location that matches. -/
theorem cseMatchLocation_eq {locations : List Location}
    (h : ∀ loc ∈ locations, ∃ host, Compiled host loc) (host : Text) (port : ℤ) (uri : Text) :
    ∃ b, cseMatchLocation locations host port uri = some b ∧
      (b = true ↔ ∃ loc ∈ locations, loc.Accepts host port ∧ loc.Covers uri) := by
  induction locations with
  | nil => exact ⟨false, rfl, by simp⟩
  | cons loc locations ih =>
      obtain ⟨host', hloc⟩ := h loc List.mem_cons_self
      obtain ⟨b, hb, hiff⟩ := hloc.test_eq host port uri
      obtain ⟨b', hb', hiff'⟩ := ih fun loc' hmem => h loc' (List.mem_cons_of_mem loc hmem)
      simp only [cseMatchLocation, hb, List.exists_mem_cons_iff]
      cases b with
      | true => exact ⟨true, rfl, by simp [hiff.mp rfl]⟩
      | false =>
          have hnot : ¬ (loc.Accepts host port ∧ loc.Covers uri) := fun hc =>
            Bool.false_ne_true (hiff.mpr hc)
          exact ⟨b', hb', by simp only [hnot, false_or, hiff']⟩

/-! ## Host blocks -/

/-- The host names that the id of a block lists. -/
def hostNames (id : Text) : List Text := (id.splitOn ' ').filter (· ≠ [])

/-- The id of a host block. -/
def Registry.id (block : Registry) : Text := block.value.getD []

/-- A `host` block with an id. -/
def Registry.isHost (node : Registry) : Bool := node.value.isSome && node.hasKey "host".toList

/-- The `host` blocks with an id in a server block. -/
def hosts (server : Registry) : List Registry := server.first.siblings.filter Registry.isHost

/-- The locations that a `host` block declares. -/
def declared (webXml : WebXml) (server : Registry) (resinHome : Text) (block : Registry) :
    List Location :=
  cseInitHost webXml [] block block.id (cseAppDir block (cseAppDir server resinHome))

/-- The locations that the outer block declares. -/
def declaredOutside (webXml : WebXml) (server : Registry) (resinHome : Text) : List Location :=
  cseInitHost webXml [] server [] resinHome

/-- A request is decided by the block that lists its host alone, or by the outer block
if there is none. -/
def Isolated (webXml : WebXml) (server : Registry) (resinHome host : Text) (port : ℤ)
    (uri : Text) : Prop :=
  let decision := cseMatchRequest (cseInitServer webXml [] server resinHome) host port uri
  (∀ block ∈ hosts server, host ∈ hostNames block.id →
      decision = cseMatchRequest (declared webXml server resinHome block) host port uri) ∧
    ((∀ block ∈ hosts server, host ∉ hostNames block.id) →
      decision = cseMatchRequest (declaredOutside webXml server resinHome) host port uri)

/-- Some location of the list covers the URI. -/
def Dispatches (locations : List Location) (uri : Text) : Prop := ∃ loc ∈ locations, loc.Covers uri

/-- The block that lists the host serves the URI, or the outer block if there is none. -/
def OwnServes (webXml : WebXml) (server : Registry) (resinHome host uri : Text) : Prop :=
  (∃ block ∈ hosts server, host ∈ hostNames block.id ∧
      Dispatches (declared webXml server resinHome block) uri) ∨
    (∀ block ∈ hosts server, host ∉ hostNames block.id) ∧
      Dispatches (declaredOutside webXml server resinHome) uri

/-- The URI is served by a block that does not list the host but has it as a substring
of its id, or by the outer block though some block lists the host. -/
def ForeignServes (webXml : WebXml) (server : Registry) (resinHome host uri : Text) : Prop :=
  (∃ block ∈ hosts server, host ∉ hostNames block.id ∧
      (block.id = [] ∨ host <:+: block.id) ∧
      Dispatches (declared webXml server resinHome block) uri) ∨
    (∃ block ∈ hosts server, host ∈ hostNames block.id) ∧
      Dispatches (declaredOutside webXml server resinHome) uri

theorem host_infix_of_mem {id host : Text} (h : host ∈ hostNames id) : host <:+: id := by
  have hmem := (List.mem_filter.mp h).1
  calc host <:+: [' '].intercalate (id.splitOn ' ') := infix_of_mem_intercalate hmem
    _ = id := List.intercalate_splitOn ' '

/-! ## The list of all blocks -/

section

variable (webXml : WebXml) (server : Registry) (resinHome : Text)

theorem addHost_eq (appDir : Text) (locations : List Location) (node : Registry) :
    addHost webXml appDir locations node =
      if node.isHost then cseInitHost webXml locations node node.id (cseAppDir node appDir)
      else locations := by
  unfold addHost Registry.isHost Registry.id
  cases node.value with
  | none => rfl
  | some name => rfl

theorem adds_addHost (appDir : Text) (node : Registry) :
    Adds node.id fun locations => addHost webXml appDir locations node := by
  simp only [addHost_eq]
  split
  · exact adds_cseInitHost webXml node node.id _
  · exact adds_id node.id

theorem mem_foldl_addHost (appDir : Text) (nodes : List Registry) (locations : List Location)
    (loc : Location) :
    loc ∈ nodes.foldl (addHost webXml appDir) locations ↔
      loc ∈ locations ∨ ∃ block ∈ nodes.filter Registry.isHost,
        loc ∈ cseInitHost webXml [] block block.id (cseAppDir block appDir) := by
  rw [mem_foldl_adds nodes fun node _ => ⟨node.id, adds_addHost webXml appDir node⟩]
  refine or_congr_right (exists_congr fun node => ?_)
  rw [List.mem_filter, and_assoc, addHost_eq]
  refine and_congr_right fun _ => ?_
  by_cases hhost : node.isHost = true
  · rw [if_pos hhost, and_iff_right hhost]
  · rw [if_neg hhost]
    exact iff_of_false List.not_mem_nil fun h => hhost h.1

/-- The list holds the locations of the outer block and those of every host block. -/
theorem mem_cseInitServer (loc : Location) :
    loc ∈ cseInitServer webXml [] server resinHome ↔
      loc ∈ declaredOutside webXml server resinHome ∨
        ∃ block ∈ hosts server, loc ∈ declared webXml server resinHome block :=
  mem_foldl_addHost webXml _ _ _ loc

theorem compiled_of_mem_declared {block : Registry} {loc : Location}
    (h : loc ∈ declared webXml server resinHome block) : Compiled block.id loc :=
  (adds_cseInitHost webXml block block.id _).1 loc h

theorem compiled_of_mem_declaredOutside {loc : Location}
    (h : loc ∈ declaredOutside webXml server resinHome) : Compiled [] loc :=
  (adds_cseInitHost webXml server [] _).1 loc h

theorem compiled_of_mem_cseInitServer {loc : Location}
    (h : loc ∈ cseInitServer webXml [] server resinHome) : ∃ host, Compiled host loc := by
  rcases (mem_cseInitServer _ _ _ loc).mp h with hdef | ⟨block, -, hdecl⟩
  · exact ⟨[], compiled_of_mem_declaredOutside _ _ _ hdef⟩
  · exact ⟨block.id, compiled_of_mem_declared _ _ _ hdecl⟩

end

/-- A block without a port is passed over by the name alone. -/
theorem Compiled.accepts_iff {host : Text} {loc : Location} (h : Compiled host loc)
    (hport : ':' ∉ host) (host' : Text) (port : ℤ) :
    loc.Accepts host' port ↔ host = [] ∨ host' <:+: host := by
  obtain ⟨webApp, pattern, rfl⟩ := h
  have hhost : host.takeWhile (· ≠ ':') = host :=
    List.takeWhile_eq_self_iff.mpr fun ch hch => decide_eq_true fun heq => hport (heq ▸ hch)
  have hloc : (compile host webApp pattern).host = host ∧
      (compile host webApp pattern).port = 0 := by
    unfold compile
    simp only [hhost, if_neg hport]
    split_ifs <;> exact ⟨rfl, rfl⟩
  simp [Location.Accepts, hloc]

/-- Without `/j_security_check` the locations decide alone. -/
theorem cseMatchRequest_locations {locations : List Location} {uri : Text}
    (h : ∀ loc ∈ locations, ∃ host, Compiled host loc) (hcheck : ¬ securityCheck <:+: uri)
    (host : Text) (port : ℤ) :
    ∃ b, cseMatchRequest locations host port uri = some b ∧
      (b = true ↔ ∃ loc ∈ locations, loc.Accepts host port ∧ loc.Covers (stripSession uri)) := by
  obtain ⟨b, hb, hiff⟩ := cseMatchLocation_eq h host port (stripSession uri)
  have hnone : find securityCheck (stripSession uri) = none :=
    (find_eq_none_iff _ _).mpr fun hin => hcheck (hin.trans (before_le _ _).isInfix)
  refine ⟨b, ?_, hiff⟩
  rw [cseMatchRequest_eq, hb]
  cases b with
  | true => rfl
  | false => simp [hnone]

/-! ## Isolation -/

section

variable {webXml : WebXml} {server : Registry} {resinHome host uri : Text} {port : ℤ}

/-- The list of all blocks serves what the own or a foreign block serves. -/
theorem cseInitServer_serves_iff (hports : ∀ block ∈ hosts server, ':' ∉ block.id) :
    (∃ loc ∈ cseInitServer webXml [] server resinHome, loc.Accepts host port ∧ loc.Covers uri) ↔
      ForeignServes webXml server resinHome host uri ∨
        OwnServes webXml server resinHome host uri := by
  have houtside {loc : Location} (h : loc ∈ declaredOutside webXml server resinHome) :
      loc.Accepts host port :=
    ((compiled_of_mem_declaredOutside _ _ _ h).accepts_iff List.not_mem_nil host port).mpr
      (Or.inl rfl)
  constructor
  · rintro ⟨loc, hmem, haccepts, hcovers⟩
    rcases (mem_cseInitServer _ _ _ loc).mp hmem with hdef | ⟨block, hblock, hdecl⟩
    · by_cases hlisted : ∃ block ∈ hosts server, host ∈ hostNames block.id
      · exact Or.inl (Or.inr ⟨hlisted, loc, hdef, hcovers⟩)
      · exact Or.inr (Or.inr ⟨fun block hblock hname => hlisted ⟨block, hblock, hname⟩,
          loc, hdef, hcovers⟩)
    · have hserves : Dispatches (declared webXml server resinHome block) uri :=
        ⟨loc, hdecl, hcovers⟩
      by_cases hname : host ∈ hostNames block.id
      · exact Or.inr (Or.inl ⟨block, hblock, hname, hserves⟩)
      · have hid := ((compiled_of_mem_declared _ _ _ hdecl).accepts_iff (hports block hblock)
          host port).mp haccepts
        exact Or.inl (Or.inl ⟨block, hblock, hname, hid, hserves⟩)
  · have hblocks {block : Registry} (hblock : block ∈ hosts server)
        (hid : block.id = [] ∨ host <:+: block.id)
        (hserves : Dispatches (declared webXml server resinHome block) uri) :
        ∃ loc ∈ cseInitServer webXml [] server resinHome,
          loc.Accepts host port ∧ loc.Covers uri := by
      obtain ⟨loc, hdecl, hcovers⟩ := hserves
      have haccepts := ((compiled_of_mem_declared _ _ _ hdecl).accepts_iff (hports block hblock)
        host port).mpr hid
      exact ⟨loc, (mem_cseInitServer _ _ _ loc).mpr (Or.inr ⟨block, hblock, hdecl⟩), haccepts,
        hcovers⟩
    have hdefault (hserves : Dispatches (declaredOutside webXml server resinHome) uri) :
        ∃ loc ∈ cseInitServer webXml [] server resinHome,
          loc.Accepts host port ∧ loc.Covers uri := by
      obtain ⟨loc, hdef, hcovers⟩ := hserves
      exact ⟨loc, (mem_cseInitServer _ _ _ loc).mpr (Or.inl hdef), houtside hdef, hcovers⟩
    rintro ((⟨block, hblock, -, hid, hserves⟩ | ⟨-, hserves⟩) |
      (⟨block, hblock, hname, hserves⟩ | ⟨-, hserves⟩))
    · exact hblocks hblock hid hserves
    · exact hdefault hserves
    · exact hblocks hblock (Or.inr (host_infix_of_mem hname)) hserves
    · exact hdefault hserves

/-- At most one block lists a host. -/
theorem block_eq_of_mem
    (hdiff : (hosts server).Pairwise fun block block' =>
      List.Disjoint (hostNames block.id) (hostNames block'.id))
    {block block' : Registry} (hblock : block ∈ hosts server) (hblock' : block' ∈ hosts server)
    (hname : host ∈ hostNames block.id) (hname' : host ∈ hostNames block'.id) :
    block = block' := by
  have hsymm : Std.Symm fun block block' : Registry =>
      List.Disjoint (hostNames block.id) (hostNames block'.id) :=
    ⟨fun _ _ h => List.Disjoint.symm h⟩
  by_contra hne
  exact hdiff.forall hblock hblock' hne hname hname'

/-- A request is decided by its own block exactly if what a foreign block serves is
served by the own block as well. -/
theorem isolated_iff
    (hdiff : (hosts server).Pairwise fun block block' =>
      List.Disjoint (hostNames block.id) (hostNames block'.id))
    (hports : ∀ block ∈ hosts server, ':' ∉ block.id) (hcheck : ¬ securityCheck <:+: uri) :
    Isolated webXml server resinHome host port uri ↔
      (ForeignServes webXml server resinHome host (stripSession uri) →
        OwnServes webXml server resinHome host (stripSession uri)) := by
  obtain ⟨b, hb, hiff⟩ := cseMatchRequest_locations
    (fun loc => compiled_of_mem_cseInitServer webXml server resinHome) hcheck host port
  rw [cseInitServer_serves_iff hports] at hiff
  have hlisted {block : Registry} (hblock : block ∈ hosts server)
      (hname : host ∈ hostNames block.id) :
      some b = cseMatchRequest (declared webXml server resinHome block) host port uri ↔
        (b = true ↔ OwnServes webXml server resinHome host (stripSession uri)) := by
    obtain ⟨b', hb', hiff'⟩ := cseMatchRequest_locations
      (fun loc h => ⟨_, compiled_of_mem_declared webXml server resinHome h⟩) hcheck host port
    have hown : b' = true ↔ OwnServes webXml server resinHome host (stripSession uri) := by
      rw [hiff']
      constructor
      · rintro ⟨loc, hdecl, -, hcovers⟩
        exact Or.inl ⟨block, hblock, hname, loc, hdecl, hcovers⟩
      · rintro (⟨block', hblock', hname', loc, hdecl, hcovers⟩ | ⟨hnone, -⟩)
        · cases block_eq_of_mem hdiff hblock hblock' hname hname'
          exact ⟨loc, hdecl, ((compiled_of_mem_declared _ _ _ hdecl).accepts_iff
            (hports block hblock) host port).mpr (Or.inr (host_infix_of_mem hname)), hcovers⟩
        · exact absurd hname (hnone block hblock)
    rw [hb', Option.some_inj, ← hown, Bool.eq_iff_iff]
  have hunlisted (hnone : ∀ block ∈ hosts server, host ∉ hostNames block.id) :
      some b = cseMatchRequest (declaredOutside webXml server resinHome) host port uri ↔
        (b = true ↔ OwnServes webXml server resinHome host (stripSession uri)) := by
    obtain ⟨b', hb', hiff'⟩ := cseMatchRequest_locations
      (fun loc h => ⟨_, compiled_of_mem_declaredOutside webXml server resinHome h⟩) hcheck host port
    have hown : b' = true ↔ OwnServes webXml server resinHome host (stripSession uri) := by
      rw [hiff']
      constructor
      · rintro ⟨loc, hdef, -, hcovers⟩
        exact Or.inr ⟨hnone, loc, hdef, hcovers⟩
      · rintro (⟨block, hblock, hname, -⟩ | ⟨-, loc, hdef, hcovers⟩)
        · exact absurd hname (hnone block hblock)
        · exact ⟨loc, hdef, ((compiled_of_mem_declaredOutside _ _ _ hdef).accepts_iff
            List.not_mem_nil host port).mpr (Or.inl rfl), hcovers⟩
    rw [hb', Option.some_inj, ← hown, Bool.eq_iff_iff]
  have hdecided : Isolated webXml server resinHome host port uri ↔
      (b = true ↔ OwnServes webXml server resinHome host (stripSession uri)) := by
    unfold Isolated
    rw [hb]
    by_cases hany : ∃ block ∈ hosts server, host ∈ hostNames block.id
    · obtain ⟨block, hblock, hname⟩ := hany
      constructor
      · intro h
        exact (hlisted hblock hname).mp (h.1 block hblock hname)
      · intro h
        exact ⟨fun block' hblock' hname' => (hlisted hblock' hname').mpr h,
          fun hnone => absurd hname (hnone block hblock)⟩
    · have hnone (block : Registry) (hblock : block ∈ hosts server) :
          host ∉ hostNames block.id := fun hname => hany ⟨block, hblock, hname⟩
      constructor
      · intro h
        exact (hunlisted hnone).mp (h.2 hnone)
      · intro h
        exact ⟨fun block hblock hname => absurd hname (hnone block hblock),
          fun _ => (hunlisted hnone).mpr h⟩
  rw [hdecided, hiff]
  exact or_iff_right_iff_imp

end

/-- The server of the sample configuration, with the patterns of its hosts. -/
def sampleServer : Registry :=
  let mapping (pattern : String) (next : Registry) : Registry :=
    .node ⟨"servlet-mapping".toList, none⟩
      (.node ⟨"url-pattern".toList, some pattern.toList⟩ .nil .nil) next
  let host (id : String) (first next : Registry) : Registry :=
    .node ⟨"host".toList, some id.toList⟩ first next
  .node ⟨"http-server".toList, none⟩
    (mapping "/hello" <|
      host "vhost1.acme.com" (mapping "/hello" .nil) <|
      host "vhost2.acme.com" (mapping "/goodbye" .nil) .nil)
    .nil

theorem isolated_iff_sample :
    Isolated (fun _ => none) sampleServer [] "vhost1.acme.com".toList 80 "/hello".toList := by
  have hdiff : (hosts sampleServer).Pairwise fun block block' =>
      ∀ name ∈ hostNames block.id, name ∉ hostNames block'.id := by decide
  refine (isolated_iff hdiff (by decide) (by decide)).mpr fun _ => Or.inl ?_
  refine ⟨_, List.mem_cons_self, by decide,
    compile "vhost1.acme.com".toList [] "/hello".toList, by decide, ?_⟩
  rw [Location.Covers, if_pos (by decide)]
  decide

/-- The second virtual host does serve `/hello`, which the outer block declares. -/
theorem not_isolated_sample :
    ¬ ∀ (webXml : WebXml) (server : Registry) (resinHome host : Text) (port : ℤ) (uri : Text),
      (hosts server).Pairwise (fun block block' =>
        List.Disjoint (hostNames block.id) (hostNames block'.id)) →
      (∀ block ∈ hosts server, ':' ∉ block.id) → ¬ securityCheck <:+: uri →
      Isolated webXml server resinHome host port uri := by
  intro h
  have hdiff : (hosts sampleServer).Pairwise fun block block' =>
      ∀ name ∈ hostNames block.id, name ∉ hostNames block'.id := by decide
  have hown := (h (fun _ => none) sampleServer [] "vhost2.acme.com".toList 80 "/hello".toList hdiff
    (by decide) (by decide)).1 _ (List.mem_cons_of_mem _ List.mem_cons_self) (by decide)
  revert hown
  decide

end ModCaucho

import ModCaucho.Balance.Backups
import ModCaucho.Handler.Lifetime

/-!
# The answer to a request

All of `caucho_request`, with what the browser gets if no runner can be reached. Then
`connection_error` shows the error page that was configured, or sends the browser there, or
says itself which runner it cannot contact. What it shows is told from the directives of
the server, and it is shown exactly if every srun of the table fails.
-/

namespace ModCaucho

open CString

/-! ## The error page -/

/-- A subrequest, with the path info and the arguments of the request. -/
structure Subrequest where
  uri : Text
  pathInfo : Option (List Byte)
  args : Option (List Byte)
deriving DecidableEq, Repr

/-- What the rest of Apache makes of a request: the result of `ap_setup_client_block`, the
status with which a subrequest is looked up, and the result of running it. -/
structure Apache where
  setupClientBlock : ℤ
  lookupUri : Text → ℤ
  runSubReq : Subrequest → ℤ

/-- A page that the plugin writes itself. -/
structure ErrorPage where
  status : ℤ
  contentType : Text
  location : Option Text
  body : Text
deriving DecidableEq, Repr

/-- What the browser gets from `connection_error`: the subrequest that was run for it, and the
page that was written. -/
structure Answer where
  subrequest : Option Subrequest
  page : Option ErrorPage
deriving DecidableEq, Repr

/-- `%d` -/
def printInt : ℤ → Text
  | .ofNat n => Nat.toDigits 10 n
  | .negSucc n => '-' :: Nat.toDigits 10 (n + 1)

/-- `handle_include`, with the subrequest that it runs. -/
def handleInclude (apache : Apache) (uri : Text) (pathInfo : Option (List Byte))
    (args : Option (List Byte)) : ℤ × Option Subrequest :=
  if apache.lookupUri uri ≠ 200 then (-1, none)
  else
    let subrequest : Subrequest := ⟨uri, pathInfo, args⟩
    (apache.runSubReq subrequest, some subrequest)

/-- The text that names an srun. -/
def cannotContact (srun : Srun) : Text :=
  "<html><body bgcolor='white'>".toList ++
    ("<h1>Can't contact servlet runner at ".toList ++ srun.hostname.getD "localhost".toList ++
      ':' :: printInt srun.port ++ "</h1>".toList) ++
    "</body></html>".toList

/-- `connection_error` -/
def connectionError (apache : Apache) (settings : Settings) (srun : Srun)
    (pathInfo : Option (List Byte)) (args : Option (List Byte)) : Answer :=
  let errorPage := match settings.gErrorPage with
    | some page => some page
    | none => settings.config.errorPage
  let (status, subrequest) := match errorPage with
    | some page => handleInclude apache page pathInfo args
    | none => (-1, none)
  if errorPage ≠ none ∧ status = 0 then ⟨subrequest, none⟩
  else
    ⟨subrequest, some
      { status := if errorPage ≠ none then 302 else 503
        contentType := "text/html".toList
        location := errorPage
        body := cannotContact srun }⟩

/-! ## The request -/

/-- What a request comes to: the result, what `connection_error` answers, the reply of the
runner, and the child. -/
structure Handled where
  retval : ℤ
  answer : Option Answer
  reply : Reply
  child : Child

/-- `caucho_request`, with everything that it does. -/
def handleRequest (dial : Dial) (apache : Apache) (settings : Settings) (sessionIndex : ℤ)
    (ip : List Byte) (t : UInt32) (rand : Int32) (junk : ℕ → Locals)
    (pathInfo : Option (List Byte)) (r : Request) (reply : Reply) (p : Child) : Handled :=
  if apache.setupClientBlock ≠ 0 then ⟨apache.setupClientBlock, none, reply, p⟩
  else
    let (found, p) := cseOpenConnection dial sessionIndex ip t rand p
    if found then
      let session := (p.config.srun (p.stream.srun.getD 0)).session
      let (reuse, x) := writeRequest junk session r ⟨p.conn, reply, false, []⟩
      let p := p.withConn x.conn
      ⟨0, none, x.reply.push .flush, if reuse then cseRecycle p else p.withConn (cseClose p.conn)⟩
    else
      ⟨0, some (connectionError apache settings (p.config.srun 0) pathInfo r.args), reply, p⟩

section

variable (dial : Dial) (apache : Apache) (settings : Settings) (sessionIndex : ℤ) (ip : List Byte)
  (t : UInt32) (rand : Int32) (junk : ℕ → Locals) (pathInfo : Option (List Byte)) (r : Request)
  (reply : Reply) (p : Child)

/-- What the request does to the child is what `cauchoRequest` says. -/
theorem handleRequest_child (hsetup : apache.setupClientBlock = 0) :
    (handleRequest dial apache settings sessionIndex ip t rand junk pathInfo r reply p).child =
      cauchoRequest dial sessionIndex ip t rand junk r reply p := by
  unfold handleRequest cauchoRequest
  rw [if_neg (not_not.mpr hsetup)]
  simp only
  split
  · rfl
  · rfl

end

/-! ## When no srun can be reached -/

/-- A call can get a connection to the srun: one from its pool, one from a blocking attempt,
or one from a timed attempt, if that is made. -/
def CanReach (dial : Dial) (sessionIndex : ℤ) (t : UInt32) (i : ℕ) (srun : Srun) : Prop :=
  srun.Usable t ∨ (∃ fd, dial i true = .connected fd) ∨
    ¬ Skipped sessionIndex srun ∧ ¬ srun.Dead t ∧ ∃ fd, dial i false = .connected fd

section

variable {dial : Dial} {sessionIndex : ℤ} {t : UInt32} {i : ℕ} {v : SrunView}

/-- The first pass leaves what the second one asks for. -/
theorem rejectFirst_drains (t : UInt32) (v : SrunView) :
    (rejectFirst sessionIndex t v).srun = v.srun ∨
      sessionIndex < 0 ∧ ¬ v.srun.isBackup = true ∧
        (rejectFirst sessionIndex t v).srun = v.srun.drained t := by
  unfold rejectFirst rejectReuse
  split
  · next hs =>
      split
      · exact Or.inl rfl
      · next hbackup => exact Or.inr ⟨hs, hbackup, srun_map rfl v _⟩
  · exact Or.inl rfl

theorem skipped_rejectFirst :
    Skipped sessionIndex (rejectFirst sessionIndex t v).srun ↔ Skipped sessionIndex v.srun := by
  rw [Skipped, Skipped, rejectFirst_isBackup]

/-- A socket that can be used is still there after the first pass, unless that took it. -/
theorem usable_rejectFirst (h : v.srun.Usable t)
    (hfirst : sessionIndex < 0 → ¬ AcceptsReuse t v) :
    (rejectFirst sessionIndex t v).srun = v.srun := by
  rcases @rejectFirst_drains sessionIndex t v with heq | ⟨hs, hbackup, -⟩
  · exact heq
  · exact absurd ⟨hbackup, h⟩ (hfirst hs)

theorem usable_of_wanes {v v' : SrunView} (h : v'.srun = v.srun.drained t ∨ v'.srun = v.srun)
    (husable : v'.srun.Usable t) : v.srun.Usable t := by
  rcases h with heq | heq
  · rw [heq] at husable
    exact absurd husable (not_usable_drained t _)
  · rwa [heq] at husable

theorem rejectFirst_cases :
    (rejectFirst sessionIndex t v).srun = v.srun.drained t ∨
      (rejectFirst sessionIndex t v).srun = v.srun := by
  rcases @rejectFirst_drains sessionIndex t v with heq | ⟨-, -, heq⟩
  · exact Or.inr heq
  · exact Or.inl heq

/-- Nothing can be used of an srun that the second pass has rejected, unless it was skipped. -/
theorem rejectLive_usable (h : (rejectLive dial sessionIndex t i v).srun.Usable t) :
    Skipped sessionIndex v.srun ∧ rejectLive dial sessionIndex t i v = v := by
  unfold rejectLive at h ⊢
  split at h
  · next hs => exact ⟨hs, if_pos hs⟩
  · split at h
    · rw [srun_map rfl] at h
      exact absurd h (not_usable_drained t _)
    · exfalso
      obtain ⟨entry, attempts⟩ := v
      have hpos := h.1
      cases entry with
      | none => exact Nat.lt_irrefl 0 hpos
      | some srun =>
          simp [SrunView.srun, ported_sockets, Srun.drained] at hpos

end

section

variable {dial : Dial} {sessionIndex : ℤ} {t : UInt32} {order : List ℕ} {p : Child}

/-- The passes fail exactly if no srun of the probe order can be reached. -/
theorem passes_false_iff (hnodup : order.Nodup) :
    (passes dial sessionIndex t order p).1 = false ↔
      ∀ i ∈ order, ¬ CanReach dial sessionIndex t i (p.config.srun i) := by
  have hfirst : (firstPass sessionIndex t order p).1 = false ↔
      ∀ i ∈ order, sessionIndex < 0 → ¬ AcceptsReuse t (p.view i) := by
    unfold firstPass
    split
    · next hs =>
        rw [(tryReuse_local t).scan_false_iff hnodup]
        exact ⟨fun h i hi _ => h i hi, fun h i hi => h i hi hs⟩
    · next hs => exact iff_of_true rfl fun i _ h => absurd h hs
  constructor
  · intro h i hi hreach
    cases h₁ : (firstPass sessionIndex t order p).1 with
    | true =>
        rw [passes_of_first h₁] at h
        cases h
    | false =>
        cases h₂ : (secondPass dial sessionIndex t order p).1 with
        | true =>
            rw [passes_of_second h₁ h₂] at h
            cases h
        | false =>
            rw [passes_of_third h₁ h₂] at h
            have hreuse := hfirst.mp h₁ i hi
            have hlive := ((tryLive_local dial sessionIndex t).scan_false_iff hnodup _).mp h₂ i hi
            have hany := ((tryAny_local dial t).scan_false_iff hnodup _).mp h i hi
            rw [firstPass_view hnodup h₁ hi] at hlive
            rw [secondPass_view hnodup h₁ h₂ hi] at hany
            rw [skipped_rejectFirst, Ready, rejectFirst_dead] at hlive
            rw [← view_srun] at hreach
            rcases hreach with husable | hblocking | ⟨hskip, hdead, hconnects⟩
            · have hsame := usable_rejectFirst husable hreuse
              rw [hsame] at hlive
              have hskip : Skipped sessionIndex (p.view i).srun := by
                by_contra hskip
                exact hlive ⟨hskip, Or.inl husable⟩
              refine hany (Or.inl ?_)
              rw [rejectLive, if_pos (skipped_rejectFirst.mpr hskip), hsame]
              exact husable
            · exact hany (Or.inr hblocking)
            · exact hlive ⟨hskip, Or.inr ⟨hdead, hconnects⟩⟩
  · intro h
    have h₁ : (firstPass sessionIndex t order p).1 = false := by
      refine hfirst.mpr fun i hi _ haccepts => h i hi (Or.inl ?_)
      rw [← view_srun]
      exact haccepts.2
    have h₂ : (secondPass dial sessionIndex t order p).1 = false := by
      refine ((tryLive_local dial sessionIndex t).scan_false_iff hnodup _).mpr ?_
      rintro i hi ⟨hskip, hready⟩
      rw [firstPass_view hnodup h₁ hi] at hskip hready
      rw [skipped_rejectFirst, view_srun] at hskip
      rcases hready with husable | ⟨hdead, hconnects⟩
      · refine h i hi (Or.inl ?_)
        rw [← view_srun]
        exact usable_of_wanes rejectFirst_cases husable
      · rw [rejectFirst_dead, view_srun] at hdead
        exact h i hi (Or.inr (Or.inr ⟨hskip, hdead, hconnects⟩))
    rw [passes_of_third h₁ h₂]
    refine ((tryAny_local dial t).scan_false_iff hnodup _).mpr ?_
    rintro i hi (husable | hconnects)
    · rw [secondPass_view hnodup h₁ h₂ hi] at husable
      obtain ⟨-, hsame⟩ := rejectLive_usable husable
      rw [hsame] at husable
      refine h i hi (Or.inl ?_)
      rw [← view_srun]
      exact usable_of_wanes rejectFirst_cases husable
    · exact h i hi (Or.inr (Or.inl hconnects))

/-- Looking for an srun does not change what was configured. -/
theorem setting_passes (j : ℕ) :
    ((passes dial sessionIndex t order p).2.config.srun j).setting =
      (p.config.srun j).setting := by
  refine passes_induction (P := fun q => (q.config.srun j).setting = (p.config.srun j).setting)
    (fun i q hq => ?_) (fun i wait q hq => ?_) (fun i q hq => ?_) (fun i q hq => ?_) rfl
  · exact (setting_exec dial (.reuse i t) q j).trans hq
  · exact (setting_exec dial (.dial i wait) q j).trans hq
  · exact (setting_exec dial (.use i t) q j).trans hq
  · exact (setting_exec dial (.bury i t) q j).trans hq

/-- After a call that failed every srun of the probe order has a port. -/
theorem port_of_failed (hnodup : order.Nodup)
    (h : (passes dial sessionIndex t order p).1 = false) {i : ℕ} (hi : i ∈ order)
    (hlt : i < p.config.srunList.length) :
    0 < ((passes dial sessionIndex t order p).2.config.srun i).port := by
  obtain ⟨hview, -⟩ := passes_rejects hnodup h hi
  obtain ⟨f, hf⟩ := ((wanes_first sessionIndex t (p.view i)).trans
    (wanes_live dial sessionIndex t i _)).entry
  have hentry := congrArg Prod.fst hview
  rw [rejectAny, hf, Option.map_map] at hentry
  have hsome : (p.view i).1 = some p.config.srunList[i] := List.getElem?_eq_getElem hlt
  rw [hsome, Option.map_some] at hentry
  rw [← view_srun, SrunView.srun, hentry]
  simp only [Option.getD_some, Function.comp_apply, Srun.ported]
  split
  · exact (by decide : (0 : ℤ) < defaultPort)
  · next hport => exact Int.not_le.mp hport

end

/-! ## The answer of a configured server -/

/-- What the browser gets in the name of an srun, if this is the error page: the page itself
if it can be included, and otherwise a text that names the srun, with the way to the page
if there is one. -/
def Answer.Shows (apache : Apache) (page : Option Text) (srun : Srun)
    (pathInfo args : Option (List Byte)) (answer : Answer) : Prop :=
  match page with
  | none =>
      answer = ⟨none, some ⟨503, "text/html".toList, none, cannotContact srun⟩⟩
  | some uri =>
      let subrequest := if apache.lookupUri uri = 200 then some ⟨uri, pathInfo, args⟩ else none
      answer.subrequest = subrequest ∧
        if (subrequest.map apache.runSubReq) = some 0 then answer.page = none
        else answer.page = some ⟨302, "text/html".toList, some uri, cannotContact srun⟩

theorem connectionError_shows (apache : Apache) (settings : Settings) (srun : Srun)
    (pathInfo args : Option (List Byte)) :
    (connectionError apache settings srun pathInfo args).Shows apache
      (settings.gErrorPage.or settings.config.errorPage) srun pathInfo args := by
  have hpage : (match settings.gErrorPage with
      | some page => some page
      | none => settings.config.errorPage) = settings.gErrorPage.or settings.config.errorPage := by
    cases settings.gErrorPage <;> rfl
  unfold connectionError
  rw [hpage]
  cases settings.gErrorPage.or settings.config.errorPage with
  | none => rfl
  | some uri =>
      simp only [Answer.Shows, handleInclude]
      by_cases hlookup : apache.lookupUri uri = 200
      · by_cases hrun : apache.runSubReq ⟨uri, pathInfo, args⟩ = 0
        · simp [hlookup, hrun]
        · simp [hlookup, hrun]
      · simp [hlookup]

theorem cannotContact_setting {srun : Srun} (h : 0 < srun.port) :
    cannotContact srun.setting = cannotContact srun := by
  have hport : srun.setting.port = srun.port := if_neg (Int.not_le.mpr h)
  have hname : srun.setting.hostname = srun.hostname := rfl
  unfold cannotContact
  rw [hport, hname]

theorem runnerTable_ne_nil (m : Machine) (ds : List Directive) : runnerTable m ds ≠ [] := by
  unfold runnerTable
  split
  · exact List.cons_ne_nil _ _
  · next hne =>
      rw [ne_eq, List.mapIdx_eq_nil_iff, List.map_eq_nil_iff]
      exact Placeholder.standing_ne_nil hne

/-- A text depends on the srun as it was configured only. -/
theorem shows_congr {apache : Apache} {page : Option Text} {srun srun' : Srun}
    {pathInfo args : Option (List Byte)} {answer : Answer}
    (h : cannotContact srun = cannotContact srun')
    (hshows : answer.Shows apache page srun pathInfo args) :
    answer.Shows apache page srun' pathInfo args := by
  unfold Answer.Shows at *
  rwa [← h]

section

variable {m : Machine} {ds : List Directive} {s : Settings} {start w : World}
  {turns : List Turn}

/-- In every state of a child, a request that Apache lets through is handled, and the plugin
answers it itself exactly if no runner can be reached. The browser then gets the error page
that the directives of the server choose, or a text that names their first runner. -/
theorem handleRequest_answers (h : configure m ds .start = .ok s) (hopens : start.Opens s)
    (hturns : start.Turns turns w) (hfits : ProbeFits (runnerTable m ds).length) (dial : Dial)
    {apache : Apache} (hsetup : apache.setupClientBlock = 0) (thread : ℕ)
    (recvs : List RecvResult) (sends : List SendResult) (sessionIndex : ℤ) (ip : List Byte)
    (t : UInt32) (rand : Int32) (junk : ℕ → Locals) (pathInfo : Option (List Byte)) (r : Request)
    (reply : Reply) :
    let handled := handleRequest dial apache s sessionIndex ip t rand junk pathInfo r reply
      (w.child thread recvs sends)
    handled.retval = 0 ∧
      (handled.answer ≠ none ↔ ∀ i < (runnerTable m ds).length,
        ¬ CanReach dial sessionIndex t i (w.config.srun i)) ∧
      ∀ answer ∈ handled.answer, answer.Shows apache (connectionPage m ds)
        ((runnerTable m ds).headD .zero).setting pathInfo r.args := by
  have hsettings := (settings_turns hturns).trans (hopens.settings h)
  have hsize : w.config.srunSize = (runnerTable m ds).length := by
    have hlength := congrArg List.length hsettings
    simpa [Config.settings] using hlength
  have hpos : 0 < w.config.srunSize := by
    rw [hsize]
    exact List.length_pos_iff.mpr (runnerTable_ne_nil m ds)
  set p := { w.child thread recvs sends with
    stream := (w.child thread recvs sends).stream.clear none } with hp
  have hconfig : p.config = w.config := rfl
  rw [← hsize, ← probeSize_eq hpos] at hfits
  have hnodup := @nodup_callOrder sessionIndex ip t rand p hfits
  have hmem := @mem_callOrder_iff sessionIndex ip t rand p hfits
  obtain ⟨q, hq, -, -, hcall⟩ := openConnection_eq dial sessionIndex ip t rand p
  have hopen : cseOpenConnection dial sessionIndex ip t rand (w.child thread recvs sends) =
      passes dial sessionIndex t (callOrder sessionIndex ip t rand p) q := hcall
  have hfails := @passes_false_iff dial sessionIndex t (callOrder sessionIndex ip t rand p) q hnodup
  rw [hq, hconfig] at hfails
  simp only [hmem, hconfig, probeSize_eq hpos, hsize] at hfails
  have hzero : 0 ∈ callOrder sessionIndex ip t rand p := by
    rw [hmem, hconfig, probeSize_eq hpos]
    exact hpos
  simp only [handleRequest, hsetup, ne_eq, not_true_eq_false, if_false, hopen]
  cases hfound : (passes dial sessionIndex t (callOrder sessionIndex ip t rand p) q).1 with
  | true =>
      rw [hfound] at hfails
      simp only [if_true]
      refine ⟨trivial, iff_of_false (by simp) fun hall => ?_, fun answer hanswer => ?_⟩
      · exact Bool.noConfusion (hfails.mpr hall)
      · cases hanswer
  | false =>
      simp only [Bool.false_eq_true, if_false]
      refine ⟨trivial, iff_of_true (Option.some_ne_none _) (hfails.mp hfound),
        fun answer hanswer => ?_⟩
      cases hanswer
      refine shows_congr ?_ (configure_page h ▸ connectionError_shows apache s _ pathInfo r.args)
      have hlt : 0 < q.config.srunList.length := q.config.capacity_pos
      rw [← cannotContact_setting (port_of_failed hnodup hfound hzero hlt), setting_passes, hq,
        hconfig]
      congr 1
      have hget := getElem_settings hpos
      rw [hsettings, List.getElem?_map] at hget
      obtain ⟨first, hfirst, hsetting⟩ := Option.map_eq_some_iff.mp hget
      rw [← hsetting]
      cases hall : runnerTable m ds with
      | nil => exact absurd hall (runnerTable_ne_nil m ds)
      | cons srun sruns =>
          rw [hall] at hfirst
          cases hfirst
          rfl

end

/-- Nothing can be reached, and the error page of the file is found. -/
theorem handleRequest_answers_small : ∃ turns w, smallWorld.Turns turns w ∧
    let handled := handleRequest unreachable ⟨0, fun _ => 200, fun _ => 0⟩ smallSettings (-1) [] 120
      0 zeroed none twoBlocks ⟨[], []⟩ (w.child 1 [] [])
    handled.retval = 0 ∧
      (handled.answer ≠ none ↔ ∀ i < (runnerTable smallMachine smallDirectives).length,
        ¬ CanReach unreachable (-1) 120 i (w.config.srun i)) ∧
      ∀ answer ∈ handled.answer, answer.Shows ⟨0, fun _ => 200, fun _ => 0⟩
        (connectionPage smallMachine smallDirectives)
        ((runnerTable smallMachine smallDirectives).headD .zero).setting none twoBlocks.args := by
  obtain ⟨turns, w, hturns, -⟩ := smallWorld_turns
  refine ⟨turns, w, hturns, handleRequest_answers smallSettings_configured smallWorld_opens hturns
    ?_ unreachable rfl 1 [] [] (-1) [] 120 0 zeroed none twoBlocks ⟨[], []⟩⟩
  rw [smallTable_length]
  decide

end ModCaucho

import ModCaucho.Handler.Answer
import ModCaucho.Handler.Visits

/-!
# The status page

`caucho_status` lists the runners of the table and the locations of the configuration. To
find out whether a runner is up it connects to it, and it does not say a word to it. A
connection that it made goes to the pool of the runner, or it is closed.

The page is told from the directives: it has a row for each configured runner, in their
order, and the locations that the files declare.
-/

namespace ModCaucho

/-! ## The rows -/

/-- A row of the table of runners. -/
structure RunnerRow where
  hostname : Text
  port : ℤ
  isBackup : Bool
  ok : Bool
  connectTimeout : ℤ
  liveTime : ℕ
  deadTime : ℕ
deriving DecidableEq, Repr

/-- The row of an srun. -/
def Srun.row (srun : Srun) (ok : Bool) : RunnerRow where
  hostname := srun.hostname.getD "localhost".toList
  port := srun.port
  isBackup := srun.isBackup
  ok := ok
  connectTimeout := srun.connectTimeout
  liveTime := srun.liveTime
  deadTime := srun.deadTime

def rightCell (n : ℤ) : Text := "<td align=right>".toList ++ printInt n ++ "</td>".toList

/-- The row as it is written. -/
def RunnerRow.text (row : RunnerRow) : Text :=
  "<tr>".toList ++
    (if row.ok then "<td bgcolor='#66ff66'>" else "<td bgcolor='#ff6666'>").toList ++
    row.hostname ++ ':' :: printInt row.port ++ (if row.isBackup then ['*'] else []) ++
    (if row.ok then " (ok)</td>" else " (down)</td>").toList ++
    rightCell row.connectTimeout ++ rightCell row.liveTime ++ rightCell row.deadTime ++
    "</tr>\n".toList

/-- A row of the table of locations. -/
structure LocationRow where
  host : Text
  pattern : Text
deriving DecidableEq, Repr

/-- The row of a location. -/
def Location.row (loc : Location) : LocationRow where
  host := if loc.host ≠ [] then loc.host else ['*']
  pattern := loc.locPrefix ++
    (if ¬ loc.isExact ∧ loc.locSuffix = none then ['/', '*']
      else if loc.locSuffix ≠ none ∧ loc.locPrefix ≠ [] then ['/'] else []) ++
    match loc.locSuffix with
    | some suffix => '*' :: suffix
    | none => []

def LocationRow.text (row : LocationRow) : Text :=
  "<tr bgcolor='#ffcc66'><td>".toList ++ row.host ++ "<td>".toList ++ row.pattern ++
    "</tr>\n".toList

structure StatusPage where
  runners : List RunnerRow
  locations : List LocationRow
deriving DecidableEq, Repr

/-- The page as it is written. -/
def StatusPage.text (page : StatusPage) : Text :=
  ("<html><title>Status : Caucho Servlet Engine</title>\n" ++
    "<body bgcolor=white>\n" ++
    "<h1>Status : Caucho Servlet Engine</h1>\n" ++
    "<center><table border=2 cellspacing=0 cellpadding=2 width='80%'>\n" ++
    "<center><table border=2 width='80%'>\n" ++
    "<tr><th>Host</th>\n" ++
    "    <th>Connect<br>Timeout</th>\n" ++
    "    <th>Live<br>Time</th>\n" ++
    "    <th>Dead<br>Time</th>\n" ++
    "</tr>\n").toList ++
    page.runners.flatMap RunnerRow.text ++
    ("</table></center>\n" ++
      "<p><center><table border=2 cellspacing=0 cellpadding=2 width='80%'>\n" ++
      "<tr><th width='50%'>Host\n" ++
      "    <th>url-pattern\n").toList ++
    page.locations.flatMap LocationRow.text ++
    "</table></center>\n</body></html>\n".toList

/-! ## The handler -/

/-- The loop of `jvm_status` over these sruns, with the rows that it writes. The port is
looked up before `cse_open`. -/
def jvmStatusRows (dial : Dial) : List ℕ → Child → List RunnerRow × Child
  | [], p => ([], p)
  | i :: sruns, p =>
      let srun := p.config.srun i
      let (ok, q) := cseOpen dial i true p
      let (rows, q) := jvmStatusRows dial sruns (cseRecycle q)
      (srun.row ok :: rows, q)

/-- What a status request comes to. -/
structure StatusReply where
  retval : ℤ
  contentType : Text
  page : Option StatusPage
  child : Child
deriving DecidableEq, Repr

/-- `caucho_status` -/
def cauchoStatus (dial : Dial) (headerOnly : Bool) (locations : List Location) (p : Child) :
    StatusReply :=
  if headerOnly then ⟨0, "text/html".toList, none, p⟩
  else
    let (rows, p) := jvmStatusRows dial (List.range p.config.srunSize) p
    ⟨0, "text/html".toList, some ⟨rows, locations.map Location.row⟩, p⟩

/-- The loop is the program that shares the table with the requests. -/
theorem jvmStatusRows_child (dial : Dial) (sruns : List ℕ) (p : Child) :
    (jvmStatusRows dial sruns p).2 = (statusProg sruns).alone dial p := by
  rw [alone_statusProg]
  induction sruns generalizing p with
  | nil => rfl
  | cons i sruns ih => exact ih _

/-! ## One runner -/

/-- The attempt has connected. -/
def ConnectResult.made : ConnectResult → Bool
  | connected _ => true
  | _ => false

/-- The pool of an srun that the page has connected to. `cse_open` leaves the stream with an
`update_count` of 0. -/
def Srun.pooledBy (updateCount : ℤ) (result : ConnectResult) (srun : Srun) : List ℕ :=
  match result with
  | .connected fd =>
      if updateCount = 0 ∧ srun.sockets.length < srun.maxSockets then fd :: srun.sockets
      else srun.sockets
  | _ => srun.sockets

/-- The entry of an srun that the page has connected to. -/
def Srun.pinged (updateCount : ℤ) (result : ConnectResult) (srun : Srun) : Srun :=
  { srun with
    port := if srun.port ≤ 0 then defaultPort else srun.port
    sockets := srun.pooledBy updateCount result }

theorem setting_pinged (updateCount : ℤ) (result : ConnectResult) (srun : Srun) :
    (srun.pinged updateCount result).setting = srun.setting := by
  by_cases h : srun.port ≤ 0
  · simp [Srun.setting, Srun.pinged, h, defaultPort]
  · simp [Srun.setting, Srun.pinged, h]

theorem srun_modifySrun_self {config : Config} {i : ℕ} (hi : i < config.srunList.length)
    (f : Srun → Srun) : (config.modifySrun i f).srun i = f (config.srun i) := by
  simp [Config.srun, List.getD_eq_getElem?_getD, hi]

theorem srun_modifySrun_of_ne (config : Config) {i j : ℕ} (h : j ≠ i) (f : Srun → Srun) :
    (config.modifySrun i f).srun j = config.srun j := by
  simp [Config.srun, List.getD_eq_getElem?_getD, Ne.symm h]

/-- What is assigned to an entry depends on that entry only. -/
theorem modifySrun_congr {config : Config} {i : ℕ} (hi : i < config.srunList.length)
    {f g : Srun → Srun} (h : f (config.srun i) = g (config.srun i)) :
    config.modifySrun i f = config.modifySrun i g := by
  have hlist : config.srunList.modify i f = config.srunList.modify i g := by
    refine List.ext_getElem? fun j => ?_
    rw [List.getElem?_modify, List.getElem?_modify]
    by_cases hj : i = j
    · subst hj
      have hentry : config.srun i = config.srunList[i] := by
        simp [Config.srun, List.getD_eq_getElem?_getD, hi]
      rw [hentry] at h
      simp [hi, h]
    · simp [hj]
  simp only [Config.modifySrun, hlist]

theorem modifySrun_modifySrun (config : Config) (i : ℕ) (f g : Srun → Srun) :
    (config.modifySrun i f).modifySrun i g = config.modifySrun i (g ∘ f) := by
  simp only [Config.modifySrun, List.modify_modify_eq]

/-- A child after rounds of `jvm_status`. Only the entries of these sruns have changed, and
nothing was sent or received. -/
structure Child.Pings (dial : Dial) (sruns : List ℕ) (p q : Child) : Prop where
  srun : ∀ j, q.config.srun j =
    if j ∈ sruns then (p.config.srun j).pinged p.config.updateCount (dial j true)
    else p.config.srun j
  size : q.config.srunSize = p.config.srunSize
  capacity : q.config.srunList.length = p.config.srunList.length
  updateCount : q.config.updateCount = p.config.updateCount
  recvs : q.os.recvs = p.os.recvs
  sent : ∀ fd, sentOn fd q.os.trace = sentOn fd p.os.trace

theorem connectSocket_sentOn (fd : ℤ) (result : ConnectResult) (os : Os) :
    sentOn fd (connectSocket result os).2.trace = sentOn fd os.trace := by
  cases result with
  | noSocket => rfl
  | connected socket => rfl
  | refused socket => simp [connectSocket, Os.close, sentOn]

/-- The srun that the page keeps a new connection for. -/
theorem storable_cseOpen (dial : Dial) {i : ℕ} {p : Child} (hi : i < p.config.srunList.length) :
    (cseOpen dial i true p).2.storable =
      if (dial i true).made = true ∧ p.config.updateCount = 0 ∧
        (p.config.srun i).sockets.length < (p.config.srun i).maxSockets then some i else none := by
  have hsocket : 0 ≤ (cseOpen dial i true p).2.stream.socket ↔ (dial i true).made = true := by
    have hnonneg := connectSocket_nonneg_iff (dial i true)
      { p.os with trace := p.os.trace ++ [.connect i true (dial i true)] }
    rw [cseOpen_eq]
    refine hnonneg.trans ?_
    cases dial i true <;> simp [ConnectResult.made]
  have hentry : ((cseOpen dial i true p).2.config.srun i).sockets = (p.config.srun i).sockets ∧
      ((cseOpen dial i true p).2.config.srun i).maxSockets = (p.config.srun i).maxSockets := by
    rw [cseOpen_eq]
    simp only [srun_modifySrun_self hi]
    split <;> exact ⟨rfl, rfl⟩
  have hstream : (cseOpen dial i true p).2.stream.srun = some i ∧
      (cseOpen dial i true p).2.stream.updateCount = 0 ∧
      (cseOpen dial i true p).2.config.updateCount = p.config.updateCount := by
    rw [cseOpen_eq]
    exact ⟨rfl, rfl, rfl⟩
  unfold Child.storable
  rw [hstream.1, Option.filter_some, hentry.1, hentry.2, hstream.2.1, hstream.2.2]
  simp only [hsocket, decide_eq_true_eq]

/-- The table after a round of `jvm_status`. -/
theorem config_round (dial : Dial) {i : ℕ} {p : Child} (hi : i < p.config.srunList.length) :
    (cseRecycle (cseOpen dial i true p).2).config =
      p.config.modifySrun i (Srun.pinged p.config.updateCount (dial i true)) := by
  have hopened : (cseOpen dial i true p).2.config = p.config.modifySrun i fun srun =>
      if srun.port ≤ 0 then { srun with port := defaultPort } else srun := by
    rw [cseOpen_eq]
  rw [cseRecycle_eq, storable_cseOpen dial hi]
  by_cases hkept : (dial i true).made = true ∧ p.config.updateCount = 0 ∧
      (p.config.srun i).sockets.length < (p.config.srun i).maxSockets
  · rw [if_pos hkept]
    obtain ⟨hmade, hroom⟩ := hkept
    cases hdial : dial i true with
    | noSocket => simp [hdial, ConnectResult.made] at hmade
    | refused socket => simp [hdial, ConnectResult.made] at hmade
    | connected fd =>
        have hsocket : (cseOpen dial i true p).2.stream.socket.toNat = fd := by
          rw [cseOpen_eq, hdial]
          rfl
        simp only [Child.stored, hopened, modifySrun_modifySrun, hsocket]
        refine modifySrun_congr hi ?_
        simp only [Function.comp_apply, Srun.pinged, Srun.pooledBy, if_pos hroom]
        split <;> rfl
  · rw [if_neg hkept]
    have hpool : (p.config.srun i).pooledBy p.config.updateCount (dial i true) =
        (p.config.srun i).sockets := by
      cases hdial : dial i true with
      | noSocket => rfl
      | refused socket => rfl
      | connected fd => exact if_neg fun hroom => hkept ⟨by rw [hdial]; rfl, hroom⟩
    refine hopened.trans (modifySrun_congr hi ?_)
    simp only [Srun.pinged, hpool]
    split <;> rfl

/-- A round of `jvm_status`. -/
theorem pings_round (dial : Dial) {i : ℕ} {p : Child} (hi : i < p.config.srunList.length) :
    p.Pings dial [i] (cseRecycle (cseOpen dial i true p).2) := by
  have hopen := undisturbed_cseOpen dial i true p
  have hblank : (cseOpen dial i true p).2.stream.writeBuf = [] := by
    rw [cseOpen_eq]
    rfl
  obtain ⟨hrecycle, -, hsent⟩ := cseRecycle_sent hblank
  have hconfig := config_round dial hi
  refine ⟨fun j => ?_, ?_, ?_, ?_, hrecycle.recvs.trans hopen.recvs, fun fd => ?_⟩
  · rw [hconfig]
    by_cases hj : j = i
    · rw [hj, srun_modifySrun_self hi, if_pos (List.mem_singleton_self i)]
    · rw [srun_modifySrun_of_ne _ hj, if_neg (by simpa using hj)]
  · rw [hconfig]
    rfl
  · rw [hconfig]
    exact List.length_modify ..
  · rw [hconfig]
    rfl
  · rw [hsent, cseOpen_eq, connectSocket_sentOn]
    simp [sentOn]

/-- The entries of other sruns, and the rounds that come later. -/
theorem Child.Pings.trans {dial : Dial} {i : ℕ} {sruns : List ℕ} {p q q' : Child}
    (hi : i ∉ sruns) (h : p.Pings dial [i] q) (h' : q.Pings dial sruns q') :
    p.Pings dial (i :: sruns) q' where
  srun j := by
    rw [h'.srun, h.srun, h.updateCount]
    by_cases hj : j = i
    · rw [hj]
      simp [hi]
    · simp [hj]
  size := h'.size.trans h.size
  capacity := h'.capacity.trans h.capacity
  updateCount := h'.updateCount.trans h.updateCount
  recvs := h'.recvs.trans h.recvs
  sent fd := (h'.sent fd).trans (h.sent fd)

/-- `jvm_status` shows each srun as it was when the page began, whatever the rounds before it
have done, and changes each in the same way. -/
theorem jvmStatusRows_eq (dial : Dial) {sruns : List ℕ} (hnodup : sruns.Nodup) {p : Child}
    (hlt : ∀ i ∈ sruns, i < p.config.srunList.length) :
    (jvmStatusRows dial sruns p).1 =
        sruns.map (fun i => (p.config.srun i).row (dial i true).made) ∧
      p.Pings dial sruns (jvmStatusRows dial sruns p).2 := by
  induction sruns generalizing p with
  | nil => exact ⟨rfl, fun j => by simp [jvmStatusRows], rfl, rfl, rfl, rfl, fun _ => rfl⟩
  | cons i sruns ih =>
      obtain ⟨hi, hnodup⟩ := List.nodup_cons.mp hnodup
      have hround := pings_round dial (hlt i (by simp))
      obtain ⟨hrows, hpings⟩ := ih hnodup fun j hj =>
        hround.capacity.symm ▸ hlt j (List.mem_cons_of_mem i hj)
      refine ⟨?_, hround.trans hi hpings⟩
      have hok : (cseOpen dial i true p).1 = (dial i true).made := by
        rw [Bool.eq_iff_iff, cseOpen_fst]
        cases dial i true <;> simp [ConnectResult.made]
      have hsame : ∀ j ∈ sruns, (cseRecycle (cseOpen dial i true p).2).config.srun j =
          p.config.srun j := by
        intro j hj
        rw [hround.srun, if_neg (by simpa using (ne_of_mem_of_not_mem hj hi))]
      simp only [jvmStatusRows, hrows, List.map_cons, hok]
      congr 1
      exact List.map_congr_left fun j hj => by rw [hsame j hj]

/-! ## Which port is shown -/

/-- The sruns that some thread has tried to connect to. -/
def attempted (turns : List Turn) : List ℕ :=
  turns.flatMap fun turn => (attemptsIn turn.2).map Prod.fst

theorem ported_port (srun : Srun) :
    srun.ported.port = if srun.port ≤ 0 then defaultPort else srun.port := by
  unfold Srun.ported
  split <;> rfl

/-- An attempt to connect fills in the port of its srun, and nothing else changes a port. -/
theorem port_exec (dial : Dial) (a : Act) {p : Child} {j : ℕ}
    (hj : j < p.config.srunList.length) :
    ((a.exec dial p).2.config.srun j).port =
      (if j ∈ a.attempt?.toList.map Prod.fst then (p.config.srun j).ported
        else p.config.srun j).port := by
  by_cases hdial : ∃ i wait, a = .dial i wait
  · obtain ⟨i, wait, rfl⟩ := hdial
    change ((cseOpen dial i wait p).2.config.srun j).port = _
    rw [cseOpen_eq]
    by_cases hij : j = i
    · subst hij
      rw [if_pos (by simp [Act.attempt?])]
      exact congrArg Srun.port (srun_modifySrun_self hj Srun.ported)
    · rw [if_neg (by simpa [Act.attempt?] using hij)]
      exact congrArg Srun.port (srun_modifySrun_of_ne p.config hij Srun.ported)
  · have hnone : a.attempt? = none := by
      cases a with
      | dial i wait => exact absurd ⟨i, wait, rfl⟩ hdial
      | _ => rfl
    rw [hnone, if_neg (by simp)]
    refine @part_exec _ Srun.port (fun _ _ _ _ => rfl) dial a p j fun attempt hsome => ?_
    rw [hnone] at hsome
    cases hsome

theorem port_step {w w' : World} {actor : Option ℕ} {made : List SysCall}
    (hstep : w.Step actor made w') {j : ℕ} (hj : j < w.config.srunList.length) :
    (w'.config.srun j).port =
      (if j ∈ (attemptsIn made).map Prod.fst then (w.config.srun j).ported
        else w.config.srun j).port := by
  cases hstep with
  | @act t a next dial recvs sends prog fresh =>
      rw [attemptsIn_exec dial a (show (w.child t recvs sends).os.trace = [] from rfl)]
      exact port_exec dial a hj
  | look prog => rfl
  | closeChild sends =>
      have hmade : attemptsIn (cseCloseChild (w.closing sends)).os.trace = [] :=
        attemptsIn_giveUpPools id _ (w.closing sends)
      rw [hmade, if_neg (by simp)]
      exact part_giveUpPools Srun.port (fun _ => rfl) _ (w.closing sends) j

/-- The port of a runner is the one that it had, or the default one if it had none and some
thread has tried to connect to it. -/
theorem port_turns {start w : World} {turns : List Turn} (h : start.Turns turns w) {j : ℕ}
    (hj : j < start.config.srunSize) :
    (w.config.srun j).port =
      (if j ∈ attempted turns then (start.config.srun j).ported
        else start.config.srun j).port := by
  induction h with
  | nil => rfl
  | @snoc w w' turns actor made h hstep ih =>
      have hsize : w.config.srunSize = start.config.srunSize := by
        have hlength := congrArg List.length (settings_turns h)
        simpa [Config.settings] using hlength
      have hlt : j < w.config.srunList.length := (hsize ▸ hj).trans_le w.config.size_le
      have hmem : j ∈ attempted (turns ++ [(actor, made)]) ↔
          j ∈ attempted turns ∨ j ∈ (attemptsIn made).map Prod.fst := by
        simp [attempted]
      rw [port_step hstep hlt]
      by_cases hbefore : j ∈ attempted turns
      · rw [if_pos hbefore, ported_port] at ih
        have hset : 0 < (w.config.srun j).port := by
          rw [ih]
          split
          · decide
          · omega
        rw [if_pos (hmem.mpr (Or.inl hbefore)), ported_port, ← ih]
        split
        · rw [ported_port, if_neg (by omega)]
        · rfl
      · rw [if_neg hbefore] at ih
        by_cases hnow : j ∈ (attemptsIn made).map Prod.fst
        · rw [if_pos hnow, if_pos (hmem.mpr (Or.inr hnow)), ported_port, ported_port, ih]
        · rw [if_neg hnow, if_neg fun hafter => (hmem.mp hafter).elim hbefore hnow, ih]

/-! ## The page of a configured server -/

/-- A row shows settings, and the port as it is. -/
theorem row_eq {srun srun' : Srun} (h : srun.setting = srun'.setting)
    (hport : srun.port = srun'.port) (ok : Bool) : srun.row ok = srun'.row ok := by
  have hshown (s : Srun) : s.row ok = { s.setting.row ok with port := s.port } := rfl
  rw [hshown srun, hshown srun', h, hport]

section

variable {m : Machine} {ds : List Directive} {s : Settings} {start w : World} {turns : List Turn}

/-- In every state that the threads of a child lead to, the status page has a row for each
runner that the directives ask for, in their order. It is marked as up exactly if it could be
connected to. A runner without a port is shown as it is until some thread has tried to connect
to it, and then with the default port. The other table has the locations that the files
declare. Nothing is sent or received, and only the pools of the runners that are up can grow,
by the new connection. -/
theorem cauchoStatus_page (h : configure m ds .start = .ok s) (hopens : start.Opens s)
    (hturns : start.Turns turns w) (dial : Dial) (t : ℕ) (recvs : List RecvResult)
    (sends : List SendResult) :
    ∃ page q, cauchoStatus dial false s.config.locations (w.child t recvs sends) =
        ⟨0, "text/html".toList, some page, q⟩ ∧
      page.runners = (runnerTable m ds).mapIdx (fun i srun =>
        (if i ∈ attempted turns then srun.ported else srun).row (dial i true).made) ∧
      (∀ row, row ∈ page.locations ↔ ∃ loc, Declared m ds loc ∧ loc.row = row) ∧
      q.config.settings = w.config.settings ∧
      (∀ i < (runnerTable m ds).length,
        q.config.pool i = (w.config.srun i).pooledBy w.config.updateCount (dial i true)) ∧
      q.os.recvs = recvs ∧ ∀ fd, sentOn fd q.os.trace = [] := by
  have hsettings := (settings_turns hturns).trans (hopens.settings h)
  have hsize : w.config.srunSize = (runnerTable m ds).length := by
    have hlength := congrArg List.length hsettings
    simpa [Config.settings] using hlength
  obtain ⟨hrows, hpings⟩ := jvmStatusRows_eq dial (List.nodup_range (n := w.config.srunSize))
    (p := w.child t recvs sends) fun i hi => (List.mem_range.mp hi).trans_le w.config.size_le
  rcases hloop : jvmStatusRows dial (List.range w.config.srunSize) (w.child t recvs sends)
    with ⟨rows, q⟩
  rw [hloop] at hrows hpings
  dsimp only at hrows hpings
  have hsrun : ∀ i < w.config.srunSize, q.config.srun i =
      (w.config.srun i).pinged w.config.updateCount (dial i true) := by
    intro i hi
    rw [hpings.srun, if_pos (List.mem_range.mpr hi)]
    rfl
  have hpage : cauchoStatus dial false s.config.locations (w.child t recvs sends) =
      ⟨0, "text/html".toList, some ⟨rows, s.config.locations.map Location.row⟩, q⟩ := by
    have hrows' : (jvmStatusRows dial (List.range w.config.srunSize) (w.child t recvs sends)).1 =
        rows := by rw [hloop]
    have hq : (jvmStatusRows dial (List.range w.config.srunSize) (w.child t recvs sends)).2 =
        q := by rw [hloop]
    rw [← hrows', ← hq]
    rfl
  refine ⟨_, q, hpage, ?_, fun row => ?_, ?_, fun i hi => ?_, hpings.recvs, hpings.sent⟩
  · refine List.ext_getElem (by simp [hrows, hsize]) fun i hi hi' => ?_
    have hlt : i < (runnerTable m ds).length := by simpa using hi'
    simp only [hrows, List.getElem_map, List.getElem_mapIdx, List.getElem_range]
    obtain ⟨hstart, hentry⟩ := hopens.entry h
    have hget := getElem_settings (hsize.symm ▸ hlt)
    rw [hsettings, List.getElem?_map, List.getElem?_eq_getElem hlt] at hget
    have hport := port_turns hturns (hstart.symm ▸ hlt)
    rw [hentry i hlt] at hport
    refine row_eq ((Option.some.inj hget).symm.trans ?_) (hport.trans ?_) _
    · split
      · exact (setting_ported _).symm
      · rfl
    · split
      · rw [ported_port, ported_port]
        rfl
      · rfl
  · simp only [List.mem_map, mem_locations_configured h]
  · unfold Config.settings
    rw [hpings.size]
    refine List.map_congr_left fun i hi => ?_
    rw [hsrun i (List.mem_range.mp hi), setting_pinged]
  · unfold Config.pool
    rw [hsrun i (hsize ▸ hi)]
    rfl

theorem cauchoStatus_page_small : ∃ turns w, smallWorld.Turns turns w ∧
    ∃ page q, cauchoStatus answering false smallSettings.config.locations (w.child 1 [] []) =
        ⟨0, "text/html".toList, some page, q⟩ ∧
      page.runners = (runnerTable smallMachine smallDirectives).mapIdx (fun i srun =>
        (if i ∈ attempted turns then srun.ported else srun).row (answering i true).made) ∧
      (∀ row, row ∈ page.locations ↔
        ∃ loc, Declared smallMachine smallDirectives loc ∧ loc.row = row) ∧
      q.config.settings = w.config.settings ∧
      (∀ i < (runnerTable smallMachine smallDirectives).length,
        q.config.pool i = (w.config.srun i).pooledBy w.config.updateCount (answering i true)) ∧
      q.os.recvs = [] ∧ ∀ fd, sentOn fd q.os.trace = [] := by
  obtain ⟨turns, w, h, -⟩ := smallWorld_turns
  exact ⟨turns, w, h,
    cauchoStatus_page smallSettings_configured smallWorld_opens h answering 1 [] []⟩

end

end ModCaucho

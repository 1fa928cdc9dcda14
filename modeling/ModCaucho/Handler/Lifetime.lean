import ModCaucho.Config.Configured
import ModCaucho.Handler.Effort

/-!
# A server and its child

From the directives of the server to what a child process works on, and through everything
that its threads do. The table of the child has the runners that the directives ask for,
with the settings that they are given, in every state: requests only change how an srun is
doing, and fill in a port that is missing.
-/

namespace ModCaucho

/-! ## A table that was never used -/

/-- The block of the table is there, and no entry of it has had a connection. -/
def SrunTable.Cold (t : SrunTable) : Prop :=
  0 < t.srunList.length ∧ ∀ srun ∈ t.srunList, srun.sockets = [] ∧ srun.maxSockets ≤ 32

theorem cold_cseCreateServerConfig : cseCreateServerConfig.Cold :=
  ⟨by decide, by decide⟩

theorem cold_room {t : SrunTable} (h : t.Cold) : t.dropDefault.resize.Cold := by
  have hdrop : t.dropDefault.srunList = t.srunList := by
    unfold SrunTable.dropDefault
    split <;> rfl
  unfold SrunTable.resize
  split
  · refine ⟨?_, fun srun hmem => ?_⟩
    · rw [List.length_append, hdrop]
      exact Nat.add_pos_left h.1 _
    · rcases List.mem_append.mp hmem with hold | hnew
      · exact h.2 srun (hdrop ▸ hold)
      · rw [List.eq_of_mem_replicate hnew]
        exact ⟨rfl, Nat.zero_le 32⟩
  · rw [SrunTable.Cold, hdrop]
    exact h

theorem cold_cseAddHostInt {t : SrunTable} (h : t.Cold) (call : HostCall) :
    (cseAddHostInt t call).2.Cold := by
  have hroom := cold_room h
  unfold cseAddHostInt
  simp only
  split
  · refine ⟨?_, fun srun hmem => ?_⟩
    · rw [List.length_set]
      exact hroom.1
    · rcases List.mem_or_eq_of_mem_set hmem with hold | rfl
      · exact hroom.2 srun hold
      · exact ⟨rfl, Nat.le_refl 32⟩
  · exact hroom

theorem cold_set {t : SrunTable} (h : t.Cold) (i : ℕ) (value : Option Text)
    {g : Text → Srun → Srun} (hg : ∀ v srun, (g v srun).sockets = srun.sockets ∧
      (g v srun).maxSockets = srun.maxSockets) : (t.set i value g).Cold := by
  cases value with
  | none => exact h
  | some v =>
      refine ⟨?_, fun srun hmem => ?_⟩
      · change 0 < (t.srunList.modify i (g v)).length
        rw [List.length_modify]
        exact h.1
      · obtain ⟨j, hj⟩ := List.mem_iff_getElem?.mp hmem
        change (t.srunList.modify i (g v))[j]? = some srun at hj
        rw [List.getElem?_modify] at hj
        obtain ⟨old, hold, rfl⟩ := Option.map_eq_some_iff.mp hj
        have hcold := h.2 old (List.mem_of_getElem? hold)
        split
        · rw [(hg v old).1, (hg v old).2]
          exact hcold
        · exact hcold

theorem cold_cseInitHostNode (hostent : Text → Option UInt32) {t : SrunTable} (h : t.Cold)
    (node : Registry) (isBackup isDefault : Bool) :
    (cseInitHostNode hostent t node isBackup isDefault).Cold := by
  have hadded := cold_cseAddHostInt h (nodeRunner hostent isBackup isDefault node).call
  rw [cseInitHostNode_eq]
  generalize cseAddHostInt t (nodeRunner hostent isBackup isDefault node).call = answer at hadded ⊢
  rcases answer with ⟨_ | i, t'⟩
  · exact hadded
  · unfold SrunTable.setTimes at *
    refine cold_set (cold_set (cold_set hadded i _ ?_) i _ ?_) i _ ?_
    all_goals exact fun _ _ => ⟨rfl, rfl⟩

theorem cold_foldl {α : Type} {f : SrunTable → α → SrunTable} (hf : ∀ t a, t.Cold → (f t a).Cold)
    (as : List α) {t : SrunTable} (h : t.Cold) : (as.foldl f t).Cold := by
  induction as generalizing t with
  | nil => exact h
  | cons a as ih => exact ih (hf t a h)

theorem cold_cseInitHosts (hostent : Text → Option UInt32) {t : SrunTable} (h : t.Cold)
    (top : Registry) : (cseInitHosts hostent t top).Cold := by
  have hsruns : ((linksTo "srun".toList top).foldl
      (fun t node => cseInitHostNode hostent t node.first false false) t).Cold :=
    cold_foldl (fun _ node ht => cold_cseInitHostNode hostent ht node.first false false) _ h
  have hbackups := cold_foldl
    (fun t (node : Registry) ht => @cold_cseInitHostNode hostent t ht node.first true false)
    (linksTo "srun-backup".toList top) hsruns
  unfold cseInitHosts
  simp only
  split
  · exact cold_cseInitHostNode hostent hbackups top false true
  · exact hbackups

theorem cold_apply (m : Machine) {s : Settings} (h : s.config.srunTable.Cold) (d : Directive) :
    (d.apply m s).config.srunTable.Cold := by
  cases d with
  | keepalive flag => exact h
  | errorPage page => exact h
  | host hostArg portArg => exact cold_cseAddHostInt h _
  | backup hostArg portArg => exact cold_cseAddHostInt h _
  | configFile value =>
      simp only [Directive.apply, loaded]
      split
      · exact h
      · exact cold_cseInitHosts m.hostent h _

theorem cold_configure {m : Machine} {ds : List Directive} {s : Settings}
    (h : configure m ds .start = .ok s) : s.config.srunTable.Cold := by
  obtain ⟨-, rfl⟩ := (configure_ok_iff m ds rfl).mp h
  have hfold : ∀ (ds : List Directive) {s : Settings}, s.config.srunTable.Cold →
      (ds.foldl (fun s d => d.apply m s) s).config.srunTable.Cold := by
    intro ds
    induction ds with
    | nil => exact fun h => h
    | cons d ds ih => exact fun h => ih (cold_apply m h d)
  exact hfold ds cold_cseCreateServerConfig

/-! ## What is configured of an srun -/

/-- What requests leave of an srun as it was configured. A port that is missing is filled in
by the first attempt to connect. -/
def Srun.setting (srun : Srun) : Srun :=
  { srun with
    sockets := [], isDead := false, lastTime := 0
    port := if srun.port ≤ 0 then defaultPort else srun.port }

/-- The settings of the table. -/
def Config.settings (config : Config) : List Srun :=
  (List.range config.srunSize).map fun i => (config.srun i).setting

theorem setting_ported (srun : Srun) : srun.ported.setting = srun.setting := by
  unfold Srun.ported
  split
  · next h => simp [Srun.setting, h, defaultPort]
  · rfl

/-- An action leaves of an srun what does not depend on its pool, on whether it is dead and on
when it was used, but for the port that an attempt to connect fills in. -/
theorem part_exec {α : Type} {part : Srun → α}
    (hpart : ∀ (srun : Srun) (sockets : List ℕ) (isDead : Bool) (lastTime : UInt32),
      part { srun with sockets := sockets, isDead := isDead, lastTime := lastTime } = part srun)
    (dial : Dial) {a : Act} (p : Child) (j : ℕ)
    (hdial : ∀ attempt, a.attempt? = some attempt → ∀ srun, part srun.ported = part srun) :
    part ((a.exec dial p).2.config.srun j) = part (p.config.srun j) := by
  have hsame {config : Config} {i : ℕ} {f : Srun → Srun} (hf : ∀ srun, f srun =
      { srun with
        sockets := (f srun).sockets, isDead := (f srun).isDead, lastTime := (f srun).lastTime }) :
      part ((config.modifySrun i f).srun j) = part (config.srun j) :=
    part_modifySrun part config i j fun srun => by rw [hf srun, hpart]
  cases a with
  | clear => rfl
  | op op => rfl
  | use i t => exact hsame fun _ => rfl
  | bury i t => exact hsame fun _ => rfl
  | dial i wait =>
      change part ((cseOpen dial i wait p).2.config.srun j) = _
      rw [cseOpen_eq]
      exact part_modifySrun part p.config i j (hdial (i, wait) rfl)
  | reuse i t =>
      have hsettle : part ((p.settle i t).config.srun j) = part (p.config.srun j) := by
        refine hsame fun srun => ?_
        unfold Srun.settle
        split <;> rfl
      change part ((cseReuseSocket i t p).2.config.srun j) = _
      by_cases hu : (p.config.srun i).Usable t
      · rw [cseReuseSocket_of_usable hu]
        refine Eq.trans (hsame ?_) hsettle
        exact fun _ => rfl
      · rw [cseReuseSocket_of_not_usable hu]
        simp only
        split
        · exact hsettle
        · refine Eq.trans (hsame ?_) hsettle
          exact fun _ => rfl
  | store =>
      simp only [Act.exec]
      split
      · exact hsame fun _ => rfl
      · rfl

theorem setting_exec (dial : Dial) (a : Act) (p : Child) (j : ℕ) :
    ((a.exec dial p).2.config.srun j).setting = (p.config.srun j).setting :=
  part_exec (fun _ _ _ _ => rfl) dial p j fun _ _ => setting_ported

theorem srunSize_exec (dial : Dial) (a : Act) (p : Child) :
    (a.exec dial p).2.config.srunSize = p.config.srunSize := by
  cases a with
  | clear => rfl
  | op op => rfl
  | use i t => rfl
  | bury i t => rfl
  | dial i wait =>
      change (cseOpen dial i wait p).2.config.srunSize = _
      rw [cseOpen_eq]
      rfl
  | reuse i t =>
      change (cseReuseSocket i t p).2.config.srunSize = _
      by_cases hu : (p.config.srun i).Usable t
      · rw [cseReuseSocket_of_usable hu]
        rfl
      · rw [cseReuseSocket_of_not_usable hu]
        simp only
        split <;> rfl
  | store =>
      simp only [Act.exec]
      split <;> rfl

theorem srunSize_giveUpPools (is : List ℕ) (p : Child) :
    (is.foldl (giveUpPool id) p).config.srunSize = p.config.srunSize := by
  induction is generalizing p with
  | nil => rfl
  | cons i is ih => exact ih _

theorem settings_congr {config config' : Config} (hsize : config'.srunSize = config.srunSize)
    (h : ∀ i, (config'.srun i).setting = (config.srun i).setting) :
    config'.settings = config.settings := by
  unfold Config.settings
  rw [hsize]
  exact List.map_congr_left fun i _ => h i

/-- No step changes what was configured. -/
theorem settings_step {w w' : World} {actor : Option ℕ} {made : List SysCall}
    (hstep : w.Step actor made w') : w'.config.settings = w.config.settings := by
  cases hstep with
  | @act t a next dial recvs sends prog fresh =>
      exact settings_congr (srunSize_exec dial a (w.child t recvs sends))
        (setting_exec dial a (w.child t recvs sends))
  | look prog => rfl
  | closeChild sends =>
      exact settings_congr (srunSize_giveUpPools _ (w.closing sends))
        (part_giveUpPools Srun.setting (fun _ => rfl) _ (w.closing sends))

theorem settings_turns {start w : World} {turns : List Turn} (h : start.Turns turns w) :
    w.config.settings = start.config.settings := by
  induction h with
  | nil => rfl
  | snoc _ hstep ih => exact (settings_step hstep).trans ih

/-! ## The child of a server -/

/-- What `cse_open_child` makes of an srun. -/
def Srun.opened (srun : Srun) : Srun :=
  { srun with sockets := [], maxSockets := 32, isDead := false, lastTime := 0 }

theorem openChild_srunList (p : Child) (j : ℕ) :
    (cseOpenChild p).config.srunList[j]? =
      if j < p.config.srunSize then p.config.srunList[j]?.map Srun.opened
      else p.config.srunList[j]? := by
  have hfold : ∀ (is : List ℕ) (p : Child), (is.foldl (fun p i =>
      { p with config := p.config.modifySrun i Srun.opened }) p).config.srunList[j]? =
      if j ∈ is then p.config.srunList[j]?.map Srun.opened else p.config.srunList[j]? := by
    intro is
    induction is with
    | nil => exact fun _ => rfl
    | cons i is ih =>
        intro p
        rw [List.foldl_cons, ih, srunList_modifySrun]
        by_cases hi : i = j
        · subst hi
          simp only [if_true, List.mem_cons_self, Option.map_map]
          split <;> rfl
        · simp only [if_neg hi, List.mem_cons, Ne.symm hi, false_or]
  have hrange := hfold (List.range p.config.srunSize) p
  simp only [List.mem_range] at hrange
  exact hrange

theorem openChild_srunSize (p : Child) :
    (cseOpenChild p).config.srunSize = p.config.srunSize := by
  have hfold : ∀ (is : List ℕ) (p : Child), (is.foldl (fun p i =>
      { p with config := p.config.modifySrun i Srun.opened }) p).config.srunSize =
      p.config.srunSize := by
    intro is
    induction is with
    | nil => exact fun _ => rfl
    | cons i is ih => exact fun p => ih _
  exact hfold _ p

/-- A child of the server has started. Its table is a copy of the server's, some jobs are
waiting, and nothing is open. -/
structure World.Opens (s : Settings) (w : World) : Prop where
  table : ∃ (p : Child) (updateCount : ℤ) (hpos : 0 < s.config.srunTable.srunList.length)
    (hlt : s.config.srunTable.srunSize < 2 ^ 31),
    p.config = s.config.srunTable.config updateCount hpos hlt ∧ w.config = (cseOpenChild p).config
  opened : w.opened = []
  streams : ∀ t, (w.streams t).socket = -1
  progs : ∀ t, w.progs t = .done ∨ ∃ job : Job, w.progs t = job.prog

theorem setting_opened {srun : Srun} (h : srun.maxSockets = 32) :
    srun.opened.setting = srun.setting := by
  cases srun
  cases h
  rfl

/-- The session of a runner is its place in the table. -/
theorem session_runnerTable {m : Machine} {ds : List Directive} {i : ℕ} {srun : Srun}
    (h : (runnerTable m ds)[i]? = some srun) : srun.session = i := by
  unfold runnerTable at h
  split at h
  · cases i with
    | zero => cases h; rfl
    | succ i => cases h
  · rw [List.getElem?_mapIdx, List.getElem?_map, Option.map_map] at h
    obtain ⟨r, -, rfl⟩ := Option.map_eq_some_iff.mp h
    rfl

/-- The runners have room for 32 sockets each. -/
theorem maxSockets_runnerTable {m : Machine} {ds : List Directive} {srun : Srun}
    (h : srun ∈ runnerTable m ds) : srun.maxSockets = 32 := by
  have hentry : ∀ (index : ℕ) (x : Listed), (x.entry index).maxSockets = 32 := by
    intro index x
    cases x <;> rfl
  unfold runnerTable at h
  split at h
  · rw [List.mem_singleton.mp h]
    exact hentry 0 _
  · obtain ⟨index, -, rfl⟩ := List.mem_mapIdx.mp h
    exact hentry index _

section

variable {m : Machine} {ds : List Directive} {s : Settings} {start : World}

theorem World.Opens.fresh (hopens : start.Opens s) (h : configure m ds .start = .ok s) :
    start.Fresh := by
  refine ⟨hopens.opened, ?_, hopens.streams, hopens.progs⟩
  obtain ⟨p, updateCount, hpos, hlt, hp, hstart⟩ := hopens.table
  rw [hstart]
  refine openChild_pools p fun srun hmem => ?_
  rw [hp] at hmem
  obtain ⟨hsockets, hmax⟩ := (cold_configure h).2 srun (List.mem_of_mem_drop hmem)
  exact ⟨hsockets, by omega⟩

/-- The child starts with the runners that the directives ask for. -/
theorem World.Opens.entry (hopens : start.Opens s) (h : configure m ds .start = .ok s) :
    start.config.srunSize = (runnerTable m ds).length ∧
      ∀ i (hi : i < (runnerTable m ds).length),
        start.config.srun i = ((runnerTable m ds)[i]).opened := by
  obtain ⟨p, updateCount, hpos, hlt, hp, hstart⟩ := hopens.table
  have hentries := entries_configured h
  have hsize : p.config.srunSize = (runnerTable m ds).length := by
    rw [← hentries, length_entries, hp]
    rfl
  rw [hstart, openChild_srunSize]
  refine ⟨hsize, fun i hi => ?_⟩
  have hget : p.config.srunList[i]? = some (runnerTable m ds)[i] := by
    have htake : (s.config.srunTable.entries)[i]? = some (runnerTable m ds)[i] := by
      rw [hentries]
      exact List.getElem?_eq_getElem hi
    rw [SrunTable.entries, List.getElem?_take_of_lt] at htake
    · rw [hp]
      exact htake
    · rw [← length_entries, hentries]
      exact hi
  rw [Config.srun, List.getD_eq_getElem?_getD, openChild_srunList, hsize, if_pos hi, hget]
  rfl

theorem World.Opens.settings (hopens : start.Opens s) (h : configure m ds .start = .ok s) :
    start.config.settings = (runnerTable m ds).map Srun.setting := by
  obtain ⟨hsize, hentry⟩ := hopens.entry h
  refine List.ext_getElem (by simp [Config.settings, hsize]) fun i hi hi' => ?_
  have hlt : i < (runnerTable m ds).length := by simpa using hi'
  simp only [Config.settings, List.getElem_map, List.getElem_range, hentry i hlt]
  exact setting_opened (maxSockets_runnerTable (List.getElem_mem hlt))

theorem World.Turns.reachable {w : World} {turns : List Turn} (h : start.Turns turns w)
    (hstart : start.Reachable) : w.Reachable := by
  induction h with
  | nil => exact hstart
  | snoc _ hstep ih => exact .step ih hstep

theorem getElem_settings {config : Config} {i : ℕ} (hi : i < config.srunSize) :
    config.settings[i]? = some (config.srun i).setting := by
  simp [Config.settings, hi]

/-- In every state that the threads of a child lead to, its table is that of the server: it
has the runners that the directives ask for, in their order and with their settings. The
session of each is its place in the table, and at most 32 of its connections are kept. -/
theorem child_table (h : configure m ds .start = .ok s) (hopens : start.Opens s) {w : World}
    {turns : List Turn} (hturns : start.Turns turns w) :
    w.config.settings = (runnerTable m ds).map Srun.setting ∧
      ∀ i < (runnerTable m ds).length,
        (w.config.srun i).session = i ∧ (w.config.pool i).length ≤ 32 := by
  have hsettings := (settings_turns hturns).trans (hopens.settings h)
  have hinv := inv_reachable (hturns.reachable (.fresh (hopens.fresh h)))
  refine ⟨hsettings, fun i hi => ?_⟩
  have hsize : i < w.config.srunSize := by
    have hlength := congrArg List.length hsettings
    simp only [Config.settings, List.length_map, List.length_range] at hlength
    omega
  have hsrun : (w.config.srun i).setting = ((runnerTable m ds)[i]).setting := by
    have hget := getElem_settings hsize
    rw [hsettings, List.getElem?_map, List.getElem?_eq_getElem hi] at hget
    exact (Option.some.inj hget).symm
  constructor
  · have hsession := congrArg Srun.session hsrun
    change (w.config.srun i).session = ((runnerTable m ds)[i]).session at hsession
    exact hsession.trans (session_runnerTable (List.getElem?_eq_getElem hi))
  · have hmax := congrArg Srun.maxSockets hsrun
    change (w.config.srun i).maxSockets = ((runnerTable m ds)[i]).maxSockets at hmax
    rw [maxSockets_runnerTable (List.getElem_mem hi)] at hmax
    have hbounds := (hinv.bounds i).1
    rwa [hmax] at hbounds

end

/-! ## The child of a small server -/

theorem smallTable_length : (runnerTable smallMachine smallDirectives).length = 1 := by
  decide +kernel

theorem smallSettings_size : smallSettings.config.srunTable.srunSize < 2 ^ 31 := by
  rw [← length_entries, entries_configured smallSettings_configured, smallTable_length]
  exact one_lt_sizes

/-- A child with one job. -/
def World.opening (config : Config) (job : Job) : World where
  config := (cseOpenChild
    { config := config, stream := ⟨none, 0, -1, [], 0, 0, []⟩, os := ⟨[], [], [], []⟩
      gCount := 0 }).config
  streams := fun _ => ⟨none, 0, -1, [], 0, 0, []⟩
  progs := fun t => if t = 0 then job.prog else .done
  opened := []

theorem World.opens_opening {s : Settings} (updateCount : ℤ)
    (hpos : 0 < s.config.srunTable.srunList.length)
    (hlt : s.config.srunTable.srunSize < 2 ^ 31) (job : Job) :
    (World.opening (s.config.srunTable.config updateCount hpos hlt) job).Opens s where
  table := ⟨_, updateCount, hpos, hlt, rfl, rfl⟩
  opened := rfl
  streams := fun _ => rfl
  progs := by
    intro t
    by_cases ht : t = 0
    · exact Or.inr ⟨job, if_pos ht⟩
    · exact Or.inl (if_neg ht)

/-- The child has one request to handle. -/
def smallWorld : World :=
  .opening (smallSettings.config.srunTable.config 0 (cold_configure smallSettings_configured).1
    smallSettings_size) (.request 0 100 [0] [] true)

theorem smallWorld_opens : smallWorld.Opens smallSettings := World.opens_opening _ _ _ _

/-- The request has cleared its stream. -/
theorem smallWorld_turns : ∃ turns w, smallWorld.Turns turns w ∧ turns.length = 1 :=
  ⟨_, _, .snoc .nil (@World.Step.act smallWorld 0 .clear _ unreachable [] [] rfl
    fun _ hcall => absurd hcall List.not_mem_nil), rfl⟩

theorem child_table_small : ∃ turns w, smallWorld.Turns turns w ∧
    w.config.settings = (runnerTable smallMachine smallDirectives).map Srun.setting ∧
      ∀ i < (runnerTable smallMachine smallDirectives).length,
        (w.config.srun i).session = i ∧ (w.config.pool i).length ≤ 32 := by
  obtain ⟨turns, w, h, -⟩ := smallWorld_turns
  exact ⟨turns, w, h, child_table smallSettings_configured smallWorld_opens h⟩

end ModCaucho

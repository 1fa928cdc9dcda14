import ModCaucho.Config.Init
import ModCaucho.Lib.Placeholder

/-!
# The runners of a configuration

What is in the table of runners after any number of additions, in closed form. The
built-in runner and a default one are placeholders, in the sense of `Placeholder`: they
give way when they stand alone. So the table lists the runners that have an address, in
the order in which they were added, from the first one on that is not a default.
-/

namespace ModCaucho

open CString LinkedForest Placeholder

/-- A runner that the configuration asks for, with the times that it is given. -/
structure Runner where
  call : HostCall
  connectTimeout : ℤ
  liveTime : ℕ
  deadTime : ℕ

/-- The runner of a directive. -/
def HostCall.runner (call : HostCall) : Runner := ⟨call, 2, 10, 120⟩

/-- What can stand in the table. -/
inductive Listed
  | builtIn
  | runner (r : Runner) (host : UInt32)

/-- The entry at an index of the table. -/
def Listed.entry (index : ℕ) : Listed → Srun
  | builtIn => { Srun.zero with port := defaultPort, maxSockets := 32 }
  | runner r host =>
      { r.call.entry host index with
        connectTimeout := r.connectTimeout, liveTime := r.liveTime, deadTime := r.deadTime }

/-- The placeholders. -/
def Listed.isStopgap : Listed → Bool
  | builtIn => true
  | runner r _ => r.call.isDefault

/-- The runner as it is listed, if its host has an address. -/
def Runner.listed (r : Runner) : Option Listed := r.call.hostent.map fun host => .runner r host

/-- The table consists of these runners, and nothing in it has been in use. -/
structure SrunTable.Lists (t : SrunTable) (xs : List Listed) : Prop where
  unused : Unused t
  entries : t.entries = xs.mapIdx Listed.entry

/-- One table comes of the other by the addition of these runners, and no error is recorded
exactly if each of them has an address. -/
structure Builds (rs : List Runner) (t t' : SrunTable) : Prop where
  lists : ∀ xs, t.Lists xs →
    t'.Lists ((rs.map Runner.listed).foldl (enroll Listed.isStopgap) xs)
  error : t'.error = none ↔ t.error = none ∧ ∀ r ∈ rs, r.call.hostent ≠ none

theorem Builds.refl (t : SrunTable) : Builds [] t t := ⟨fun _ h => h, by simp⟩

theorem Builds.trans {rs rs' : List Runner} {t t' t'' : SrunTable} (h : Builds rs t t')
    (h' : Builds rs' t' t'') : Builds (rs ++ rs') t t'' := by
  refine ⟨fun xs hxs => ?_, ?_⟩
  · rw [List.map_append, List.foldl_append]
    exact h'.lists _ (h.lists _ hxs)
  · rw [h'.error, h.error, and_assoc, List.forall_mem_append]

theorem builds_foldl {α : Type} {f : SrunTable → α → SrunTable} {runner : α → Runner}
    (hf : ∀ t a, Builds [runner a] t (f t a)) (as : List α) (t : SrunTable) :
    Builds (as.map runner) t (as.foldl f t) := by
  induction as generalizing t with
  | nil => exact .refl t
  | cons a as ih => exact (hf t a).trans (ih (f t a))

/-! ## One runner -/

/-- What gives way in the table gives way in the list. -/
theorem keptEntries_mapIdx (xs : List Listed) :
    keptEntries (xs.mapIdx Listed.entry) = (kept Listed.isStopgap xs).mapIdx Listed.entry := by
  rcases xs with _ | ⟨x, _ | ⟨y, xs⟩⟩
  · rfl
  · cases x with
    | builtIn => rfl
    | runner r host =>
        have hsingle : Replaceable ([Listed.runner r host].mapIdx Listed.entry) ↔
            r.call.isDefault = true := by
          simp [Replaceable, Listed.entry, HostCall.entry]
        by_cases h : r.call.isDefault = true
        · rw [keptEntries, if_pos (hsingle.mpr h), kept_weak (a := Listed.runner r host) h]
          rfl
        · rw [keptEntries, if_neg (fun h' => h (hsingle.mp h')),
            kept_strong (a := Listed.runner r host) (Bool.eq_false_iff.mpr h)]
  · rw [keptEntries, if_neg (by simp [Replaceable, List.mapIdx_cons]), kept]
    simp

theorem lists_cseCreateServerConfig : cseCreateServerConfig.Lists [.builtIn] :=
  ⟨unused_cseCreateServerConfig, rfl⟩

theorem SrunTable.Lists.room {t : SrunTable} {xs : List Listed} (h : t.Lists xs) :
    keptEntries t.entries = (kept Listed.isStopgap xs).mapIdx Listed.entry := by
  rw [h.entries, keptEntries_mapIdx]

theorem error_cseAddHostInt (t : SrunTable) (call : HostCall) :
    (cseAddHostInt t call).2.error = none ↔ t.error = none ∧ call.hostent ≠ none := by
  cases hhost : call.hostent with
  | none => simp [cseAddHostInt, hhost]
  | some host => simp [cseAddHostInt, hhost, error_room]

/-- A runner that a directive asks for. -/
theorem builds_cseAddHostInt (t : SrunTable) (call : HostCall) :
    Builds [call.runner] t (cseAddHostInt t call).2 := by
  refine ⟨fun xs h => ?_, ?_⟩
  · rw [List.map_cons, List.map_nil, List.foldl_cons, List.foldl_nil, enroll]
    cases hhost : call.hostent with
    | none =>
        obtain ⟨-, hentries, hunused⟩ := cseAddHostInt_none t hhost
        refine ⟨hunused h.unused, ?_⟩
        simp [hentries, h.room, Runner.listed, HostCall.runner, hhost]
    | some host =>
        obtain ⟨-, hentries, -, -, hunused⟩ := cseAddHostInt_some h.unused hhost
        refine ⟨hunused, ?_⟩
        rw [hentries, h.room, List.length_mapIdx]
        simp only [Runner.listed, HostCall.runner, hhost, Option.map_some, Option.toList_some,
          List.mapIdx_concat]
        rfl
  · rw [error_cseAddHostInt, List.forall_mem_singleton]
    rfl

/-! ## The node of a runner -/

theorem entries_modify (t : SrunTable) (i : ℕ) (f : Srun → Srun) :
    (t.modify i f).entries = t.entries.modify i f := List.take_modify f i t.srunSize t.srunList

theorem modify_concat {α : Type*} (f : α → α) (as : List α) (a : α) :
    (as ++ [a]).modify as.length f = as ++ [f a] := by
  induction as with
  | nil => rfl
  | cons b as ih => rw [List.cons_append, List.length_cons, List.modify_succ_cons, ih]; rfl

theorem unused_modify {t : SrunTable} (h : Unused t) (i : ℕ) {f : Srun → Srun}
    (hf : ∀ srun, (f srun).isDead = srun.isDead ∧ (f srun).lastTime = srun.lastTime) :
    Unused (t.modify i f) := by
  intro srun hmem
  obtain ⟨j, hj⟩ := List.mem_iff_getElem?.mp hmem
  rw [SrunTable.modify, List.getElem?_modify] at hj
  obtain ⟨old, hold, rfl⟩ := Option.map_eq_some_iff.mp hj
  have hunused := h old (List.mem_of_getElem? hold)
  split
  · rw [(hf old).1, (hf old).2]
    exact hunused
  · exact hunused

/-- The port that a node asks for. -/
def portOf (node : Registry) : ℤ :=
  match node.text? with
  | some value => atoi (ascii value)
  | none => 6802

/-- A setting of a runner, by the names that count for it. -/
def settingNode (node : Registry) (isDefault : Bool) (name other : String) : Registry :=
  if cseNextLink node name.toList = .nil ∧ ¬ isDefault then cseNextLink node other.toList
  else cseNextLink node name.toList

/-- The runner that a node asks for. -/
def nodeRunner (hostent : Text → Option UInt32) (isBackup isDefault : Bool) (node : Registry) :
    Runner :=
  let host := (settingNode node isDefault "srun-host" "host").text?.getD "localhost".toList
  { call := ⟨host, portOf (settingNode node isDefault "srun-port" "port"), isBackup, isDefault,
      hostent host⟩
    connectTimeout := ((cseNextLink node "connect-timeout".toList).text?.map fun value =>
      atoi (ascii value)).getD 2
    liveTime := ((cseNextLink node "live-time".toList).text?.map atLeastFive).getD 10
    deadTime := ((cseNextLink node "dead-time".toList).text?.map atLeastFive).getD 120 }

/-- One setting of the runner that was added last. -/
def SrunTable.set (t : SrunTable) (i : ℕ) (value : Option Text) (g : Text → Srun → Srun) :
    SrunTable :=
  match value with
  | some v => t.modify i (g v)
  | none => t

/-- The setting reaches the last runner of the table only. -/
theorem set_last {t : SrunTable} {as : List Srun} {a : Srun} (hunused : Unused t)
    (hentries : t.entries = as ++ [a]) (value : Option Text) {g : Text → Srun → Srun}
    (hg : ∀ v srun, (g v srun).isDead = srun.isDead ∧ (g v srun).lastTime = srun.lastTime) :
    Unused (t.set as.length value g) ∧
      (t.set as.length value g).entries = as ++ [(value.map fun v => g v a).getD a] := by
  cases value with
  | none => exact ⟨hunused, hentries⟩
  | some v =>
      refine ⟨unused_modify hunused _ (hg v), ?_⟩
      rw [SrunTable.set, entries_modify, hentries, modify_concat]
      rfl

theorem error_set (t : SrunTable) (i : ℕ) (value : Option Text) (g : Text → Srun → Srun) :
    (t.set i value g).error = t.error := by
  cases value <;> rfl

/-- The three settings of `cse_init_host_node`. -/
def SrunTable.setTimes (t : SrunTable) (i : ℕ) (node : Registry) : SrunTable :=
  ((t.set i (cseNextLink node "connect-timeout".toList).text? fun value srun =>
      { srun with connectTimeout := atoi (ascii value) }).set i
    (cseNextLink node "live-time".toList).text? fun value srun =>
      { srun with liveTime := atLeastFive value }).set i
    (cseNextLink node "dead-time".toList).text? fun value srun =>
      { srun with deadTime := atLeastFive value }

theorem cseInitHostNode_eq (hostent : Text → Option UInt32) (isBackup isDefault : Bool)
    (t : SrunTable) (node : Registry) :
    cseInitHostNode hostent t node isBackup isDefault =
      match cseAddHostInt t (nodeRunner hostent isBackup isDefault node).call with
      | (none, t) => t
      | (some i, t) => t.setTimes i node := rfl

theorem builds_cseInitHostNode (hostent : Text → Option UInt32) (isBackup isDefault : Bool)
    (t : SrunTable) (node : Registry) :
    Builds [nodeRunner hostent isBackup isDefault node] t
      (cseInitHostNode hostent t node isBackup isDefault) := by
  have hadded := builds_cseAddHostInt t (nodeRunner hostent isBackup isDefault node).call
  set call := (nodeRunner hostent isBackup isDefault node).call with hcall
  rw [cseInitHostNode_eq, ← hcall, ← Prod.mk.eta (p := cseAddHostInt t call)]
  cases hhost : call.hostent with
  | none =>
      -- nothing was added, and the times are not looked at
      rw [(cseAddHostInt_none t hhost).1]
      refine ⟨fun xs h => ?_, by simpa [HostCall.runner, ← hcall] using hadded.error⟩
      simpa [Runner.listed, HostCall.runner, ← hcall, hhost] using hadded.lists xs h
  | some host =>
      refine ⟨fun xs h => ?_, ?_⟩
      · obtain ⟨hreturned, hentries, -, -, hunused⟩ := cseAddHostInt_some h.unused hhost
        rw [hreturned]
        obtain ⟨hunused₁, hentries₁⟩ := set_last hunused hentries
          (cseNextLink node "connect-timeout".toList).text?
          (g := fun value srun => { srun with connectTimeout := atoi (ascii value) })
          fun _ _ => ⟨rfl, rfl⟩
        obtain ⟨hunused₂, hentries₂⟩ := set_last hunused₁ hentries₁
          (cseNextLink node "live-time".toList).text?
          (g := fun value srun => { srun with liveTime := atLeastFive value })
          fun _ _ => ⟨rfl, rfl⟩
        obtain ⟨hunused₃, hentries₃⟩ := set_last hunused₂ hentries₂
          (cseNextLink node "dead-time".toList).text?
          (g := fun value srun => { srun with deadTime := atLeastFive value })
          fun _ _ => ⟨rfl, rfl⟩
        refine ⟨hunused₃, hentries₃.trans ?_⟩
        rw [List.map_cons, List.map_nil, List.foldl_cons, List.foldl_nil, enroll, h.room,
          List.length_mapIdx]
        simp only [Runner.listed, ← hcall, hhost, Option.map_some, Option.toList_some,
          List.mapIdx_concat, List.append_cancel_left_eq, List.cons.injEq, and_true]
        simp only [Listed.entry, hcall, nodeRunner]
        generalize (cseNextLink node "connect-timeout".toList).text? = connectTimeout
        generalize (cseNextLink node "live-time".toList).text? = liveTime
        generalize (cseNextLink node "dead-time".toList).text? = deadTime
        cases connectTimeout <;> cases liveTime <;> cases deadTime <;> rfl
      · have hreturned : (cseAddHostInt t call).1 = some t.dropDefault.resize.srunSize := by
          simp only [cseAddHostInt, hhost]
        rw [hreturned]
        simp only [SrunTable.setTimes, error_set]
        simpa [HostCall.runner, ← hcall] using hadded.error

/-! ## The runners of a block -/

/-- The runners that an `http-server` block asks for: the primaries, then the backups, or
the default one. -/
def serverRunners (hostent : Text → Option UInt32) (top : Registry) : List Runner :=
  let sruns := linksTo "srun".toList top
  let backups := linksTo "srun-backup".toList top
  sruns.map (fun node => nodeRunner hostent false false node.first) ++
    backups.map (fun node => nodeRunner hostent true false node.first) ++
    if sruns = [] ∧ backups = [] then [nodeRunner hostent false true top] else []

theorem builds_cseInitHosts (hostent : Text → Option UInt32) (t : SrunTable) (top : Registry) :
    Builds (serverRunners hostent top) t (cseInitHosts hostent t top) := by
  have hsruns := builds_foldl
    (fun t (node : Registry) => builds_cseInitHostNode hostent false false t node.first)
    (linksTo "srun".toList top) t
  have hbackups := builds_foldl
    (fun t (node : Registry) => builds_cseInitHostNode hostent true false t node.first)
    (linksTo "srun-backup".toList top)
  refine (hsruns.trans (hbackups _)).trans ?_
  unfold cseInitHosts
  simp only
  split
  · exact builds_cseInitHostNode hostent false true _ top
  · exact .refl _

/-! ## The whole table -/

/-- The runners that are left when all of these were added: those from the first one on
that is not a default, or the last one if each is a default. -/
def standingRunners (rs : List Runner) : List Runner := standing (fun r => r.call.isDefault) rs

/-- A runner that has an address, as it is listed. -/
def Runner.found (r : Runner) : Listed := .runner r (r.call.hostent.getD 0)

theorem listed_found {r : Runner} (h : r.call.hostent ≠ none) : r.listed = some r.found := by
  obtain ⟨host, hhost⟩ := Option.ne_none_iff_exists'.mp h
  simp [Runner.listed, Runner.found, hhost]

/-- The table that starts with the built-in runner, when all of these were added to it. -/
theorem Builds.entries {rs : List Runner} {t : SrunTable} (h : Builds rs cseCreateServerConfig t)
    (hfound : ∀ r ∈ rs, r.call.hostent ≠ none) (hne : rs ≠ []) :
    t.entries = ((standingRunners rs).map Runner.found).mapIdx Listed.entry := by
  have hlisted : rs.map Runner.listed = (rs.map Runner.found).map some := by
    rw [List.map_map]
    exact List.map_congr_left fun r hr => listed_found (hfound r hr)
  have hsettled : ((rs.map Runner.found).map some).foldl (enroll Listed.isStopgap) [.builtIn] =
      settled Listed.isStopgap ((rs.map Runner.found).map some) := by
    cases rs with
    | nil => exact absurd rfl hne
    | cons r rs => exact foldl_enroll_cons (kept_weak (a := Listed.builtIn) rfl) _ _
  have hlists := (h.lists _ lists_cseCreateServerConfig).entries
  rw [hlists, hlisted, hsettled, settled_map_some, standing_map]
  rfl

end ModCaucho

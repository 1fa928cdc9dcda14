import ModCaucho.Stream.Open
import Mathlib.Data.List.GetD

/-!
# The table of runners

`cse_add_host_int` adds one runner to the table `srun_list`. It first forgets a table that
consists of the built-in runner or of a default one, then makes room, and only then asks
for the address of the host. When there is none the table has already been forgotten:
it is left without any runner, although nothing was added to it.
-/

namespace ModCaucho

/-- The part of `config_t` that runners are added to. `srunList` is the whole block behind
`srun_list`, so its length is `srun_capacity`. -/
structure SrunTable where
  srunList : List Srun
  srunSize : ℕ
  error : Option Text
  size_le : srunSize ≤ srunList.length

/-- The arguments of a call of `cse_add_host_int`, and the address that `gethostbyname` has
for the host. -/
structure HostCall where
  hostname : Text
  port : ℤ
  isBackup : Bool
  isDefault : Bool
  hostent : Option UInt32

namespace SrunTable

/-- `srun_capacity` -/
def srunCapacity (t : SrunTable) : ℕ := t.srunList.length

/-- The runners of the table. -/
def entries (t : SrunTable) : List Srun := t.srunList.take t.srunSize

/-- The start of `cse_add_host_int`: the built-in runner and a default one give way. -/
def dropDefault (t : SrunTable) : SrunTable :=
  if t.srunSize = 1 ∧
      ((t.srunList.headD Srun.zero).isDefault = true ∨
        (t.srunList.headD Srun.zero).host = none) then
    { t with srunSize := 0, size_le := Nat.zero_le _ }
  else t

/-- `cse_add_host_int` makes room for one more runner. -/
def resize (t : SrunTable) : SrunTable :=
  if t.srunSize ≥ t.srunCapacity then
    let capacity := if t.srunCapacity = 0 then 4 else t.srunCapacity
    { t with
      srunList := t.srunList ++ List.replicate (2 * capacity - t.srunCapacity) Srun.zero
      size_le := by
        rw [List.length_append]
        exact Nat.le_add_right_of_le t.size_le }
  else t

theorem resize_lt (t : SrunTable) : t.resize.srunSize < t.resize.srunList.length := by
  unfold resize
  split
  · have hle := t.size_le
    have hcapacity : t.srunCapacity = t.srunList.length := rfl
    simp only [List.length_append, List.length_replicate]
    by_cases hzero : t.srunCapacity = 0
    · rw [if_pos hzero]
      omega
    · rw [if_neg hzero]
      omega
  · next h => exact Nat.not_le.mp h

end SrunTable

/-- What `cse_add_host_int` writes in the slot `index` of the block. -/
def HostCall.write (call : HostCall) (host : UInt32) (index : ℕ) (slot : Srun) : Srun :=
  { slot with
    hostname := some call.hostname
    host := some host
    port := call.port
    isBackup := call.isBackup
    sockets := []
    maxSockets := 32
    isDefault := call.isDefault && index == 0
    connectTimeout := 2
    liveTime := 10
    deadTime := 120
    session := index }

/-- `cse_add_host_int`, with the index of the runner that it returns. -/
def cseAddHostInt (t : SrunTable) (call : HostCall) : Option ℕ × SrunTable :=
  let u := t.dropDefault.resize
  match call.hostent with
  | some host =>
      let slot := u.srunList.getD u.srunSize Srun.zero
      (some u.srunSize,
        { u with
          srunList := u.srunList.set u.srunSize (call.write host u.srunSize slot)
          srunSize := u.srunSize + 1
          size_le := by
            rw [List.length_set]
            exact SrunTable.resize_lt _ })
  | none =>
      (none, { u with error := some ("CSE cannot find host ".toList ++ call.hostname ++ ['\n']) })

/-- `cse_create_server_config`: room for sixteen runners, and the built-in one without an
address. -/
def cseCreateServerConfig : SrunTable where
  srunList := { Srun.zero with port := defaultPort, maxSockets := 32 } ::
    List.replicate 15 Srun.zero
  srunSize := 1
  error := none
  size_le := by decide

/-- The table after the calls. -/
def addHosts (t : SrunTable) (calls : List HostCall) : SrunTable :=
  calls.foldl (fun t call => (cseAddHostInt t call).2) t

/-! ## What a call should do -/

/-- The table consists of the built-in runner or of a default one. -/
def Replaceable : List Srun → Prop
  | [srun] => srun.isDefault = true ∨ srun.host = none
  | _ => False

instance (entries : List Srun) : Decidable (Replaceable entries) :=
  match entries with
  | [] => inferInstanceAs (Decidable False)
  | [srun] => inferInstanceAs (Decidable (srun.isDefault = true ∨ srun.host = none))
  | _ :: _ :: _ => inferInstanceAs (Decidable False)

/-- The runners that the next one is added to. -/
def keptEntries (entries : List Srun) : List Srun := if Replaceable entries then [] else entries

/-- The runner of a call at its place in the table. -/
def HostCall.entry (call : HostCall) (host : UInt32) (index : ℕ) : Srun where
  hostname := some call.hostname
  host := some host
  port := call.port
  isBackup := call.isBackup
  session := index
  isDead := false
  lastTime := 0
  sockets := []
  maxSockets := 32
  isDefault := call.isDefault && index == 0
  connectTimeout := 2
  liveTime := 10
  deadTime := 120

/-- The runners after a call: one more if the host has an address, else the same. -/
def addedTo (entries : List Srun) (call : HostCall) : List Srun :=
  match call.hostent with
  | some host => keptEntries entries ++ [call.entry host (keptEntries entries).length]
  | none => entries

/-- The call adds its runner, or fails and leaves everything but the error alone. -/
structure AddsHost (t : SrunTable) (call : HostCall) (result : Option ℕ × SrunTable) : Prop where
  entries : result.2.entries = addedTo t.entries call
  size_le : result.2.srunSize ≤ result.2.srunCapacity
  returned : ∀ i ∈ result.1, i + 1 = result.2.srunSize ∧ i < result.2.srunCapacity
  isSome : result.1.isSome ↔ call.hostent.isSome
  error : call.hostent.isSome → result.2.error = t.error

/-- Every call of the sequence does, from the configuration that the server starts with. -/
def BuildsTable (calls : List HostCall) : Prop :=
  ∀ before call behind, calls = before ++ call :: behind →
    AddsHost (addHosts cseCreateServerConfig before) call
      (cseAddHostInt (addHosts cseCreateServerConfig before) call)

/-- No host without an address is added while the table consists of the built-in runner or
of a default one. -/
def NeverForgets (calls : List HostCall) : Prop :=
  ∀ before call behind, calls = before ++ call :: behind → call.hostent = none →
    ¬ Replaceable (addHosts cseCreateServerConfig before).entries

/-! ## One call -/

theorem entries_dropDefault (t : SrunTable) : t.dropDefault.entries = keptEntries t.entries := by
  unfold SrunTable.dropDefault keptEntries
  have hle := t.size_le
  by_cases hone : t.srunSize = 1
  · obtain ⟨srun, rest, hlist⟩ : ∃ srun rest, t.srunList = srun :: rest := by
      cases hlist : t.srunList with
      | nil => rw [hlist, hone] at hle; exact absurd hle (by decide)
      | cons srun rest => exact ⟨srun, rest, rfl⟩
    have hentries : t.entries = [srun] := by
      rw [SrunTable.entries, hlist, hone]
      rfl
    simp only [hone, hlist, hentries, List.headD_cons, Replaceable, true_and]
    split
    · rfl
    · exact hentries
  · have hnot : ¬ Replaceable t.entries := by
      intro h
      have hlen : t.entries.length = t.srunSize := List.length_take_of_le hle
      rcases hentries : t.entries with _ | ⟨srun, _ | ⟨srun', rest⟩⟩
      · rw [hentries] at h
        exact h
      · rw [hentries] at hlen
        exact hone hlen.symm
      · rw [hentries] at h
        exact h
    simp only [hone, false_and, if_false, if_neg hnot]

theorem entries_resize (t : SrunTable) : t.resize.entries = t.entries := by
  unfold SrunTable.resize SrunTable.entries
  split
  · exact List.take_append_of_le_length t.size_le
  · rfl

theorem entries_room (t : SrunTable) :
    t.dropDefault.resize.entries = keptEntries t.entries := by
  rw [entries_resize, entries_dropDefault]

theorem length_entries (t : SrunTable) : t.entries.length = t.srunSize :=
  List.length_take_of_le t.size_le

theorem error_room (t : SrunTable) : t.dropDefault.resize.error = t.error := by
  have hresize (u : SrunTable) : u.resize.error = u.error := by
    unfold SrunTable.resize
    split <;> rfl
  rw [hresize]
  unfold SrunTable.dropDefault
  split <;> rfl

/-- No entry of the block has been in use. -/
def Unused (t : SrunTable) : Prop := ∀ srun ∈ t.srunList, srun.isDead = false ∧ srun.lastTime = 0

theorem unused_room {t : SrunTable} (h : Unused t) : Unused t.dropDefault.resize := by
  have hdrop : Unused t.dropDefault := by
    unfold SrunTable.dropDefault
    split
    · exact h
    · exact h
  unfold SrunTable.resize
  split
  · intro srun hmem
    rcases List.mem_append.mp hmem with hmem | hmem
    · exact hdrop srun hmem
    · rw [(List.mem_replicate.mp hmem).2]
      exact ⟨rfl, rfl⟩
  · exact hdrop

theorem unused_cseCreateServerConfig : Unused cseCreateServerConfig := by
  unfold Unused
  decide

theorem take_set_succ {α : Type*} {l : List α} {n : ℕ} (x : α) (h : n < l.length) :
    (l.set n x).take (n + 1) = l.take n ++ [x] := by
  rw [List.take_add_one, List.take_set_of_le (Nat.le_refl n),
    List.getElem?_set_self h, Option.toList_some]

/-- The slot that the runner is written to has not been in use, so that all its fields are
those of the call. -/
theorem write_slot {t : SrunTable} (hunused : Unused t) (call : HostCall) (host : UInt32) :
    call.write host t.dropDefault.resize.srunSize
        (t.dropDefault.resize.srunList.getD t.dropDefault.resize.srunSize Srun.zero) =
      call.entry host t.dropDefault.resize.srunSize := by
  have hlt := t.dropDefault.resize_lt
  obtain ⟨hdead, htime⟩ := unused_room hunused _ (List.getElem_mem hlt)
  rw [List.getD_eq_getElem _ _ hlt, HostCall.write, HostCall.entry, hdead, htime]

theorem cseAddHostInt_some {t : SrunTable} (hunused : Unused t) {call : HostCall} {host : UInt32}
    (hhost : call.hostent = some host) :
    (cseAddHostInt t call).1 = some (keptEntries t.entries).length ∧
      (cseAddHostInt t call).2.entries =
        keptEntries t.entries ++ [call.entry host (keptEntries t.entries).length] ∧
      (cseAddHostInt t call).2.srunSize = (keptEntries t.entries).length + 1 ∧
      (cseAddHostInt t call).2.error = t.error ∧ Unused (cseAddHostInt t call).2 := by
  have hsize : t.dropDefault.resize.srunSize = (keptEntries t.entries).length := by
    rw [← length_entries, entries_room]
  simp only [cseAddHostInt, hhost, write_slot hunused]
  refine ⟨by rw [hsize], ?_, by rw [hsize], error_room t, ?_⟩
  · rw [← hsize, ← entries_room]
    exact take_set_succ _ (SrunTable.resize_lt _)
  · intro srun hmem
    rcases List.mem_or_eq_of_mem_set hmem with hmem | rfl
    · exact unused_room hunused srun hmem
    · exact ⟨rfl, rfl⟩

theorem cseAddHostInt_none (t : SrunTable) {call : HostCall} (hhost : call.hostent = none) :
    (cseAddHostInt t call).1 = none ∧
      (cseAddHostInt t call).2.entries = keptEntries t.entries ∧
      (Unused t → Unused (cseAddHostInt t call).2) := by
  simp only [cseAddHostInt, hhost]
  exact ⟨trivial, entries_room t, unused_room⟩

/-- A call does what it should if and only if it finds the host or the table is kept. -/
theorem addsHost_iff {t : SrunTable} (hunused : Unused t) (call : HostCall) :
    AddsHost t call (cseAddHostInt t call) ↔
      (call.hostent = none → ¬ Replaceable t.entries) := by
  have hbound := (cseAddHostInt t call).2.size_le
  cases hhost : call.hostent with
  | some host =>
      refine iff_of_true ?_ (fun h => by cases h)
      obtain ⟨hreturned, hentries, hsize, herror, -⟩ := cseAddHostInt_some hunused hhost
      refine ⟨?_, hbound, ?_, ?_, fun _ => herror⟩
      · rw [hentries, addedTo, hhost]
      · intro i hi
        rw [hreturned, Option.mem_some_iff] at hi
        rw [hsize] at hbound
        rw [hsize, ← hi]
        exact ⟨rfl, hbound⟩
      · rw [hreturned, hhost]
        rfl
  | none =>
      obtain ⟨hreturned, hentries, -⟩ := cseAddHostInt_none t hhost
      constructor
      · intro hadds _ hreplaceable
        have hsame := hadds.entries
        simp only [hentries, addedTo, hhost, keptEntries, if_pos hreplaceable] at hsame
        rw [← hsame] at hreplaceable
        exact hreplaceable
      · intro hkeeps
        refine ⟨?_, hbound, ?_, ?_, ?_⟩
        · rw [hentries, addedTo, hhost, keptEntries, if_neg (hkeeps rfl)]
        · intro i hi
          rw [hreturned] at hi
          cases hi
        · simp [hreturned, hhost]
        · intro hsome
          rw [hhost] at hsome
          cases hsome

/-! ## All calls -/

theorem unused_addHosts {t : SrunTable} (calls : List HostCall) (h : Unused t) :
    Unused (addHosts t calls) := by
  induction calls generalizing t with
  | nil => exact h
  | cons call calls ih =>
      refine ih ?_
      cases hhost : call.hostent with
      | some host => exact (cseAddHostInt_some h hhost).2.2.2.2
      | none => exact (cseAddHostInt_none t hhost).2.2 h

/-- The table is built as its calls say if and only if no host without an address is added
while it consists of the built-in runner or of a default one. -/
theorem buildsTable_iff (calls : List HostCall) : BuildsTable calls ↔ NeverForgets calls := by
  have hone (before : List HostCall) (call : HostCall) :=
    addsHost_iff (unused_addHosts before unused_cseCreateServerConfig) call
  constructor
  · intro hbuilds before call behind hcalls
    exact (hone before call).mp (hbuilds before call behind hcalls)
  · intro hforgets before call behind hcalls
    exact (hone before call).mpr (hforgets before call behind hcalls)

/-- Each runner of the table has its own place as session. -/
def SrunTable.Numbered (t : SrunTable) : Prop :=
  t.entries.map (·.session) = List.range t.entries.length

theorem numbered_keptEntries {t : SrunTable} (h : t.Numbered) :
    (keptEntries t.entries).map (·.session) = List.range (keptEntries t.entries).length := by
  unfold keptEntries
  split
  · rfl
  · exact h

/-- Whether or not a host is found, the runners stay numbered in the order of the table. -/
theorem numbered_addHosts {t : SrunTable} (calls : List HostCall) (hunused : Unused t)
    (h : t.Numbered) : (addHosts t calls).Numbered := by
  induction calls generalizing t with
  | nil => exact h
  | cons call calls ih =>
      have hkept := numbered_keptEntries h
      cases hhost : call.hostent with
      | some host =>
          obtain ⟨-, hentries, -, -, hunused'⟩ := cseAddHostInt_some hunused hhost
          refine ih hunused' ?_
          rw [SrunTable.Numbered, hentries, List.map_append, hkept, List.length_append]
          exact List.range_succ.symm
      | none =>
          obtain ⟨-, hentries, hunused'⟩ := cseAddHostInt_none t hhost
          refine ih (hunused' hunused) ?_
          rw [SrunTable.Numbered, hentries, hkept]

/-- The configuration that requests are balanced with. -/
def SrunTable.config (t : SrunTable) (updateCount : ℤ) (hpos : 0 < t.srunList.length)
    (hlt : t.srunSize < 2 ^ 31) : Config :=
  ⟨t.srunList, t.srunSize, updateCount, hpos, t.size_le, hlt⟩

/-- No two runners of a configuration have one session. -/
theorem session_config (calls : List HostCall) (updateCount : ℤ)
    (hpos : 0 < (addHosts cseCreateServerConfig calls).srunList.length)
    (hlt : (addHosts cseCreateServerConfig calls).srunSize < 2 ^ 31) {i : ℕ}
    (hi : i < (addHosts cseCreateServerConfig calls).srunSize) :
    (((addHosts cseCreateServerConfig calls).config updateCount hpos hlt).srun i).session = i := by
  have hnumbered := numbered_addHosts calls unused_cseCreateServerConfig rfl
  rw [SrunTable.Numbered, length_entries] at hnumbered
  have hi' : i < (addHosts cseCreateServerConfig calls).srunList.length :=
    Nat.lt_of_lt_of_le hi (addHosts cseCreateServerConfig calls).size_le
  have hget := congrArg (·[i]?) hnumbered
  simp only [List.getElem?_map, List.getElem?_range hi, SrunTable.entries,
    List.getElem?_take_of_lt hi, List.getElem?_eq_getElem hi', Option.map_some,
    Option.some.injEq] at hget
  rw [Config.srun, SrunTable.config, List.getD_eq_getElem _ _ hi']
  exact hget

/-- A host that has no address is the first one to be added. -/
theorem not_buildsTable_unknown : ¬ ∀ calls : List HostCall, BuildsTable calls := by
  intro hclaim
  let call : HostCall := ⟨"unknown".toList, defaultPort, false, false, none⟩
  have hadds := hclaim [call] [] call [] rfl
  have hkept := (addsHost_iff unused_cseCreateServerConfig call).mp hadds rfl
  exact hkept (Or.inr rfl)

end ModCaucho

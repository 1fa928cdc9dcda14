import ModCaucho.Balance.Passes
import ModCaucho.Balance.Probe

/-!
# Affinity, fail-over and backups

What `open_connection` guarantees about the srun it chooses. The owner of the
session is tried before anything else. A request is given up only after a
blocking connect to every srun has failed. Backups stand back for the primaries
in requests without a session; with a session they take part in the second pass
in probe order, like everything else.
-/

namespace ModCaucho

open Scan

/-! ## One call in three passes -/

section Passes

variable {dial : Dial} {sessionIndex : ℤ} {t : UInt32} {order : List ℕ} {p : Child}

/-- The first pass, where there is one. -/
def firstPass (sessionIndex : ℤ) (t : UInt32) (order : List ℕ) (p : Child) : Bool × Child :=
  if sessionIndex < 0 then scan (tryReuse t) order p else (false, p)

/-- What the first pass leaves of the view of an srun. -/
def rejectFirst (sessionIndex : ℤ) (t : UInt32) (v : SrunView) : SrunView :=
  if sessionIndex < 0 then rejectReuse t v else v

/-- The second pass, on what the first one left. -/
def secondPass (dial : Dial) (sessionIndex : ℤ) (t : UInt32) (order : List ℕ) (p : Child) :
    Bool × Child :=
  scan (tryLive dial sessionIndex t) order (firstPass sessionIndex t order p).2

theorem passes_of_first (h : (firstPass sessionIndex t order p).1 = true) :
    passes dial sessionIndex t order p = (true, (firstPass sessionIndex t order p).2) :=
  if_pos h

theorem passes_of_second (h₁ : (firstPass sessionIndex t order p).1 = false)
    (h₂ : (secondPass dial sessionIndex t order p).1 = true) :
    passes dial sessionIndex t order p =
      (true, (secondPass dial sessionIndex t order p).2) :=
  (if_neg (by simp [firstPass] at h₁ ⊢; exact h₁)).trans (if_pos h₂)

theorem passes_of_third (h₁ : (firstPass sessionIndex t order p).1 = false)
    (h₂ : (secondPass dial sessionIndex t order p).1 = false) :
    passes dial sessionIndex t order p =
      scan (tryAny dial t) order (secondPass dial sessionIndex t order p).2 :=
  (if_neg (by simp [firstPass] at h₁ ⊢; exact h₁)).trans
    (if_neg (by simp [secondPass, firstPass] at h₂ ⊢; exact h₂))

/-- What every step of a call preserves, the three passes preserve. -/
theorem passes_induction {P : Child → Prop}
    (hreuse : ∀ i q, P q → P (cseReuseSocket i t q).2)
    (hopen : ∀ i wait q, P q → P (cseOpen dial i wait q).2)
    (huse : ∀ i q, P q → P (q.use i t)) (hbury : ∀ i q, P q → P (q.bury i t)) (h : P p) :
    P (passes dial sessionIndex t order p).2 := by
  have htryReuse (i : ℕ) (q : Child) (hq : P q) : P (tryReuse t i q).2 := by
    unfold tryReuse
    split
    · exact hq
    · exact hreuse i q hq
  have htryLive (i : ℕ) (q : Child) (hq : P q) : P (tryLive dial sessionIndex t i q).2 := by
    by_cases hs : Skipped sessionIndex (q.config.srun i)
    · rw [tryLive_of_skipped hs]
      exact hq
    · rw [tryLive_of_not_skipped hs]
      split
      · exact hreuse i q hq
      · split
        · exact hreuse i q hq
        · split
          · exact huse i _ (hopen i false _ (hreuse i q hq))
          · exact hopen i false _ (hreuse i q hq)
  have htryAny (i : ℕ) (q : Child) (hq : P q) : P (tryAny dial t i q).2 := by
    rw [tryAny_eq]
    split
    · exact hreuse i q hq
    · split
      · exact huse i _ (hopen i true _ (hreuse i q hq))
      · exact hbury i _ (hopen i true _ (hreuse i q hq))
  have hfirst : P (firstPass sessionIndex t order p).2 := by
    unfold firstPass
    split
    · exact scan_induction (fun i _ q hq => htryReuse i q hq) h
    · exact h
  have hsecond : P (secondPass dial sessionIndex t order p).2 :=
    scan_induction (fun i _ q hq => htryLive i q hq) hfirst
  cases h₁ : (firstPass sessionIndex t order p).1 with
  | true =>
      rw [passes_of_first h₁]
      exact hfirst
  | false =>
      cases h₂ : (secondPass dial sessionIndex t order p).1 with
      | true =>
          rw [passes_of_second h₁ h₂]
          exact hsecond
      | false =>
          rw [passes_of_third h₁ h₂]
          exact scan_induction (fun i _ q hq => htryAny i q hq) hsecond

theorem firstPass_view (hnodup : order.Nodup) (h₁ : (firstPass sessionIndex t order p).1 = false)
    {i : ℕ} (hi : i ∈ order) :
    (firstPass sessionIndex t order p).2.view i = rejectFirst sessionIndex t (p.view i) := by
  unfold firstPass rejectFirst at *
  split
  · next hs =>
      rw [if_pos hs] at h₁
      exact (tryReuse_local t).scan_rejects hnodup h₁ hi
  · rfl

theorem secondPass_view (hnodup : order.Nodup)
    (h₁ : (firstPass sessionIndex t order p).1 = false)
    (h₂ : (secondPass dial sessionIndex t order p).1 = false) {i : ℕ} (hi : i ∈ order) :
    (secondPass dial sessionIndex t order p).2.view i =
      rejectLive dial sessionIndex t i (rejectFirst sessionIndex t (p.view i)) := by
  rw [← firstPass_view hnodup h₁ hi]
  exact (tryLive_local dial sessionIndex t).scan_rejects hnodup h₂ hi

theorem wanes_first (sessionIndex : ℤ) (t : UInt32) (v : SrunView) :
    Wanes v (rejectFirst sessionIndex t v) := by
  unfold rejectFirst
  split
  · exact wanes_reuse t v
  · exact Wanes.refl v

/-- A successful call connects the stream to one srun of the probe order. -/
theorem passes_serves (hnodup : order.Nodup)
    (h : (passes dial sessionIndex t order p).1 = true) :
    ∃ i ∈ order, Serves t i p (passes dial sessionIndex t order p).2 := by
  cases h₁ : (firstPass sessionIndex t order p).1 with
  | true =>
      rw [passes_of_first h₁]
      unfold firstPass at h₁ ⊢
      split at h₁
      · next hs =>
          obtain ⟨pre, i, post, rfl, -, hacc, -, hview, hfinal⟩ :=
            (tryReuse_local t).scan_true hnodup h₁
          rw [if_pos hs, hfinal]
          refine ⟨i, by simp, (tryReuse_serves ?_).of_wanes (hview ▸ Wanes.refl _)⟩
          rw [(tryReuse_local t).decides, hview]
          exact hacc
      · cases h₁
  | false =>
      cases h₂ : (secondPass dial sessionIndex t order p).1 with
      | true =>
          obtain ⟨pre, i, post, rfl, -, hacc, -, hview, hfinal⟩ :=
            (tryLive_local dial sessionIndex t).scan_true hnodup h₂
          rw [passes_of_second h₁ h₂, secondPass, hfinal]
          refine ⟨i, by simp, (tryLive_serves ?_).of_wanes ?_⟩
          · rw [(tryLive_local dial sessionIndex t).decides, hview]
            exact hacc
          · rw [hview, firstPass_view hnodup h₁ (by simp)]
            exact wanes_first _ _ _
      | false =>
          rw [passes_of_third h₁ h₂] at h ⊢
          obtain ⟨pre, i, post, rfl, -, hacc, -, hview, hfinal⟩ :=
            (tryAny_local dial t).scan_true hnodup h
          rw [hfinal]
          refine ⟨i, by simp, (tryAny_serves ?_).of_wanes ?_⟩
          · rw [(tryAny_local dial t).decides, hview]
            exact hacc
          · rw [hview, secondPass_view hnodup h₁ h₂ (by simp)]
            exact (wanes_first _ _ _).trans (wanes_live _ _ _ _ _)

/-- After a call that failed, every srun of the probe order was rejected by all
three passes, the last of which attempted a blocking connect to it. -/
theorem passes_rejects (hnodup : order.Nodup)
    (h : (passes dial sessionIndex t order p).1 = false) {i : ℕ} (hi : i ∈ order) :
    (passes dial sessionIndex t order p).2.view i =
        rejectAny dial t i
          (rejectLive dial sessionIndex t i (rejectFirst sessionIndex t (p.view i))) ∧
      ∀ fd, dial i true ≠ .connected fd := by
  cases h₁ : (firstPass sessionIndex t order p).1 with
  | true =>
      rw [passes_of_first h₁] at h
      cases h
  | false =>
      cases h₂ : (secondPass dial sessionIndex t order p).1 with
      | true =>
          rw [passes_of_second h₁ h₂] at h
          cases h
      | false =>
          rw [passes_of_third h₁ h₂] at h ⊢
          have hreject := (tryAny_local dial t).scan_rejects hnodup h hi
          have hall := ((tryAny_local dial t).scan_false_iff hnodup _).mp h i hi
          rw [hreject, secondPass_view hnodup h₁ h₂ hi]
          exact ⟨rfl, fun fd hfd => hall (Or.inr ⟨fd, hfd⟩)⟩

end Passes

/-! ## The call as a whole -/

/-- The indices that a call goes through, in order. -/
def callOrder (sessionIndex : ℤ) (ip : List Byte) (t : UInt32) (rand : Int32) (p : Child) :
    List ℕ :=
  probeOrder (startHost p.config.probeSize sessionIndex ip t rand p).1 p.config.probeSize

theorem probeSize_pos (config : Config) : 0 < config.probeSize := by
  unfold Config.probeSize
  split <;> omega

theorem probeSize_lt (config : Config) : config.probeSize < 2 ^ 31 := by
  have := config.size_lt
  unfold Config.probeSize
  split <;> omega

theorem probeSize_eq {config : Config} (h : 0 < config.srunSize) :
    config.probeSize = config.srunSize :=
  if_neg (by omega)

theorem srunSize_le_probeSize (config : Config) : config.srunSize ≤ config.probeSize := by
  unfold Config.probeSize
  split <;> omega

section Call

variable (dial : Dial) (sessionIndex : ℤ) (ip : List Byte) (t : UInt32) (rand : Int32)
  (p : Child)

/-- A call runs the three passes over its probe order, on a child with the same
table and the same trace. -/
theorem openConnection_eq :
    ∃ q : Child, q.config = p.config ∧ q.conn = p.conn ∧ (∀ i, q.view i = p.view i) ∧
      openConnection dial sessionIndex ip t rand p =
        passes dial sessionIndex t (callOrder sessionIndex ip t rand p) q := by
  obtain ⟨g, hg⟩ := startHost_snd p.config.probeSize sessionIndex ip t rand p
  refine ⟨{ p with gCount := g }, rfl, rfl, fun _ => rfl, ?_⟩
  rw [← hg]
  rfl

variable {p}

theorem nodup_callOrder (hfits : ProbeFits p.config.probeSize) :
    (callOrder sessionIndex ip t rand p).Nodup := by
  obtain ⟨hlow, hhigh⟩ := startHost_bounds (probeSize_pos p.config) (probeSize_lt p.config)
    sessionIndex ip t rand p
  exact nodup_probeOrder (probeSize_pos p.config) hfits hlow hhigh

theorem mem_callOrder_iff (hfits : ProbeFits p.config.probeSize) (i : ℕ) :
    i ∈ callOrder sessionIndex ip t rand p ↔ i < p.config.probeSize := by
  obtain ⟨hlow, hhigh⟩ := startHost_bounds (probeSize_pos p.config) (probeSize_lt p.config)
    sessionIndex ip t rand p
  exact mem_probeOrder_iff (probeSize_pos p.config) hfits hlow hhigh

end Call

/-- The attempts to connect to an srun that were made between two states. -/
def madeAttempts (p p' : Child) (i : ℕ) : List (Bool × ConnectResult) :=
  (attempts i p'.os.trace).drop (attempts i p.os.trace).length

theorem madeAttempts_eq {p p' : Child} {i : ℕ} {made : List (Bool × ConnectResult)}
    (h : (p'.view i).2 = (p.view i).2 ++ made) : madeAttempts p p' i = made := by
  simp only [Child.view] at h
  rw [madeAttempts, h, List.drop_left]

/-! ## Fail-over -/

/-- What a call that returns 0 has tried and what it leaves behind: on every srun a
blocking connect, as the last attempt of all, that failed; the srun is dead as of
now and its pool is empty. -/
def GaveUp (t : UInt32) (p p' : Child) : Prop :=
  ∀ i < p.config.srunSize,
    (∃ earlier result, madeAttempts p p' i = earlier ++ [(true, result)] ∧
      (∀ attempt ∈ earlier, attempt.1 = false) ∧ ∀ fd, result ≠ .connected fd) ∧
    (p'.config.srun i).isDead = true ∧ (p'.config.srun i).lastTime = t ∧
    (p'.config.srun i).sockets = []

/-- What a call that returns 1 has found: a socket from the pool of one srun, or
from an attempt to connect to it, and this srun is the one in the stream, alive
and used now. -/
def Found (t : UInt32) (p p' : Child) : Prop :=
  ∃ i < p.config.srunSize, p'.stream.srun = some i ∧ 0 ≤ p'.stream.socket ∧
    ((∃ fd ∈ (p.config.srun i).sockets, p'.stream.socket = (fd : ℤ)) ∨
      ∃ (wait : Bool) (fd : ℕ), p'.stream.socket = (fd : ℤ) ∧
        (wait, .connected fd) ∈ madeAttempts p p' i) ∧
    (p'.config.srun i).isDead = false ∧ (p'.config.srun i).lastTime = t

theorem rejectLive_attempts (dial : Dial) (sessionIndex : ℤ) (t : UInt32) (i : ℕ)
    (v : SrunView) :
    ∃ earlier, (rejectLive dial sessionIndex t i v).2 = v.2 ++ earlier ∧
      ∀ attempt ∈ earlier, attempt.1 = false := by
  unfold rejectLive
  split
  · exact ⟨[], by simp, by simp⟩
  · split
    · exact ⟨[], by simp, by simp⟩
    · exact ⟨_, rfl, by simp⟩

theorem rejectFirst_attempts (sessionIndex : ℤ) (t : UInt32) (v : SrunView) :
    (rejectFirst sessionIndex t v).2 = v.2 := by
  unfold rejectFirst rejectReuse
  split
  · split <;> rfl
  · rfl

theorem srun_mem {config : Config} {i : ℕ} (h : i < config.srunSize) :
    config.srunList[i]? = some (config.srun i) := by
  have hlt : i < config.srunList.length := Nat.lt_of_lt_of_le h config.size_le
  simp [Config.srun, List.getD_eq_getElem?_getD, List.getElem?_eq_getElem hlt]

/-- What holds of the entry that a call leaves in the table. -/
theorem srun_of_entry {p p' : Child} {i : ℕ} (hi : i < p.config.srunSize) {f : Srun → Srun}
    (h : (p'.view i).1 = (p.view i).1.map f) :
    p'.config.srun i = f (p.config.srun i) := by
  simp only [Child.view, srun_mem hi, Option.map_some] at h
  rw [Config.srun, List.getD_eq_getElem?_getD, h]
  rfl

/-- Fail-over is complete. -/
theorem openConnection_failover (dial : Dial) (sessionIndex : ℤ) (ip : List Byte) (t : UInt32)
    (rand : Int32) {p : Child} (hpos : 0 < p.config.srunSize)
    (hfits : ProbeFits p.config.srunSize) :
    ((openConnection dial sessionIndex ip t rand p).1 = false →
        GaveUp t p (openConnection dial sessionIndex ip t rand p).2) ∧
      ((openConnection dial sessionIndex ip t rand p).1 = true →
        Found t p (openConnection dial sessionIndex ip t rand p).2) := by
  rw [← probeSize_eq hpos] at hfits
  have hnodup := nodup_callOrder sessionIndex ip t rand hfits
  have hmem := mem_callOrder_iff sessionIndex ip t rand hfits
  obtain ⟨q, hconfig, -, hq, hcall⟩ := openConnection_eq dial sessionIndex ip t rand p
  rw [hcall]
  constructor
  · intro hfail i hi
    have horder : i ∈ callOrder sessionIndex ip t rand p := by
      rw [hmem, probeSize_eq hpos]
      exact hi
    obtain ⟨hview, hno⟩ := passes_rejects hnodup hfail horder
    rw [hq] at hview
    refine ⟨?_, ?_⟩
    · obtain ⟨earlier, hearlier, hfalse⟩ := rejectLive_attempts dial sessionIndex t i
        (rejectFirst sessionIndex t (p.view i))
      rw [rejectFirst_attempts] at hearlier
      refine ⟨earlier, dial i true, ?_, hfalse, hno⟩
      apply madeAttempts_eq
      rw [hview]
      change _ ++ [(true, dial i true)] = _
      rw [hearlier, List.append_assoc]
    · obtain ⟨f, hf⟩ := ((wanes_first sessionIndex t (p.view i)).trans
        (wanes_live dial sessionIndex t i _)).entry
      have hentry := congrArg Prod.fst hview
      rw [rejectAny, hf, Option.map_map] at hentry
      rw [srun_of_entry hi hentry]
      exact ⟨rfl, rfl, by simp [ported_sockets, Srun.drained]⟩
  · intro hok
    obtain ⟨i, hi, hserves⟩ := passes_serves hnodup hok
    have hlt : i < p.config.srunSize := by
      rw [← probeSize_eq hpos]
      exact (hmem i).mp hi
    refine ⟨i, hlt, hserves.srun, hserves.socket, ?_, ?_⟩
    · rcases hserves.origin with hpool | ⟨wait, fd, hsocket, made, hmade⟩
      · left
        rw [← hconfig]
        exact hpool
      · refine Or.inr ⟨wait, fd, hsocket, ?_⟩
        rw [hq, List.append_assoc] at hmade
        rw [madeAttempts_eq hmade]
        simp
    · obtain ⟨f, hf, halive⟩ := hserves.alive
      rw [hq] at hf
      rw [srun_of_entry hlt hf]
      exact halive _

/-- A runner as the configuration sets it up, with the session of its place in the
table. -/
def runner (session : ℕ) (isBackup isDead : Bool) : Srun :=
  { Srun.zero with
    port := defaultPort, session := session, isBackup := isBackup, isDead := isDead
    lastTime := 100, liveTime := 30, deadTime := 60 }

/-- A child with two primaries and a backup. The first primary is marked dead. -/
def trioChild : Child where
  config := ⟨[runner 0 false true, runner 1 false false, runner 2 true false], 3, 0,
    by decide, by decide, by decide⟩
  stream := ⟨none, 0, -1, [], 0, 0, []⟩
  os := ⟨[], [], [], []⟩
  gCount := 0

/-- The network when nothing can be reached. -/
def unreachable : Dial := fun _ _ => .noSocket

theorem openConnection_failover_trio :
    ((openConnection unreachable (-1) [] 120 0 trioChild).1 = false →
        GaveUp 120 trioChild (openConnection unreachable (-1) [] 120 0 trioChild).2) ∧
      ((openConnection unreachable (-1) [] 120 0 trioChild).1 = true →
        Found 120 trioChild (openConnection unreachable (-1) [] 120 0 trioChild).2) :=
  openConnection_failover unreachable (-1) [] 120 0 (by decide) (by decide)

/-! ## Session affinity -/

/-- The srun is marked dead and its `dead_time` is not over. -/
def Srun.MarkedDead (t : UInt32) (srun : Srun) : Prop :=
  srun.isDead = true ∧ srun.lastTime.toNat + srun.deadTime ≥ t.toNat

instance (t : UInt32) (srun : Srun) : Decidable (srun.MarkedDead t) :=
  inferInstanceAs (Decidable (_ ∧ _))

/-- The second pass takes an srun for dead only while its mark holds: correcting
`last_time` and wrapping around make its test harder to pass. -/
theorem Srun.Dead.markedDead {t : UInt32} {srun : Srun} (h : srun.Dead t) :
    srun.MarkedDead t := by
  obtain ⟨hdead, htime⟩ := h
  refine ⟨hdead, ?_⟩
  have hsettle : (srun.settle t).lastTime.toNat ≤ srun.lastTime.toNat := by
    unfold Srun.settle
    split
    · next hlt => exact (UInt32.lt_iff_toNat_lt.mp hlt).le
    · exact Nat.le_refl _
  have hle := UInt32.le_iff_toNat_le.mp htime
  rw [UInt32.toNat_add, UInt32.toNat_ofNat'] at hle
  have hwrap := Nat.mod_le ((srun.settle t).lastTime.toNat + srun.deadTime % 2 ^ 32) (2 ^ 32)
  have hdead := Nat.mod_le srun.deadTime (2 ^ 32)
  omega

/-- The owner of the session is the first place of the probe order. -/
theorem callOrder_of_session {sessionIndex : ℤ} {p : Child} {k : ℕ}
    (hk : k < p.config.srunSize)
    (hdistinct : ∀ i < p.config.srunSize, ∀ j < p.config.srunSize,
      (p.config.srun i).session = (p.config.srun j).session → i = j)
    (hsession : sessionIndex = (p.config.srun k).session)
    (ip : List Byte) (t : UInt32) (rand : Int32) :
    ∃ rest, callOrder sessionIndex ip t rand p = k :: rest := by
  have hsize := probeSize_eq (Nat.zero_lt_of_lt hk)
  have hlt := p.config.size_lt
  have hhost : sessionHost p.config p.config.srunSize sessionIndex = k := by
    have hfind : (List.range p.config.srunSize).find?
        (fun host => (p.config.srun host).session = sessionIndex) = some k := by
      rw [List.find?_eq_some_iff_append]
      refine ⟨by simp [hsession], List.range k,
        (List.range' (k + 1) (p.config.srunSize - (k + 1))), ?_, ?_⟩
      · rw [List.range_eq_range', List.range_eq_range', ← List.range'_succ]
        have hsplit := @List.range'_append_1 0 k (p.config.srunSize - (k + 1) + 1)
        rw [Nat.zero_add] at hsplit
        rw [hsplit]
        congr 1
        omega
      · intro j hj
        have hjk := List.mem_range.mp hj
        simp only [hsession, Bool.not_eq_true', decide_eq_false_iff_not]
        intro heq
        have := hdistinct j (by omega) k hk (Int.ofNat_inj.mp heq)
        omega
    rw [sessionHost, hfind]
    rfl
  have hnonneg : ¬ sessionIndex < 0 := by
    rw [hsession]
    omega
  have hk31 := toInt_ofNat_of_lt (n := k) (by omega)
  have hstart : (startHost p.config.probeSize sessionIndex ip t rand p).1 = Int32.ofNat k := by
    have hpos : ¬ Int32.ofNat k < 0 := by
      rw [Int32.lt_iff_toInt_lt, hk31]
      simp
    simp only [startHost, if_neg hnonneg, hsize, hhost, if_neg (Nat.ne_of_lt hk), if_neg hpos]
  have hfirst : probe (Int32.ofNat k) (2 * (Int32.ofNat k &&& 1) - 1)
      (Int32.ofNat p.config.srunSize) 0 = k := by
    have hzero : Int32.ofNat 0 = 0 := rfl
    rw [probe, hzero, Int32.zero_mul, Int32.add_zero, Int32.toInt_mod, hk31,
      toInt_ofNat_of_lt hlt, ← Int.ofNat_tmod, Nat.mod_eq_of_lt hk]
    rfl
  rw [callOrder, hstart, hsize, probeOrder]
  obtain ⟨m, hm⟩ : ∃ m, p.config.srunSize = m + 1 := ⟨p.config.srunSize - 1, by omega⟩
  rw [hm] at hfirst ⊢
  rw [List.range_succ_eq_map, List.map_cons, hfirst]
  exact ⟨_, rfl⟩

/-- Session affinity: the owner of the session takes the request whenever it has a
socket to reuse or is not marked dead and connects, and nothing else in the table
changes. -/
theorem openConnection_affinity (dial : Dial) (ip : List Byte) {t : UInt32} (rand : Int32)
    {p : Child} {k : ℕ} (hk : k < p.config.srunSize)
    (hdistinct : ∀ i < p.config.srunSize, ∀ j < p.config.srunSize,
      (p.config.srun i).session = (p.config.srun j).session → i = j)
    (hready : (cseReuseSocket k t p).1 = true ∨
      ¬ (p.config.srun k).MarkedDead t ∧ (cseOpen dial k false p).1 = true) :
    (openConnection dial (p.config.srun k).session ip t rand p).1 = true ∧
      (openConnection dial (p.config.srun k).session ip t rand p).2.stream.srun = some k ∧
      ∀ j < p.config.srunSize, j ≠ k →
        (openConnection dial (p.config.srun k).session ip t rand p).2.config.srun j =
          p.config.srun j := by
  obtain ⟨rest, horder⟩ := callOrder_of_session hk hdistinct rfl ip t rand
  obtain ⟨q, hconfig, -, hq, hcall⟩ :=
    openConnection_eq dial (p.config.srun k).session ip t rand p
  have hnonneg : ¬ ((p.config.srun k).session : ℤ) < 0 := by omega
  have hlocal := tryLive_local dial (p.config.srun k).session t
  have hfirst : firstPass (p.config.srun k).session t (k :: rest) q = (false, q) :=
    if_neg hnonneg
  -- the owner is accepted by the second pass, before anything else is looked at
  have hacc : (tryLive dial (p.config.srun k).session t k q).1 = true := by
    rw [hlocal.decides, view_srun, hconfig]
    refine ⟨fun hskip => hnonneg hskip.1, ?_⟩
    rcases hready with hreuse | ⟨hdead, hopen⟩
    · exact Or.inl ((cseReuseSocket_fst k t p).mp hreuse)
    · exact Or.inr ⟨fun h => hdead h.markedDead, (cseOpen_fst dial k false p).mp hopen⟩
  have hsecond : secondPass dial (p.config.srun k).session t (k :: rest) q =
      (true, (tryLive dial (p.config.srun k).session t k q).2) := by
    rw [secondPass, hfirst, scan_cons_of_true hacc]
  rw [hcall, horder, passes_of_second (by rw [hfirst]) (by rw [hsecond]), hsecond]
  refine ⟨rfl, (tryLive_serves hacc).srun, ?_⟩
  intro j _ hj
  rw [← view_srun, hlocal.frame k q j hj, hq, view_srun]

theorem openConnection_affinity_backup :
    (openConnection answering (trioChild.config.srun 2).session [] 120 0 trioChild).1 = true ∧
      (openConnection answering (trioChild.config.srun 2).session [] 120 0
        trioChild).2.stream.srun = some 2 ∧
      ∀ j < trioChild.config.srunSize, j ≠ 2 →
        (openConnection answering (trioChild.config.srun 2).session [] 120 0
          trioChild).2.config.srun j = trioChild.config.srun j :=
  openConnection_affinity answering [] 0 (by decide) (by decide) (by decide)

end ModCaucho

import ModCaucho.Handler.Owners

/-!
# How old a pooled socket is

The pool of an srun has one time for all its sockets, `last_time`, and `cse_reuse_socket`
compares the time of the request with that. A socket that is handed out was used recently
enough if `last_time` never runs ahead of the last use of a socket in the pool. It does
when a request uses the srun while an older socket is in its pool, and when a request gives
back a socket behind a later one.
-/

namespace ModCaucho

/-! ## Runs with the times of use -/

/-- A world with the time of the last request that used each descriptor. -/
structure Aged where
  world : World
  lastUse : ℕ → UInt32

/-- The descriptor that the stream of a thread has got in a step. The thread opened or
reused it. -/
def World.gained (w w' : World) (t : ℕ) : Option ℕ :=
  if (w.streams t).socket < 0 then (w'.streams t).socket? else none

namespace Aged

/-- The world after a step, where `times` are the request times of the threads. -/
def after (times : ℕ → UInt32) (a : Aged) (actor : Option ℕ) (w' : World) : Aged where
  world := w'
  lastUse fd :=
    match actor with
    | some t => if a.world.gained w' t = some fd then times t else a.lastUse fd
    | none => a.lastUse fd

end Aged

/-- A request passes its time on. A status page has one too. -/
def Job.Timed (time : UInt32) : Job → Prop
  | request _ requestTime _ _ _ => requestTime = time
  | status _ => True

/-- The world when the child starts. -/
structure Aged.Fresh (times : ℕ → UInt32) (a : Aged) : Prop where
  world : a.world.Fresh
  progs : ∀ t, a.world.progs t = .done ∨ ∃ job : Job, job.Timed (times t) ∧
    a.world.progs t = job.prog

/-- The worlds that come of a fresh one by steps whose actions meet a condition. -/
inductive Aged.Run (times : ℕ → UInt32) (C : Aged → ℕ → Act → Prop) : Aged → Prop
  | fresh {a : Aged} (h : a.Fresh times) : Run times C a
  | step {a : Aged} {actor : Option ℕ} {calls : List SysCall} {w' : World}
      (h : Run times C a) (step : a.world.Step actor calls w')
      (meets : ∀ t act next, actor = some t → a.world.progs t = .act act next → C a t act) :
      Run times C (a.after times actor w')

/-- Whatever `cse_reuse_socket` gives to a request was last used by a request no longer
than `live_time` ago, and what is older is closed. -/
def Aged.ReusesFresh (a : Aged) : Prop :=
  ∀ t i time next, a.world.progs t = .act (.reuse i time) next → ∀ recvs sends,
    ((cseReuseSocket i time (a.world.child t recvs sends)).1 = true →
      ∀ fd : ℕ, (cseReuseSocket i time (a.world.child t recvs sends)).2.stream.socket = fd →
        time.toNat ≤ (a.lastUse fd).toNat + (a.world.config.srun i).liveTime) ∧
    ∀ fd ∈ a.world.config.pool i,
      (a.lastUse fd).toNat + (a.world.config.srun i).liveTime < time.toNat →
      (fd : ℤ) ∈ closesOf (cseReuseSocket i time (a.world.child t recvs sends)).2.os.trace

/-- An action that does not let `last_time` run ahead: what sets it finds no older socket
in the pool that stays there, and what is stored was last used no earlier. -/
def Act.Orderly (lastUse : ℕ → UInt32) (p : Child) : Act → Prop
  | reuse i time => (p.config.srun i).Usable time →
      ∀ fd ∈ (p.config.pool i).tail, time ≤ lastUse fd
  | use i time => ∀ fd ∈ p.config.pool i, time ≤ lastUse fd
  | bury i time => ∀ fd ∈ p.config.pool i, time ≤ lastUse fd
  | store => ∀ i, p.storable = some i →
      (p.config.srun i).lastTime ≤ lastUse p.stream.socket.toNat
  | _ => True

/-- The actions of an aged world that are orderly. -/
def Aged.Orderly (a : Aged) (t : ℕ) (act : Act) : Prop :=
  act.Orderly a.lastUse (a.world.child t [] [])

/-! ## The time of a pool -/

/-- The time of each pool is no later than the last use of its sockets. -/
def Config.Young (config : Config) (lastUse : ℕ → UInt32) : Prop :=
  ∀ i, ∀ fd ∈ config.pool i, (config.srun i).lastTime ≤ lastUse fd

section Young

variable {config : Config} {lastUse : ℕ → UInt32} {p : Child}

theorem Config.Young.modifySrun (h : config.Young lastUse) {i : ℕ} {f : Srun → Srun}
    (hf : ∀ fd ∈ (f (config.srun i)).sockets, (f (config.srun i)).lastTime ≤ lastUse fd) :
    (config.modifySrun i f).Young lastUse := by
  intro j fd hfd
  by_cases hj : j = i
  · subst hj
    cases hentry : config.srunList[j]? with
    | none =>
        have hnil : (config.modifySrun j f).pool j = [] := by
          rw [Config.pool, Config.srun, List.getD_eq_getElem?_getD, srunList_modifySrun,
            if_pos rfl, hentry]
          rfl
        rw [hnil] at hfd
        cases hfd
    | some srun =>
        have hsrun : (config.modifySrun j f).srun j = f (config.srun j) := by
          rw [Config.srun, Config.srun, List.getD_eq_getElem?_getD, List.getD_eq_getElem?_getD,
            srunList_modifySrun, if_pos rfl, hentry]
          rfl
        rw [Config.pool, hsrun] at hfd
        rw [hsrun]
        exact hf fd hfd
  · have hsrun : (config.modifySrun i f).srun j = config.srun j := by
      rw [Config.srun, Config.srun, List.getD_eq_getElem?_getD, List.getD_eq_getElem?_getD,
        srunList_modifySrun, if_neg (Ne.symm hj)]
    rw [Config.pool, hsrun] at hfd
    rw [hsrun]
    exact h j fd hfd

theorem settle_lastTime_le (t : UInt32) (srun : Srun) :
    (srun.settle t).lastTime ≤ srun.lastTime := by
  unfold Srun.settle
  split
  · next hlt => exact UInt32.le_of_lt hlt
  · exact UInt32.le_refl _

theorem young_settle (h : p.config.Young lastUse) (i : ℕ) (t : UInt32) :
    (p.settle i t).config.Young lastUse := by
  refine h.modifySrun fun fd hfd => ?_
  rw [settle_sockets] at hfd
  exact UInt32.le_trans (settle_lastTime_le t _) (h i fd hfd)

theorem young_reuse (h : p.config.Young lastUse) {i : ℕ} {t : UInt32}
    (horderly : (Act.reuse i t).Orderly lastUse p) :
    (cseReuseSocket i t p).2.config.Young lastUse := by
  by_cases hu : (p.config.srun i).Usable t
  · rw [cseReuseSocket_of_usable hu]
    refine (young_settle h i t).modifySrun fun fd hfd => horderly hu fd ?_
    rw [srun_settle] at hfd
    simpa [Config.pool] using hfd
  · rw [cseReuseSocket_of_not_usable hu]
    simp only
    split
    · exact young_settle h i t
    · refine (young_settle h i t).modifySrun fun fd hfd => ?_
      cases hfd

/-- An orderly action keeps the pools young. -/
theorem young_exec (dial : Dial) {act : Act} (h : p.config.Young lastUse)
    (horderly : act.Orderly lastUse p) : (act.exec dial p).2.config.Young lastUse := by
  cases act with
  | clear => exact h
  | reuse i t => exact young_reuse h horderly
  | dial i wait =>
      change (cseOpen dial i wait p).2.config.Young lastUse
      rw [cseOpen_eq]
      refine h.modifySrun fun fd hfd => ?_
      split at hfd
      · next hport =>
          rw [if_pos hport]
          exact h i fd hfd
      · next hport =>
          rw [if_neg hport]
          exact h i fd hfd
  | use i t => exact h.modifySrun horderly
  | bury i t => exact h.modifySrun horderly
  | op op => exact h
  | store =>
      cases hstorable : p.storable with
      | some i =>
          have hexec : Act.store.exec dial p = (true, p.stored i) := by simp [Act.exec, hstorable]
          rw [hexec]
          refine h.modifySrun fun fd hfd => ?_
          rcases List.mem_cons.mp hfd with rfl | hpool
          · exact horderly i hstorable
          · exact h i fd hpool
      | none =>
          have hexec : Act.store.exec dial p = (false, p) := by simp [Act.exec, hstorable]
          rw [hexec]
          exact h

end Young

/-! ## Runs -/

theorem gained_held {w w' : World} {t fd : ℕ} (h : w.gained w' t = some fd) :
    w'.held (.stream t) = some fd := by
  unfold World.gained at h
  split at h
  · exact h
  · cases h

/-- What a step hands to a stream is in no pool. -/
theorem lastUse_of_pooled {times : ℕ → UInt32} {a : Aged} {actor : Option ℕ} {w' : World}
    (hinv : w'.Inv) {i fd : ℕ} (hfd : fd ∈ w'.config.pool i) :
    (a.after times actor w').lastUse fd = a.lastUse fd := by
  cases actor with
  | none => rfl
  | some t =>
      refine if_neg fun hgained => ?_
      obtain ⟨k, hk⟩ := mem_pool_iff.mp hfd
      cases hinv.exclusive.unique hk (gained_held hgained)

theorem young_after {times : ℕ → UInt32} {a : Aged} {actor : Option ℕ} {w' : World}
    (hinv : w'.Inv) (h : w'.config.Young a.lastUse) :
    w'.config.Young (a.after times actor w').lastUse := by
  intro i fd hfd
  rw [lastUse_of_pooled hinv hfd]
  exact h i fd hfd

theorem orderly_child {lastUse : ℕ → UInt32} {w : World} {t : ℕ} (recvs : List RecvResult)
    (sends : List SendResult) (act : Act) :
    act.Orderly lastUse (w.child t [] []) ↔ act.Orderly lastUse (w.child t recvs sends) := by
  cases act <;> exact Iff.rfl

theorem young_closeChild {lastUse : ℕ → UInt32} {w : World} (sends : List SendResult)
    (h : w.config.Young lastUse) : (cseCloseChild (w.closing sends)).config.Young lastUse := by
  obtain ⟨-, -, hpools⟩ := @closeChild_calls (w.closing sends) rfl
  have htime := part_giveUpPools Srun.lastTime (fun _ => rfl) (List.range w.config.srunSize)
    (w.closing sends)
  intro i fd hfd
  have hlast : ((cseCloseChild (w.closing sends)).config.srun i).lastTime =
      (w.config.srun i).lastTime := htime i
  rw [hpools] at hfd
  split at hfd
  · cases hfd
  · rw [hlast]
    exact h i fd hfd

theorem Aged.Run.reachable {times : ℕ → UInt32} {C : Aged → ℕ → Act → Prop} {a : Aged}
    (h : a.Run times C) : a.world.Reachable := by
  induction h with
  | fresh h => exact .fresh h.world
  | step _ hstep _ ih => exact .step ih hstep

/-- A step whose action is orderly keeps the pools young. -/
theorem young_step {times : ℕ → UInt32} {a : Aged} {actor : Option ℕ} {calls : List SysCall}
    {w' : World} (hinv : a.world.Inv) (h : a.world.config.Young a.lastUse)
    (hstep : a.world.Step actor calls w')
    (horderly : ∀ t act next, actor = some t → a.world.progs t = .act act next →
      a.Orderly t act) :
    w'.config.Young (a.after times actor w').lastUse := by
  refine young_after (inv_step hinv hstep) ?_
  cases hstep with
  | @act t act next dial recvs sends prog fresh =>
      have hact := (orderly_child recvs sends act).mp (horderly t act next rfl prog)
      exact young_exec dial h hact
  | look prog => exact h
  | closeChild sends => exact young_closeChild sends h

theorem young_run {times : ℕ → UInt32} {a : Aged} (h : a.Run times Aged.Orderly) :
    a.world.config.Young a.lastUse := by
  induction h with
  | fresh h =>
      intro i fd hfd
      rw [(pools_fresh h.world i).1] at hfd
      cases hfd
  | step hrun hstep hmeets ih => exact young_step (inv_reachable hrun.reachable) ih hstep hmeets

/-- In every run of orderly actions, no stale socket is handed out. -/
theorem reusesFresh_of_orderly {times : ℕ → UInt32} {a : Aged} (h : a.Run times Aged.Orderly) :
    a.ReusesFresh := by
  have hyoung := young_run h
  intro t i time next _ recvs sends
  have hpool : ∀ fd ∈ a.world.config.pool i, (a.world.config.srun i).Usable time →
      time.toNat ≤ (a.lastUse fd).toNat + (a.world.config.srun i).liveTime := by
    intro fd hfd hu
    have hle := UInt32.le_iff_toNat_le.mp hu.2
    have hsettle := UInt32.le_iff_toNat_le.mp (settle_lastTime_le time (a.world.config.srun i))
    have hlast := UInt32.le_iff_toNat_le.mp (hyoung i fd hfd)
    rw [UInt32.toNat_add, UInt32.toNat_ofNat'] at hle
    have hwrap := Nat.mod_le (((a.world.config.srun i).settle time).lastTime.toNat +
      (a.world.config.srun i).liveTime % 2 ^ 32) (2 ^ 32)
    have hlive := Nat.mod_le (a.world.config.srun i).liveTime (2 ^ 32)
    omega
  constructor
  · intro hreused fd hfd
    have hu := (cseReuseSocket_fst i time (a.world.child t recvs sends)).mp hreused
    refine hpool fd ?_ hu
    rw [cseReuseSocket_of_usable hu] at hfd
    change ((((a.world.child t recvs sends).settle i time).config.pool i).headD 0 : ℤ) = fd at hfd
    rw [pool_settle] at hfd
    obtain ⟨top, rest, htop⟩ := List.exists_cons_of_ne_nil (List.length_pos_iff.mp hu.1)
    have hpooled : a.world.config.pool i = top :: rest := htop
    have hpooled' : (a.world.child t recvs sends).config.pool i = top :: rest := htop
    rw [hpooled'] at hfd
    obtain rfl : top = fd := Int.ofNat_inj.mp hfd
    rw [hpooled]
    exact List.mem_cons_self
  · intro fd hfd hold
    have hu : ¬ (a.world.config.srun i).Usable time := fun hu => by
      have := hpool fd hfd hu
      omega
    rw [(@reuse_closes i time (a.world.child t recvs sends) hu rfl).2]
    exact mem_casts.mpr hfd

/-! ## Runs by a script -/

/-- The next step of a thread, where the network connects every attempt on `fd` and every
send is taken. -/
def Aged.advance (times : ℕ → UInt32) (a : Aged) (t fd : ℕ) : Aged :=
  match a.world.progs t with
  | .done => a
  | .act act next =>
      let done := act.exec (fun _ _ => .connected fd) (a.world.child t [] [])
      a.after times (some t) (a.world.put t done.2 (next done.1))
  | .look next =>
      a.after times (some t)
        { a.world with progs := Function.update a.world.progs t (next a.world.config) }

/-- The step meets a condition and opens no descriptor that is open. -/
def Aged.Allows (C : Aged → ℕ → Act → Prop) (a : Aged) (t fd : ℕ) : Prop :=
  match a.world.progs t with
  | .act act _ => C a t act ∧
      ∀ call ∈ (act.exec (fun _ _ => .connected fd) (a.world.child t [] [])).2.os.trace,
        ∀ d ∈ call.opens, d ∉ a.world.opened
  | _ => True

theorem advance_run {times : ℕ → UInt32} {C : Aged → ℕ → Act → Prop} {a : Aged} {t fd : ℕ}
    (h : a.Run times C) (hallows : a.Allows C t fd) : (a.advance times t fd).Run times C := by
  unfold Aged.Allows at hallows
  unfold Aged.advance
  cases hprog : a.world.progs t with
  | done => exact h
  | act act next =>
      rw [hprog] at hallows
      obtain ⟨hmeets, hopens⟩ := hallows
      refine .step h (.act (fun _ _ => .connected fd) [] [] hprog hopens) ?_
      intro t' act' next' ht hact
      cases ht
      rw [hprog] at hact
      cases hact
      exact hmeets
  | look next =>
      refine .step h (.look hprog) fun t' act' next' ht hact => ?_
      cases ht
      rw [hprog] at hact
      cases hact

/-- One step after the other, each of a thread with the descriptor that the network has for
it. -/
def Aged.perform (times : ℕ → UInt32) (a : Aged) (steps : List (ℕ × ℕ)) : Aged :=
  steps.foldl (fun a step => a.advance times step.1 step.2) a

def Aged.AllowsAll (C : Aged → ℕ → Act → Prop) (times : ℕ → UInt32) :
    Aged → List (ℕ × ℕ) → Prop
  | _, [] => True
  | a, (t, fd) :: steps => a.Allows C t fd ∧ (a.advance times t fd).AllowsAll C times steps

theorem perform_run {times : ℕ → UInt32} {C : Aged → ℕ → Act → Prop} {a : Aged}
    {steps : List (ℕ × ℕ)} (h : a.Run times C) (hallows : a.AllowsAll C times steps) :
    (a.perform times steps).Run times C := by
  induction steps generalizing a with
  | nil => exact h
  | cons step steps ih => exact ih (advance_run h hallows.1) hallows.2

instance (lastUse : ℕ → UInt32) (p : Child) (act : Act) : Decidable (act.Orderly lastUse p) :=
  match act with
  | .reuse i time => inferInstanceAs (Decidable ((p.config.srun i).Usable time →
      ∀ fd ∈ (p.config.pool i).tail, time ≤ lastUse fd))
  | .use i time => inferInstanceAs (Decidable (∀ fd ∈ p.config.pool i, time ≤ lastUse fd))
  | .bury i time => inferInstanceAs (Decidable (∀ fd ∈ p.config.pool i, time ≤ lastUse fd))
  | .store => inferInstanceAs (Decidable (∀ i ∈ p.storable,
      (p.config.srun i).lastTime ≤ lastUse p.stream.socket.toNat))
  | .clear => isTrue trivial
  | .dial _ _ => isTrue trivial
  | .op _ => isTrue trivial

instance (a : Aged) (t : ℕ) (act : Act) : Decidable (a.Orderly t act) :=
  inferInstanceAs (Decidable (act.Orderly a.lastUse (a.world.child t [] [])))

section

variable (C : Aged → ℕ → Act → Prop) [∀ a t act, Decidable (C a t act)]

instance (a : Aged) (t fd : ℕ) : Decidable (a.Allows C t fd) :=
  match h : a.world.progs t with
  | .done => isTrue (by simp [Aged.Allows, h])
  | .act act _ => decidable_of_iff (C a t act ∧
      ∀ call ∈ (act.exec (fun _ _ => .connected fd) (a.world.child t [] [])).2.os.trace,
        ∀ d ∈ call.opens, d ∉ a.world.opened) (by simp [Aged.Allows, h])
  | .look _ => isTrue (by simp [Aged.Allows, h])

instance decidableAllowsAll (times : ℕ → UInt32) (steps : List (ℕ × ℕ)) :
    ∀ a : Aged, Decidable (a.AllowsAll C times steps) :=
  match steps with
  | [] => fun _ => isTrue trivial
  | (t, fd) :: steps => fun a =>
      have := decidableAllowsAll times steps (a.advance times t fd)
      inferInstanceAs (Decidable (a.Allows C t fd ∧ _))

end

/-- The child starts with one srun, and some jobs are waiting. -/
def launched (jobs : List Job) : Aged where
  world :=
    { config := (cseOpenChild
        { freshChild with config := ⟨[runner 0 false false], 1, 0, by decide, by decide,
          one_lt_sizes⟩ }).config
      streams := fun _ => ⟨none, 0, -1, [], 0, 0, []⟩
      progs := fun t => (jobs[t]?.map Job.prog).getD .done
      opened := [] }
  lastUse := fun _ => 0

theorem launched_fresh {times : ℕ → UInt32} {jobs : List Job}
    (h : ∀ t (job : Job), jobs[t]? = some job → job.Timed (times t)) :
    (launched jobs).Fresh times where
  world :=
    { opened := rfl
      pools := openChild_pools _ (by decide)
      streams := fun _ => rfl
      progs := by
        intro t
        cases hjob : jobs[t]? with
        | none => exact Or.inl (by simp [launched, hjob])
        | some job => exact Or.inr ⟨job, by simp [launched, hjob]⟩ }
  progs := by
    intro t
    cases hjob : jobs[t]? with
    | none => exact Or.inl (by simp [launched, hjob])
    | some job => exact Or.inr ⟨job, h t job hjob, by simp [launched, hjob]⟩

/-- Three requests to the srun, at the times 100, 110 and 135. -/
def staggered : List Job :=
  [.request 0 100 [0] [] true, .request 0 110 [0] [] true, .request 0 135 [0] [] true]

def staggeredTimes (t : ℕ) : UInt32 := [100, 110].getD t 135

theorem staggered_fresh : (launched staggered).Fresh staggeredTimes := by
  refine launched_fresh fun t job hjob => ?_
  match t with
  | 0 => cases hjob; rfl
  | 1 => cases hjob; rfl
  | 2 => cases hjob; rfl
  | t + 3 => cases hjob

/-- The first request is over, and the second is about to look into the pool. -/
def keptAged : Aged :=
  (launched staggered).perform staggeredTimes (List.replicate 7 (0, 3) ++ List.replicate 2 (1, 4))

theorem reusesFresh_of_orderly_kept : keptAged.ReusesFresh :=
  reusesFresh_of_orderly (perform_run (.fresh staggered_fresh) (by decide))

/-- The first two requests overlap, and the first gives its socket back when the second has
its own. -/
def overlappedAged : Aged :=
  (launched staggered).perform staggeredTimes
    (List.replicate 6 (0, 3) ++ List.replicate 6 (1, 4) ++ (0, 3) :: List.replicate 2 (2, 5))

/-- The socket of the first request is in the pool, the second has its own, and the third is
about to look into the pool. -/
theorem exclusive_ownership_overlapped :
    (∀ fd ∈ overlappedAged.world.opened, ∃! place, overlappedAged.world.held place = some fd) ∧
      (∀ place fd, overlappedAged.world.held place = some fd → fd ∈ overlappedAged.world.opened) ∧
      (∀ i, (overlappedAged.world.config.srun i).sockets.length ≤
          (overlappedAged.world.config.srun i).maxSockets ∧
        (overlappedAged.world.config.srun i).maxSockets ≤ 1024) ∧
      ∀ actor calls w', overlappedAged.world.Step actor calls w' →
        ClosesOwn overlappedAged.world w' actor calls :=
  exclusive_ownership (@perform_run staggeredTimes (fun _ _ _ => True) _ _
    (.fresh staggered_fresh) (by decide)).reachable

/-- The third request gets the socket of the first, 35 seconds after its last use. -/
theorem not_reusesFresh_overlapped :
    ¬ ∀ (times : ℕ → UInt32), (∀ s t, s ≤ t → times s ≤ times t) → ∀ a : Aged,
      a.Run times (fun _ _ _ => True) → a.ReusesFresh := by
  intro hclaim
  have hmono : ∀ s t, s ≤ t → staggeredTimes s ≤ staggeredTimes t := by
    intro s t hst
    match s, t with
    | 0, 0 => decide
    | 0, 1 => decide
    | 0, t + 2 => exact (by decide : (100 : UInt32) ≤ 135)
    | 1, 1 => decide
    | 1, t + 2 => exact (by decide : (110 : UInt32) ≤ 135)
    | s + 2, t + 2 => exact UInt32.le_refl 135
  have hfresh := hclaim staggeredTimes hmono overlappedAged
    (perform_run (.fresh staggered_fresh) (by decide)) 2 0 135 _ rfl [] []
  have hold := hfresh.1 (by decide) 3 (by decide)
  exact absurd hold (by decide)

end ModCaucho

import ModCaucho.Handler.Moves
import ModCaucho.Lib.Ownership

/-!
# Who holds a descriptor

Every descriptor that the plugin has opened and not closed is in one slot of one pool, or
the socket of one stream. The moves of an action keep this holding exclusive, so it is
exclusive in every world that overlapping requests lead to, and a step that closes a
descriptor closes one that nobody else holds.
-/

namespace ModCaucho

open Ownership

/-! ## Places -/

/-- A place for a descriptor: a slot of a pool, counted from its bottom, or the stream of a
thread. -/
inductive Place
  | slot (srun k : ℕ)
  | stream (t : ℕ)
deriving DecidableEq, Repr

/-- The socket of a stream, if it is open. -/
def Stream.socket? (s : Stream) : Option ℕ := if 0 ≤ s.socket then some s.socket.toNat else none

/-- The descriptor that a place holds. -/
def World.held (w : World) : Place → Option ℕ
  | .slot i k => (w.config.pool i).reverse[k]?
  | .stream t => (w.streams t).socket?

theorem socket?_of_neg {s : Stream} (h : s.socket < 0) : s.socket? = none :=
  if_neg (Int.not_le.mpr h)

theorem socket?_of_eq {s : Stream} {fd : ℕ} (h : s.socket = fd) : s.socket? = some fd := by
  rw [Stream.socket?, h, if_pos (Int.natCast_nonneg fd), Int.toNat_natCast]

theorem socket?_of_nonneg {s : Stream} (h : 0 ≤ s.socket) : s.socket? = some s.socket.toNat :=
  if_pos h

section

variable (w : World) (t : ℕ) (p : Child) (next : Prog)

@[simp] theorem held_put_slot (i k : ℕ) :
    (w.put t p next).held (.slot i k) = (p.config.pool i).reverse[k]? := rfl

@[simp] theorem held_put_stream : (w.put t p next).held (.stream t) = p.stream.socket? := by
  simp [World.held, World.put]

theorem held_put_other {t' : ℕ} (h : t' ≠ t) :
    (w.put t p next).held (.stream t') = w.held (.stream t') := by
  simp [World.held, World.put, h]

end

/-- A slot is taken at the top of a pool, or freed there. -/
theorem slot_push (pool : List ℕ) (fd k : ℕ) :
    (fd :: pool).reverse[k]? = if k = pool.length then some fd else pool.reverse[k]? := by
  rw [List.reverse_cons, List.getElem?_append, List.length_reverse]
  split
  · next h =>
      rw [if_neg (Nat.ne_of_lt h)]
  · next h =>
      by_cases hk : k = pool.length
      · simp [hk]
      · have hlt : pool.length < k := by omega
        have hlen : pool.reverse.length ≤ k := by
          rw [List.length_reverse]
          omega
        rw [if_neg hk, List.getElem?_eq_none hlen]
        exact List.getElem?_eq_none (by simp; omega)

/-- The holding is exclusive, the pools are within their bounds and the programs are safe. -/
structure World.Inv (w : World) : Prop where
  exclusive : Exclusive w.held (· ∈ w.opened)
  bounds : ∀ i, (w.config.pool i).length ≤ (w.config.srun i).maxSockets ∧
    (w.config.srun i).maxSockets ≤ 1024
  safe : ∀ t, (w.progs t).Safe (w.streams t)

/-- What the system calls of an action do to the descriptors that are open is what its
moves do to the places that hold them. -/
theorem exclusive_put {w : World} {t : ℕ} {p q : Child} (next : Prog)
    (h : Exclusive w.held (· ∈ w.opened)) (hconfig : p.config = w.config)
    (hstream : p.stream = w.streams t) {lock : Option ℕ} (hmoves : Moves lock p q q.os.trace)
    (hfresh : ∀ call ∈ q.os.trace, ∀ fd, call.opens = some fd → fd ∉ w.opened) :
    Exclusive (w.put t q next).held (· ∈ (w.put t q next).opened) := by
  have hopened : (w.put t q next).opened = openAfter w.opened q.os.trace := rfl
  have hself : w.held (.stream t) = p.stream.socket? := by rw [hstream]; rfl
  have hslot : ∀ i k, w.held (.slot i k) = (p.config.pool i).reverse[k]? := by
    intro i k
    rw [hconfig]
    rfl
  rw [hopened]
  cases hmoves with
  | stay pools socket opens closes =>
      refine h.congr (fun place => ?_) (fun d => ?_)
      · cases place with
        | slot i k => rw [held_put_slot, pools, hslot]
        | stream t' =>
            by_cases ht : t' = t
            · subst ht
              rw [held_put_stream, hself]
              rcases socket with heq | ⟨hp, hq⟩
              · rw [Stream.socket?, heq]
                rfl
              · rw [socket?_of_neg hp, socket?_of_neg hq]
            · exact held_put_other w t q next ht
      · rw [mem_openAfter opens]
        refine and_iff_left fun hmem => ?_
        have := closes _ hmem
        omega
  | @opened i wait fd calls_eq pools idle socket =>
      rw [calls_eq] at hfresh ⊢
      refine h.acquire (hself.trans (socket?_of_neg idle))
        (hfresh _ List.mem_cons_self fd rfl) (fun place => ?_) (fun d => ?_)
      · cases place with
        | slot i k => rw [held_put_slot, pools, Function.update_of_ne (by simp), hslot]
        | stream t' =>
            by_cases ht : t' = t
            · subst ht
              rw [held_put_stream, Function.update_self]
              exact socket?_of_eq socket
            · rw [held_put_other w t q next ht, Function.update_of_ne (by simpa using ht)]
      · simp [openAfter, SysCall.after]
  | @refused i wait fd calls_eq pools idle socket =>
      rw [calls_eq] at hfresh ⊢
      have hnew := hfresh _ List.mem_cons_self fd rfl
      refine h.congr (fun place => ?_) (fun d => ?_)
      · cases place with
        | slot i k => rw [held_put_slot, pools, hslot]
        | stream t' =>
            by_cases ht : t' = t
            · subst ht
              rw [held_put_stream, hself, socket?_of_neg idle, socket?_of_neg socket]
            · exact held_put_other w t q next ht
      · have hafter : openAfter w.opened [.connect i wait (.refused fd), .close (fd : ℤ)] =
            (fd :: w.opened).filter fun d : ℕ => ((d : ℤ) ≠ fd) := rfl
        rw [hafter, List.mem_filter, List.mem_cons]
        by_cases hd : d = fd
        · subst hd
          simp [hnew]
        · have hne : (d : ℤ) ≠ fd := fun heq => hd (Int.ofNat_inj.mp heq)
          simp [hd, hne]
  | closed opens closes pools open_ socket =>
      refine h.release (fun place => place = .stream t) ?_ ?_ (fun d => ?_)
      · rintro place rfl
        rw [held_put_stream]
        exact socket?_of_neg socket
      · intro place hne
        cases place with
        | slot i k => rw [held_put_slot, pools, hslot]
        | stream t' => exact held_put_other w t q next fun ht => hne (ht ▸ rfl)
      · rw [mem_openAfter opens, closes]
        refine and_congr_right fun _ => ?_
        simp only [List.mem_singleton, forall_eq, hself, socket?_of_nonneg open_, ne_eq,
          Option.some.injEq]
        omega
  | @popped i fd calls_eq pool pools idle socket =>
      rw [calls_eq]
      have hpop := fun k => slot_push (q.config.pool i) fd k
      rw [← pool] at hpop
      have hn : (w.held (.slot i (q.config.pool i).length)) = some fd := by
        rw [hslot, hpop, if_pos rfl]
      refine h.transfer hn (hself.trans (socket?_of_neg idle)) (fun place => ?_) (fun d => Iff.rfl)
      cases place with
      | slot j k =>
          rw [held_put_slot, Function.update_of_ne (by simp)]
          by_cases hj : j = i
          · subst hj
            by_cases hk : k = (q.config.pool j).length
            · subst hk
              rw [Function.update_self]
              exact List.getElem?_eq_none (by simp)
            · rw [Function.update_of_ne (by simpa using hk), hslot, hpop, if_neg hk]
          · rw [Function.update_of_ne (by simp [hj]), pools j hj, hslot]
      | stream t' =>
          by_cases ht : t' = t
          · subst ht
            rw [held_put_stream, Function.update_self]
            exact socket?_of_eq socket
          · rw [held_put_other w t q next ht, Function.update_of_ne (by simpa using ht),
              Function.update_of_ne (by simp)]
  | @drained i lock_eq opens closes pool pools socket =>
      refine h.release (fun place => ∃ k, place = .slot i k) ?_ ?_ (fun d => ?_)
      · rintro place ⟨k, rfl⟩
        rw [held_put_slot, pool]
        rfl
      · intro place hne
        cases place with
        | slot j k =>
            have hj : j ≠ i := fun hj => hne ⟨k, hj ▸ rfl⟩
            rw [held_put_slot, pools j hj, hslot]
        | stream t' =>
            by_cases ht : t' = t
            · subst ht
              rw [held_put_stream, hself, Stream.socket?, socket]
              rfl
            · exact held_put_other w t q next ht
      · rw [mem_openAfter opens, closes]
        refine and_congr_right fun _ => ?_
        have hmem : (d : ℤ) ∈ (p.config.pool i).map (fun fd : ℕ => (fd : ℤ)) ↔
            ∃ k, w.held (.slot i k) = some d := by
          rw [List.mem_map]
          simp only [Int.ofNat_inj, exists_eq_right, hslot]
          rw [← List.mem_reverse, List.mem_iff_getElem?]
        rw [hmem]
        simp
  | @pushed i calls_eq pool pools open_ room socket =>
      rw [calls_eq]
      have hpush := fun k => slot_push (p.config.pool i) p.stream.socket.toNat k
      rw [← pool] at hpush
      have hempty : w.held (.slot i (p.config.pool i).length) = none := by
        rw [hslot]
        exact List.getElem?_eq_none (by simp)
      refine h.transfer (hself.trans (socket?_of_nonneg open_)) hempty (fun place => ?_)
        (fun d => Iff.rfl)
      cases place with
      | slot j k =>
          rw [held_put_slot]
          by_cases hj : j = i
          · subst hj
            rw [hpush]
            by_cases hk : k = (p.config.pool j).length
            · subst hk
              rw [if_pos rfl, Function.update_self]
            · rw [if_neg hk, Function.update_of_ne (by simpa using hk),
                Function.update_of_ne (by simp), hslot]
          · rw [pools j hj, Function.update_of_ne (by simp [hj]), Function.update_of_ne (by simp),
              hslot]
      | stream t' =>
          rw [Function.update_of_ne (by simp)]
          by_cases ht : t' = t
          · subst ht
            rw [held_put_stream, Function.update_self]
            exact socket?_of_neg socket
          · rw [held_put_other w t q next ht, Function.update_of_ne (by simpa using ht)]

/-! ## The child that ends -/

theorem mem_pool_iff {w : World} {i fd : ℕ} :
    fd ∈ w.config.pool i ↔ ∃ k, w.held (.slot i k) = some fd := by
  rw [← List.mem_reverse, List.mem_iff_getElem?]
  rfl

theorem exclusive_closed {w : World} (sends : List SendResult)
    (h : Exclusive w.held (· ∈ w.opened)) :
    Exclusive (w.closed (cseCloseChild (w.closing sends))).held
      (· ∈ (w.closed (cseCloseChild (w.closing sends))).opened) := by
  obtain ⟨hopens, hcloses, hpools⟩ := @closeChild_calls (w.closing sends) rfl
  have hslot : ∀ i k, (w.closed (cseCloseChild (w.closing sends))).held (.slot i k) =
      if i < w.config.srunSize then none else w.held (.slot i k) := by
    intro i k
    change ((cseCloseChild (w.closing sends)).config.pool i).reverse[k]? = _
    rw [hpools]
    change (if i < w.config.srunSize then [] else w.config.pool i).reverse[k]? = _
    split <;> rfl
  refine h.release (fun place => ∃ i k, place = .slot i k ∧ i < w.config.srunSize) ?_ ?_
    (fun d => ?_)
  · rintro place ⟨i, k, rfl, hi⟩
    rw [hslot, if_pos hi]
  · intro place hne
    cases place with
    | slot i k => rw [hslot, if_neg fun hi => hne ⟨i, k, rfl, hi⟩]
    | stream t => rfl
  · change d ∈ openAfter w.opened _ ↔ _
    rw [mem_openAfter hopens, hcloses]
    refine and_congr_right fun _ => ?_
    have hmem : (d : ℤ) ∈ ((List.range (w.closing sends).config.srunSize).flatMap
        (w.closing sends).config.pool).map (fun fd : ℕ => (fd : ℤ)) ↔
        ∃ i k, w.held (.slot i k) = some d ∧ i < w.config.srunSize := by
      change (d : ℤ) ∈ ((List.range w.config.srunSize).flatMap w.config.pool).map _ ↔ _
      rw [List.mem_map]
      simp only [Int.ofNat_inj, exists_eq_right, List.mem_flatMap, List.mem_range, mem_pool_iff]
      constructor
      · rintro ⟨i, hi, k, hk⟩
        exact ⟨i, k, hk, hi⟩
      · rintro ⟨i, k, hk, hi⟩
        exact ⟨i, hi, k, hk⟩
    rw [hmem]
    constructor
    · rintro hnone place ⟨i, k, rfl, hi⟩ hheld
      exact hnone ⟨i, k, hheld, hi⟩
    · rintro hnone ⟨i, k, hheld, hi⟩
      exact hnone _ ⟨i, k, rfl, hi⟩ hheld

/-! ## Every reachable world -/

theorem pools_fresh {w : World} (h : w.Fresh) (i : ℕ) :
    w.config.pool i = [] ∧ (w.config.srun i).maxSockets ≤ 1024 := by
  unfold Config.pool Config.srun
  rw [List.getD_eq_getElem?_getD]
  cases hentry : w.config.srunList[i]? with
  | none => exact ⟨rfl, by decide⟩
  | some srun => exact h.pools srun (List.mem_of_getElem? hentry)

theorem inv_fresh {w : World} (h : w.Fresh) : w.Inv := by
  have hpools := pools_fresh h
  have hheld : ∀ place, w.held place = none := by
    intro place
    cases place with
    | slot i k =>
        change (w.config.pool i).reverse[k]? = none
        rw [(hpools i).1]
        rfl
    | stream t =>
        refine socket?_of_neg ?_
        rw [h.streams t]
        exact Int.negSucc_lt_zero 0
  constructor
  · constructor
    · intro place other d hplace
      rw [hheld] at hplace
      cases hplace
    · intro d
      simp [h.opened, hheld]
  · intro i
    rw [(hpools i).1]
    exact ⟨Nat.zero_le _, (hpools i).2⟩
  · intro t
    have hidle : (w.streams t).socket < 0 := by
      rw [h.streams t]
      exact Int.negSucc_lt_zero 0
    rcases h.progs t with hdone | ⟨job, hjob⟩
    · rw [hdone]
      exact hidle
    · rw [hjob]
      exact job.safe _ hidle

theorem inv_step {w w' : World} {actor : Option ℕ} {calls : List SysCall} (h : w.Inv)
    (hstep : w.Step actor calls w') : w'.Inv := by
  cases hstep with
  | @act t a next dial recvs sends prog fresh =>
      have hsafe := h.safe t
      rw [prog] at hsafe
      obtain ⟨hguard, hnext⟩ := hsafe
      have hmoves := act_moves dial a (p := w.child t recvs sends) hguard rfl
      refine ⟨exclusive_put _ h.exclusive rfl rfl hmoves fresh, fun i => ?_, fun t' => ?_⟩
      · have hmax := maxSockets_exec dial a (w.child t recvs sends) i
        have hlen := hmoves.bounds (fun j => (h.bounds j).1) i
        rw [← hmax] at hlen
        exact ⟨hlen, hmax ▸ (h.bounds i).2⟩
      · by_cases ht : t' = t
        · subst ht
          simp only [World.put, Function.update_self]
          exact hnext dial (w.child t' recvs sends) rfl
        · simp only [World.put, Function.update_of_ne ht]
          exact h.safe t'
  | @look t next prog =>
      refine ⟨h.exclusive, h.bounds, fun t' => ?_⟩
      by_cases ht : t' = t
      · subst ht
        have hsafe := h.safe t'
        rw [prog] at hsafe
        simp only [Function.update_self]
        exact hsafe w.config
      · simp only [Function.update_of_ne ht]
        exact h.safe t'
  | closeChild sends =>
      refine ⟨exclusive_closed sends h.exclusive, fun i => ?_, h.safe⟩
      obtain ⟨-, -, hpools⟩ := @closeChild_calls (w.closing sends) rfl
      have hmax := part_giveUpPools Srun.maxSockets (fun _ => rfl) (List.range w.config.srunSize)
        (w.closing sends) i
      change ((cseCloseChild (w.closing sends)).config.srun i).maxSockets =
        (w.config.srun i).maxSockets at hmax
      change ((cseCloseChild (w.closing sends)).config.pool i).length ≤
        ((cseCloseChild (w.closing sends)).config.srun i).maxSockets ∧
        ((cseCloseChild (w.closing sends)).config.srun i).maxSockets ≤ 1024
      rw [hmax, hpools]
      refine ⟨?_, (h.bounds i).2⟩
      split
      · exact Nat.zero_le _
      · exact (h.bounds i).1

theorem inv_reachable {w : World} (h : w.Reachable) : w.Inv := by
  induction h with
  | fresh h => exact inv_fresh h
  | step _ hstep ih => exact inv_step ih hstep

/-! ## Closing -/

/-- The places whose descriptors a step may close: the stream of the thread, the pool that
it has locked, and the pools of a child that ends. -/
def World.MayClose (w : World) : Option ℕ → Place → Prop
  | some t, .stream t' => t' = t
  | some t, .slot i _ => ∃ time next, w.progs t = .act (.reuse i time) next
  | none, .slot i _ => i < w.config.srunSize
  | none, .stream _ => False

/-- Every descriptor that a step closes is closed once, and nobody holds it any more. It was
held by the closer alone, or it is one that the step itself has opened. -/
def ClosesOwn (w w' : World) (actor : Option ℕ) (calls : List SysCall) : Prop :=
  ∀ fd : ℕ, (fd : ℤ) ∈ closesOf calls →
    (closesOf calls).count (fd : ℤ) = 1 ∧ (∀ place, w'.held place ≠ some fd) ∧
      ((∃ place, w.MayClose actor place ∧ w.held place = some fd ∧
          ∀ other, w.held other = some fd → other = place) ∨
        (∀ place, w.held place ≠ some fd) ∧ ∃ i wait, .connect i wait (.refused fd) ∈ calls)

theorem nodup_pool {w : World} (h : Exclusive w.held (· ∈ w.opened)) (i : ℕ) :
    (w.config.pool i).Nodup := by
  rw [← List.nodup_reverse, List.nodup_iff_getElem?_ne_getElem?]
  intro k k' hlt hk' heq
  have hsome := List.getElem?_eq_getElem hk'
  have hplace := @Exclusive.unique _ _ _ _ h (.slot i k) (.slot i k') _ (heq.trans hsome) hsome
  cases hplace
  exact Nat.lt_irrefl _ hlt

/-- No descriptor is pooled twice. -/
theorem nodup_pools {w : World} (h : Exclusive w.held (· ∈ w.opened)) {is : List ℕ}
    (his : is.Nodup) : (is.flatMap w.config.pool).Nodup := by
  refine List.nodup_flatMap.mpr ⟨fun i _ => nodup_pool h i, his.imp fun {i j} hne => ?_⟩
  intro fd hi hj
  obtain ⟨k, hk⟩ := mem_pool_iff.mp hi
  obtain ⟨k', hk'⟩ := mem_pool_iff.mp hj
  cases h.unique hk hk'
  exact hne rfl

theorem count_casts {fds : List ℕ} (h : fds.Nodup) {fd : ℕ} (hfd : fd ∈ fds) :
    (fds.map fun fd : ℕ => (fd : ℤ)).count (fd : ℤ) = 1 :=
  List.count_eq_one_of_mem (h.map fun _ _ heq => Int.ofNat_inj.mp heq) (List.mem_map_of_mem hfd)

theorem mem_casts {fds : List ℕ} {fd : ℕ} :
    (fd : ℤ) ∈ fds.map (fun fd : ℕ => (fd : ℤ)) ↔ fd ∈ fds := by
  rw [List.mem_map]
  simp only [Int.ofNat_inj, exists_eq_right]

/-- A descriptor that is not open is not held. -/
theorem not_held {w : World} (h : w.Inv) {fd : ℕ} (hfd : fd ∉ w.opened) (place : Place) :
    w.held place ≠ some fd :=
  fun hheld => hfd ((h.exclusive.open_iff fd).mpr ⟨place, hheld⟩)

theorem closesOwn_step {w w' : World} {actor : Option ℕ} {calls : List SysCall} (h : w.Inv)
    (hstep : w.Step actor calls w') : ClosesOwn w w' actor calls := by
  have hinv := inv_step h hstep
  intro fd hfd
  cases hstep with
  | @act t a next dial recvs sends prog fresh =>
      have hguard := h.safe t
      rw [prog] at hguard
      have hmoves := act_moves dial a (p := w.child t recvs sends) hguard.1 rfl
      generalize a.exec dial (w.child t recvs sends) = r at *
      have hnone : ∀ calls : List SysCall, calls = r.2.os.trace →
          (∀ call ∈ calls, call.opens = none) →
          ∀ place, (w.put t r.2 (next r.1)).held place ≠ some fd := by
        rintro calls rfl hopens
        refine not_held hinv fun hmem => ?_
        exact ((mem_openAfter hopens w.opened fd).mp hmem).2 hfd
      cases hmoves with
      | stay _ _ _ closes =>
          have := closes _ hfd
          omega
      | opened calls_eq =>
          rw [calls_eq] at hfd
          cases hfd
      | @refused i wait fd' calls_eq =>
          rw [calls_eq] at hfd fresh
          obtain rfl : fd = fd' := Int.ofNat_inj.mp (List.mem_singleton.mp hfd)
          refine ⟨?_, not_held hinv ?_, Or.inr ⟨?_, i, wait, ?_⟩⟩
          · rw [calls_eq]
            exact List.count_singleton_self
          · change fd ∉ openAfter w.opened r.2.os.trace
            rw [calls_eq]
            simp [openAfter, SysCall.after]
          · exact not_held h (fresh _ List.mem_cons_self fd rfl)
          · rw [calls_eq]
            exact List.mem_cons_self
      | closed opens closes _ open_ _ =>
          have hsocket : (w.streams t).socket = fd := by
            rw [closes, List.mem_singleton] at hfd
            exact hfd.symm
          have hheld : w.held (.stream t) = some fd := socket?_of_eq hsocket
          refine ⟨?_, hnone _ rfl opens, Or.inl ⟨.stream t, rfl, hheld, fun other hother =>
            h.exclusive.unique hother hheld⟩⟩
          rw [closes]
          change List.count _ [(w.streams t).socket] = 1
          rw [hsocket]
          exact List.count_singleton_self
      | popped calls_eq =>
          rw [calls_eq] at hfd
          cases hfd
      | @drained i lock_eq opens closes _ _ _ =>
          rw [closes] at hfd ⊢
          have hmem := mem_casts.mp hfd
          obtain ⟨k, hk⟩ := mem_pool_iff.mp hmem
          refine ⟨count_casts (nodup_pool h.exclusive i) hmem, hnone _ rfl opens,
            Or.inl ⟨.slot i k, ?_, hk, fun other hother => h.exclusive.unique hother hk⟩⟩
          cases a with
          | reuse j time =>
              cases lock_eq
              exact ⟨time, next, prog⟩
          | clear => cases lock_eq
          | dial j wait => cases lock_eq
          | use j time => cases lock_eq
          | bury j time => cases lock_eq
          | op op => cases lock_eq
          | store => cases lock_eq
      | pushed calls_eq =>
          rw [calls_eq] at hfd
          cases hfd
  | look prog => cases hfd
  | closeChild sends =>
      obtain ⟨hopens, hcloses, -⟩ := @closeChild_calls (w.closing sends) rfl
      have hopen := hfd
      rw [hcloses] at hfd ⊢
      have hmem := mem_casts.mp hfd
      obtain ⟨i, hi, hpool⟩ := List.mem_flatMap.mp hmem
      obtain ⟨k, hk⟩ := mem_pool_iff.mp (show fd ∈ w.config.pool i from hpool)
      refine ⟨count_casts (nodup_pools h.exclusive List.nodup_range) hmem, not_held hinv ?_,
        Or.inl ⟨.slot i k, List.mem_range.mp hi, hk, fun other hother =>
          h.exclusive.unique hother hk⟩⟩
      intro hmem'
      exact ((mem_openAfter hopens w.opened fd).mp hmem').2 hopen

/-- In every world that overlapping requests and status pages lead to, each descriptor that
the plugin has opened and not closed is held in exactly one place, what is held is open, the
pools are within their bounds, and no step closes a descriptor of another holder. -/
theorem exclusive_ownership {w : World} (h : w.Reachable) :
    (∀ fd ∈ w.opened, ∃! place, w.held place = some fd) ∧
      (∀ place fd, w.held place = some fd → fd ∈ w.opened) ∧
      (∀ i, (w.config.srun i).sockets.length ≤ (w.config.srun i).maxSockets ∧
        (w.config.srun i).maxSockets ≤ 1024) ∧
      ∀ actor calls w', w.Step actor calls w' → ClosesOwn w w' actor calls := by
  have hinv := inv_reachable h
  refine ⟨fun fd hfd => hinv.exclusive.existsUnique hfd, fun place fd hheld => ?_, hinv.bounds,
    fun actor calls w' hstep => closesOwn_step hinv hstep⟩
  exact (hinv.exclusive.open_iff fd).mpr ⟨place, hheld⟩

/-- No descriptor is in two slots of the pools. -/
theorem nodup_pooled {w : World} (h : w.Reachable) : w.config.pooled.Nodup := by
  have hall : w.config.srunList = (List.range w.config.srunList.length).map w.config.srun := by
    apply List.ext_getElem?
    intro k
    rw [List.getElem?_map]
    by_cases hk : k < w.config.srunList.length
    · rw [List.getElem?_range hk, Option.map_some, Config.srun, List.getD_eq_getElem?_getD,
        List.getElem?_eq_getElem hk, Option.getD_some]
    · rw [List.getElem?_eq_none (Nat.not_lt.mp hk), List.getElem?_eq_none (by simpa using hk),
        Option.map_none]
  rw [Config.pooled, hall, List.flatMap_map]
  exact nodup_pools (inv_reachable h).exclusive List.nodup_range

end ModCaucho

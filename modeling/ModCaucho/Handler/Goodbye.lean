import Mathlib.Data.List.Flatten
import Mathlib.Data.List.Perm.Basic
import ModCaucho.Balance.Pool
import ModCaucho.Handler.Request
import ModCaucho.Stream.Partial

/-!
# Saying goodbye

A connection that the plugin gives up should be told so with a CLOSE packet. Where pools
are given up each socket gets one before it is closed. `cse_recycle` writes its CLOSE
packet to the write buffer of a stream that it closes right away, so that packet is never
sent.
-/

namespace ModCaucho

open Framing

/-- The operations in which the plugin gives up open connections. -/
inductive GivingUp
  | recycle
  | reuseSocket (i : ℕ) (requestTime : UInt32)
  | closeSockets
  | closeChild
deriving DecidableEq, Repr

/-- `cse_recycle` can store the socket. -/
def Child.Recyclable (p : Child) : Prop :=
  ∃ i, p.stream.srun = some i ∧ 0 ≤ p.stream.socket ∧
    p.config.updateCount = p.stream.updateCount ∧
    (p.config.srun i).sockets.length < (p.config.srun i).maxSockets

namespace GivingUp

def exec : GivingUp → Child → Child
  | recycle, p => cseRecycle p
  | reuseSocket i t, p => (cseReuseSocket i t p).2
  | closeSockets, p => cseCloseSockets p
  | closeChild, p => cseCloseChild p

/-- The operation gives up the connection on this descriptor. -/
def GivesUp : GivingUp → Child → ℕ → Prop
  | recycle, p, fd => p.stream.socket = fd ∧ ¬ p.Recyclable
  | reuseSocket i t, p, fd => fd ∈ (p.config.srun i).sockets ∧ ¬ (p.config.srun i).Usable t
  | closeSockets, p, fd => ∃ i < p.config.srunSize, fd ∈ (p.config.srun i).sockets
  | closeChild, p, fd => ∃ i < p.config.srunSize, fd ∈ (p.config.srun i).sockets

end GivingUp

/-- The call is made on this descriptor. -/
def SysCall.on (fd : ℤ) : SysCall → Bool
  | .send socket _ => socket = fd
  | .close socket => socket = fd
  | .connect .. => false

/-- What is put on a descriptor is one CLOSE packet, and then it is closed once. -/
def SaysGoodbye (fd : ℕ) (p q : Child) : Prop :=
  ∃ calls before, q.os.trace = p.os.trace ++ calls ∧
    calls.filter (SysCall.on fd) = before ++ [.close fd] ∧ .close (fd : ℤ) ∉ before ∧
    sentOn fd before = closePacket

/-! ## Pools -/

theorem goodbyes_on {sockets : List ℕ} {fd : ℕ} (hnodup : sockets.Nodup) (hfd : fd ∈ sockets) :
    (goodbyes sockets).filter (SysCall.on fd) = [.send fd closePacket, .close fd] := by
  have hnone : ∀ others : List ℕ, fd ∉ others →
      (goodbyes others).filter (SysCall.on fd) = [] := by
    intro others hothers
    refine List.filter_eq_nil_iff.mpr fun call hcall => ?_
    obtain ⟨socket, hsocket, hcall⟩ := List.mem_flatMap.mp hcall
    have hne : (socket : ℤ) ≠ fd := by
      rintro heq
      exact hothers (Int.ofNat_inj.mp heq ▸ hsocket)
    rcases List.mem_pair.mp hcall with rfl | rfl
    · simpa [SysCall.on] using hne
    · simpa [SysCall.on] using hne
  induction sockets with
  | nil => cases hfd
  | cons socket sockets ih =>
      rw [List.nodup_cons] at hnodup
      have hcons : goodbyes (socket :: sockets) =
          [.send (socket : ℤ) closePacket, .close (socket : ℤ)] ++ goodbyes sockets := rfl
      rw [hcons, List.filter_append]
      rcases List.mem_cons.mp hfd with rfl | hmem
      · rw [hnone sockets hnodup.1]
        simp [SysCall.on]
      · have hne : (socket : ℤ) ≠ fd := by
          rintro heq
          exact hnodup.1 (Int.ofNat_inj.mp heq ▸ hmem)
        rw [ih hnodup.2 hmem]
        simp [SysCall.on, hne]

theorem saysGoodbye_of_goodbyes {p q : Child} {sockets : List ℕ} {fd : ℕ}
    (htrace : q.os.trace = p.os.trace ++ goodbyes sockets) (hnodup : sockets.Nodup)
    (hfd : fd ∈ sockets) : SaysGoodbye fd p q :=
  ⟨goodbyes sockets, [.send fd closePacket], htrace, goodbyes_on hnodup hfd, by simp,
    by simp [sentOn]⟩

theorem pooled_take (p : Child) :
    ((List.range p.config.srunSize).flatMap fun i => (p.config.srun i).sockets).Sublist
      p.config.pooled := by
  have hmap : (List.range p.config.srunSize).flatMap (fun i => (p.config.srun i).sockets) =
      (p.config.srunList.take p.config.srunSize).flatMap Srun.sockets := by
    rw [← srunList_take, List.flatMap_map]
  rw [hmap]
  exact (List.take_sublist _ _).flatMap _

theorem mem_pool {p : Child} {fd : ℕ} :
    fd ∈ (List.range p.config.srunSize).flatMap (fun i => (p.config.srun i).sockets) ↔
      ∃ i < p.config.srunSize, fd ∈ (p.config.srun i).sockets := by
  simp

theorem saysGoodbye_closeChild {p : Child} (hsends : p.os.sends = [])
    (hnodup : p.config.pooled.Nodup) {fd i : ℕ} (hi : i < p.config.srunSize)
    (hfd : fd ∈ (p.config.srun i).sockets) : SaysGoodbye fd p (cseCloseChild p) :=
  saysGoodbye_of_goodbyes (giveUpPools_trace id List.nodup_range hsends)
    (hnodup.sublist (pooled_take p)) (mem_pool.mpr ⟨i, hi, hfd⟩)

theorem saysGoodbye_closeSockets {p : Child} (hsends : p.os.sends = [])
    (hnodup : p.config.pooled.Nodup) {fd i : ℕ} (hi : i < p.config.srunSize)
    (hfd : fd ∈ (p.config.srun i).sockets) : SaysGoodbye fd p (cseCloseSockets p) := by
  have hperm :
      ((List.range p.config.srunSize).flatMap fun i => (p.config.srun i).sockets.reverse).Perm
        ((List.range p.config.srunSize).flatMap fun i => (p.config.srun i).sockets) :=
    List.Perm.flatMap_left _ fun j _ => List.reverse_perm _
  exact saysGoodbye_of_goodbyes (giveUpPools_trace List.reverse List.nodup_range hsends)
    (hperm.nodup_iff.mpr (hnodup.sublist (pooled_take p)))
    (hperm.mem_iff.mpr (mem_pool.mpr ⟨i, hi, hfd⟩))

theorem mem_srunList_of_pool {config : Config} {i fd : ℕ} (h : fd ∈ (config.srun i).sockets) :
    config.srun i ∈ config.srunList := by
  rw [Config.srun, List.getD_eq_getElem?_getD] at h ⊢
  cases hentry : config.srunList[i]? with
  | none =>
      rw [hentry] at h
      cases h
  | some srun => exact List.mem_of_getElem? hentry

theorem saysGoodbye_reuseSocket {p : Child} (hsends : p.os.sends = [])
    (hnodup : p.config.pooled.Nodup) {fd i : ℕ} {t : UInt32}
    (hfd : fd ∈ (p.config.srun i).sockets) (hstale : ¬ (p.config.srun i).Usable t) :
    SaysGoodbye fd p (cseReuseSocket i t p).2 := by
  have hpool : (p.config.srun i).sockets.Nodup :=
    (List.nodup_flatMap.mp hnodup).1 _ (mem_srunList_of_pool hfd)
  have hne : (p.config.srun i).sockets ≠ [] := List.ne_nil_of_mem hfd
  refine saysGoodbye_of_goodbyes ?_ hpool hfd
  rw [cseReuseSocket_of_not_usable hstale]
  simp only [if_neg hne, Child.emptyPool]
  rw [srun_settle, settle_sockets,
    drainPool_of_sends _ (show (p.settle i t).os.sends = [] from hsends)]
  rfl

/-! ## Streams -/

/-- A stream that is not stored is closed, and nothing is sent on it. -/
theorem recycle_calls {p : Child} (hempty : p.stream.writeBuf = []) (h : ¬ p.Recyclable) :
    (cseRecycle p).os.trace = p.os.trace ++ [.close p.stream.socket] := by
  have hnone : (p.stream.srun.filter fun i =>
      decide (0 ≤ p.stream.socket ∧ p.config.updateCount = p.stream.updateCount ∧
        (p.config.srun i).sockets.length < (p.config.srun i).maxSockets)) = none := by
    rw [Option.filter_eq_none_iff]
    intro i hi hdec
    exact h ⟨i, hi, of_decide_eq_true hdec⟩
  have hroom : p.conn.stream.writeLength + (header cseCloseCode 0).length ≤ bufLength := by
    simp [Child.conn, Stream.writeLength, hempty, bufLength]
  have hroom' : (p.conn.append (header cseCloseCode 0)).stream.writeLength +
      ([] : List Byte).length ≤ bufLength := by
    simp [Conn.append, Child.conn, Stream.writeLength, hempty, bufLength]
  unfold cseRecycle
  simp only [hnone]
  rw [cseWritePacket, packet_header]
  rw [List.length_nil, cseWrite_of_room hroom, cseWrite_of_room hroom']
  rfl

theorem not_saysGoodbye_recycle {p : Child} (hempty : p.stream.writeBuf = [])
    (h : ¬ p.Recyclable) (fd : ℕ) : ¬ SaysGoodbye fd p (cseRecycle p) := by
  rintro ⟨calls, before, htrace, hcalls, hclose, hsent⟩
  rw [recycle_calls hempty h] at htrace
  obtain rfl := List.append_cancel_left htrace
  have hnil : before = [] := by
    have hlen := congrArg List.length hcalls
    have hle := List.length_filter_le (SysCall.on fd) [.close p.stream.socket]
    simp only [List.length_append, List.length_singleton] at hlen hle
    exact List.eq_nil_of_length_eq_zero (by omega)
  rw [hnil] at hsent
  cases hsent

/-- Where sends succeed and nothing is left to be sent, a connection that is given up is
told so exactly if it is not `cse_recycle` that gives it up. -/
theorem saysGoodbye_iff (op : GivingUp) {p : Child} (hsends : p.os.sends = [])
    (hempty : p.stream.writeBuf = []) (hnodup : p.config.pooled.Nodup) {fd : ℕ}
    (hfd : op.GivesUp p fd) : SaysGoodbye fd p (op.exec p) ↔ op ≠ .recycle := by
  cases op with
  | recycle => exact iff_of_false (not_saysGoodbye_recycle hempty hfd.2 fd) (by simp)
  | reuseSocket i t =>
      exact iff_of_true (saysGoodbye_reuseSocket hsends hnodup hfd.1 hfd.2) (by simp)
  | closeSockets =>
      obtain ⟨i, hi, hmem⟩ := hfd
      exact iff_of_true (saysGoodbye_closeSockets hsends hnodup hi hmem) (by simp)
  | closeChild =>
      obtain ⟨i, hi, hmem⟩ := hfd
      exact iff_of_true (saysGoodbye_closeChild hsends hnodup hi hmem) (by simp)

/-- A child with one srun that has a full pool of one socket, and a stream to it on
descriptor 5. -/
def fullChild : Child where
  config := ⟨[{ Srun.zero with sockets := [4], maxSockets := 1 }], 1, 0, by decide, by decide,
    one_lt_sizes⟩
  stream := ⟨some 0, 0, 5, [], 0, 0, []⟩
  os := ⟨[], [], [], []⟩
  gCount := 0

theorem fullChild_not_recyclable : ¬ fullChild.Recyclable := by
  rintro ⟨i, hi, -, -, hroom⟩
  cases hi
  exact absurd hroom (by decide)

theorem saysGoodbye_iff_child :
    SaysGoodbye 4 fullChild (GivingUp.closeChild.exec fullChild) ↔
      GivingUp.closeChild ≠ .recycle :=
  saysGoodbye_iff .closeChild rfl rfl (by decide) ⟨0, by decide, by decide⟩

/-- The pool is full, and the connection is closed without a word. -/
theorem not_saysGoodbye_full :
    ¬ ∀ (op : GivingUp) (p : Child), p.os.sends = [] → p.stream.writeBuf = [] →
      p.config.pooled.Nodup → ∀ fd, op.GivesUp p fd → SaysGoodbye fd p (op.exec p) := by
  intro hclaim
  exact not_saysGoodbye_recycle rfl fullChild_not_recyclable 5
    (hclaim .recycle fullChild rfl rfl (by decide) 5 ⟨rfl, fullChild_not_recyclable⟩)

end ModCaucho

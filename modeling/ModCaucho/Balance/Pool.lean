import ModCaucho.Balance.Local

/-!
# Giving up the pools

`cse_close_sockets` and `cse_close_child` go over the table and give up every pooled
connection, as `cse_reuse_socket` does with the pool of one srun. They differ in the
order in which the sockets of one pool are closed. With sends that succeed the calls that
are made for a pool are a goodbye and a close for each of its sockets.
-/

namespace ModCaucho

/-- Gives up the pool of an srun, in some order of its sockets. -/
def giveUpPool (order : List ℕ → List ℕ) (p : Child) (i : ℕ) : Child :=
  { p with
    config := p.config.modifySrun i fun srun => { srun with sockets := [] }
    os := drainPool (order (p.config.srun i).sockets) p.os }

/-- `cse_close_sockets`. The sockets of a pool are closed from the bottom of the stack. -/
def cseCloseSockets (p : Child) : Child :=
  let p := (List.range p.config.srunSize).foldl (giveUpPool List.reverse) p
  { p with config := { p.config with
      srunSize := 0, size_le := Nat.zero_le _, size_lt := by decide } }

/-- `cse_close_child`. The sockets of a pool are closed from the top of the stack. -/
def cseCloseChild (p : Child) : Child :=
  (List.range p.config.srunSize).foldl (giveUpPool id) p

/-- `cse_open_child`. The pools of the parent process are forgotten. -/
def cseOpenChild (p : Child) : Child :=
  (List.range p.config.srunSize).foldl (fun p i =>
    { p with config := p.config.modifySrun i fun srun =>
      { srun with sockets := [], maxSockets := 32, isDead := false, lastTime := 0 } }) p

/-- All pooled descriptors. -/
def Config.pooled (config : Config) : List ℕ := config.srunList.flatMap Srun.sockets

/-- The calls that give up these sockets. -/
def goodbyes (sockets : List ℕ) : List SysCall :=
  sockets.flatMap fun socket : ℕ => [.send (socket : ℤ) closePacket, .close (socket : ℤ)]

theorem drainPool_of_sends (sockets : List ℕ) {os : Os} (h : os.sends = []) :
    drainPool sockets os = { os with trace := os.trace ++ goodbyes sockets } := by
  induction sockets generalizing os with
  | nil => simp [drainPool, goodbyes]
  | cons socket sockets ih =>
      have hopen : ¬ (socket : ℤ) < 0 := Int.not_lt.mpr (Int.natCast_nonneg socket)
      have hsend : os.send socket closePacket =
          ((closePacket.length : ℤ),
            { os with trace := os.trace ++ [.send (socket : ℤ) closePacket] }) := by
        simp only [Os.send, if_neg hopen, h]
      have hnext : ((os.send socket closePacket).2.close socket).sends = [] := by
        rw [hsend]
        exact h
      rw [drainPool, ih hnext, hsend]
      simp [Os.close, goodbyes]

theorem srun_giveUpPool (order : List ℕ → List ℕ) (p : Child) {i j : ℕ} (h : j ≠ i) :
    (giveUpPool order p i).config.srun j = p.config.srun j := by
  simp [giveUpPool, Config.srun, List.getD_eq_getElem?_getD, h.symm]

theorem giveUpPools_trace (order : List ℕ → List ℕ) {is : List ℕ} (hnodup : is.Nodup) {p : Child}
    (h : p.os.sends = []) :
    (is.foldl (giveUpPool order) p).os.trace =
      p.os.trace ++ goodbyes (is.flatMap fun i => order (p.config.srun i).sockets) := by
  induction is generalizing p with
  | nil => exact (List.append_nil _).symm
  | cons i is ih =>
      rw [List.nodup_cons] at hnodup
      have hone : (giveUpPool order p i).os =
          { p.os with trace := p.os.trace ++ goodbyes (order (p.config.srun i).sockets) } :=
        drainPool_of_sends _ h
      have hrest : (is.flatMap fun j => order ((giveUpPool order p i).config.srun j).sockets) =
          is.flatMap fun j => order (p.config.srun j).sockets := by
        refine List.flatMap_congr fun j hj => ?_
        rw [srun_giveUpPool order p (ne_of_mem_of_not_mem hj hnodup.1)]
      rw [List.foldl_cons, ih hnodup.2 (by rw [hone]; exact h), hrest, hone]
      simp [goodbyes]

theorem srunList_take (config : Config) :
    (List.range config.srunSize).map config.srun = config.srunList.take config.srunSize := by
  apply List.ext_getElem?
  intro k
  have hle := config.size_le
  by_cases hk : k < config.srunSize
  · have hlen : k < config.srunList.length := by omega
    rw [List.getElem?_map, List.getElem?_range hk, List.getElem?_take_of_lt hk,
      List.getElem?_eq_getElem hlen, Option.map_some, Config.srun,
      List.getD_eq_getElem?_getD, List.getElem?_eq_getElem hlen, Option.getD_some]
  · have hrange : (List.range config.srunSize).length ≤ k := by
      rw [List.length_range]
      omega
    rw [List.getElem?_map, List.getElem?_eq_none hrange,
      List.getElem?_take_eq_none (Nat.not_lt.mp hk), Option.map_none]

end ModCaucho

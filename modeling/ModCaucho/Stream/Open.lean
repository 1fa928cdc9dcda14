import ModCaucho.Stream.Basic

/-!
# Opening a stream

`cse_open` connects a stream to one srun of the table. What the network does
with an attempt to connect is a parameter: `Dial` gives the outcome for an srun
and for the `wait` flag of the attempt.
-/

namespace ModCaucho

/-- The outcome of each attempt to connect that one call may make, by the index
of the srun and the `wait` flag of `cse_open`. -/
abbrev Dial := ℕ → Bool → ConnectResult

/-- The network when every runner answers on descriptor 3. -/
def answering : Dial := fun _ _ => .connected 3

/-- What the functions of `stream.c` work on: the configuration, the stream of
the request, the operating system and the static `g_count`. -/
structure Child where
  config : Config
  stream : Stream
  os : Os
  gCount : Int32
deriving DecidableEq, Repr

/-- `config->srun_list[i]` -/
def Config.srun (config : Config) (i : ℕ) : Srun := config.srunList.getD i .zero

/-- Assigns to fields of `config->srun_list[i]`. -/
def Config.modifySrun (config : Config) (i : ℕ) (f : Srun → Srun) : Config :=
  { config with
    srunList := config.srunList.modify i f
    capacity_pos := by simpa using config.capacity_pos
    size_le := by simpa using config.size_le }

/-- The socket part that `cse_connect` and `cse_connect_wait` share: a socket
that does not connect is closed again. -/
def connectSocket (result : ConnectResult) (os : Os) : ℤ × Os :=
  match result with
  | .noSocket => (-1, os)
  | .connected socket => (socket, os)
  | .refused socket => (-1, os.close socket)

/-- `cse_connect`. The socket has `connect_timeout` seconds to connect. -/
def cseConnect (result : ConnectResult) (os : Os) : ℤ × Os := connectSocket result os

/-- `cse_connect_wait`. The connect blocks. -/
def cseConnectWait (result : ConnectResult) (os : Os) : ℤ × Os := connectSocket result os

/-- A stream as `cse_open` and `cse_open_connection` clear it. -/
def Stream.clear (s : Stream) (srun : Option ℕ) : Stream :=
  { s with
    srun := srun, updateCount := 0, socket := -1
    readOffset := 0, readLength := 0, writeBuf := [] }

/-- `cse_open` -/
def cseOpen (dial : Dial) (i : ℕ) (wait : Bool) (p : Child) : Bool × Child :=
  let stream := p.stream.clear (some i)
  let config := p.config.modifySrun i fun srun =>
    if srun.port ≤ 0 then { srun with port := defaultPort } else srun
  let result := dial i wait
  let os := { p.os with trace := p.os.trace ++ [.connect i wait result] }
  let (socket, os) :=
    if wait ∨ (config.srun i).connectTimeout ≤ 0 then cseConnectWait result os
    else cseConnect result os
  (decide (socket ≥ 0),
    { p with config := config, stream := { stream with socket := socket }, os := os })

/-- The stream of a child as a connection of its own. -/
def Child.conn (p : Child) : Conn := ⟨p.stream, p.os⟩

theorem connectSocket_sends (result : ConnectResult) (os : Os) :
    (connectSocket result os).2.sends = os.sends := by
  cases result <;> rfl

theorem connectSocket_nonneg_iff (result : ConnectResult) (os : Os) :
    0 ≤ (connectSocket result os).1 ↔ ∃ fd, result = .connected fd := by
  cases result <;> simp [connectSocket]

/-- The two ways to connect differ in how long they block, not in what comes of
it. -/
theorem cseOpen_eq (dial : Dial) (i : ℕ) (wait : Bool) (p : Child) :
    cseOpen dial i wait p =
      let (socket, os) := connectSocket (dial i wait)
        { p.os with trace := p.os.trace ++ [.connect i wait (dial i wait)] }
      (decide (socket ≥ 0),
        { p with
          config := p.config.modifySrun i fun srun =>
            if srun.port ≤ 0 then { srun with port := defaultPort } else srun
          stream := { p.stream.clear (some i) with socket := socket }
          os := os }) := by
  simp only [cseOpen, cseConnectWait, cseConnect, ite_self]

/-- `cse_open` succeeds exactly when the attempt connects. -/
theorem cseOpen_fst (dial : Dial) (i : ℕ) (wait : Bool) (p : Child) :
    (cseOpen dial i wait p).1 = true ↔ ∃ fd, dial i wait = .connected fd := by
  rw [cseOpen_eq]
  simp [connectSocket_nonneg_iff]

end ModCaucho

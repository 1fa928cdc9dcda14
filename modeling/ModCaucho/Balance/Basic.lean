import ModCaucho.Lib.Scan
import ModCaucho.Stream.Open

/-!
# Choosing a servlet runner

`open_connection` and the functions it calls. The three passes over the table
are scans of one list, the probe order, with three different tests. The integers
of the probe arithmetic are the 32-bit integers of C.
-/

namespace ModCaucho

open Scan

/-! ## The start of the probe order -/

/-- `random_host`. A `char` is signed. -/
def randomHost (ip : List Byte) (requestTime rand gCount : Int32) : Int32 :=
  let host := requestTime * 23 + gCount
  let host := 23 * host + rand
  let host := ip.foldl (fun host ch => 23 * host + ch.toInt8.toInt32) host
  if host < 0 then -host else host

/-- The host that a request without a known session starts at. -/
def drawHost (size : ℕ) (ip : List Byte) (requestTime : UInt32) (rand : Int32) (p : Child) :
    Int32 × Child :=
  (randomHost ip requestTime.toInt32 rand p.gCount % Int32.ofNat size,
    { p with gCount := p.gCount + 1 })

/-- The first of the first `size` sruns with this session, or `size`. -/
def sessionHost (config : Config) (size : ℕ) (sessionIndex : ℤ) : ℕ :=
  ((List.range size).find? fun host => (config.srun host).session = sessionIndex).getD size

/-- The value of `host` at which the three passes of `open_connection` start. -/
def startHost (size : ℕ) (sessionIndex : ℤ) (ip : List Byte) (requestTime : UInt32)
    (rand : Int32) (p : Child) : Int32 × Child :=
  let (host, p) :=
    if sessionIndex < 0 then drawHost size ip requestTime rand p
    else
      let host := sessionHost p.config size sessionIndex
      if host = size then drawHost size ip requestTime rand p
      else (Int32.ofNat host, p)
  (if host < 0 then -host else host, p)

/-- The index `(host + i * (incr + size)) % size` of the table. -/
def probe (host incr size : Int32) (i : ℕ) : ℕ :=
  ((host + Int32.ofNat i * (incr + size)) % size).toInt.toNat

/-- The indices that each pass goes through, in order. -/
def probeOrder (host : Int32) (size : ℕ) : List ℕ :=
  let incr := 2 * (host &&& 1) - 1
  (List.range size).map (probe host incr (Int32.ofNat size))

/-! ## The pool of one srun -/

/-- `cse_reuse` -/
def cseReuse (i : ℕ) (requestTime : UInt32) (p : Child) : Child :=
  let srun := p.config.srun i
  { p with
    stream := { p.stream with
      writeBuf := [], readLength := 0, readOffset := 0
      socket := srun.sockets.headD 0
      updateCount := p.config.updateCount
      srun := some i }
    config := p.config.modifySrun i fun srun =>
      { srun with sockets := srun.sockets.tail, isDead := false, lastTime := requestTime } }

/-- The `CLOSE` packet `"X\0\0\0"` that a pooled connection is given up with. -/
def closePacket : List Byte := [cseCloseCode, 0, 0, 0]

/-- Says goodbye on the sockets of a pool and closes them. -/
def drainPool : List ℕ → Os → Os
  | [], os => os
  | socket :: sockets, os =>
      drainPool sockets ((os.send socket closePacket).2.close socket)

/-- `cse_reuse_socket` -/
def cseReuseSocket (i : ℕ) (requestTime : UInt32) (p : Child) : Bool × Child :=
  let p := { p with config := p.config.modifySrun i fun srun =>
    if requestTime < srun.lastTime then { srun with lastTime := requestTime } else srun }
  let srun := p.config.srun i
  if srun.sockets.length > 0 ∧ srun.lastTime + UInt32.ofNat srun.liveTime ≥ requestTime then
    (true, cseReuse i requestTime p)
  else if srun.sockets.length > 0 then
    (false, { p with
      config := p.config.modifySrun i fun srun => { srun with sockets := [] }
      os := drainPool srun.sockets p.os })
  else (false, p)

/-! ## The three passes -/

/-- The stream is connected to the srun, which is thereby alive. -/
def Child.use (p : Child) (i : ℕ) (requestTime : UInt32) : Child :=
  { p with
    stream := { p.stream with srun := some i }
    config := p.config.modifySrun i fun srun =>
      { srun with isDead := false, lastTime := requestTime } }

/-- The body of the first pass: a primary with a socket to reuse. -/
def tryReuse (requestTime : UInt32) (i : ℕ) (p : Child) : Bool × Child :=
  if (p.config.srun i).isBackup then (false, p)
  else cseReuseSocket i requestTime p

/-- The body of the second pass: an srun that is not known to be dead. -/
def tryLive (dial : Dial) (sessionIndex : ℤ) (requestTime : UInt32) (i : ℕ) (p : Child) :
    Bool × Child :=
  if sessionIndex < 0 ∧ (p.config.srun i).isBackup then (false, p)
  else
    let (reused, p) := cseReuseSocket i requestTime p
    let srun := p.config.srun i
    if reused then (true, p)
    else if srun.isDead ∧ srun.lastTime + UInt32.ofNat srun.deadTime ≥ requestTime then
      (false, p)
    else
      let (opened, p) := cseOpen dial i false p
      if opened then (true, p.use i requestTime) else (false, p)

/-- The body of the third pass: any srun at all. -/
def tryAny (dial : Dial) (requestTime : UInt32) (i : ℕ) (p : Child) : Bool × Child :=
  let (reused, p) := cseReuseSocket i requestTime p
  if reused then (true, p)
  else
    let (opened, p) := cseOpen dial i true p
    if opened then (true, p.use i requestTime)
    else
      (false, { p with config := p.config.modifySrun i fun srun =>
        { srun with isDead := true, lastTime := requestTime } })

/-- The passes of `open_connection` over a probe order. -/
def passes (dial : Dial) (sessionIndex : ℤ) (requestTime : UInt32) (order : List ℕ)
    (p : Child) : Bool × Child :=
  let (found, p) :=
    if sessionIndex < 0 then scan (tryReuse requestTime) order p else (false, p)
  if found then (true, p)
  else
    let (found, p) := scan (tryLive dial sessionIndex requestTime) order p
    if found then (true, p)
    else scan (tryAny dial requestTime) order p

/-- The local `size` of `open_connection`. -/
def Config.probeSize (config : Config) : ℕ := if config.srunSize < 1 then 1 else config.srunSize

/-- `open_connection` -/
def openConnection (dial : Dial) (sessionIndex : ℤ) (ip : List Byte) (requestTime : UInt32)
    (rand : Int32) (p : Child) : Bool × Child :=
  let size := p.config.probeSize
  let (host, p) := startHost size sessionIndex ip requestTime rand p
  passes dial sessionIndex requestTime (probeOrder host size) p

/-- `cse_open_connection` -/
def cseOpenConnection (dial : Dial) (sessionIndex : ℤ) (ip : List Byte)
    (requestTime : UInt32) (rand : Int32) (p : Child) : Bool × Child :=
  openConnection dial sessionIndex ip requestTime rand { p with stream := p.stream.clear none }

end ModCaucho

import Mathlib.Algebra.GroupWithZero.Nat
import Mathlib.Data.Int.Notation
import Mathlib.Data.List.Basic
import Mathlib.Tactic.Common

/-!
# The data model of the plugin

The structures of `cse.h`, and the operating-system side of a socket. A
`stream_t` keeps its two buffers as the lists of the bytes that count: `readBuf`
is what the last successful `recv` stored and `writeBuf` is the first
`write_length` bytes of `write_buf`. The operating system is a script of the
results that the next `recv` and `send` calls have, together with the trace of
the calls made so far.
-/

namespace ModCaucho

/-- A byte on the wire. -/
abbrev Byte := UInt8

/-- A string of the configuration, without its final NUL. -/
abbrev Text := List Char

/-- `BUF_LENGTH` -/
def bufLength : ℕ := 8192

/-- `DEFAULT_PORT` -/
def defaultPort : ℤ := 6802

/-! ## Packet codes -/

def cseProtocol : Byte := 99
def cseMethod : Byte := 100
def cseQueryString : Byte := 101
def cseServerName : Byte := 102
def cseServerPort : Byte := 103
def cseRemoteHost : Byte := 104
def cseRemoteAddr : Byte := 105
def cseRemotePort : Byte := 106
def cseRemoteUser : Byte := 109
def cseAuthType : Byte := 110
def cseUri : Byte := 111
def cseContentLength : Byte := 112
def cseContentType : Byte := 113
def cseIsSecure : Byte := 114
def cseSessionGroup : Byte := 115
def cseHeader : Byte := 72
def cseValue : Byte := 86
def cseStatus : Byte := 83
def cseSendHeader : Byte := 71
def cseAck : Byte := 65
def cseData : Byte := 68
def cseFlushCode : Byte := 70
def cseKeepalive : Byte := 75
def cseEnd : Byte := 90
def cseCloseCode : Byte := 88

/-! ## Servlet runners and configuration -/

/-- `srun_t`, one servlet runner. The pool `sockets` lists the descriptors of
`sockets[0 .. n_sockets)` with the one on top of the stack first. `session` is
only ever set to an index of the table, and the two times are at least zero
wherever they are set. -/
structure Srun where
  hostname : Option Text
  host : Option UInt32
  port : ℤ
  isBackup : Bool
  session : ℕ
  isDead : Bool
  lastTime : UInt32
  sockets : List ℕ
  maxSockets : ℕ
  isDefault : Bool
  connectTimeout : ℤ
  liveTime : ℕ
  deadTime : ℕ
deriving DecidableEq, Repr

/-- An entry of freshly cleared memory. -/
def Srun.zero : Srun where
  hostname := none
  host := none
  port := 0
  isBackup := false
  session := 0
  isDead := false
  lastTime := 0
  sockets := []
  maxSockets := 0
  isDefault := false
  connectTimeout := 0
  liveTime := 0
  deadTime := 0

/-- The part of `config_t` that the load balancer uses. `srunList` is the whole
block behind `srun_list`, so its length is `srun_capacity`. -/
structure Config where
  srunList : List Srun
  srunSize : ℕ
  updateCount : ℤ
  capacity_pos : 0 < srunList.length
  size_le : srunSize ≤ srunList.length
  size_lt : srunSize < 2 ^ 31
deriving DecidableEq, Repr

theorem one_lt_sizes : 1 < 2 ^ 31 := by decide

/-! ## Sockets -/

/-- What one successful `recv` delivers: at least one byte and at most the
`BUF_LENGTH` bytes that the plugin asks for. A block of a request body obeys the
same bounds. -/
structure Chunk where
  bytes : List Byte
  ne_nil : bytes ≠ []
  length_le : bytes.length ≤ bufLength
deriving DecidableEq, Repr

theorem Chunk.length_pos (c : Chunk) : 0 < c.bytes.length :=
  List.length_pos_iff.mpr c.ne_nil

/-- What one `recv` call does: bytes arrive, the peer has closed the connection
(`recv` returns 0), or the call fails (it returns -1). -/
inductive RecvResult
  | data (chunk : Chunk)
  | closed
  | failed
deriving DecidableEq, Repr

/-- What one `send` call does: it accepts up to `n` of its bytes, or it fails. -/
inductive SendResult
  | accepts (n : ℕ)
  | failed
deriving DecidableEq, Repr

/-- What becomes of one attempt to connect: no socket is to be had, the socket
connects, or the connect fails or times out. -/
inductive ConnectResult
  | noSocket
  | connected (socket : ℕ)
  | refused (socket : ℕ)
deriving DecidableEq, Repr

/-- A system call that the plugin made. -/
inductive SysCall
  /-- `send` accepted these bytes on a descriptor. -/
  | send (socket : ℤ) (accepted : List Byte)
  | close (socket : ℤ)
  /-- `cse_open` tried to connect to an srun of the table. -/
  | connect (srun : ℕ) (wait : Bool) (result : ConnectResult)
deriving DecidableEq, Repr

/-- The operating system: the results of the next `recv` and `send` calls, and
the trace of the calls made. With an exhausted script `recv` finds the
connection closed and `send` accepts everything. `waits` is kept for the record:
for each `recv`, the bytes that the stream had not sent when it was called. -/
structure Os where
  recvs : List RecvResult
  sends : List SendResult
  trace : List SysCall
  waits : List (List Byte)
deriving DecidableEq, Repr

/-- The bytes that a trace put on one socket. -/
def sentOn (socket : ℤ) : List SysCall → List Byte
  | [] => []
  | .send fd bytes :: trace =>
      if fd = socket then bytes ++ sentOn socket trace else sentOn socket trace
  | _ :: trace => sentOn socket trace

@[simp] theorem sentOn_append (socket : ℤ) (t t' : List SysCall) :
    sentOn socket (t ++ t') = sentOn socket t ++ sentOn socket t' := by
  induction t with
  | nil => rfl
  | cons call t ih =>
      cases call with
      | send fd bytes =>
          by_cases h : fd = socket <;> simp [sentOn, h, ih]
      | close fd => simpa [sentOn] using ih
      | connect srun wait result => simpa [sentOn] using ih

/-- `send`. On a closed descriptor the call fails. -/
def Os.send (os : Os) (socket : ℤ) (bytes : List Byte) : ℤ × Os :=
  if socket < 0 then (-1, os)
  else
    match os.sends with
    | [] => (bytes.length, { os with trace := os.trace ++ [.send socket bytes] })
    | .accepts n :: sends =>
        ((bytes.take n).length,
          { os with sends := sends, trace := os.trace ++ [.send socket (bytes.take n)] })
    | .failed :: sends => (-1, { os with sends := sends })

/-- `closesocket`. -/
def Os.close (os : Os) (socket : ℤ) : Os :=
  { os with trace := os.trace ++ [.close socket] }

/-! ## Streams -/

/-- `stream_t`. `srun` is the index of the srun that the stream is connected
to. -/
structure Stream where
  srun : Option ℕ
  updateCount : ℤ
  socket : ℤ
  readBuf : List Byte
  readOffset : ℕ
  readLength : ℤ
  writeBuf : List Byte
deriving DecidableEq, Repr

/-- `write_length` -/
def Stream.writeLength (s : Stream) : ℕ := s.writeBuf.length

/-- A stream with the operating system behind its socket. -/
structure Conn where
  stream : Stream
  os : Os
deriving DecidableEq, Repr

end ModCaucho
